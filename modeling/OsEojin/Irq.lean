import OsEojin.AtaPio
import OsEojin.Interrupt
import OsEojin.Lib.Runs
import Mathlib.Tactic.IntervalCases

/-!
# Hardware interrupts

`pic_remap` of `src/kernel/pic.c`, `init_timer` of `src/drivers/timer.c`, what `main` writes to the ports of the
interrupt controllers, and the acknowledgements of `isr_handler`, against the two 8259 chips and the 8254 timer.

* `picRemap`, `mainPorts`, `initTimer`, `acknowledgePorts`: the code, as programs of port instructions;
* `Chip`, `Pair`: a controller and the cascade of two; `Pair.acknowledge`: which vector the processor gets;
* `Machine`, `Event`, `step`: devices raise lines, the processor takes interrupts, traps and returns;
* `Timer`: channel 0 of the timer;
* `irqs_delivered`: no request is lost, none is invented, and none blocks another after its handler;
* `timer_period_iff`: for which frequencies the timer does what it is asked.
-/

namespace OsEojin.Irq

open OsEojin.Lib.Programs OsEojin.Lib.Programs.Program OsEojin.Lib.Runs OsEojin.AtaPio
open OsEojin.Ata (text)
open OsEojin.Interrupt (Vector)

/-! ### The code -/

def pic1Command : ℕ := 0x20

def pic1Data : ℕ := 0x21

def pic2Command : ℕ := 0xA0

def pic2Data : ℕ := 0xA1

def icw1Init : UInt8 := 0x11

def icw48086 : UInt8 := 0x01

/-- `pic_remap`; the masks it reads are not used. -/
def picRemap : Driver Unit := do
  let _a1 ← inb pic1Data
  let _a2 ← inb pic2Data
  outb pic1Command icw1Init
  outb pic2Command icw1Init
  outb pic1Data 0x20
  outb pic2Data 0x28
  outb pic1Data 0x04
  outb pic2Data 0x02
  outb pic1Data icw48086
  outb pic2Data icw48086
  outb pic1Data 0xff
  outb pic2Data 0xff

/-- `main` before `init_gdt`. -/
def remapPorts : Driver Unit := do
  outb 0x20 0x11
  picRemap

/-- `main` before `sti`. -/
def unmaskPorts : Driver Unit := outb 0x21 0xfc

/-- What `isr_handler` sends to the controllers for an interrupt number. -/
def acknowledgePorts (intNo : UInt8) : Driver Unit :=
  if intNo = 32 then outb 0x20 0x20
  else if intNo = 33 then outb 0x20 0x20
  else pure ()

/-- `isr_handler` stops in `hlt` with interrupts disabled. -/
def halts (intNo : UInt8) : Bool := intNo = 8 ∨ intNo = 13 ∨ intNo = 14

/-! ### The controllers -/

/-- Which word a controller takes its next data byte for. -/
inductive Expects where
  | mask | icw2 | icw3 | icw4
  deriving DecidableEq, Repr

/-- An 8259. `irr` are the requests it has latched, `isr` those in service. -/
structure Chip where
  expects : Expects
  single : Bool
  needsIcw4 : Bool
  base : UInt8
  cascade : UInt8
  icw4 : UInt8
  imr : UInt8
  irr : ℕ → Bool
  isr : ℕ → Bool

namespace Chip

variable (c : Chip)

/-- The end of the highest interrupt in service, the lowest line. -/
def endOfInterrupt : Chip :=
  match (List.range 8).find? c.isr with
  | none => c
  | some n => { c with isr := Function.update c.isr n false }

/-- A write to the command port: ICW1, or OCW2 with a non-specific end of interrupt.  The rotations and OCW3, which
the kernel does not use, are left out. -/
def command (v : UInt8) : Chip :=
  if v &&& 0x10 ≠ 0 then
    { c with
      expects := .icw2, single := v &&& 0x02 ≠ 0, needsIcw4 := v &&& 0x01 ≠ 0, icw4 := 0, imr := 0,
      irr := fun _ => false, isr := fun _ => false }
  else if v = 0x20 then c.endOfInterrupt
  else c

/-- A write to the data port. -/
def data (v : UInt8) : Chip :=
  match c.expects with
  | .mask => { c with imr := v }
  | .icw2 =>
    { c with base := v &&& 0xf8, expects := if c.single then (if c.needsIcw4 then .icw4 else .mask) else .icw3 }
  | .icw3 => { c with cascade := v, expects := if c.needsIcw4 then .icw4 else .mask }
  | .icw4 => { c with icw4 := v, expects := .mask }

def masked (n : ℕ) : Bool := c.imr.toNat.testBit n

/-- The line the chip asks the processor to serve: requested, not masked, and above all lines in service. -/
def request : Option ℕ :=
  if c.expects = .mask then
    (List.range 8).find? fun n => c.irr n && !c.masked n && (List.range 8).all fun m => decide (n < m) || !c.isr m
  else none

/-- The processor has acknowledged line `n`; with automatic ends nothing is in service then. -/
def serve (n : ℕ) : Chip :=
  { c with
    irr := Function.update c.irr n false
    isr := if c.icw4 &&& 0x02 ≠ 0 then c.isr else Function.update c.isr n true }

end Chip

/-- The two controllers; the second one's request is line 2 of the first. -/
structure Pair where
  master : Chip
  slave : Chip

namespace Pair

variable (p : Pair)

/-- The master with the wire from the slave. -/
def wired : Chip := { p.master with irr := Function.update p.master.irr 2 p.slave.request.isSome }

/-- The acknowledgement of the processor: the vector it gets, or no request is there. -/
def acknowledge : Option (UInt8 × Pair) :=
  match p.wired.request with
  | none => none
  | some n =>
    match p.slave.request with
    | some k =>
      if n = 2 ∧ p.master.cascade = 0x04 ∧ p.slave.cascade = 0x02 then
        some (p.slave.base + UInt8.ofNat k, ⟨p.master.serve 2, p.slave.serve k⟩)
      else some (p.master.base + UInt8.ofNat n, { p with master := p.master.serve n })
    | none => some (p.master.base + UInt8.ofNat n, { p with master := p.master.serve n })

/-- A device pulls line `n`: lines 8 to 15 are those of the slave. -/
def raise (n : ℕ) : Pair :=
  if n < 8 then { p with master := { p.master with irr := Function.update p.master.irr n true } }
  else { p with slave := { p.slave with irr := Function.update p.slave.irr (n - 8) true } }

end Pair

/-- The port instructions of the controllers; other ports are other devices. -/
def pic : (o : PortOp) → Pair → Option (o.Res × Pair)
  | .inb port, p => some (if port = pic1Data then p.master.imr else if port = pic2Data then p.slave.imr else 0, p)
  | .outb port v, p =>
    if port = pic1Command then some ((), { p with master := p.master.command v })
    else if port = pic1Data then some ((), { p with master := p.master.data v })
    else if port = pic2Command then some ((), { p with slave := p.slave.command v })
    else if port = pic2Data then some ((), { p with slave := p.slave.data v })
    else some ((), p)
  | .inw _, p => some (0, p)
  | .outw _ _, p => some ((), p)
  | .kprint _, p => some ((), p)

/-- The controllers after driver code. -/
def after (code : Driver Unit) (p : Pair) : Pair := ((run pic code p).map (·.2)).getD p

/-! ### The machine -/

/-- Before `sti`; with interrupts enabled; in the handler of an interrupt. -/
inductive Mode where
  | booting
  | running
  | handling (v : UInt8)
  deriving DecidableEq, Repr

structure Machine where
  pair : Pair
  mode : Mode

/-- A device raises a line; `main` unmasks two lines and enables interrupts; the processor takes an interrupt from
the controllers; a trap, that is an `int` instruction or a fault; the handler returns. -/
inductive Event where
  | raise (n : Fin 16)
  | start
  | accept
  | trap (v : UInt8)
  | leave

/-- The vector the processor would take now. -/
def Machine.vector (m : Machine) : Option UInt8 :=
  match m.mode with
  | .running => m.pair.acknowledge.map (·.1)
  | _ => none

/-- One event.  The end of the interrupt is sent with `leave`, at the handler's return; `isr.c` sends it before it
calls `schedule`, and interrupts stay off until that return. -/
def step (m : Machine) : Event → Machine
  | .raise n => { m with pair := m.pair.raise n }
  | .start =>
    match m.mode with
    | .booting => ⟨after unmaskPorts m.pair, .running⟩
    | _ => m
  | .accept =>
    match m.mode, m.pair.acknowledge with
    | .running, some (v, p) => ⟨p, .handling v⟩
    | _, _ => m
  | .trap v =>
    match m.mode with
    | .running => { m with mode := .handling v }
    | _ => m
  | .leave =>
    match m.mode with
    | .handling v => if halts v then m else ⟨after (acknowledgePorts v) m.pair, .running⟩
    | _ => m

/-- The controllers were in whatever state the firmware left. -/
def boot (p : Pair) : Machine := ⟨after remapPorts p, .booting⟩

/-- The numbers of the hardware interrupts are not raised by an instruction: their gates are closed to ring 3, and
the kernel has no such instruction. -/
def Allowed (_ : Machine) : Event → Prop
  | .trap v => v ≠ 32 ∧ v ≠ 33
  | _ => True

/-- The lines raised since they were last taken: `owed n`. -/
def note (owed : ℕ → Bool) (m : Machine) : Event → ℕ → Bool
  | .raise n => Function.update owed n true
  | .accept =>
    match m.vector with
    | some v => fun n => owed n && !(32 + n == v.toNat)
    | none => owed
  | _ => owed

/-- The account of a run. -/
def ledger (p : Pair) (es : List Event) : ℕ → Bool := trace step note (boot p) (fun _ => false) es

/-! ### The timer -/

/-- `init_timer`.  A division by zero is a fault whose handler returns to the division. -/
def initTimer (freq : UInt32) : Driver Unit :=
  if freq = 0 then .hang
  else do
    let divisor := 1193180 / freq
    let low := (divisor &&& 0xff).toUInt8
    let high := ((divisor >>> 8) &&& 0xff).toUInt8
    outb 0x43 0x36
    outb 0x40 low
    outb 0x40 high
    kprint (text "Timer initialized.\n")

/-- Which bytes of a count are written. -/
inductive Access where
  | low | high | both
  deriving DecidableEq, Repr

/-- Channel 0 of the 8254; `half` is the low byte of a count whose high byte is to come. -/
structure Timer where
  access : Access
  mode : ℕ
  bcd : Bool
  half : Option UInt8
  reload : ℕ

namespace Timer

variable (t : Timer)

/-- A control word, for channel 0 and not a latch command. -/
def control (v : UInt8) : Timer :=
  let rw := v.toNat / 16 % 4
  if v.toNat / 64 = 0 ∧ rw ≠ 0 then
    { t with
      access := if rw = 1 then .low else if rw = 2 then .high else .both, mode := v.toNat / 2 % 8,
      bcd := v.toNat % 2 = 1, half := none }
  else t

/-- A byte of the count. -/
def count (v : UInt8) : Timer :=
  match t.access, t.half with
  | .low, _ => { t with reload := v.toNat }
  | .high, _ => { t with reload := 256 * v.toNat }
  | .both, none => { t with half := some v }
  | .both, some low => { t with reload := low.toNat + 256 * v.toNat, half := none }

/-- The input clocks from one interrupt to the next, of a binary count in mode 3: a count of zero is the largest
one, and there is no count of one in this mode. -/
def period : Option ℕ :=
  if t.reload = 0 then some 65536 else if t.reload = 1 then none else some t.reload

end Timer

/-- The port instructions of the timer. -/
def pit : (o : PortOp) → Timer → Option (o.Res × Timer)
  | .outb port v, t => some ((), if port = 0x43 then t.control v else if port = 0x40 then t.count v else t)
  | .inb _, t => some (0, t)
  | .inw _, t => some (0, t)
  | .outw _ _, t => some ((), t)
  | .kprint _, t => some ((), t)

/-! ### Programming the controllers -/

/-- The state `main` leaves a chip in: it takes masks, serves in the normal way and has nothing in service. -/
structure Chip.Programmed (c : Chip) (base cascade imr : UInt8) : Prop where
  expects : c.expects = .mask
  base : c.base = base
  cascade : c.cascade = cascade
  icw4 : c.icw4 = 1
  imr : c.imr = imr

/-- **The controllers after `pic_remap`**, whatever they were doing before. -/
theorem remap_spec (p : Pair) :
    (after remapPorts p).master.Programmed 0x20 0x04 0xff ∧ (after remapPorts p).slave.Programmed 0x28 0x02 0xff ∧
      (∀ n, (after remapPorts p).master.irr n = false ∧ (after remapPorts p).master.isr n = false) ∧
      ∀ n, (after remapPorts p).slave.irr n = false ∧ (after remapPorts p).slave.isr n = false := by
  refine ⟨⟨rfl, rfl, rfl, rfl, rfl⟩, ⟨rfl, rfl, rfl, rfl, rfl⟩, fun n => ⟨rfl, rfl⟩, fun n => ⟨rfl, rfl⟩⟩

theorem masked_all {c : Chip} (h : c.imr = 0xff) {n : ℕ} (hn : n < 8) : c.masked n = true := by
  rw [Chip.masked, h]
  interval_cases n <;> rfl

theorem masked_upper {c : Chip} (h : c.imr = 0xfc) {n : ℕ} (hn : n < 8) : c.masked n = decide (2 ≤ n) := by
  rw [Chip.masked, h]
  interval_cases n <;> rfl

/-- A chip whose lines are all masked asks for nothing. -/
theorem request_of_masked {c : Chip} (h : c.imr = 0xff) : c.request = none := by
  rw [Chip.request]
  split
  · apply List.find?_eq_none.mpr
    intro n hn
    simp [masked_all h (List.mem_range.mp hn)]
  · rfl

/-- With two lines open and nothing in service, the first one raised is served. -/
theorem request_of_open {c : Chip} (hexpects : c.expects = .mask) (himr : c.imr = 0xfc) (hidle : ∀ n, c.isr n = false) :
    c.request = if c.irr 0 then some 0 else if c.irr 1 then some 1 else none := by
  have hrange : List.range 8 = [0, 1, 2, 3, 4, 5, 6, 7] := rfl
  have h0 : c.masked 0 = false := masked_upper himr (by decide)
  have h1 : c.masked 1 = false := masked_upper himr (by decide)
  have hupper : ∀ n, 2 ≤ n → n < 8 → c.masked n = true := by
    intro n hn hn'
    rw [masked_upper himr hn']
    exact decide_eq_true hn
  rw [Chip.request, if_pos hexpects]
  simp only [hrange, List.find?_cons, List.find?_nil, h0, h1, hupper 2 (by decide) (by decide),
    hupper 3 (by decide) (by decide), hupper 4 (by decide) (by decide), hupper 5 (by decide) (by decide),
    hupper 6 (by decide) (by decide), hupper 7 (by decide) (by decide)]
  cases c.irr 0 <;> cases c.irr 1 <;> simp [hidle]

/-- The ledger and the controllers agree, and what is in service is what is being handled. -/
structure IrqOk (owed : ℕ → Bool) (m : Machine) : Prop where
  master : m.pair.master.Programmed 0x20 0x04 (if m.mode = .booting then 0xff else 0xfc)
  slave : m.pair.slave.Programmed 0x28 0x02 0xff
  first : ∀ n, n < 8 → m.pair.master.irr n = owed n
  second : ∀ n, n < 8 → m.pair.slave.irr n = owed (n + 8)
  service : ∀ n, m.pair.master.isr n = true ↔ ∃ v, m.mode = .handling v ∧ (v = 32 ∧ n = 0 ∨ v = 33 ∧ n = 1)

theorem irqOk_boot (p : Pair) : IrqOk (fun _ => false) (boot p) := by
  obtain ⟨hmaster, hslave, hfirst, hsecond⟩ := remap_spec p
  refine ⟨hmaster, hslave, fun n _ => (hfirst n).1, fun n _ => (hsecond n).1, ?_⟩
  intro n
  constructor
  · intro hn
    exact absurd hn (by rw [show (boot p).pair = after remapPorts p from rfl, (hfirst n).2]; decide)
  · rintro ⟨v, hv, -⟩
    cases hv

section Steps

variable {owed : ℕ → Bool} {m : Machine} (h : IrqOk owed m)
include h

/-- Nothing is in service while interrupts are enabled. -/
theorem IrqOk.idle (hrun : ∀ v, m.mode ≠ .handling v) (n : ℕ) : m.pair.master.isr n = false := by
  cases hn : m.pair.master.isr n with
  | false => rfl
  | true =>
    obtain ⟨v, hv, -⟩ := (h.service n).mp hn
    exact absurd hv (hrun v)

/-- **What the processor gets**, with interrupts enabled: the timer before the keyboard, and nothing else. -/
theorem IrqOk.acknowledge (hrun : m.mode = .running) : m.pair.acknowledge
    = if owed 0 then some (32, { m.pair with master := m.pair.master.serve 0 })
      else if owed 1 then some (33, { m.pair with master := m.pair.master.serve 1 }) else none := by
  have hslave : m.pair.slave.request = none := request_of_masked h.slave.imr
  have hidle : ∀ n, m.pair.wired.isr n = false := h.idle (by rw [hrun]; intro v hv; cases hv)
  have himr : m.pair.wired.imr = 0xfc := by
    rw [Pair.wired, h.master.imr, hrun]
    rfl
  have hready : m.pair.wired.expects = .mask := h.master.expects
  have h0 : m.pair.wired.irr 0 = owed 0 := by
    rw [Pair.wired]
    exact h.first 0 (by decide)
  have h1 : m.pair.wired.irr 1 = owed 1 := by
    rw [Pair.wired]
    exact h.first 1 (by decide)
  rw [Pair.acknowledge, request_of_open hready himr hidle, h0, h1, hslave]
  cases owed 0 <;> cases owed 1 <;> simp [h.master.base]

theorem IrqOk.vector (hrun : m.mode = .running) :
    m.vector = if owed 0 then some 32 else if owed 1 then some 33 else none := by
  rw [Machine.vector, hrun]
  dsimp only
  rw [h.acknowledge hrun]
  cases owed 0 <;> cases owed 1 <;> rfl

/-- A device raises a line. -/
theorem IrqOk.raise (n : ℕ) : IrqOk (Function.update owed n true) { m with pair := m.pair.raise n } := by
  by_cases hn : n < 8
  · have hraise : m.pair.raise n
        = { m.pair with master := { m.pair.master with irr := Function.update m.pair.master.irr n true } } := by
      rw [Pair.raise, if_pos hn]
    rw [hraise]
    refine ⟨⟨h.master.expects, h.master.base, h.master.cascade, h.master.icw4, h.master.imr⟩, h.slave, ?_, ?_, h.service⟩
    · intro k hk
      show Function.update m.pair.master.irr n true k = Function.update owed n true k
      by_cases hkn : k = n
      · rw [hkn, Function.update_self, Function.update_self]
      · rw [Function.update_of_ne hkn, Function.update_of_ne hkn, h.first k hk]
    · intro k hk
      rw [Function.update_of_ne (by omega)]
      exact h.second k hk
  · have hraise : m.pair.raise n
        = { m.pair with slave := { m.pair.slave with irr := Function.update m.pair.slave.irr (n - 8) true } } := by
      rw [Pair.raise, if_neg hn]
    rw [hraise]
    refine ⟨h.master, ⟨h.slave.expects, h.slave.base, h.slave.cascade, h.slave.icw4, h.slave.imr⟩, ?_, ?_, h.service⟩
    · intro k hk
      rw [Function.update_of_ne (by omega)]
      exact h.first k hk
    · intro k hk
      show Function.update m.pair.slave.irr (n - 8) true k = Function.update owed n true (k + 8)
      by_cases hkn : k = n - 8
      · have hback : k + 8 = n := by omega
        rw [hkn, Function.update_self, ← hkn, hback, Function.update_self]
      · rw [Function.update_of_ne hkn, Function.update_of_ne (by omega), h.second k hk]

/-- The processor takes line `n`, one of the two. -/
theorem IrqOk.serve (hrun : m.mode = .running) {n : ℕ} (hn : n = 0 ∨ n = 1) :
    IrqOk (fun k => owed k && !(k == n)) ⟨{ m.pair with master := m.pair.master.serve n }, .handling (UInt8.ofNat (32 + n))⟩ := by
  have hidle := h.idle (by rw [hrun]; intro v hv; cases hv)
  have hauto : ¬ m.pair.master.icw4 &&& 0x02 ≠ 0 := by
    rw [h.master.icw4]
    decide
  have himr : m.pair.master.imr = 0xfc := by
    rw [h.master.imr, hrun]
    rfl
  refine ⟨⟨h.master.expects, h.master.base, h.master.cascade, h.master.icw4, himr⟩, h.slave, ?_, ?_, ?_⟩
  · intro k hk
    show Function.update m.pair.master.irr n false k = _
    by_cases hkn : k = n
    · rw [hkn, Function.update_self]
      simp
    · rw [Function.update_of_ne hkn, h.first k hk]
      simp [hkn]
  · intro k hk
    have hne : (k + 8 == n) = false := by
      rw [beq_eq_false_iff_ne]
      omega
    rw [hne, Bool.not_false, Bool.and_true]
    exact h.second k hk
  · intro k
    have hisr : (m.pair.master.serve n).isr k = decide (k = n) := by
      have hupdate : (m.pair.master.serve n).isr = Function.update m.pair.master.isr n true := if_neg hauto
      rw [hupdate]
      by_cases hkn : k = n
      · rw [hkn, Function.update_self]
        simp
      · rw [Function.update_of_ne hkn, hidle k]
        simp [hkn]
    rw [hisr, decide_eq_true_iff]
    obtain rfl | rfl := hn
    · simp
    · simp

/-- `main` opens the two lines. -/
theorem IrqOk.start (hboot : m.mode = .booting) : IrqOk owed ⟨after unmaskPorts m.pair, .running⟩ := by
  have hports : after unmaskPorts m.pair = { m.pair with master := m.pair.master.data 0xfc } := rfl
  have hdata : m.pair.master.data 0xfc = { m.pair.master with imr := 0xfc } := by
    simp only [Chip.data, h.master.expects]
  have hidle := h.idle (by rw [hboot]; intro v hv; cases hv)
  rw [hports, hdata]
  refine ⟨⟨h.master.expects, h.master.base, h.master.cascade, h.master.icw4, rfl⟩, h.slave, h.first, h.second, ?_⟩
  intro n
  constructor
  · intro hn
    rw [hidle n] at hn
    cases hn
  · rintro ⟨v, hv, -⟩
    cases hv

/-- A trap has no part in it. -/
theorem IrqOk.trap (hrun : m.mode = .running) {v : UInt8} (hv : v ≠ 32 ∧ v ≠ 33) : IrqOk owed { m with mode := .handling v } := by
  have hidle := h.idle (by rw [hrun]; intro v hv; cases hv)
  have hmaster := h.master
  rw [hrun] at hmaster
  refine ⟨hmaster, h.slave, h.first, h.second, ?_⟩
  intro n
  constructor
  · intro hn
    rw [hidle n] at hn
    cases hn
  · rintro ⟨w, hw, hcase⟩
    rw [← Mode.handling.inj hw] at hcase
    obtain ⟨h32, -⟩ | ⟨h33, -⟩ := hcase
    · exact absurd h32 hv.1
    · exact absurd h33 hv.2

/-- The end of the handler of line `n` ends its service. -/
theorem IrqOk.leave_irq {n : ℕ} (hn : n = 0 ∨ n = 1) (hmode : m.mode = .handling (UInt8.ofNat (32 + n))) :
    IrqOk owed ⟨after (acknowledgePorts (UInt8.ofNat (32 + n))) m.pair, .running⟩ := by
  have hports : after (acknowledgePorts (UInt8.ofNat (32 + n))) m.pair
      = { m.pair with master := m.pair.master.endOfInterrupt } := by
    obtain rfl | rfl := hn <;> rfl
  have hisr : ∀ k, m.pair.master.isr k = decide (k = n) := by
    intro k
    rw [Bool.eq_iff_iff, h.service k, hmode, decide_eq_true_iff]
    obtain rfl | rfl := hn
    · simp
    · simp
  have hfind : (List.range 8).find? m.pair.master.isr = some n := by
    rw [funext hisr]
    obtain rfl | rfl := hn <;> rfl
  have hend : m.pair.master.endOfInterrupt
      = { m.pair.master with isr := Function.update m.pair.master.isr n false } := by
    rw [Chip.endOfInterrupt, hfind]
  have himr : m.pair.master.imr = 0xfc := by
    rw [h.master.imr, hmode]
    rfl
  rw [hports, hend]
  refine ⟨⟨h.master.expects, h.master.base, h.master.cascade, h.master.icw4, himr⟩, h.slave, h.first, h.second, ?_⟩
  intro k
  constructor
  · intro hk
    have hupdate : Function.update m.pair.master.isr n false k = true := hk
    by_cases hkn : k = n
    · rw [hkn, Function.update_self] at hupdate
      cases hupdate
    · rw [Function.update_of_ne hkn, hisr k, decide_eq_true_iff] at hupdate
      exact absurd hupdate hkn
  · rintro ⟨v, hv, -⟩
    cases hv

/-- The end of any other handler sends nothing. -/
theorem IrqOk.leave_trap {v : UInt8} (hmode : m.mode = .handling v) (hv : v ≠ 32 ∧ v ≠ 33) :
    IrqOk owed ⟨after (acknowledgePorts v) m.pair, .running⟩ := by
  have hports : after (acknowledgePorts v) m.pair = m.pair := by
    rw [acknowledgePorts, if_neg hv.1, if_neg hv.2]
    rfl
  have hmaster := h.master
  rw [hmode] at hmaster
  rw [hports]
  refine ⟨hmaster, h.slave, h.first, h.second, ?_⟩
  intro n
  rw [h.service n, hmode]
  constructor
  · rintro ⟨w, hw, hcase⟩
    rw [← Mode.handling.inj hw] at hcase
    obtain ⟨h32, -⟩ | ⟨h33, -⟩ := hcase
    · exact absurd h32 hv.1
    · exact absurd h33 hv.2
  · rintro ⟨w, hw, -⟩
    cases hw

theorem IrqOk.accept_line (hrun : m.mode = .running) {n : ℕ} (hn : n = 0 ∨ n = 1)
    (hack : m.pair.acknowledge = some (UInt8.ofNat (32 + n), { m.pair with master := m.pair.master.serve n })) :
    IrqOk (note owed m .accept) (step m .accept) := by
  have hstep : step m .accept = ⟨{ m.pair with master := m.pair.master.serve n }, .handling (UInt8.ofNat (32 + n))⟩ := by
    simp only [step, hrun, hack]
  have hvector : m.vector = some (UInt8.ofNat (32 + n)) := by
    rw [Machine.vector, hrun, hack]
    rfl
  have hnote : note owed m .accept = fun k => owed k && !(k == n) := by
    have hnumber : (UInt8.ofNat (32 + n)).toNat = 32 + n := by
      rw [UInt8.toNat_ofNat']
      omega
    simp only [note, hvector, hnumber]
    funext k
    have hsame : (32 + k == 32 + n) = (k == n) := by
      rw [Bool.eq_iff_iff]
      simp
    rw [hsame]
  rw [hstep, hnote]
  exact h.serve hrun hn

/-- **One event** keeps the agreement. -/
theorem irqOk_step (e : Event) (he : Allowed m e) : IrqOk (note owed m e) (step m e) := by
  cases e with
  | raise n => exact h.raise n
  | start =>
    show IrqOk owed (step m .start)
    cases hmode : m.mode with
    | booting =>
      have hstep : step m .start = ⟨after unmaskPorts m.pair, .running⟩ := by simp only [step, hmode]
      rw [hstep]
      exact h.start hmode
    | running => simpa only [step, hmode] using h
    | handling v => simpa only [step, hmode] using h
  | accept =>
    by_cases hrun : m.mode = .running
    · have hack := h.acknowledge hrun
      by_cases h0 : owed 0 = true
      · rw [if_pos h0] at hack
        exact h.accept_line hrun (Or.inl rfl) hack
      · by_cases h1 : owed 1 = true
        · rw [if_neg h0, if_pos h1] at hack
          exact h.accept_line hrun (Or.inr rfl) hack
        · rw [if_neg h0, if_neg h1] at hack
          have hstep : step m .accept = m := by simp only [step, hrun, hack]
          have hvector : m.vector = none := by rw [h.vector hrun, if_neg h0, if_neg h1]
          have hnote : note owed m .accept = owed := by simp only [note, hvector]
          rw [hstep, hnote]
          exact h
    · have hvector : m.vector = none := by
        rw [Machine.vector]
        split
        · contradiction
        · rfl
      have hstep : step m .accept = m := by
        simp only [step]
        split
        · contradiction
        · rfl
      have hnote : note owed m .accept = owed := by simp only [note, hvector]
      rw [hstep, hnote]
      exact h
  | trap v =>
    show IrqOk owed (step m (.trap v))
    cases hmode : m.mode with
    | booting => simpa only [step, hmode] using h
    | running =>
      have hstep : step m (.trap v) = { m with mode := .handling v } := by simp only [step, hmode]
      rw [hstep]
      exact h.trap hmode he
    | handling w => simpa only [step, hmode] using h
  | leave =>
    show IrqOk owed (step m .leave)
    cases hmode : m.mode with
    | booting => simpa only [step, hmode] using h
    | running => simpa only [step, hmode] using h
    | handling v =>
      by_cases hhalts : halts v = true
      · simpa only [step, hmode, hhalts, if_true] using h
      · have hstep : step m .leave = ⟨after (acknowledgePorts v) m.pair, .running⟩ := by
          simp only [step, hmode, hhalts]
          rfl
        rw [hstep]
        by_cases h32 : v = 32
        · rw [h32] at hmode ⊢
          exact h.leave_irq (Or.inl rfl) hmode
        · by_cases h33 : v = 33
          · rw [h33] at hmode ⊢
            exact h.leave_irq (Or.inr rfl) hmode
          · exact h.leave_trap hmode ⟨h32, h33⟩

end Steps

/-- **The agreement in every run.** -/
theorem irqOk_run (p : Pair) (es : List Event) (hes : Admits step Allowed (boot p) es) :
    IrqOk (ledger p es) (run step (boot p) es) := by
  induction es using List.reverseRecOn with
  | nil => exact irqOk_boot p
  | append_singleton es e ih =>
    obtain ⟨hes, he⟩ := (admits_concat _ es e).mp hes
    rw [run_concat, ledger, trace_concat]
    exact irqOk_step (ih hes) e he

/-- **Interrupts are delivered**, in every run from any state of the controllers: with interrupts enabled the
processor gets the timer's vector while the timer's line is owed, else the keyboard's while that one is, else none;
a request stays until it is taken, masked or not, whatever is raised, taken or trapped in between; and only the
line whose handler runs is in service, so that no handler blocks a line once it is over. -/
theorem irqs_delivered (p : Pair) (es : List Event) (hes : Admits step Allowed (boot p) es) :
    ((run step (boot p) es).mode = .running → (run step (boot p) es).vector
      = if ledger p es 0 then some Vector.irq0.number.toUInt8
        else if ledger p es 1 then some Vector.irq1.number.toUInt8 else none) ∧
    (∀ n, n < 8 → (run step (boot p) es).pair.master.irr n = ledger p es n ∧
      (run step (boot p) es).pair.slave.irr n = ledger p es (n + 8)) ∧
    ∀ n, (run step (boot p) es).pair.master.isr n = true ↔
      ∃ v, (run step (boot p) es).mode = .handling v ∧ (v = 32 ∧ n = 0 ∨ v = 33 ∧ n = 1) := by
  have h := irqOk_run p es hes
  exact ⟨h.vector, fun n hn => ⟨h.first n hn, h.second n hn⟩, h.service⟩

/-- Controllers in the middle of being programmed, with everything requested and in service. -/
def messyPair : Pair :=
  ⟨⟨.icw3, true, false, 8, 0, 3, 0, fun _ => true, fun _ => true⟩, ⟨.icw2, false, true, 0x70, 0, 0, 0, fun _ => true, fun _ => true⟩⟩

/-- A key is pressed before interrupts are enabled; a tick arrives during a system call. -/
def keyAndTick : List Event := [.raise 1, .start, .trap 128, .raise 0, .leave, .accept, .leave]

theorem keyAndTick_admitted : Admits step Allowed (boot messyPair) keyAndTick := by
  refine ⟨trivial, trivial, ?_, trivial, trivial, trivial, trivial, trivial⟩
  exact ⟨by decide, by decide⟩

theorem irqs_delivered_keyAndTick :
    (run step (boot messyPair) keyAndTick).vector = some 33 := by
  have h := (irqs_delivered messyPair keyAndTick keyAndTick_admitted).1 rfl
  rw [h]
  rfl

/-! ### The frequency of the timer -/

/-- The divisor, as a number. -/
theorem toNat_divisor (freq : UInt32) : (1193180 / freq).toNat = 1193180 / freq.toNat := by
  rw [UInt32.toNat_div]
  rfl

/-- The two bytes put together again. -/
theorem bytes_of_divisor (d : UInt32) :
    (d &&& 0xff).toUInt8.toNat + 256 * ((d >>> 8) &&& 0xff).toUInt8.toNat = d.toNat % 65536 := by
  have hlow : ∀ v : UInt32, (v &&& 0xff).toUInt8.toNat = v.toNat % 256 := by
    intro v
    rw [UInt32.toNat_toUInt8, UInt32.toNat_and]
    show (v.toNat &&& (2 ^ 8 - 1)) % 256 = _
    rw [Nat.and_two_pow_sub_one_eq_mod]
    omega
  have hshift : (d >>> 8).toNat = d.toNat / 256 := by
    rw [UInt32.toNat_shiftRight, Nat.shiftRight_eq_div_pow]
    rfl
  rw [hlow, hlow, hshift]
  omega

/-- The timer after `init_timer`, whatever it was doing before. -/
theorem run_initTimer {freq : UInt32} (hfreq : freq ≠ 0) (t : Timer) :
    run pit (initTimer freq) t = some ((), ⟨.both, 3, false, none, 1193180 / freq.toNat % 65536⟩) := by
  have hbytes := bytes_of_divisor (1193180 / freq)
  rw [toNat_divisor] at hbytes
  rw [initTimer, if_neg hfreq, ← hbytes]
  rfl

/-- The counts whose remainder, which the counter holds, has them as its period. -/
theorem period_eq_iff {t : Timer} {q : ℕ} (hreload : t.reload = q % 65536) :
    t.period = some q ↔ 2 ≤ q ∧ q < 65536 ∨ q = 65536 := by
  rw [Timer.period, hreload]
  split
  · rw [Option.some_inj]
    omega
  · split
    · simp only [reduceCtorEq, false_iff]
      omega
    · rw [Option.some_inj]
      omega

/-- The quotients that are counts. -/
theorem quotient_counts_iff (f : ℕ) :
    (2 ≤ 1193180 / f ∧ 1193180 / f < 65536 ∨ 1193180 / f = 65536) ↔ 19 ≤ f ∧ f ≤ 596590 := by
  constructor
  · intro h
    have hlow : 19 ≤ f := by
      by_contra hlt
      cases Nat.eq_zero_or_pos f with
      | inl hzero =>
        rw [hzero, Nat.div_zero] at h
        omega
      | inr hpos =>
        have hbig : 1193180 / 18 ≤ 1193180 / f := Nat.div_le_div_left (by omega) hpos
        omega
    refine ⟨hlow, ?_⟩
    by_contra hhigh
    have hlt : 1193180 / f < 2 := (Nat.div_lt_iff_lt_mul (by omega)).mpr (by omega)
    omega
  · rintro ⟨hlow, hhigh⟩
    have hle : 1193180 / f ≤ 1193180 / 19 := Nat.div_le_div_left hlow (by decide)
    have hge : 2 ≤ 1193180 / f := (Nat.le_div_iff_mul_le (by omega)).mpr (by omega)
    omega

/-- **The timer** counts the quotient it is asked for exactly when the frequency is one it can make: below 19 the
quotient does not fit in the counter, and above half the input clock it is less than two. -/
theorem timer_period_iff (freq : UInt32) (t : Timer) :
    (freq = 0 → run pit (initTimer freq) t = none) ∧
    (freq ≠ 0 → ∃ t', run pit (initTimer freq) t = some ((), t') ∧ t'.mode = 3 ∧ t'.half = none ∧
      (t'.period = some (1193180 / freq.toNat) ↔ 19 ≤ freq.toNat ∧ freq.toNat ≤ 596590)) := by
  constructor
  · intro hfreq
    rw [initTimer, if_pos hfreq]
    rfl
  · intro hfreq
    refine ⟨_, run_initTimer hfreq t, rfl, rfl, ?_⟩
    rw [← quotient_counts_iff]
    exact period_eq_iff rfl

end OsEojin.Irq
