import OsEojin.Multitasking
import Mathlib.Tactic.IntervalCases

/-!
# The descriptor tables

`src/kernel/cpu/gdt.c`, `gdt_flush.asm` and `src/kernel/idt.c`, with the gates `main` sets, and the processor's
reading of what they write: segment loads, `ltr`, and the way of an interrupt through gate, code segment and TSS.

* `setGdtGate`, `setTssGate`, `initGdtTables`, `setIdtGate`, `setTssRsp0`: the stores of the two files, on bytes;
* `Descriptor`, `Gate`, `descriptorAt`, `gateAt`: the fields as the processor finds them;
* `Tables`, `load`, `ltr`, `enter`: the registers of the processor, and what it does with them;
* `descriptorAt_setGdtGate`, `systemBase_setTssGate`, `gateAt_setIdtGate`: what is read back is what was set;
* `interrupts_enter_stubs`: in every run each interrupt reaches its stub, on the stack `Multitasking` gives it;
* `selectors_of_ring`: which selectors can be loaded, in the kernel and in ring 3.
-/

namespace OsEojin.Descriptors

open OsEojin.Lib OsEojin.Lib.Runs OsEojin.Lib.ByteMemory OsEojin.Interrupt
open OsEojin.Multitasking (deliverySp)

/-! ### The tables the kernel writes -/

/-- Where the linker puts the globals of `gdt.c` and `idt.c`. -/
structure Globals where
  gdtEntries : ℕ
  gdtPtr : ℕ
  tssEntry : ℕ
  idt : ℕ
  idtReg : ℕ

/-- `sizeof(tss_entry)`. -/
def tssSize : ℕ := 104

/-- The globals as intervals: first byte and size. -/
def Globals.blocks (g : Globals) : List (ℕ × ℕ) :=
  [(g.gdtEntries, 56), (g.gdtPtr, 10), (g.tssEntry, tssSize), (g.idt, 4096), (g.idtReg, 10)]

/-- They do not overlap, and their addresses are 64-bit values. -/
structure Globals.Placed (g : Globals) : Prop where
  disjoint : g.blocks.Pairwise fun x y => x.1 + x.2 ≤ y.1 ∨ y.1 + y.2 ≤ x.1
  small : ∀ x ∈ g.blocks, x.1 + x.2 ≤ 2 ^ 64

/-- `set_gdt_gate`, with `gdt_entries` at `gdt`. -/
def setGdtGate (gdt : ℕ) (m : Memory) (num : ℕ) (base limit : UInt64) (access gran : UInt8) : Memory :=
  let e := gdt + 8 * num
  let m := writeLe m (e + 2) 2 (base &&& 0xFFFF).toNat
  let m := writeLe m (e + 4) 1 ((base >>> 16) &&& 0xFF).toNat
  let m := writeLe m (e + 7) 1 ((base >>> 24) &&& 0xFF).toNat
  let m := writeLe m e 2 (limit &&& 0xFFFF).toNat
  let m := writeLe m (e + 6) 1 ((limit >>> 16) &&& 0x0F).toNat
  let m := writeLe m (e + 6) 1 (readLe m (e + 6) 1 ||| (gran &&& 0xF0).toNat)
  writeLe m (e + 5) 1 access.toNat

/-- `set_tss_gate`. -/
def setTssGate (gdt : ℕ) (m : Memory) (num : ℕ) (base limit : UInt64) : Memory :=
  let m := setGdtGate gdt m num base limit 0x89 0x00
  let upperBase := base >>> 32
  let e := gdt + 8 * (num + 1)
  let m := writeLe m e 2 (upperBase &&& 0xFFFF).toNat
  let m := writeLe m (e + 2) 2 ((upperBase >>> 16) &&& 0xFFFF).toNat
  let m := writeLe m (e + 4) 1 ((upperBase >>> 32) &&& 0xFF).toNat
  let m := writeLe m (e + 5) 1 0
  let m := writeLe m (e + 6) 1 0
  writeLe m (e + 7) 1 0

/-- The first five entries `init_gdt` sets. -/
def initSegments (gdt : ℕ) (m : Memory) : Memory :=
  let m := setGdtGate gdt m 0 0 0 0 0
  let m := setGdtGate gdt m 1 0 0xFFFFF 0x9A 0x20
  let m := setGdtGate gdt m 2 0 0xFFFFF 0x92 0x00
  let m := setGdtGate gdt m 3 0 0xFFFFF 0xF2 0x00
  setGdtGate gdt m 4 0 0xFFFFF 0xFA 0x20

/-- The TSS it clears, without a map of ports. -/
def clearTss (tss : ℕ) (m : Memory) : Memory := writeLe (fill m tss tssSize 0) (tss + 102) 2 tssSize

/-- `init_gdt` up to the call of `gdt_flush`. -/
def initGdtTables (g : Globals) (m : Memory) : Memory :=
  let m := writeLe m g.gdtPtr 2 (8 * 7 - 1)
  let m := writeLe m (g.gdtPtr + 2) 8 g.gdtEntries
  let m := initSegments g.gdtEntries m
  let m := clearTss g.tssEntry m
  setTssGate g.gdtEntries m 5 (UInt64.ofNat g.tssEntry) (UInt64.ofNat (tssSize - 1))

/-- `set_tss_rsp0`. -/
def setTssRsp0 (g : Globals) (m : Memory) (rsp : UInt64) : Memory := writeLe m (g.tssEntry + 4) 8 rsp.toNat

/-- `set_idt_gate`, with `idt` at `idt`. -/
def setIdtGate (idt : ℕ) (m : Memory) (n : ℕ) (handler : UInt64) (flags : UInt8) : Memory :=
  let e := idt + 16 * n
  let m := writeLe m e 2 handler.toUInt16.toNat
  let m := writeLe m (e + 2) 2 0x08
  let m := writeLe m (e + 4) 1 0
  let m := writeLe m (e + 5) 1 flags.toNat
  let m := writeLe m (e + 6) 2 (handler >>> 16).toUInt16.toNat
  let m := writeLe m (e + 8) 4 (handler >>> 32).toUInt32.toNat
  writeLe m (e + 12) 4 0

/-- The calls of `set_idt_gate` in `main`: the vector, the handler, the flags. -/
def mainGates : List (ℕ × Vector × UInt8) :=
  [(0, .isr0, 0x8e), (8, .isr8, 0x8e), (13, .isr13, 0x8e), (14, .isr14, 0x8e), (32, .irq0, 0x8e), (33, .irq1, 0x8e),
    (128, .isr128, 0xee)]

/-- Calls of `set_idt_gate`, one after the other; `address` is where the linker puts the stubs. -/
def setIdtGates (idt : ℕ) (address : Vector → UInt64) (m : Memory) (calls : List (ℕ × Vector × UInt8)) : Memory :=
  calls.foldl (fun m call => setIdtGate idt m call.1 (address call.2.1) call.2.2) m

/-- `set_idt` up to `lidt`. -/
def setIdtReg (g : Globals) (m : Memory) : Memory :=
  let m := writeLe m (g.idtReg + 2) 8 g.idt
  writeLe m g.idtReg 2 (256 * 16 - 1)

/-! ### What the processor reads -/

/-- A segment descriptor in its parts. -/
structure Descriptor where
  base : ℕ
  limit : ℕ
  access : ℕ
  flags : ℕ
  deriving DecidableEq, Repr

def descriptorAt (m : Memory) (a : ℕ) : Descriptor where
  base := readLe m (a + 2) 2 + 2 ^ 16 * readLe m (a + 4) 1 + 2 ^ 24 * readLe m (a + 7) 1
  limit := readLe m a 2 + 2 ^ 16 * (readLe m (a + 6) 1 % 16)
  access := readLe m (a + 5) 1
  flags := readLe m (a + 6) 1 / 16

/-- The base in a descriptor of sixteen bytes. -/
def systemBase (m : Memory) (a : ℕ) : ℕ := (descriptorAt m a).base + 2 ^ 32 * readLe m (a + 8) 4

namespace Descriptor

variable (d : Descriptor)

def present : Bool := d.access / 128 % 2 == 1
def dpl : ℕ := d.access / 32 % 4
def isSegment : Bool := d.access / 16 % 2 == 1
def isCode : Bool := d.access / 8 % 2 == 1
def conforming : Bool := d.access / 4 % 2 == 1
/-- Readable for code, writable for data. -/
def accessible : Bool := d.access / 2 % 2 == 1
/-- A code segment of 64-bit mode: `L` is set, `D` is not. -/
def long : Bool := d.flags / 2 % 4 == 1

end Descriptor

/-- A gate of the interrupt table in its parts. -/
structure Gate where
  offset : ℕ
  selector : ℕ
  ist : ℕ
  flags : ℕ
  deriving DecidableEq, Repr

def gateAt (m : Memory) (a : ℕ) : Gate where
  offset := readLe m a 2 + 2 ^ 16 * readLe m (a + 6) 2 + 2 ^ 32 * readLe m (a + 8) 4
  selector := readLe m (a + 2) 2
  ist := readLe m (a + 4) 1 % 8
  flags := readLe m (a + 5) 1

namespace Gate

variable (t : Gate)

def present : Bool := t.flags / 128 % 2 == 1
def dpl : ℕ := t.flags / 32 % 4
/-- 14 for an interrupt gate, 15 for a trap gate. -/
def kind : ℕ := t.flags % 32

end Gate

/-- `gdtr`, `idtr` or the hidden part of `tr`. -/
structure TableReg where
  base : ℕ
  limit : ℕ
  deriving DecidableEq, Repr

/-- Memory and the table registers. -/
structure Tables where
  mem : Memory
  gdtr : TableReg
  idtr : TableReg
  tr : TableReg

/-- The operand of `lgdt` and `lidt`. -/
def tableRegAt (m : Memory) (a : ℕ) : TableReg := ⟨readLe m (a + 2) 8, readLe m a 2⟩

/-- The descriptor a selector names: not the null selector, in the global table, inside its limit. -/
def Tables.selected (t : Tables) (sel : ℕ) : Option Descriptor :=
  if sel / 8 = 0 ∨ sel / 4 % 2 = 1 ∨ t.gdtr.limit < sel / 8 * 8 + 7 then none
  else some (descriptorAt t.mem (t.gdtr.base + 8 * (sel / 8)))

/-- The instructions that load a segment register: `mov` into `ds`, `es`, `fs` and `gs`; `mov` into `ss`; a return
to another code segment. -/
inductive Segment where
  | data | stack | code
  deriving DecidableEq, Repr

/-- The checks of a load at privilege level `cpl`. -/
def Segment.permits (k : Segment) (cpl sel : ℕ) (d : Descriptor) : Bool :=
  d.isSegment && d.present && match k with
    | .data => (!d.isCode || d.accessible) && (d.isCode && d.conforming || decide (max cpl (sel % 4) ≤ d.dpl))
    | .stack => !d.isCode && d.accessible && sel % 4 == cpl && d.dpl == cpl
    | .code => d.isCode && d.long && decide (cpl ≤ sel % 4) &&
        if d.conforming then decide (d.dpl ≤ sel % 4) else d.dpl == sel % 4

/-- The processor sets the accessed bit of a segment, the busy bit of a TSS. -/
def mark (m : Memory) (a bit : ℕ) : Memory := writeLe m (a + 5) 1 (readLe m (a + 5) 1 ||| bit)

/-- The null selector where 64-bit mode lets it pass: into a data segment register; into `ss` inside of ring 3, with
the current level as its RPL. -/
def Segment.takesNull (k : Segment) (cpl sel : ℕ) : Bool :=
  decide (sel / 4 = 0) && match k with
    | .data => true
    | .stack => decide (cpl < 3) && sel % 4 == cpl
    | .code => false

/-- A segment load in 64-bit mode; `none` is a fault. -/
def Tables.load (t : Tables) (k : Segment) (cpl sel : ℕ) : Option Tables :=
  if k.takesNull cpl sel = true then some t
  else (t.selected sel).bind fun d =>
    if k.permits cpl sel d then some { t with mem := mark t.mem (t.gdtr.base + 8 * (sel / 8)) 1 } else none

/-- `ltr`: an available TSS of 64-bit mode. -/
def Tables.ltr (t : Tables) (sel : ℕ) : Option Tables :=
  (t.selected sel).bind fun d =>
    if d.access % 32 = 9 ∧ d.present then
      let a := t.gdtr.base + 8 * (sel / 8)
      some { t with mem := mark t.mem a 2, tr := ⟨systemBase t.mem a, d.limit⟩ }
    else none

/-- How an interrupt begins: at `rip` with the code selector `cs` and the stack pointer `sp`, masked or not; or with
a fault. -/
inductive Entry where
  | entered (rip cs : ℕ) (sp : UInt64) (masked : Bool)
  | fault (vector : ℕ)
  deriving DecidableEq, Repr

/-- The word at an offset of the TSS, if it is inside its limit. -/
def Tables.tssWord (t : Tables) (offset : ℕ) : Option UInt64 :=
  if t.tr.limit < offset + 7 then none else some (UInt64.ofNat (readLe t.mem (t.tr.base + offset) 8))

/-- The stack an interrupt is taken on: an entry of the interrupt stack table, `rsp0` to `rsp2` when it goes to an
inner ring, or the stack in use. -/
def Tables.stackFor (t : Tables) (c : Cpu) (ist cpl ring : ℕ) : Option UInt64 :=
  if ist ≠ 0 then t.tssWord (28 + 8 * ist) else if ring < cpl then t.tssWord (4 + 8 * ring) else some c.rsp

/-- The processor takes interrupt `n`; `soft` says that it comes from an `int` instruction. -/
def Tables.enter (t : Tables) (c : Cpu) (n : ℕ) (soft : Bool) : Entry :=
  let cpl := (c.cs &&& 3).toNat
  let gate := gateAt t.mem (t.idtr.base + 16 * n)
  if t.idtr.limit < 16 * n + 15 ∨ (gate.kind ≠ 14 ∧ gate.kind ≠ 15) then .fault 13
  else if soft ∧ gate.dpl < cpl then .fault 13
  else if !gate.present then .fault 11
  else match t.selected gate.selector with
    | none => .fault 13
    | some d =>
      if !d.isSegment || !d.isCode || !d.long || decide (cpl < d.dpl) then .fault 13
      else if !d.present then .fault 11
      else
        let ring := if d.conforming then cpl else d.dpl
        match t.stackFor c gate.ist cpl ring with
        | none => .fault 10
        | some sp => .entered gate.offset (gate.selector / 4 * 4 + ring) (sp - sp % 16) (gate.kind == 14)

/-! ### `main` -/

/-- `gdt_flush` and `tss_flush`. -/
def gdtFlush (t : Tables) (ptr : ℕ) : Option Tables :=
  let t := { t with gdtr := tableRegAt t.mem ptr }
  (t.load .data 0 0x10).bind fun t => (t.load .stack 0 0x10).bind fun t => t.load .code 0 0x08

def tssFlush (t : Tables) : Option Tables := t.ltr 0x28

/-- What `main` does to the tables: the gates, `set_idt` and `init_gdt`. -/
def bootTables (g : Globals) (address : Vector → UInt64) (t : Tables) : Option Tables :=
  let m := setIdtReg g (setIdtGates g.idt address t.mem mainGates)
  let t := { t with mem := initGdtTables g m, idtr := tableRegAt m g.idtReg }
  (gdtFlush t g.gdtPtr).bind tssFlush

/-- What happens to the tables later: a call of `set_tss_rsp0`, a segment load, a store of any other code. -/
inductive Event where
  | setRsp0 (rsp : UInt64)
  | load (k : Segment) (cpl sel : ℕ)
  | store (a : ℕ) (b : UInt8)

/-- A load that faults changes nothing. -/
def step (g : Globals) (t : Tables) : Event → Tables
  | .setRsp0 rsp => { t with mem := setTssRsp0 g t.mem rsp }
  | .load k cpl sel => (t.load k cpl sel).getD t
  | .store a b => { t with mem := Function.update t.mem a b }

/-- Other code does not write to the globals. -/
def Allowed (g : Globals) (_ : Tables) : Event → Prop
  | .store a _ => ∀ x ∈ g.blocks, a < x.1 ∨ x.1 + x.2 ≤ a
  | _ => True

/-- The stack of the last `set_tss_rsp0`, or the zero of `memset`. -/
def lastRsp0 : List Event → ℕ → ℕ
  | [], rsp => rsp
  | .setRsp0 rsp :: es, _ => lastRsp0 es rsp.toNat
  | _ :: es, rsp => lastRsp0 es rsp

/-! ### Round trips -/

section RoundTrips

variable (m : Memory)

theorem toNat_low16 (v : UInt64) : (v &&& 0xFFFF).toNat = v.toNat % 2 ^ 16 := by
  rw [UInt64.toNat_and]
  exact Nat.and_two_pow_sub_one_eq_mod v.toNat 16

theorem toNat_low8 (v : UInt64) : (v &&& 0xFF).toNat = v.toNat % 2 ^ 8 := by
  rw [UInt64.toNat_and]
  exact Nat.and_two_pow_sub_one_eq_mod v.toNat 8

theorem toNat_low4 (v : UInt64) : (v &&& 0x0F).toNat = v.toNat % 2 ^ 4 := by
  rw [UInt64.toNat_and]
  exact Nat.and_two_pow_sub_one_eq_mod v.toNat 4

theorem and_high_nibble (x : ℕ) : x &&& 15 <<< 4 = (x >>> 4 &&& 15) <<< 4 := by
  apply Nat.eq_of_testBit_eq
  intro i
  rw [Nat.testBit_and, Nat.testBit_shiftLeft, Nat.testBit_shiftLeft, Nat.testBit_and, Nat.testBit_shiftRight]
  by_cases hi : 4 ≤ i
  · rw [decide_eq_true hi, Bool.true_and, Bool.true_and, Nat.add_sub_cancel' hi]
  · rw [decide_eq_false hi, Bool.false_and, Bool.false_and, Bool.and_false]

/-- The limit in the low half of the byte and the flags in its high half. -/
theorem nibbles (l : ℕ) (hl : l < 16) (gran : UInt8) :
    (l ||| (gran &&& 0xF0).toNat) % 16 = l ∧ (l ||| (gran &&& 0xF0).toNat) / 16 = gran.toNat / 16 := by
  have hbyte := gran.toNat_lt
  have hgran : (gran &&& 0xF0).toNat = gran.toNat / 16 * 16 := by
    rw [UInt8.toNat_and]
    show gran.toNat &&& 15 <<< 4 = _
    rw [and_high_nibble, Nat.shiftLeft_eq, Nat.shiftRight_eq_div_pow, Nat.and_two_pow_sub_one_eq_mod _ 4]
    omega
  have hor := Nat.shiftLeft_add_eq_or_of_lt (i := 4) hl (gran.toNat / 16)
  rw [Nat.shiftLeft_eq] at hor
  rw [hgran, Nat.or_comm, show gran.toNat / 16 * 16 ||| l = gran.toNat / 16 * 16 + l from hor.symm]
  omega

theorem toNat_shiftRight_16 (v : UInt64) : (v >>> 16).toNat = v.toNat / 2 ^ 16 := by
  rw [UInt64.toNat_shiftRight, Nat.shiftRight_eq_div_pow]
  rfl

theorem toNat_shiftRight_24 (v : UInt64) : (v >>> 24).toNat = v.toNat / 2 ^ 24 := by
  rw [UInt64.toNat_shiftRight, Nat.shiftRight_eq_div_pow]
  rfl

theorem toNat_shiftRight_32 (v : UInt64) : (v >>> 32).toNat = v.toNat / 2 ^ 32 := by
  rw [UInt64.toNat_shiftRight, Nat.shiftRight_eq_div_pow]
  rfl

/-- **A descriptor** reads back as it was set, as far as it has room. -/
theorem descriptorAt_setGdtGate (gdt num : ℕ) (base limit : UInt64) (access gran : UInt8) :
    descriptorAt (setGdtGate gdt m num base limit access gran) (gdt + 8 * num)
      = ⟨base.toNat % 2 ^ 32, limit.toNat % 2 ^ 20, access.toNat, gran.toNat / 16⟩ := by
  have hnibbles := nibbles (limit.toNat / 2 ^ 16 % 2 ^ 4 % 256 ^ 1) (by omega) gran
  have haccess := access.toNat_lt
  have hgran := gran.toNat_lt
  simp (disch := omega) only [descriptorAt, setGdtGate, readLe_writeLe_of_disjoint, readLe_writeLe_same,
    toNat_low16, toNat_low8, toNat_low4, toNat_shiftRight_16, toNat_shiftRight_24, Descriptor.mk.injEq]
  omega

/-- The stores stay inside the entry. -/
theorem setGdtGate_of_notMem {gdt num x : ℕ} (base limit : UInt64) (access gran : UInt8)
    (h : x < gdt + 8 * num ∨ gdt + 8 * num + 8 ≤ x) : setGdtGate gdt m num base limit access gran x = m x := by
  simp (disch := omega) only [setGdtGate, writeLe, if_neg]

theorem descriptorAt_setTssGate (gdt num : ℕ) (base limit : UInt64) :
    descriptorAt (setTssGate gdt m num base limit) (gdt + 8 * num)
      = ⟨base.toNat % 2 ^ 32, limit.toNat % 2 ^ 20, 0x89, 0⟩ := by
  have hsame : descriptorAt (setTssGate gdt m num base limit) (gdt + 8 * num)
      = descriptorAt (setGdtGate gdt m num base limit 0x89 0x00) (gdt + 8 * num) := by
    simp (disch := omega) only [descriptorAt, setTssGate, readLe_writeLe_of_disjoint]
  rw [hsame, descriptorAt_setGdtGate]
  rfl

/-- The second entry of a TSS is not a segment. -/
theorem access_upper_setTssGate (gdt num : ℕ) (base limit : UInt64) :
    (descriptorAt (setTssGate gdt m num base limit) (gdt + 8 * (num + 1))).access = 0 := by
  simp (disch := omega) only [descriptorAt, setTssGate, readLe_writeLe_of_disjoint, readLe_writeLe_same]
  rfl

/-- **The base of the TSS** reads back whole: the second entry holds its upper half. -/
theorem systemBase_setTssGate (gdt num : ℕ) (base limit : UInt64) :
    systemBase (setTssGate gdt m num base limit) (gdt + 8 * num) = base.toNat := by
  have hbase := base.toNat_lt
  have hhigh : readLe (setTssGate gdt m num base limit) (gdt + 8 * num + 8) 4 = base.toNat / 2 ^ 32 := by
    have hsplit : gdt + 8 * num + 8 + 2 = gdt + 8 * (num + 1) + 2 := by omega
    have hstart : gdt + 8 * num + 8 = gdt + 8 * (num + 1) := by omega
    rw [readLe_add _ _ 2 2, hsplit, hstart]
    simp (disch := omega) only [setTssGate, readLe_writeLe_of_disjoint, readLe_writeLe_same, toNat_low16,
      toNat_shiftRight_16, toNat_shiftRight_32]
    omega
  rw [systemBase, descriptorAt_setTssGate, hhigh]
  show base.toNat % 2 ^ 32 + 2 ^ 32 * (base.toNat / 2 ^ 32) = base.toNat
  omega

theorem setTssGate_of_notMem {gdt num x : ℕ} (base limit : UInt64) (h : x < gdt + 8 * num ∨ gdt + 8 * num + 16 ≤ x) :
    setTssGate gdt m num base limit x = m x := by
  have hlow : setGdtGate gdt m num base limit 0x89 0x00 x = m x :=
    setGdtGate_of_notMem m base limit _ _ (by omega)
  rw [← hlow]
  simp (disch := omega) only [setTssGate, writeLe, if_neg]

/-- **A gate** reads back as it was set. -/
theorem gateAt_setIdtGate (idt n : ℕ) (handler : UInt64) (flags : UInt8) :
    gateAt (setIdtGate idt m n handler flags) (idt + 16 * n) = ⟨handler.toNat, 0x08, 0, flags.toNat⟩ := by
  have hhandler := handler.toNat_lt
  have hflags := flags.toNat_lt
  simp (disch := omega) only [gateAt, setIdtGate, readLe_writeLe_of_disjoint, readLe_writeLe_same,
    UInt64.toNat_toUInt16, UInt64.toNat_toUInt32, toNat_shiftRight_16, toNat_shiftRight_32, Gate.mk.injEq]
  omega

theorem setIdtGate_of_notMem {idt n x : ℕ} (handler : UInt64) (flags : UInt8)
    (h : x < idt + 16 * n ∨ idt + 16 * n + 16 ≤ x) : setIdtGate idt m n handler flags x = m x := by
  simp (disch := omega) only [setIdtGate, writeLe, if_neg]

theorem descriptorAt_congr {m m' : Memory} {a : ℕ} (h : ∀ x, a ≤ x → x < a + 8 → m' x = m x) :
    descriptorAt m' a = descriptorAt m a := by
  have hread : ∀ i n, i + n ≤ 8 → readLe m' (a + i) n = readLe m (a + i) n := fun i n hn =>
    readLe_congr fun x hx hx' => h x (by omega) (by omega)
  have hfirst : readLe m' a 2 = readLe m a 2 := hread 0 2 (by decide)
  rw [descriptorAt, descriptorAt, hfirst, hread 2 2 (by decide), hread 4 1 (by decide), hread 5 1 (by decide),
    hread 6 1 (by decide), hread 7 1 (by decide)]

theorem gateAt_congr {m m' : Memory} {a : ℕ} (h : ∀ x, a ≤ x → x < a + 16 → m' x = m x) :
    gateAt m' a = gateAt m a := by
  have hread : ∀ i n, i + n ≤ 16 → readLe m' (a + i) n = readLe m (a + i) n := fun i n hn =>
    readLe_congr fun x hx hx' => h x (by omega) (by omega)
  have hfirst : readLe m' a 2 = readLe m a 2 := hread 0 2 (by decide)
  rw [gateAt, gateAt, hfirst, hread 2 2 (by decide), hread 4 1 (by decide), hread 5 1 (by decide),
    hread 6 2 (by decide), hread 8 4 (by decide)]

/-! ### Several gates -/

variable (idt : ℕ) (address : Vector → UInt64)

/-- A vector that no call names keeps its gate. -/
theorem gateAt_setIdtGates_of_notMem (calls : List (ℕ × Vector × UInt8)) {n : ℕ} (hn : n ∉ calls.map (·.1)) :
    gateAt (setIdtGates idt address m calls) (idt + 16 * n) = gateAt m (idt + 16 * n) := by
  induction calls generalizing m with
  | nil => rfl
  | cons call calls ih =>
    rw [List.map_cons, List.mem_cons, not_or] at hn
    have hrest := ih (setIdtGate idt m call.1 (address call.2.1) call.2.2) hn.2
    have hne : n ≠ call.1 := hn.1
    have hfirst : gateAt (setIdtGate idt m call.1 (address call.2.1) call.2.2) (idt + 16 * n)
        = gateAt m (idt + 16 * n) :=
      gateAt_congr fun x hx hx' => setIdtGate_of_notMem m _ _ (by omega)
    exact hrest.trans hfirst

/-- With different vectors every call lasts. -/
theorem gateAt_setIdtGates_of_mem (calls : List (ℕ × Vector × UInt8)) (hnodup : (calls.map (·.1)).Nodup)
    {call : ℕ × Vector × UInt8} (hcall : call ∈ calls) :
    gateAt (setIdtGates idt address m calls) (idt + 16 * call.1)
      = ⟨(address call.2.1).toNat, 0x08, 0, call.2.2.toNat⟩ := by
  induction calls generalizing m with
  | nil => cases hcall
  | cons first calls ih =>
    rw [List.map_cons, List.nodup_cons] at hnodup
    cases List.mem_cons.mp hcall with
    | inl heq =>
      rw [heq]
      exact (gateAt_setIdtGates_of_notMem _ idt address calls hnodup.1).trans (gateAt_setIdtGate m idt _ _ _)
    | inr hmem => exact ih _ hnodup.2 hmem

end RoundTrips

/-! ### The tables in a run -/

/-- The segments of the global table, before and after the processor has marked them accessed. -/
def segments : ℕ → List Descriptor
  | 1 => [⟨0, 0xFFFFF, 0x9A, 2⟩, ⟨0, 0xFFFFF, 0x9B, 2⟩]
  | 2 => [⟨0, 0xFFFFF, 0x92, 0⟩, ⟨0, 0xFFFFF, 0x93, 0⟩]
  | 3 => [⟨0, 0xFFFFF, 0xF2, 0⟩, ⟨0, 0xFFFFF, 0xF3, 0⟩]
  | 4 => [⟨0, 0xFFFFF, 0xFA, 2⟩, ⟨0, 0xFFFFF, 0xFB, 2⟩]
  | _ => []

/-- The global table as `init_gdt` leaves it, up to the bits the processor sets: four segments and the two halves
of the TSS descriptor. -/
structure GdtOk (g : Globals) (t : Tables) : Prop where
  gdtr : t.gdtr = ⟨g.gdtEntries, 55⟩
  segment : ∀ i, 1 ≤ i → i ≤ 4 → descriptorAt t.mem (g.gdtEntries + 8 * i) ∈ segments i
  system : ∀ i, 5 ≤ i → i ≤ 6 → (descriptorAt t.mem (g.gdtEntries + 8 * i)).isSegment = false

/-- What holds once `main` has set up the tables; `rsp0` is the stack for interrupts from ring 3. -/
structure TablesOk (g : Globals) (address : Vector → UInt64) (rsp0 : ℕ) (t : Tables) : Prop where
  gdt : GdtOk g t
  idtr : t.idtr = ⟨g.idt, 4095⟩
  tr : t.tr = ⟨g.tssEntry, 103⟩
  stack : readLe t.mem (g.tssEntry + 4) 8 = rsp0
  gate : ∀ v : Vector, gateAt t.mem (g.idt + 16 * v.number.toNat)
    = ⟨(address v).toNat, 0x08, 0, if v = .isr128 then 0xee else 0x8e⟩
  empty : ∀ n, n < 256 → (∀ v : Vector, v.number.toNat ≠ n) → (gateAt t.mem (g.idt + 16 * n)).flags = 0

/-- The parts of a segment do not depend on the accessed bit. -/
theorem parts_of_mem {i : ℕ} (hi : 1 ≤ i) (hi' : i ≤ 4) {d : Descriptor} (hd : d ∈ segments i) :
    d.isSegment = true ∧ d.present = true ∧ d.accessible = true ∧ d.conforming = false ∧
      d.isCode = (i == 1 || i == 4) ∧ d.long = (i == 1 || i == 4) ∧ d.dpl = if i ≤ 2 then 0 else 3 := by
  revert d
  interval_cases i <;> decide

section Placement

variable {g : Globals} (hg : g.Placed)
include hg

/-- Where the blocks lie, as inequalities. -/
theorem Globals.Placed.apart :
    (g.gdtEntries + 56 ≤ g.gdtPtr ∨ g.gdtPtr + 10 ≤ g.gdtEntries) ∧
    (g.gdtEntries + 56 ≤ g.tssEntry ∨ g.tssEntry + 104 ≤ g.gdtEntries) ∧
    (g.gdtEntries + 56 ≤ g.idt ∨ g.idt + 4096 ≤ g.gdtEntries) ∧
    (g.gdtPtr + 10 ≤ g.tssEntry ∨ g.tssEntry + 104 ≤ g.gdtPtr) ∧
    (g.gdtPtr + 10 ≤ g.idt ∨ g.idt + 4096 ≤ g.gdtPtr) ∧
    (g.tssEntry + 104 ≤ g.idt ∨ g.idt + 4096 ≤ g.tssEntry) ∧
    (g.idt + 4096 ≤ g.idtReg ∨ g.idtReg + 10 ≤ g.idt) := by
  have h := hg.disjoint
  simp only [Globals.blocks, tssSize, List.pairwise_cons, List.mem_cons, List.not_mem_nil, or_false, forall_eq_or_imp,
    forall_eq] at h
  obtain ⟨⟨h1, h2, h3, -⟩, ⟨h4, h5, -⟩, ⟨h6, -⟩, h7, -⟩ := h
  exact ⟨h1, h2, h3, h4, h5, h6, h7⟩

theorem Globals.Placed.bounds : g.gdtEntries + 56 ≤ 2 ^ 64 ∧ g.tssEntry + 104 ≤ 2 ^ 64 ∧ g.idt + 4096 ≤ 2 ^ 64 := by
  have h := hg.small
  simp only [Globals.blocks, tssSize, List.mem_cons, List.not_mem_nil, or_false, forall_eq_or_imp, forall_eq] at h
  exact ⟨h.1, h.2.2.1, h.2.2.2.1⟩

end Placement

/-! ### Segment loads -/

theorem mark_of_ne (m : Memory) (a bit : ℕ) {x : ℕ} (h : x ≠ a + 5) : mark m a bit x = m x := by
  rw [mark, writeLe, if_neg (by omega)]

theorem descriptorAt_mark (m : Memory) (a : ℕ) {bit : ℕ} (hbit : bit < 256) :
    descriptorAt (mark m a bit) a = { descriptorAt m a with access := (descriptorAt m a).access ||| bit } := by
  have haccess := readLe_lt m (a + 5) 1
  have hor : readLe m (a + 5) 1 ||| bit < 2 ^ 8 := Nat.or_lt_two_pow haccess hbit
  have hmod : (readLe m (a + 5) 1 ||| bit) % 256 ^ 1 = readLe m (a + 5) 1 ||| bit := Nat.mod_eq_of_lt hor
  simp (disch := omega) only [descriptorAt, mark, readLe_writeLe_of_disjoint, readLe_writeLe_same, hmod]

/-- Marking a segment accessed leads from one of its two forms to the other, or nowhere. -/
theorem accessed_mem {i : ℕ} (hi : 1 ≤ i) (hi' : i ≤ 4) {d : Descriptor} (hd : d ∈ segments i) :
    { d with access := d.access ||| 1 } ∈ segments i := by
  revert d
  interval_cases i <;> decide

/-- Which selectors can be loaded at privilege level `cpl`. -/
def Loadable (cpl : ℕ) : Segment → ℕ → Prop
  | .data, sel => sel < 4 ∨ (0x18 ≤ sel ∧ sel < 0x1C) ∨ (0x20 ≤ sel ∧ sel < 0x24) ∨ (cpl = 0 ∧ (sel = 0x08 ∨ sel = 0x10))
  | .stack, sel => sel = (if cpl = 0 then 0x10 else 0x1B) ∨ (cpl = 0 ∧ sel = 0)
  | .code, sel => sel = 0x23 ∨ (cpl = 0 ∧ sel = 0x08)

theorem isSegment_of_permits {k : Segment} {cpl sel : ℕ} {d : Descriptor} (h : k.permits cpl sel d = true) :
    d.isSegment = true := by
  simp only [Segment.permits, Bool.and_eq_true] at h
  exact h.1.1

/-- The checks, for a descriptor of the table. -/
theorem permits_iff {i cpl sel : ℕ} (hi : 1 ≤ i) (hi' : i ≤ 4) (hcpl : cpl = 0 ∨ cpl = 3) (k : Segment)
    (hsel : sel / 8 = i) (hti : sel / 4 % 2 = 0) {d : Descriptor} (hd : d ∈ segments i) :
    k.permits cpl sel d = true ↔ Loadable cpl k sel := by
  obtain ⟨hsegment, hpresent, haccessible, hconforming, hcode, hlong, hdpl⟩ := parts_of_mem hi hi' hd
  simp only [Segment.permits, hsegment, hpresent, haccessible, hconforming, hcode, hlong, hdpl]
  obtain rfl | rfl := hcpl <;> cases k <;> interval_cases i <;> simp [Loadable] <;> omega

section Loads

variable {g : Globals} {t t' : Tables} (h : GdtOk g t)
include h

theorem GdtOk.selected (sel : ℕ) : t.selected sel
    = if sel / 8 = 0 ∨ sel / 4 % 2 = 1 ∨ 55 < sel / 8 * 8 + 7 then none
      else some (descriptorAt t.mem (g.gdtEntries + 8 * (sel / 8))) := by
  rw [Tables.selected, h.gdtr]

/-- A load that succeeds marks one of the four segments, or has nothing to mark. -/
theorem GdtOk.load_cases {k : Segment} {cpl sel : ℕ} (hload : t.load k cpl sel = some t') :
    t' = t ∨ ∃ i, 1 ≤ i ∧ i ≤ 4 ∧ t' = { t with mem := mark t.mem (g.gdtEntries + 8 * i) 1 } := by
  rw [Tables.load] at hload
  split at hload
  · exact Or.inl (Option.some.inj hload).symm
  · obtain ⟨d, hd, hload⟩ := Option.bind_eq_some_iff.mp hload
    rw [h.selected] at hd
    split at hd
    · cases hd
    · rename_i hsel
      split at hload
      · rename_i hpermits
        have hlow : sel / 8 ≤ 4 := by
          by_contra hhigh
          have hsystem := h.system (sel / 8) (by omega) (by omega)
          rw [Option.some.inj hd, isSegment_of_permits hpermits] at hsystem
          cases hsystem
        refine Or.inr ⟨sel / 8, by omega, hlow, ?_⟩
        rw [← Option.some.inj hload, h.gdtr]
      · cases hload

omit h in
/-- Where the null selector passes. -/
theorem loadable_of_takesNull {k : Segment} {cpl sel : ℕ} (hcpl : cpl = 0 ∨ cpl = 3)
    (hnull : k.takesNull cpl sel = true) : Loadable cpl k sel := by
  cases k with
  | data =>
    simp only [Segment.takesNull, Bool.and_true, decide_eq_true_eq] at hnull
    simp only [Loadable]
    omega
  | stack =>
    simp only [Segment.takesNull, Bool.and_eq_true, decide_eq_true_eq, beq_iff_eq] at hnull
    simp only [Loadable]
    omega
  | code => simp [Segment.takesNull] at hnull

omit h in
/-- A selector the table has no segment for. -/
theorem not_loadable_of_selector {k : Segment} {cpl sel : ℕ} (hnull : ¬ k.takesNull cpl sel = true)
    (hsel : sel / 8 = 0 ∨ sel / 4 % 2 = 1 ∨ 4 < sel / 8) : ¬ Loadable cpl k sel := by
  cases k with
  | data =>
    simp only [Segment.takesNull, Bool.and_true, decide_eq_true_eq] at hnull
    simp only [Loadable]
    omega
  | stack =>
    simp only [Segment.takesNull, Bool.and_eq_true, decide_eq_true_eq, beq_iff_eq] at hnull
    simp only [Loadable]
    split <;> omega
  | code =>
    simp only [Loadable]
    omega

/-- **Which loads succeed.** -/
theorem GdtOk.load_isSome_iff (k : Segment) {cpl : ℕ} (sel : ℕ) (hcpl : cpl = 0 ∨ cpl = 3) :
    (t.load k cpl sel).isSome = true ↔ Loadable cpl k sel := by
  rw [Tables.load]
  split
  · rename_i hnull
    simp only [Option.isSome_some, true_iff]
    exact loadable_of_takesNull hcpl hnull
  · rename_i hnull
    rw [h.selected]
    split
    · rename_i hsel
      have hnone : ¬ Loadable cpl k sel := not_loadable_of_selector hnull (by omega)
      simp [hnone]
    · rename_i hsel
      rw [Option.bind_some]
      by_cases hlow : sel / 8 ≤ 4
      · rw [← permits_iff (by omega) hlow hcpl k rfl (by omega) (h.segment (sel / 8) (by omega) hlow)]
        split
        · rename_i hpermits
          simp [hpermits]
        · rename_i hpermits
          simp [hpermits]
      · have hsystem := h.system (sel / 8) (by omega) (by omega)
        have hpermits : ¬ k.permits cpl sel (descriptorAt t.mem (g.gdtEntries + 8 * (sel / 8))) = true := by
          intro hpermits
          rw [isSegment_of_permits hpermits] at hsystem
          cases hsystem
        have hnone : ¬ Loadable cpl k sel := not_loadable_of_selector hnull (by omega)
        rw [if_neg hpermits]
        simp [hnone]

/-- A load leaves all but the four segments alone. -/
theorem GdtOk.load_frame {k : Segment} {cpl sel : ℕ} (hload : t.load k cpl sel = some t') :
    t'.idtr = t.idtr ∧ t'.tr = t.tr ∧ ∀ x, x < g.gdtEntries ∨ g.gdtEntries + 40 ≤ x → t'.mem x = t.mem x := by
  obtain rfl | ⟨i, hi, hi', rfl⟩ := h.load_cases hload
  · exact ⟨rfl, rfl, fun _ _ => rfl⟩
  · exact ⟨rfl, rfl, fun x hx => mark_of_ne t.mem _ _ (by omega)⟩

/-- Marks keep the table. -/
theorem GdtOk.mark {i : ℕ} (hi : 1 ≤ i) (hi' : i ≤ 4) :
    GdtOk g { t with mem := mark t.mem (g.gdtEntries + 8 * i) 1 } := by
  refine ⟨h.gdtr, ?_, ?_⟩
  · intro j hj hj'
    by_cases hij : j = i
    · rw [hij]
      show descriptorAt (Descriptors.mark t.mem (g.gdtEntries + 8 * i) 1) _ ∈ _
      rw [descriptorAt_mark t.mem _ (by decide)]
      exact accessed_mem hi hi' (h.segment i hi hi')
    · have hsame := descriptorAt_congr (a := g.gdtEntries + 8 * j) fun x hx hx' =>
        mark_of_ne t.mem (g.gdtEntries + 8 * i) 1 (x := x) (by omega)
      exact hsame ▸ h.segment j hj hj'
  · intro j hj hj'
    have hsame := descriptorAt_congr (a := g.gdtEntries + 8 * j) fun x hx hx' =>
      mark_of_ne t.mem (g.gdtEntries + 8 * i) 1 (x := x) (by omega)
    exact hsame ▸ h.system j hj hj'

theorem GdtOk.load {k : Segment} {cpl sel : ℕ} (hload : t.load k cpl sel = some t') : GdtOk g t' := by
  obtain rfl | ⟨i, hi, hi', rfl⟩ := h.load_cases hload
  · exact h
  · exact h.mark hi hi'

end Loads

/-! ### Setting up -/

theorem initSegments_of_notMem (m : Memory) {gdt x : ℕ} (h : x < gdt ∨ gdt + 40 ≤ x) : initSegments gdt m x = m x := by
  rw [initSegments, setGdtGate_of_notMem _ _ _ _ _ (by omega), setGdtGate_of_notMem _ _ _ _ _ (by omega),
    setGdtGate_of_notMem _ _ _ _ _ (by omega), setGdtGate_of_notMem _ _ _ _ _ (by omega),
    setGdtGate_of_notMem _ _ _ _ _ (by omega)]

/-- The segments of `init_gdt`; a later entry does not touch an earlier one. -/
theorem descriptorAt_initSegments (m : Memory) (gdt : ℕ) {i : ℕ} (hi : 1 ≤ i) (hi' : i ≤ 4) :
    descriptorAt (initSegments gdt m) (gdt + 8 * i) ∈ segments i := by
  have hlater : ∀ (m : Memory) (j : ℕ) (base limit : UInt64) (access gran : UInt8), i < j →
      descriptorAt (setGdtGate gdt m j base limit access gran) (gdt + 8 * i) = descriptorAt m (gdt + 8 * i) :=
    fun m j base limit access gran hj => descriptorAt_congr fun x hx hx' =>
      setGdtGate_of_notMem m base limit access gran (by omega)
  rw [initSegments]
  interval_cases i
  · rw [hlater _ 4 _ _ _ _ (by decide), hlater _ 3 _ _ _ _ (by decide), hlater _ 2 _ _ _ _ (by decide),
      descriptorAt_setGdtGate]
    decide
  · rw [hlater _ 4 _ _ _ _ (by decide), hlater _ 3 _ _ _ _ (by decide), descriptorAt_setGdtGate]
    decide
  · rw [hlater _ 4 _ _ _ _ (by decide), descriptorAt_setGdtGate]
    decide
  · rw [descriptorAt_setGdtGate]
    decide

theorem clearTss_of_notMem (m : Memory) {tss x : ℕ} (h : x < tss ∨ tss + 104 ≤ x) : clearTss tss m x = m x := by
  rw [clearTss, writeLe, if_neg (by omega)]
  exact fill_of_notMem h

theorem readLe_clearTss (m : Memory) (tss : ℕ) : readLe (clearTss tss m) (tss + 4) 8 = 0 := by
  rw [clearTss, readLe_writeLe_of_disjoint (by omega)]
  exact readLe_fill_zero (by omega) (by rw [tssSize]; omega)

section Setup

variable {g : Globals} (hg : g.Placed) (m : Memory)

theorem initGdtTables_of_notMem {x : ℕ} (hgdt : x < g.gdtEntries ∨ g.gdtEntries + 56 ≤ x)
    (hptr : x < g.gdtPtr ∨ g.gdtPtr + 10 ≤ x) (htss : x < g.tssEntry ∨ g.tssEntry + 104 ≤ x) :
    initGdtTables g m x = m x := by
  rw [initGdtTables, setTssGate_of_notMem _ _ _ (by omega), clearTss_of_notMem _ htss,
    initSegments_of_notMem _ (by omega), writeLe, if_neg (by omega), writeLe, if_neg (by omega)]

include hg

theorem tableRegAt_initGdtTables : tableRegAt (initGdtTables g m) g.gdtPtr = ⟨g.gdtEntries, 55⟩ := by
  obtain ⟨hgp, -, -, hpt, -, -, -⟩ := hg.apart
  obtain ⟨hbound, -, -⟩ := hg.bounds
  have hsame : ∀ a n, g.gdtPtr ≤ a → a + n ≤ g.gdtPtr + 10 → readLe (initGdtTables g m) a n
      = readLe (writeLe (writeLe m g.gdtPtr 2 (8 * 7 - 1)) (g.gdtPtr + 2) 8 g.gdtEntries) a n := by
    intro a n ha hn
    apply readLe_congr
    intro x hx hx'
    rw [initGdtTables, setTssGate_of_notMem _ _ _ (by omega), clearTss_of_notMem _ (by omega),
      initSegments_of_notMem _ (by omega)]
  rw [tableRegAt, hsame _ _ (by omega) (by omega), hsame _ _ (by omega) (by omega), readLe_writeLe_same,
    readLe_writeLe_of_disjoint (by omega), readLe_writeLe_same]
  rw [TableReg.mk.injEq]
  omega

theorem segment_initGdtTables {i : ℕ} (hi : 1 ≤ i) (hi' : i ≤ 4) :
    descriptorAt (initGdtTables g m) (g.gdtEntries + 8 * i) ∈ segments i := by
  obtain ⟨-, hgt, -, -, -, -, -⟩ := hg.apart
  have hsame : ∀ (m : Memory) (base limit : UInt64),
      descriptorAt (setTssGate g.gdtEntries (clearTss g.tssEntry m) 5 base limit) (g.gdtEntries + 8 * i)
        = descriptorAt m (g.gdtEntries + 8 * i) := by
    intro m base limit
    apply descriptorAt_congr
    intro x hx hx'
    rw [setTssGate_of_notMem _ _ _ (by omega), clearTss_of_notMem _ (by omega)]
  rw [initGdtTables, hsame]
  exact descriptorAt_initSegments _ _ hi hi'

/-- The TSS descriptor names the TSS, wherever it is. -/
theorem tss_initGdtTables :
    descriptorAt (initGdtTables g m) (g.gdtEntries + 8 * 5) = ⟨g.tssEntry % 2 ^ 32, 103, 0x89, 0⟩ ∧
      systemBase (initGdtTables g m) (g.gdtEntries + 8 * 5) = g.tssEntry := by
  obtain ⟨-, hbound, -⟩ := hg.bounds
  have hbase : (UInt64.ofNat g.tssEntry).toNat = g.tssEntry := by
    rw [UInt64.toNat_ofNat']
    exact Nat.mod_eq_of_lt (by omega)
  refine ⟨?_, ?_⟩
  · rw [initGdtTables, descriptorAt_setTssGate, hbase]
    rfl
  · rw [initGdtTables, systemBase_setTssGate, hbase]

theorem stack_initGdtTables : readLe (initGdtTables g m) (g.tssEntry + 4) 8 = 0 := by
  obtain ⟨-, hgt, -, -, -, -, -⟩ := hg.apart
  have hsame : ∀ (m : Memory) (base limit : UInt64),
      readLe (setTssGate g.gdtEntries m 5 base limit) (g.tssEntry + 4) 8 = readLe m (g.tssEntry + 4) 8 := by
    intro m base limit
    apply readLe_congr
    intro x hx hx'
    exact setTssGate_of_notMem m base limit (by omega)
  rw [initGdtTables, hsame]
  exact readLe_clearTss _ _

omit hg in
/-- `gdt_flush` loads the table, and nothing but the segments' marks changes. -/
theorem gdtFlush_spec {t : Tables} (h : GdtOk g { t with gdtr := tableRegAt t.mem g.gdtPtr }) :
    ∃ t', gdtFlush t g.gdtPtr = some t' ∧ GdtOk g t' ∧ t'.idtr = t.idtr ∧
      ∀ x, x < g.gdtEntries ∨ g.gdtEntries + 40 ≤ x → t'.mem x = t.mem x := by
  have hcpl : 0 = 0 ∨ 0 = 3 := Or.inl rfl
  obtain ⟨t₁, h₁⟩ := Option.isSome_iff_exists.mp
    ((h.load_isSome_iff .data 0x10 hcpl).mpr (by simp [Loadable]))
  have hok₁ := h.load h₁
  obtain ⟨t₂, h₂⟩ := Option.isSome_iff_exists.mp
    ((hok₁.load_isSome_iff .stack 0x10 hcpl).mpr (by simp [Loadable]))
  have hok₂ := hok₁.load h₂
  obtain ⟨t₃, h₃⟩ := Option.isSome_iff_exists.mp
    ((hok₂.load_isSome_iff .code 0x08 hcpl).mpr (by simp [Loadable]))
  obtain ⟨hi₁, -, hm₁⟩ := h.load_frame h₁
  obtain ⟨hi₂, -, hm₂⟩ := hok₁.load_frame h₂
  obtain ⟨hi₃, -, hm₃⟩ := hok₂.load_frame h₃
  refine ⟨t₃, ?_, hok₂.load h₃, ?_, ?_⟩
  · simp only [gdtFlush, h₁, h₂, h₃, Option.bind_some]
  · rw [hi₃, hi₂, hi₁]
  · intro x hx
    rw [hm₃ x hx, hm₂ x hx, hm₁ x hx]

omit hg in
/-- `tss_flush` finds the TSS. -/
theorem tssFlush_spec {t : Tables} (h : GdtOk g t)
    (hd : descriptorAt t.mem (g.gdtEntries + 8 * 5) = ⟨g.tssEntry % 2 ^ 32, 103, 0x89, 0⟩) :
    ∃ t', tssFlush t = some t' ∧ GdtOk g t' ∧ t'.idtr = t.idtr ∧
      t'.tr = ⟨systemBase t.mem (g.gdtEntries + 8 * 5), 103⟩ ∧
      ∀ x, x < g.gdtEntries ∨ g.gdtEntries + 56 ≤ x → t'.mem x = t.mem x := by
  have hselected : t.selected 0x28 = some ⟨g.tssEntry % 2 ^ 32, 103, 0x89, 0⟩ := by
    rw [h.selected, ← hd]
    rfl
  have hother : ∀ i, i ≠ 5 → descriptorAt (mark t.mem (g.gdtEntries + 8 * 5) 2) (g.gdtEntries + 8 * i)
      = descriptorAt t.mem (g.gdtEntries + 8 * i) := fun i hi =>
    descriptorAt_congr fun x hx hx' => mark_of_ne t.mem _ _ (by omega)
  refine ⟨{ t with
    mem := mark t.mem (g.gdtEntries + 8 * 5) 2
    tr := ⟨systemBase t.mem (g.gdtEntries + 8 * 5), 103⟩ }, ?_, ⟨h.gdtr, ?_, ?_⟩, rfl, rfl, ?_⟩
  · have havailable : (Descriptor.mk (g.tssEntry % 2 ^ 32) 103 0x89 0).access % 32 = 9 ∧
        (Descriptor.mk (g.tssEntry % 2 ^ 32) 103 0x89 0).present = true := by
      show 0x89 % 32 = 9 ∧ (0x89 / 128 % 2 == 1) = true
      decide
    rw [tssFlush, Tables.ltr, hselected, Option.bind_some, if_pos havailable, h.gdtr]
  · intro i hi hi'
    rw [hother i (by omega)]
    exact h.segment i hi hi'
  · intro i hi hi'
    by_cases h5 : i = 5
    · have hbusy : ((0x89 ||| 2) / 16 % 2 == 1) = false := by decide
      rw [h5, descriptorAt_mark _ _ (by decide), hd]
      exact hbusy
    · rw [hother i h5]
      exact h.system i hi hi'
  · intro x hx
    exact mark_of_ne t.mem _ _ (by omega)

omit hg in
/-- The interrupt table before `init_gdt` runs. -/
theorem gate_mainGates (address : Vector → UInt64) :
    (∀ v : Vector, gateAt (setIdtGates g.idt address m mainGates) (g.idt + 16 * v.number.toNat)
      = ⟨(address v).toNat, 0x08, 0, if v = .isr128 then 0xee else 0x8e⟩) ∧
    ∀ n, (∀ v : Vector, v.number.toNat ≠ n) →
      gateAt (setIdtGates g.idt address m mainGates) (g.idt + 16 * n) = gateAt m (g.idt + 16 * n) := by
  refine ⟨?_, ?_⟩
  · intro v
    have hmem : (v.number.toNat, v, if v = .isr128 then 0xee else 0x8e) ∈ mainGates := by
      cases v <;> decide
    rw [gateAt_setIdtGates_of_mem m g.idt address mainGates (by decide) hmem]
    cases v <;> rfl
  · intro n hn
    apply gateAt_setIdtGates_of_notMem
    intro hmem
    obtain ⟨call, hcall, heq⟩ := List.mem_map.mp hmem
    have hnumber : ∀ call ∈ mainGates, call.2.1.number.toNat = call.1 := by decide
    exact hn call.2.1 ((hnumber call hcall).trans heq)

/-- **`main` sets up the tables** without a fault. -/
theorem tablesOk_boot (address : Vector → UInt64) {t : Tables} (hzero : ∀ x, g.idt ≤ x → x < g.idt + 4096 → t.mem x = 0) :
    ∃ t', bootTables g address t = some t' ∧ TablesOk g address 0 t' := by
  obtain ⟨hgp, hgt, hgi, hpt, hpi, hti, hir⟩ := hg.apart
  obtain ⟨-, -, hbound⟩ := hg.bounds
  obtain ⟨hgates, hempty⟩ := gate_mainGates (g := g) t.mem address
  set m := setIdtReg g (setIdtGates g.idt address t.mem mainGates) with hm
  have hidtr : tableRegAt m g.idtReg = ⟨g.idt, 4095⟩ := by
    rw [hm, tableRegAt, setIdtReg, readLe_writeLe_of_disjoint (by omega), readLe_writeLe_same, readLe_writeLe_same,
      TableReg.mk.injEq]
    omega
  have hidt : ∀ x, g.idt ≤ x → x < g.idt + 4096 → m x = setIdtGates g.idt address t.mem mainGates x := by
    intro x hx hx'
    rw [hm, setIdtReg, writeLe, if_neg (by omega), writeLe, if_neg (by omega)]
  clear_value m
  -- the tables `init_gdt` hands to the processor
  obtain ⟨htss, hbase⟩ := tss_initGdtTables hg m
  have hgdt : GdtOk g ⟨initGdtTables g m, tableRegAt (initGdtTables g m) g.gdtPtr, tableRegAt m g.idtReg, t.tr⟩ := by
    refine ⟨tableRegAt_initGdtTables hg m, fun i hi hi' => segment_initGdtTables hg m hi hi', ?_⟩
    intro i hi hi'
    obtain rfl | rfl : i = 5 ∨ i = 6 := by omega
    · have haccess : (0x89 / 16 % 2 == 1) = false := by decide
      rw [Descriptor.isSegment, htss]
      exact haccess
    · have hupper := access_upper_setTssGate (clearTss g.tssEntry (initSegments g.gdtEntries
        (writeLe (writeLe m g.gdtPtr 2 (8 * 7 - 1)) (g.gdtPtr + 2) 8 g.gdtEntries))) g.gdtEntries 5
        (UInt64.ofNat g.tssEntry) (UInt64.ofNat (tssSize - 1))
      rw [Descriptor.isSegment, initGdtTables, hupper]
      rfl
  obtain ⟨t₁, h₁, hok₁, hi₁, hm₁⟩ := gdtFlush_spec
    (t := ⟨initGdtTables g m, t.gdtr, tableRegAt m g.idtReg, t.tr⟩) hgdt
  have hd₁ : descriptorAt t₁.mem (g.gdtEntries + 8 * 5) = ⟨g.tssEntry % 2 ^ 32, 103, 0x89, 0⟩ :=
    (descriptorAt_congr fun x hx _ => hm₁ x (by omega)).trans htss
  have hb₁ : systemBase t₁.mem (g.gdtEntries + 8 * 5) = g.tssEntry := by
    rw [← hbase, systemBase, systemBase, hd₁, htss]
    rw [readLe_congr fun x hx hx' => hm₁ x (by omega)]
  obtain ⟨t₂, h₂, hok₂, hi₂, htr₂, hm₂⟩ := tssFlush_spec hok₁ hd₁
  -- neither touches the TSS or the gates
  have hrest : ∀ x, x < g.gdtEntries ∨ g.gdtEntries + 56 ≤ x → t₂.mem x = initGdtTables g m x := by
    intro x hx
    rw [hm₂ x hx, hm₁ x (by omega)]
  have hgate : ∀ n, n < 256 → gateAt t₂.mem (g.idt + 16 * n)
      = gateAt (setIdtGates g.idt address t.mem mainGates) (g.idt + 16 * n) := by
    intro n hn
    apply gateAt_congr
    intro x hx hx'
    rw [hrest x (by omega), initGdtTables_of_notMem m (by omega) (by omega) (by omega), hidt x (by omega) (by omega)]
  refine ⟨t₂, ?_, hok₂, ?_, ?_, ?_, ?_, ?_⟩
  · show (gdtFlush ⟨initGdtTables g (setIdtReg g _), t.gdtr, tableRegAt (setIdtReg g _) g.idtReg, t.tr⟩ g.gdtPtr).bind
      tssFlush = some t₂
    rw [← hm, h₁]
    exact h₂
  · rw [hi₂, hi₁]
    exact hidtr
  · rw [htr₂, hb₁]
  · rw [readLe_congr fun x hx hx' => hrest x (by omega)]
    exact stack_initGdtTables hg m
  · intro v
    have hv : v.number.toNat < 256 := by cases v <;> decide
    rw [hgate _ hv, hgates v]
  · intro n hn hnone
    rw [hgate n hn, hempty n hnone]
    exact readLe_of_zeros fun x hx hx' => hzero x (by omega) (by omega)

end Setup

/-! ### Runs -/

section Run

variable {g : Globals} {address : Vector → UInt64} {rsp0 : ℕ} {t : Tables}

/-- Stores outside the TSS and the gates, and marks, keep everything. -/
theorem TablesOk.of_frame (h : TablesOk g address rsp0 t) {t' : Tables} (hgdt : GdtOk g t') (hidtr : t'.idtr = t.idtr)
    (htr : t'.tr = t.tr)
    (hsame : ∀ x, g.tssEntry ≤ x ∧ x < g.tssEntry + 104 ∨ g.idt ≤ x ∧ x < g.idt + 4096 → t'.mem x = t.mem x) :
    TablesOk g address rsp0 t' := by
  have hgate : ∀ n, n < 256 → gateAt t'.mem (g.idt + 16 * n) = gateAt t.mem (g.idt + 16 * n) := fun n hn =>
    gateAt_congr fun x hx hx' => hsame x (by omega)
  refine ⟨hgdt, hidtr.trans h.idtr, htr.trans h.tr, ?_, ?_, ?_⟩
  · rw [readLe_congr fun x hx hx' => hsame x (by omega)]
    exact h.stack
  · intro v
    have hv : v.number.toNat < 256 := by cases v <;> decide
    rw [hgate _ hv, h.gate v]
  · intro n hn hnone
    rw [hgate n hn, h.empty n hn hnone]

theorem GdtOk.of_frame (h : GdtOk g t) {t' : Tables} (hgdtr : t'.gdtr = t.gdtr)
    (hsame : ∀ x, g.gdtEntries ≤ x → x < g.gdtEntries + 56 → t'.mem x = t.mem x) : GdtOk g t' := by
  have hd : ∀ i, i ≤ 6 → descriptorAt t'.mem (g.gdtEntries + 8 * i) = descriptorAt t.mem (g.gdtEntries + 8 * i) :=
    fun i hi => descriptorAt_congr fun x hx hx' => hsame x (by omega) (by omega)
  refine ⟨hgdtr.trans h.gdtr, ?_, ?_⟩
  · intro i hi hi'
    rw [hd i (by omega)]
    exact h.segment i hi hi'
  · intro i hi hi'
    rw [hd i hi']
    exact h.system i hi hi'

/-- **One event** keeps the tables; `set_tss_rsp0` changes the stack, nothing else does. -/
theorem tablesOk_step (hg : g.Placed) (h : TablesOk g address rsp0 t) (e : Event) (he : Allowed g t e) :
    TablesOk g address (lastRsp0 [e] rsp0) (step g t e) := by
  obtain ⟨-, hgt, hgi, -, -, hti, -⟩ := hg.apart
  cases e with
  | setRsp0 rsp =>
    have hout : ∀ x, x < g.tssEntry + 4 ∨ g.tssEntry + 12 ≤ x → setTssRsp0 g t.mem rsp x = t.mem x := by
      intro x hx
      rw [setTssRsp0, writeLe, if_neg (by omega)]
    have hgate : ∀ n, n < 256 → gateAt (setTssRsp0 g t.mem rsp) (g.idt + 16 * n) = gateAt t.mem (g.idt + 16 * n) :=
      fun n hn => gateAt_congr fun x hx hx' => hout x (by omega)
    have hrsp := rsp.toNat_lt
    refine ⟨h.gdt.of_frame rfl fun x hx hx' => hout x (by omega), h.idtr, h.tr, ?_, ?_, ?_⟩
    · show readLe (writeLe t.mem (g.tssEntry + 4) 8 rsp.toNat) (g.tssEntry + 4) 8 = rsp.toNat
      rw [readLe_writeLe_same]
      exact Nat.mod_eq_of_lt hrsp
    · intro v
      have hv : v.number.toNat < 256 := by cases v <;> decide
      exact (hgate _ hv).trans (h.gate v)
    · intro n hn hnone
      exact (congrArg Gate.flags (hgate n hn)).trans (h.empty n hn hnone)
  | load k cpl sel =>
    show TablesOk g address rsp0 ((t.load k cpl sel).getD t)
    cases hload : t.load k cpl sel with
    | none => exact h
    | some t' =>
      obtain ⟨hidtr, htr, hsame⟩ := h.gdt.load_frame hload
      exact h.of_frame (h.gdt.load hload) hidtr htr fun x hx => hsame x (by omega)
  | store a b =>
    have ha : ∀ x ∈ g.blocks, a < x.1 ∨ x.1 + x.2 ≤ a := he
    have hgdt := ha (g.gdtEntries, 56) (by simp [Globals.blocks])
    have htss := ha (g.tssEntry, tssSize) (by simp [Globals.blocks])
    have hidt := ha (g.idt, 4096) (by simp [Globals.blocks])
    rw [tssSize] at htss
    dsimp only at hgdt htss hidt
    have hsame : ∀ x, x ≠ a → Function.update t.mem a b x = t.mem x := fun x hx => Function.update_of_ne hx b t.mem
    exact h.of_frame (h.gdt.of_frame rfl fun x hx hx' => hsame x (by omega)) rfl rfl fun x hx => hsame x (by omega)

theorem lastRsp0_cons (e : Event) (es : List Event) (rsp : ℕ) :
    lastRsp0 (e :: es) rsp = lastRsp0 es (lastRsp0 [e] rsp) := by
  cases e <;> rfl

theorem tablesOk_run (hg : g.Placed) (es : List Event) : ∀ {t : Tables} {rsp0 : ℕ}, TablesOk g address rsp0 t →
    Admits (step g) (Allowed g) t es → TablesOk g address (lastRsp0 es rsp0) (run (step g) t es) := by
  induction es with
  | nil =>
    intro t rsp0 h _
    exact h
  | cons e es ih =>
    intro t rsp0 h hes
    rw [lastRsp0_cons]
    exact ih (tablesOk_step hg h e hes.1) hes.2

/-- The levels the kernel runs at. -/
theorem cpl_of_selector {cs : UInt16} (h : cs = 0x08 ∨ cs = 0x23) :
    (cs &&& 3).toNat = 0 ∧ cs = 0x08 ∧ ¬ cs &&& 3 = 3 ∨ (cs &&& 3).toNat = 3 ∧ cs = 0x23 ∧ cs &&& 3 = 3 := by
  obtain rfl | rfl := h <;> decide

/-- The segment of the stubs. -/
theorem GdtOk.kernel_code (h : GdtOk g t) : ∃ d, t.selected 0x08 = some d ∧ d.isSegment = true ∧ d.isCode = true ∧
    d.long = true ∧ d.present = true ∧ d.conforming = false ∧ d.dpl = 0 := by
  obtain ⟨hsegment, hpresent, -, hconforming, hcode, hlong, hdpl⟩ :=
    parts_of_mem (i := 1) le_rfl (by decide) (h.segment 1 le_rfl (by decide))
  refine ⟨_, ?_, hsegment, hcode, hlong, hpresent, hconforming, hdpl⟩
  rw [h.selected]
  rfl

/-- Which stack an interrupt to ring 0 is taken on. -/
theorem TablesOk.stackFor (h : TablesOk g address rsp0 t) (c : Cpu) (cpl : ℕ) :
    t.stackFor c 0 cpl 0 = some (if 0 < cpl then UInt64.ofNat rsp0 else c.rsp) := by
  have hword : t.tssWord (4 + 8 * 0) = some (UInt64.ofNat rsp0) := by
    rw [Tables.tssWord, h.tr, ← h.stack]
    rfl
  rw [Tables.stackFor, if_neg (by decide), hword]
  split <;> rfl

/-- **Interrupts** through the tables: to the stub of their number, in the kernel's code segment, masked, on the
stack of the TSS or the one in use. -/
theorem TablesOk.enter_vector (h : TablesOk g address rsp0 t) {c : Cpu} (hcs : c.cs = 0x08 ∨ c.cs = 0x23) (v : Vector)
    (soft : Bool) : t.enter c v.number.toNat soft
      = if soft = true ∧ c.cs = 0x23 ∧ v ≠ .isr128 then .fault 13
        else .entered (address v).toNat 0x08 (deliverySp c rsp0) true := by
  obtain ⟨d, hd, hsegment, hcode, hlong, hpresent, hconforming, hdpl⟩ := h.gdt.kernel_code
  have hroom : ¬ 4095 < 16 * v.number.toNat + 15 := by cases v <;> decide
  have hstack := h.stackFor c (c.cs &&& 3).toNat
  generalize hgate : (if v = .isr128 then 0xee else 0x8e : ℕ) = flags
  have hkind : flags % 32 = 14 := by rw [← hgate]; split <;> rfl
  have hpresent' : (flags / 128 % 2 == 1) = true := by rw [← hgate]; split <;> rfl
  have hring : flags / 32 % 4 = if v = .isr128 then 3 else 0 := by rw [← hgate]; split <;> rfl
  have hguard : (soft = true ∧ (if v = .isr128 then 3 else 0) < (c.cs &&& 3).toNat)
      ↔ (soft = true ∧ c.cs = 0x23 ∧ v ≠ .isr128) := by
    apply and_congr_right
    intro _
    obtain ⟨hcpl, hkernel, -⟩ | ⟨hcpl, huser, -⟩ := cpl_of_selector hcs
    · rw [hcpl, hkernel]
      simp
    · rw [hcpl, huser]
      by_cases hv : v = .isr128 <;> simp [hv]
  have hsp : (if 0 < (c.cs &&& 3).toNat then UInt64.ofNat rsp0 else c.rsp)
      = if c.cs &&& 3 = 3 then UInt64.ofNat rsp0 else c.rsp := by
    obtain ⟨hcpl, -, hring0⟩ | ⟨hcpl, -, hring3⟩ := cpl_of_selector hcs
    · rw [hcpl, if_neg hring0]
      rfl
    · rw [hcpl, if_pos hring3]
      rfl
  rw [hsp] at hstack
  simp only [Tables.enter, h.idtr, h.gate v, hgate, Gate.kind, Gate.dpl, Gate.present, hkind, hpresent', hring, hroom, hd,
    hsegment, hcode, hlong, hpresent, hconforming, hdpl, hguard]
  by_cases hdenied : soft = true ∧ c.cs = 0x23 ∧ v ≠ .isr128
  · rw [if_pos hdenied, if_pos hdenied]
    rfl
  · rw [if_neg hdenied, if_neg hdenied]
    simp only [ne_eq, not_true_eq_false, false_and, or_self, if_false, Bool.not_true, Bool.false_eq_true, Nat.not_lt_zero,
      decide_false, Bool.or_self, hstack]
    rfl

theorem TablesOk.enter_other (h : TablesOk g address rsp0 t) (c : Cpu) {n : ℕ} (hn : ∀ v : Vector, v.number.toNat ≠ n)
    (soft : Bool) : t.enter c n soft = .fault 13 := by
  have hfault : t.idtr.limit < 16 * n + 15 ∨
      ((gateAt t.mem (t.idtr.base + 16 * n)).kind ≠ 14 ∧ (gateAt t.mem (t.idtr.base + 16 * n)).kind ≠ 15) := by
    rw [h.idtr]
    by_cases hsmall : n < 256
    · have hkind : (gateAt t.mem (g.idt + 16 * n)).kind = 0 := by rw [Gate.kind, h.empty n hsmall hn]
      exact Or.inr (by rw [hkind]; decide)
    · exact Or.inl (by show 4095 < 16 * n + 15; omega)
  rw [Tables.enter]
  exact if_pos hfault

end Run

/-! ### The main results -/

/-- **Interrupts enter their stubs**, in every run after `main` has set up the tables: the gate of a vector is the
stub that pushes its number, code runs on in the kernel's segment with interrupts masked, and the stack is the one
`Multitasking` delivers on: that of the last `set_tss_rsp0` from ring 3, the one in use from ring 0.  A program in
ring 3 can raise the system call and no other vector, and a vector without a stub is a general protection fault. -/
theorem interrupts_enter_stubs {g : Globals} (hg : g.Placed) (address : Vector → UInt64) (t : Tables)
    (hzero : ∀ x, g.idt ≤ x → x < g.idt + 4096 → t.mem x = 0) :
    ∃ t', bootTables g address t = some t' ∧ ∀ es, Admits (step g) (Allowed g) t' es →
      ∀ (c : Cpu) (soft : Bool), (c.cs = 0x08 ∨ c.cs = 0x23) →
        (∀ v : Vector, (run (step g) t' es).enter c v.number.toNat soft
          = if soft = true ∧ c.cs = 0x23 ∧ v ≠ .isr128 then .fault 13
            else .entered (address v).toNat 0x08 (deliverySp c (lastRsp0 es 0)) true) ∧
        ∀ n, (∀ v : Vector, v.number.toNat ≠ n) → (run (step g) t' es).enter c n soft = .fault 13 := by
  obtain ⟨t', hboot, hok⟩ := tablesOk_boot hg address hzero
  refine ⟨t', hboot, ?_⟩
  intro es hes c soft hcs
  have hrun := tablesOk_run hg es hok hes
  exact ⟨fun v => hrun.enter_vector hcs v soft, fun n hn => hrun.enter_other c hn soft⟩

/-- **What can be loaded**, in every run after `main` has set up the tables: ring 3 gets its own data and code and
nothing of the kernel, and the kernel returns to its own code or to that of ring 3 and nowhere else.  The null
selector goes into the data segment registers and, in the kernel, into `ss`. -/
theorem selectors_of_ring {g : Globals} (hg : g.Placed) (address : Vector → UInt64) (t : Tables)
    (hzero : ∀ x, g.idt ≤ x → x < g.idt + 4096 → t.mem x = 0) :
    ∃ t', bootTables g address t = some t' ∧ ∀ es, Admits (step g) (Allowed g) t' es →
      ∀ (k : Segment) (cpl sel : ℕ), (cpl = 0 ∨ cpl = 3) →
        (((run (step g) t' es).load k cpl sel).isSome = true ↔ Loadable cpl k sel) := by
  obtain ⟨t', hboot, hok⟩ := tablesOk_boot hg address hzero
  refine ⟨t', hboot, ?_⟩
  intro es hes k cpl sel hcpl
  exact (tablesOk_run hg es hok hes).gdt.load_isSome_iff k sel hcpl

/-- The globals in pages of their own, in memory that is all zero. -/
def spreadGlobals : Globals := ⟨0x20000, 0x21000, 0x22000, 0x23000, 0x24000⟩

def zeroTables : Tables := ⟨fun _ => 0, ⟨0, 0⟩, ⟨0, 0⟩, ⟨0, 0⟩⟩

theorem spreadGlobals_placed : spreadGlobals.Placed := ⟨by decide, by decide⟩

/-- A store elsewhere, then the switch to a process with its kernel stack at `0x9f000`. -/
def switchEvents : List Event := [.store 0x30000 1, .setRsp0 0x9f000]

theorem switchEvents_admitted (t : Tables) : Admits (step spreadGlobals) (Allowed spreadGlobals) t switchEvents := by
  refine ⟨?_, trivial, trivial⟩
  show ∀ x ∈ spreadGlobals.blocks, 0x30000 < x.1 ∨ x.1 + x.2 ≤ 0x30000
  decide

theorem interrupts_enter_stubs_spread :
    ∃ t', bootTables spreadGlobals (fun _ => 0x10000) zeroTables = some t' ∧
      (run (step spreadGlobals) t' switchEvents).enter { smallCpu with cs := 0x23 } 128 true
        = .entered 0x10000 0x08 0x9f000 true := by
  obtain ⟨t', hboot, hrun⟩ := interrupts_enter_stubs spreadGlobals_placed (fun _ => 0x10000) zeroTables
    fun _ _ _ => rfl
  have h := (hrun switchEvents (switchEvents_admitted t') { smallCpu with cs := 0x23 } true (Or.inr rfl)).1 .isr128
  refine ⟨t', hboot, h.trans ?_⟩
  decide

theorem selectors_of_ring_spread :
    ∃ t', bootTables spreadGlobals (fun _ => 0x10000) zeroTables = some t' ∧
      ((run (step spreadGlobals) t' switchEvents).load .stack 0 0).isSome = true ∧
        ¬ ((run (step spreadGlobals) t' switchEvents).load .data 3 0x10).isSome = true := by
  obtain ⟨t', hboot, hrun⟩ := selectors_of_ring spreadGlobals_placed (fun _ => 0x10000) zeroTables fun _ _ _ => rfl
  have hloads := hrun switchEvents (switchEvents_admitted t')
  refine ⟨t', hboot, (hloads .stack 0 0 (Or.inl rfl)).mpr (by simp [Loadable]), ?_⟩
  rw [hloads .data 3 0x10 (Or.inr rfl)]
  simp [Loadable]

end OsEojin.Descriptors
