import OsEojin.BootFile

/-!
# `read_sectors`, register by register

The subroutine of `boot_fat16.asm` counts the LBA in `AX`, whose high byte is also the number of the BIOS
function and then its answer; and between the BIOS call and the branch on the carry flag it adds to `SP`.  The
BIOS is a sequence of outcomes; the memory the sectors go to is not tracked, and the stack is the bytes from
`SP` on.

* `Cpu`: the registers, with one definition for each instruction that needs more than an assignment;
* `readSectors`: the subroutine, with the packets the BIOS is handed;
* `round_eq`, `loop_returns`, `loop_packets`: one round, and the loop;
* `read_sectors_requests_iff`: when the packets are the right ones;
* `read_sectors_reports_iff`: when an error is reported.
-/

namespace OsEojin.ReadSectors

open OsEojin.Ata OsEojin.Boot

/-! ### The machine -/

/-- The registers `read_sectors` works with: `EAX` in two halves, the carry flag, and the bytes of the stack. -/
@[ext]
structure Cpu where
  eaxHigh : UInt16
  ax : UInt16
  cx : UInt16
  dx : UInt16
  bx : UInt16
  bp : UInt16
  si : UInt16
  di : UInt16
  sp : UInt16
  es : UInt16
  carry : Bool
  stack : List UInt8
  deriving DecidableEq

/-- `push` of a word.  `SP` wraps here; on the processor a push across the end of the stack segment faults. -/
def Cpu.push16 (s : Cpu) (v : UInt16) : Cpu := { s with sp := s.sp - 2, stack := lo8 v :: hi8 v :: s.stack }

/-- `push` of a double word, with the same wrap. -/
def Cpu.push32 (s : Cpu) (high low : UInt16) : Cpu :=
  { s with sp := s.sp - 4, stack := lo8 low :: hi8 low :: lo8 high :: hi8 high :: s.stack }

/-- The word on top of the stack. -/
def Cpu.top (s : Cpu) : UInt16 := le16 (s.stack.getD 0 0) (s.stack.getD 1 0)

/-- The rest of a `pop`. -/
def Cpu.drop16 (s : Cpu) : Cpu := { s with sp := s.sp + 2, stack := s.stack.drop 2 }

/-- `pusha`. -/
def Cpu.pusha (s : Cpu) : Cpu :=
  (((((((s.push16 s.ax).push16 s.cx).push16 s.dx).push16 s.bx).push16 s.sp).push16 s.bp).push16 s.si).push16 s.di

/-- `popa`: the word for `SP` is skipped. -/
def Cpu.popa (s : Cpu) : Cpu :=
  let s := { s.drop16 with di := s.top }
  let s := { s.drop16 with si := s.top }
  let s := { s.drop16 with bp := s.top }
  let s := s.drop16
  let s := { s.drop16 with bx := s.top }
  let s := { s.drop16 with dx := s.top }
  let s := { s.drop16 with cx := s.top }
  { s.drop16 with ax := s.top }

/-- `mov ah, v`. -/
def Cpu.movAh (s : Cpu) (v : UInt8) : Cpu := { s with ax := le16 (lo8 s.ax) v }

/-- `add sp, n`: like every addition it sets the carry flag. -/
def Cpu.addSp (s : Cpu) (n : UInt16) : Cpu :=
  { s with
    sp := s.sp + n
    stack := s.stack.drop n.toNat
    carry := decide (65536 ≤ s.sp.toNat + n.toNat) }

/-! ### The BIOS -/

/-- The disk address packet. -/
structure Packet where
  size : UInt8
  count : UInt16
  offset : UInt16
  segment : UInt16
  lba : ℕ
  deriving DecidableEq

/-- The packet at `DS:SI`, where `SI` is `SP`. -/
def packetAt (stack : List UInt8) : Packet where
  size := stack.getD 0 0
  count := le16 (stack.getD 2 0) (stack.getD 3 0)
  offset := le16 (stack.getD 4 0) (stack.getD 5 0)
  segment := le16 (stack.getD 6 0) (stack.getD 7 0)
  lba := (le16 (stack.getD 8 0) (stack.getD 9 0)).toNat + 2 ^ 16 * (le16 (stack.getD 10 0) (stack.getD 11 0)).toNat +
    2 ^ 32 * (le16 (stack.getD 12 0) (stack.getD 13 0)).toNat +
    2 ^ 48 * (le16 (stack.getD 14 0) (stack.getD 15 0)).toNat

/-- What one call answers; the other registers stay. -/
structure Outcome where
  ah : UInt8
  carry : Bool

/-- `int 0x13`. -/
def Cpu.int13 (s : Cpu) (o : Outcome) : Cpu := { s.movAh o.ah with carry := o.carry }

/-! ### The subroutine -/

/-- The six pushes at `.loop`. -/
def Cpu.pushPacket (s : Cpu) : Cpu :=
  (((((s.push32 0 0).push32 s.eaxHigh s.ax).push16 s.es).push16 s.bx).push16 1).push16 0x10

/-- From `.loop` to the BIOS call. -/
def Cpu.request (s : Cpu) (driveNumber : UInt8) : Cpu :=
  let s := s.pushPacket.movAh 0x42
  { s with dx := le16 driveNumber (hi8 s.dx), si := s.sp }

/-- From the branch on the carry flag to `jnz`. -/
def Cpu.next (s : Cpu) : Cpu := { s with ax := s.ax + 1, bx := s.bx + 512, cx := s.cx - 1 }

/-- Where the subroutine goes: back to its caller at `ip`, or to `disk_error`. -/
inductive Exit
  | returned (ip : UInt16) (s : Cpu)
  | diskError (s : Cpu)

/-- `.loop`, with call number `k` of the BIOS next: the packets, and the exit from the loop; `popa` and `ret`
are in `finish`. -/
def loop (driveNumber : UInt8) (bios : ℕ → Outcome) : ℕ → ℕ → Cpu → Option (List Packet × (Cpu ⊕ Cpu))
  | 0, _, _ => none
  | fuel + 1, k, s =>
    let s := s.request driveNumber
    let packet := packetAt s.stack
    let s := (s.int13 (bios k)).addSp 16
    -- `jc .fail`
    if s.carry then some ([packet], .inr s)
    else
      let s := s.next
      -- `jnz .loop`
      if s.cx = 0 then some ([packet], .inl s)
      else (loop driveNumber bios fuel (k + 1) s).map fun r => (packet :: r.1, r.2)

/-- `popa` and `ret`, or the jump to `disk_error`. -/
def finish : Cpu ⊕ Cpu → Exit
  | .inl s => .returned s.popa.top s.popa.drop16
  | .inr s => .diskError s

/-- `read_sectors`. -/
def readSectors (driveNumber : UInt8) (bios : ℕ → Outcome) (s : Cpu) : Option (List Packet × Exit) :=
  (loop driveNumber bios 65536 0 { s.pusha with eaxHigh := 0 }).map fun r => (r.1, finish r.2)

/-! ### One round -/

variable {s : Cpu} {driveNumber : UInt8} {bios : ℕ → Outcome} {fuel k : ℕ}

/-- The packet of a round. -/
def Cpu.packet (s : Cpu) : Packet := ⟨0x10, 1, s.bx, s.es, s.ax.toNat + 2 ^ 16 * s.eaxHigh.toNat⟩

theorem packetAt_request (s : Cpu) (driveNumber : UInt8) : packetAt (s.request driveNumber).stack = s.packet := by
  have hstack : (s.request driveNumber).stack = [0x10, 0, 1, 0, lo8 s.bx, hi8 s.bx, lo8 s.es, hi8 s.es, lo8 s.ax,
      hi8 s.ax, lo8 s.eaxHigh, hi8 s.eaxHigh, 0, 0, 0, 0] ++ s.stack := rfl
  rw [hstack]
  show (⟨0x10, 1, le16 (lo8 s.bx) (hi8 s.bx), le16 (lo8 s.es) (hi8 s.es),
    (le16 (lo8 s.ax) (hi8 s.ax)).toNat + 2 ^ 16 * (le16 (lo8 s.eaxHigh) (hi8 s.eaxHigh)).toNat +
      2 ^ 32 * 0 + 2 ^ 48 * 0⟩ : Packet) = _
  rw [le16_lo8_hi8, le16_lo8_hi8, le16_lo8_hi8, le16_lo8_hi8]
  rfl

/-- The registers at the branch: `SP` is back, and the carry flag says whether adding to it wrapped. -/
def Cpu.atBranch (s : Cpu) (driveNumber : UInt8) (o : Outcome) : Cpu :=
  { s with
    ax := le16 (lo8 s.ax) o.ah
    dx := le16 driveNumber (hi8 s.dx)
    si := s.sp - 16
    carry := decide (s.sp.toNat < 16) }

theorem add_wraps_iff (a : UInt16) : 65536 ≤ (a - 16).toNat + 16 ↔ a.toNat < 16 := by
  have hsub : (a - 16).toNat = (65536 - 16 + a.toNat) % 65536 := UInt16.toNat_sub a 16
  have ha : a.toNat < 65536 := UInt16.toNat_lt a
  omega

theorem pushPacket_eq (s : Cpu) :
    s.pushPacket = { s with
      sp := s.sp - 16
      stack := [0x10, 0, 1, 0, lo8 s.bx, hi8 s.bx, lo8 s.es, hi8 s.es, lo8 s.ax, hi8 s.ax, lo8 s.eaxHigh,
        hi8 s.eaxHigh, 0, 0, 0, 0] ++ s.stack } := by
  have hsp : s.sp - 4 - 4 - 2 - 2 - 2 - 2 = s.sp - 16 := by grind
  obtain ⟨eaxHigh, ax, cx, dx, bx, bp, si, di, sp, es, carry, stack⟩ := s
  simp only [Cpu.pushPacket, Cpu.push32, Cpu.push16, hsp]
  rfl

/-- **One round** up to the branch: what the BIOS said in the carry flag is gone. -/
theorem round_eq (s : Cpu) (driveNumber : UInt8) (o : Outcome) :
    ((s.request driveNumber).int13 o).addSp 16 = s.atBranch driveNumber o := by
  have hback : s.sp - 16 + 16 = s.sp := UInt16.sub_add_cancel s.sp 16
  have hcarry : decide (65536 ≤ (s.sp - 16).toNat + (16 : UInt16).toNat) = decide (s.sp.toNat < 16) :=
    decide_eq_decide.mpr (add_wraps_iff s.sp)
  rw [Cpu.request, pushPacket_eq]
  obtain ⟨eaxHigh, ax, cx, dx, bx, bp, si, di, sp, es, carry, stack⟩ := s
  simp only [Cpu.movAh, Cpu.int13, Cpu.addSp, Cpu.atBranch, lo8_le16, hback, hcarry]
  rfl

/-! ### The loop -/

/-- With a small `SP` the first round is the last, whatever the BIOS says. -/
theorem loop_wrap (h : s.sp.toNat < 16) :
    loop driveNumber bios (fuel + 1) k s = some ([s.packet], .inr (s.atBranch driveNumber (bios k))) := by
  rw [loop, round_eq, packetAt_request]
  exact if_pos (decide_eq_true h)

theorem loop_last (h : 16 ≤ s.sp.toNat) (hcx : s.cx = 1) :
    loop driveNumber bios (fuel + 1) k s = some ([s.packet], .inl (s.atBranch driveNumber (bios k)).next) := by
  have hcarry : (s.atBranch driveNumber (bios k)).carry = false := decide_eq_false (by omega)
  have hzero : (s.atBranch driveNumber (bios k)).next.cx = 0 := by
    show s.cx - 1 = 0
    rw [hcx]
    rfl
  rw [loop, round_eq, packetAt_request]
  simp only [hcarry, hzero, Bool.false_eq_true, if_false, if_true]

theorem loop_more (h : 16 ≤ s.sp.toNat) (hcx : s.cx ≠ 1) :
    loop driveNumber bios (fuel + 1) k s =
      (loop driveNumber bios fuel (k + 1) (s.atBranch driveNumber (bios k)).next).map
        fun r => (s.packet :: r.1, r.2) := by
  have hcarry : (s.atBranch driveNumber (bios k)).carry = false := decide_eq_false (by omega)
  have hzero : (s.atBranch driveNumber (bios k)).next.cx ≠ 0 := by
    intro h0
    apply hcx
    have h1 : s.cx - 1 = 0 := h0
    grind
  rw [loop, round_eq, packetAt_request]
  simp only [hcarry, hzero, Bool.false_eq_true, if_false]

theorem rounds_pred {cx : UInt16} (h : cx ≠ 1) : rounds cx = rounds (cx - 1) + 1 := by
  have hlt : cx.toNat < 65536 := UInt16.toNat_lt cx
  have hsub : (cx - 1).toNat = (65536 - 1 + cx.toNat) % 65536 := UInt16.toNat_sub cx 1
  have hne : cx.toNat ≠ 1 := fun he => h (UInt16.toNat_inj.mp he)
  have hzero : ∀ x : UInt16, x = 0 ↔ x.toNat = 0 := fun x => UInt16.toNat_inj.symm
  rw [rounds, rounds]
  by_cases h0 : cx = 0
  · rw [if_pos h0, h0]
    rfl
  · have hpos : cx.toNat ≠ 0 := fun he => h0 ((hzero cx).mpr he)
    rw [if_neg h0, if_neg fun he => by rw [hzero] at he; omega]
    omega

/-- What the loop leaves alone. -/
structure Kept (s s' : Cpu) : Prop where
  eaxHigh : s'.eaxHigh = s.eaxHigh
  bp : s'.bp = s.bp
  di : s'.di = s.di
  sp : s'.sp = s.sp
  es : s'.es = s.es
  stack : s'.stack = s.stack

/-- **The loop** makes a call of the BIOS for each sector, and comes to its end whatever the answers are. -/
theorem loop_returns (driveNumber : UInt8) (bios : ℕ → Outcome) (k : ℕ) (hsp : 16 ≤ s.sp.toNat)
    (hfuel : rounds s.cx ≤ fuel) :
    ∃ packets s', loop driveNumber bios fuel k s = some (packets, .inl s') ∧ packets.length = rounds s.cx ∧
      Kept s s' := by
  induction fuel generalizing k s with
  | zero =>
    have hpos : 0 < rounds s.cx := by
      rw [rounds]
      split
      · decide
      · rename_i h0
        exact Nat.pos_of_ne_zero fun he => h0 (UInt16.toNat_inj.mp he)
    omega
  | succ fuel ih =>
    by_cases hcx : s.cx = 1
    · refine ⟨_, _, loop_last hsp hcx, ?_, ⟨rfl, rfl, rfl, rfl, rfl, rfl⟩⟩
      rw [hcx]
      rfl
    · have hpred := rounds_pred hcx
      have hsp' : 16 ≤ (s.atBranch driveNumber (bios k)).next.sp.toNat := hsp
      obtain ⟨packets, s', hloop, hlength, hkept⟩ := ih (k + 1) hsp' (show rounds (s.cx - 1) ≤ fuel from by omega)
      refine ⟨s.packet :: packets, s', ?_, ?_, ⟨hkept.1, hkept.2, hkept.3, hkept.4, hkept.5, hkept.6⟩⟩
      · rw [loop_more hsp hcx, hloop]
        rfl
      · rw [List.length_cons, hlength, hpred]
        rfl

/-- A successful call clears the high byte of the counter. -/
theorem ah_zero (ax : UInt16) : le16 (lo8 ax) 0 = afterInt13 ax := by
  rw [← UInt16.toNat_inj, toNat_le16, toNat_lo8, toNat_afterInt13]
  rfl

/-- The packet that is asked for in round `i`. -/
def packetOf (s : Cpu) (lba : ℕ → ℕ) (i : ℕ) : Packet :=
  ⟨0x10, 1, UInt16.ofNat (s.bx.toNat + 512 * i), s.es, lba i⟩

theorem packet_eq (hhigh : s.eaxHigh = 0) : s.packet = packetOf s (fun i => (lbaAt s.ax i).toNat) 0 := by
  rw [Cpu.packet, packetOf, hhigh, Nat.mul_zero, Nat.add_zero, UInt16.ofNat_toNat]
  rfl

/-- Round `i` after the first one is round `i + 1`. -/
theorem packetOf_next {o : Outcome} (ho : o.ah = 0) (i : ℕ) :
    packetOf (s.atBranch driveNumber o).next
        (fun i => (lbaAt (s.atBranch driveNumber o).next.ax i).toNat) i =
      packetOf s (fun i => (lbaAt s.ax i).toNat) (i + 1) := by
  have hax : (s.atBranch driveNumber o).next.ax = afterInt13 s.ax + 1 := by
    rw [← ah_zero, ← ho]
    rfl
  have hbx : (s.atBranch driveNumber o).next.bx = s.bx + 512 := rfl
  have hoffset : UInt16.ofNat ((s.bx + 512).toNat + 512 * i) = UInt16.ofNat (s.bx.toNat + 512 * (i + 1)) := by
    rw [← UInt16.toNat_inj, UInt16.toNat_ofNat', UInt16.toNat_ofNat', UInt16.toNat_add]
    show ((s.bx.toNat + 512) % 65536 + 512 * i) % 65536 = _
    omega
  rw [packetOf, packetOf, hax, hbx, hoffset]
  rfl

/-- **The packets**: the buffer moves on by a sector, the counter as far as its low byte goes. -/
theorem loop_packets (hbios : ∀ k, (bios k).ah = 0) (hhigh : s.eaxHigh = 0) {packets : List Packet} {e : Cpu ⊕ Cpu}
    (hsp : 16 ≤ s.sp.toNat) (h : loop driveNumber bios fuel k s = some (packets, e)) :
    packets = (List.range (rounds s.cx)).map (packetOf s fun i => (lbaAt s.ax i).toNat) := by
  induction fuel generalizing k s packets with
  | zero => cases h
  | succ fuel ih =>
    by_cases hcx : s.cx = 1
    · rw [loop_last hsp hcx] at h
      cases h
      rw [hcx, packet_eq hhigh]
      rfl
    · rw [loop_more hsp hcx] at h
      obtain ⟨⟨rest, e'⟩, hrest, heq⟩ := Option.map_eq_some_iff.mp h
      cases heq
      rw [ih (s := (s.atBranch driveNumber (bios k)).next) hhigh hsp hrest, rounds_pred hcx,
        List.range_succ_eq_map, List.map_cons, List.map_map, packet_eq hhigh]
      exact congrArg (_ :: ·) (List.map_congr_left fun i _ => packetOf_next (hbios k) i)

/-! ### The subroutine -/

theorem pusha_eq (s : Cpu) :
    s.pusha = { s with
      sp := s.sp - 16
      stack := [lo8 s.di, hi8 s.di, lo8 s.si, hi8 s.si, lo8 s.bp, hi8 s.bp, lo8 s.sp, hi8 s.sp, lo8 s.bx, hi8 s.bx,
        lo8 s.dx, hi8 s.dx, lo8 s.cx, hi8 s.cx, lo8 s.ax, hi8 s.ax] ++ s.stack } := by
  have hsp : s.sp - 2 - 2 - 2 - 2 - 2 - 2 - 2 - 2 = s.sp - 16 := by grind
  obtain ⟨eaxHigh, ax, cx, dx, bx, bp, si, di, sp, es, carry, stack⟩ := s
  simp only [Cpu.pusha, Cpu.push16, hsp]
  rfl

@[simp] theorem pusha_sp (s : Cpu) : s.pusha.sp = s.sp - 16 := by rw [pusha_eq]

@[simp] theorem pusha_cx (s : Cpu) : s.pusha.cx = s.cx := by rw [pusha_eq]

@[simp] theorem pusha_es (s : Cpu) : s.pusha.es = s.es := by rw [pusha_eq]

/-- **`popa`** puts back what `pusha` saved. -/
theorem popa_of_pusha {s' : Cpu} (hsp : s'.sp = s.pusha.sp) (hstack : s'.stack = s.pusha.stack) :
    s'.popa = { s with eaxHigh := s'.eaxHigh, es := s'.es, carry := s'.carry } := by
  have hback : s.sp - 16 + 2 + 2 + 2 + 2 + 2 + 2 + 2 + 2 = s.sp := by grind
  rw [pusha_eq] at hsp hstack
  obtain ⟨eaxHigh, ax, cx, dx, bx, bp, si, di, sp, es, carry, stack⟩ := s
  obtain ⟨eaxHigh', ax', cx', dx', bx', bp', si', di', sp', es', carry', stack'⟩ := s'
  dsimp only at hsp hstack hback
  subst hsp hstack
  simp only [Cpu.popa, Cpu.drop16, Cpu.top, hback, List.cons_append, List.nil_append, List.getD_cons_zero,
    List.getD_cons_succ, List.drop_succ_cons, List.drop_zero, le16_lo8_hi8]

/-- The stack pointer is small when the packet is pushed: one call, and on to `disk_error`. -/
theorem readSectors_wrap (driveNumber : UInt8) (bios : ℕ → Outcome) (h : (s.sp - 16).toNat < 16) :
    ∃ s', readSectors driveNumber bios s = some ([packetOf s (fun _ => s.ax.toNat) 0], .diskError s') := by
  have hsp : ({ s.pusha with eaxHigh := 0 } : Cpu).sp.toNat < 16 := by simpa using h
  have hpacket : ({ s.pusha with eaxHigh := 0 } : Cpu).packet = packetOf s (fun _ => s.ax.toNat) 0 := by
    rw [packet_eq rfl, pusha_eq]
    rfl
  rw [readSectors, loop_wrap hsp, hpacket]
  exact ⟨_, rfl⟩

/-- Else it makes all its calls and returns, with every register but the carry flag and the upper half of `EAX` as
it was. -/
theorem readSectors_returns (driveNumber : UInt8) (bios : ℕ → Outcome) (h : 16 ≤ (s.sp - 16).toNat) :
    ∃ packets carry, readSectors driveNumber bios s =
        some (packets, .returned s.top { s.drop16 with eaxHigh := 0, carry := carry }) ∧
      packets.length = rounds s.cx := by
  have hsp : 16 ≤ ({ s.pusha with eaxHigh := 0 } : Cpu).sp.toNat := by simpa using h
  have hcx : ({ s.pusha with eaxHigh := 0 } : Cpu).cx = s.cx := by simp
  have hes : ({ s.pusha with eaxHigh := 0 } : Cpu).es = s.es := by simp
  have hrounds : rounds s.cx ≤ 65536 := by
    rw [rounds]
    split
    · exact le_rfl
    · exact (UInt16.toNat_lt s.cx).le
  obtain ⟨packets, s', hloop, hlength, hkept⟩ := loop_returns driveNumber bios 0 hsp
    (show rounds ({ s.pusha with eaxHigh := 0 } : Cpu).cx ≤ 65536 from by rw [hcx]; exact hrounds)
  refine ⟨packets, s'.carry, ?_, ?_⟩
  · rw [readSectors, hloop, Option.map_some, finish, popa_of_pusha hkept.sp hkept.stack, hkept.eaxHigh, hkept.es, hes]
    rfl
  · rw [hlength, hcx]

/-- The packets when every call succeeds. -/
theorem readSectors_packets (hbios : ∀ k, (bios k).ah = 0) (h : 16 ≤ (s.sp - 16).toNat) {packets : List Packet}
    {e : Exit} (hread : readSectors driveNumber bios s = some (packets, e)) :
    packets = (List.range (rounds s.cx)).map (packetOf s fun i => (lbaAt s.ax i).toNat) := by
  have hsp : 16 ≤ ({ s.pusha with eaxHigh := 0 } : Cpu).sp.toNat := by simpa using h
  obtain ⟨r, hloop, heq⟩ := Option.map_eq_some_iff.mp hread
  cases heq
  rw [loop_packets hbios rfl hsp hloop, pusha_eq]
  rfl

/-- **The sectors asked for** are those of the loop in `OsEojin.Boot`, where the loader survives them. -/
theorem packets_lba (hbios : ∀ k, (bios k).ah = 0) (h : 16 ≤ (s.sp - 16).toNat) {packets : List Packet} {e : Exit}
    (hread : readSectors driveNumber bios s = some (packets, e)) {d : Disk} {m m' : Lib.ByteMemory.Memory}
    (hboot : (Boot.readSectors d s.ax s.cx s.es s.bx m).2 = some m') :
    packets.map Packet.lba = (Boot.readSectors d s.ax s.cx s.es s.bx m).1 := by
  rw [Boot.readSectors] at hboot ⊢
  rw [readSectors_packets hbios h hread, readLoop_lbas hboot, List.map_map]
  rfl

/-! ### The right sectors -/

/-- Every call succeeds. -/
def succeeds : ℕ → Outcome := fun _ => ⟨0, false⟩

theorem rounds_of_pos (hn : 1 ≤ s.cx.toNat) : rounds s.cx = s.cx.toNat := by
  rw [rounds, if_neg]
  intro h0
  rw [h0] at hn
  exact absurd hn (by decide)

/-- The counter is right in every round exactly when it does not pass 256 before the last one. -/
theorem counts_on_iff {ax : UInt16} {n : ℕ} (hn : 2 ≤ n) :
    (∀ k < n, (lbaAt ax k).toNat = ax.toNat + k) ↔ ax.toNat + n ≤ 257 := by
  constructor
  · intro hall
    have hlast := hall (n - 1) (by omega)
    have hle := lbaAt_succ_le ax (n - 2)
    rw [show n - 2 + 1 = n - 1 from by omega] at hle
    omega
  · intro hle k hk
    exact toNat_lbaAt (by omega)

/-- **The right packets**: when all BIOS calls succeed, `read_sectors` asks for the sectors from `LBA` on, one
after the other into the buffer, exactly when there is one sector only, or else none of them lies behind sector
256 and the stack pointer does not wrap. -/
theorem read_sectors_requests_iff (driveNumber : UInt8) (s : Cpu) (hn : 1 ≤ s.cx.toNat) :
    (∃ e, readSectors driveNumber succeeds s =
        some ((List.range s.cx.toNat).map (packetOf s fun k => s.ax.toNat + k), e)) ↔
      s.cx.toNat = 1 ∨ s.ax.toNat + s.cx.toNat ≤ 257 ∧ 16 ≤ (s.sp - 16).toNat := by
  by_cases hsp : (s.sp - 16).toNat < 16
  · -- the first round is the last
    obtain ⟨s', hread⟩ := readSectors_wrap driveNumber succeeds hsp
    rw [hread]
    constructor
    · rintro ⟨e, heq⟩
      have hlength := congrArg List.length (congrArg Prod.fst (Option.some.inj heq))
      rw [List.length_map, List.length_range, List.length_singleton] at hlength
      exact Or.inl hlength.symm
    · rintro (hone | ⟨-, hle⟩)
      · rw [hone]
        exact ⟨_, rfl⟩
      · omega
  · obtain ⟨packets, carry, hread, -⟩ := readSectors_returns driveNumber succeeds (Nat.not_lt.mp hsp)
    have hpackets := readSectors_packets (fun _ => rfl) (Nat.not_lt.mp hsp) hread
    rw [rounds_of_pos hn] at hpackets
    rw [hread, hpackets]
    have hsame : (∃ e, some ((List.range s.cx.toNat).map (packetOf s fun i => (lbaAt s.ax i).toNat),
          Exit.returned s.top { s.drop16 with eaxHigh := 0, carry := carry }) =
        some ((List.range s.cx.toNat).map (packetOf s fun k => s.ax.toNat + k), e)) ↔
        ∀ k < s.cx.toNat, (lbaAt s.ax k).toNat = s.ax.toNat + k := by
      simp only [Option.some.injEq, Prod.mk.injEq, exists_and_left, exists_eq', and_true, List.map_inj_left,
        List.mem_range, packetOf, Packet.mk.injEq, true_and]
    rw [hsame, and_iff_left (Nat.not_lt.mp hsp)]
    by_cases hone : s.cx.toNat = 1
    · refine iff_of_true ?_ (Or.inl hone)
      intro k hk
      obtain rfl : k = 0 := by omega
      rfl
    · rw [or_iff_right hone, counts_on_iff (by omega)]

/-- The machine at a call of `read_sectors`, from an empty stack at `0x7c00`. -/
def machine (ax cx : UInt16) : Cpu where
  eaxHigh := 0
  ax := ax
  cx := cx
  dx := 0x80
  bx := 0x500
  bp := 0
  si := 0
  di := 0
  sp := 0x7bfe
  es := 0
  carry := false
  stack := [0x7b, 0x7c]

/-- The root directory of the volume the boot sector describes: 32 sectors from sector 161 on. -/
theorem read_sectors_root_directory :
    ∃ e, readSectors 0x80 succeeds (machine 161 32) =
      some ((List.range 32).map (packetOf (machine 161 32) fun k => 161 + k), e) :=
  (read_sectors_requests_iff 0x80 (machine 161 32) (by decide)).mpr (Or.inr (by decide))

/-- **Two sectors from 256 on**: the second call asks for sector 1. -/
theorem high_lba_lost :
    ¬ ∀ (driveNumber : UInt8) (s : Cpu), 1 ≤ s.cx.toNat → s.ax.toNat + s.cx.toNat ≤ 65536 →
      s.bx.toNat + 512 * s.cx.toNat ≤ 65536 →
      ∃ e, readSectors driveNumber succeeds s =
        some ((List.range s.cx.toNat).map (packetOf s fun k => s.ax.toNat + k), e) := by
  intro hall
  obtain ⟨e, hread⟩ := hall 0x80 (machine 256 2) (by decide) (by decide) (by decide)
  have hpackets := readSectors_packets (fun _ => rfl) (by decide) hread
  exact absurd hpackets (by decide)

/-! ### Errors -/

/-- `read_sectors` comes to an end; it goes to `disk_error` if some call of the BIOS failed, and returns only if
none did. -/
def ReportsErrors (driveNumber : UInt8) (bios : ℕ → Outcome) (s : Cpu) : Prop :=
  ∃ packets e, readSectors driveNumber bios s = some (packets, e) ∧
    ((∃ k, k < packets.length ∧ (bios k).carry = true) → ∃ s', e = .diskError s') ∧
    ((∃ ip s', e = .returned ip s') → ∀ k, k < packets.length → (bios k).carry = false)

/-- **Errors are reported** exactly when there are none, or the stack pointer is so small that a success is reported
as an error too. -/
theorem read_sectors_reports_iff (driveNumber : UInt8) (bios : ℕ → Outcome) (s : Cpu) :
    ReportsErrors driveNumber bios s ↔
      (s.sp - 16).toNat < 16 ∨ ∀ k, k < rounds s.cx → (bios k).carry = false := by
  by_cases hsp : (s.sp - 16).toNat < 16
  · refine iff_of_true ?_ (Or.inl hsp)
    obtain ⟨s', hread⟩ := readSectors_wrap driveNumber bios hsp
    refine ⟨_, _, hread, fun _ => ⟨s', rfl⟩, ?_⟩
    rintro ⟨ip, s'', h⟩
    cases h
  · obtain ⟨packets, carry, hread, hlength⟩ := readSectors_returns driveNumber bios (Nat.not_lt.mp hsp)
    rw [or_iff_right hsp, ← hlength]
    constructor
    · rintro ⟨packets', e, hread', -, hreturned⟩
      rw [hread] at hread'
      cases hread'
      exact hreturned ⟨_, _, rfl⟩
    · intro hclear
      refine ⟨_, _, hread, ?_, fun _ => hclear⟩
      rintro ⟨k, hk, hset⟩
      rw [hclear k hk] at hset
      cases hset

/-- **A failed read of one sector** returns like a good one. -/
theorem failed_read_returns : ¬ ∀ driveNumber bios s, ReportsErrors driveNumber bios s := by
  intro hall
  obtain ⟨packets, e, hread, herror, -⟩ := hall 0x80 (fun _ => ⟨0x04, true⟩) (machine 161 1)
  obtain ⟨packets', carry, hread', hlength⟩ :=
    readSectors_returns (s := machine 161 1) 0x80 (fun _ => ⟨0x04, true⟩) (by decide)
  rw [hread'] at hread
  cases hread
  obtain ⟨s', h⟩ := herror ⟨0, by rw [hlength]; decide, rfl⟩
  cases h

end OsEojin.ReadSectors
