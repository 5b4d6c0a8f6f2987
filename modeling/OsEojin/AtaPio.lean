import OsEojin.FatRegions
import OsEojin.Lib.Layers

/-!
# The ATA driver on its ports

`src/drivers/ata.c` drives the disk by programmed input and output: it polls the status register, latches an
address of 28 bits in four registers, and moves a sector word by word through the data port.

* `ataReadSector`, `ataWriteSector`: the driver, as a program of port instructions;
* `Drive`: a drive with its task file, the transfer under way and its delays, `Timing` how long they are;
* `drive`: what each port instruction does to it;
* `run_ataWaitBsy`, `run_ataWaitDrq`: the waiting loops;
* `run_readWords`, `run_writeWords`: the loops of 256 words;
* `run_ataReadSector`, `run_ataWriteSector`: the driver on the drive is `Disk.get` and `Disk.put`;
* `ata_sector_round_trip`: a write and then a read.
-/

namespace OsEojin.AtaPio

open OsEojin.Lib.Programs OsEojin.Lib.Programs.Program OsEojin.Ata
open OsEojin.Fat (LbaRegisters lbaRegisters driveHead_toNat address_lbaRegisters)

/-! ### Ports -/

def ataData : ℕ := 0x1f0

def ataSectorCnt : ℕ := 0x1f2

def ataLbaLow : ℕ := 0x1f3

def ataLbaMid : ℕ := 0x1f4

def ataLbaHigh : ℕ := 0x1f5

def ataDriveHead : ℕ := 0x1f6

def ataStatus : ℕ := 0x1f7

def ataCommand : ℕ := 0x1f7

def ataControl : ℕ := 0x3f6

def statusBsy : UInt8 := 0x80

def statusDrq : UInt8 := 0x08

def statusErr : UInt8 := 0x01

def statusDf : UInt8 := 0x20

/-- The port instructions of `ports.c`, and the messages. -/
inductive PortOp
  | inb (port : ℕ)
  | outb (port : ℕ) (data : UInt8)
  | inw (port : ℕ)
  | outw (port : ℕ) (data : UInt16)
  | kprint (message : List UInt8)

/-- What each answers. -/
@[reducible] def PortOp.Res : PortOp → Type
  | .inb _ => UInt8
  | .inw _ => UInt16
  | _ => Unit

/-- Driver code. -/
abbrev Driver := Program PortOp PortOp.Res

def inb (port : ℕ) : Driver UInt8 := .perform (PortOp.inb port)

def outb (port : ℕ) (data : UInt8) : Driver Unit := .perform (PortOp.outb port data)

def inw (port : ℕ) : Driver UInt16 := .perform (PortOp.inw port)

def outw (port : ℕ) (data : UInt16) : Driver Unit := .perform (PortOp.outw port data)

def kprint (message : List UInt8) : Driver Unit := .perform (PortOp.kprint message)

/-! ### The driver -/

def ataDisableIrq : Driver Unit := outb ataControl 0x02

/-- `ata_wait_bsy`: a loop without a limit, here with `fuel`. -/
def ataWaitBsy : ℕ → Driver Unit
  | 0 => .hang
  | fuel + 1 => do
    let status ← inb ataStatus
    if status &&& statusBsy ≠ 0 then ataWaitBsy fuel else pure ()

/-- The loop of `ata_wait_drq`, with `limit` polls left. -/
def waitDrqLoop : ℕ → Driver Bool
  | 0 => pure false
  | limit + 1 => do
    let status ← inb ataStatus
    if status &&& statusErr ≠ 0 then
      kprint (text "ATA Error: ERR bit set!\n")
      pure false
    else if status &&& statusDf ≠ 0 then
      kprint (text "ATA Error: Drive Fault!\n")
      pure false
    else if status &&& statusDrq ≠ 0 then pure true
    else waitDrqLoop limit

/-- `limit` of `ata_wait_drq`. -/
def drqLimit : ℕ := 100000

def ataWaitDrq : Driver Bool := waitDrqLoop drqLimit

/-- The register stores before the command: the master in LBA mode, one sector, and the address. -/
def setTaskFile (lba : UInt32) : Driver Unit := do
  outb ataDriveHead ((0xe0 : UInt32) ||| ((lba >>> 24) &&& 0x0f)).toUInt8
  outb ataSectorCnt 1
  outb ataLbaLow lba.toUInt8
  outb ataLbaMid (lba >>> 8).toUInt8
  outb ataLbaHigh (lba >>> 16).toUInt8

/-- The store `buffer[i] = v`. -/
def putByte (s : Sector) (i : ℕ) (v : UInt8) : Sector := fun j => if j.val = i then v else s j

/-- The loop of `ata_read_sector` from word `i`, with so many words left. -/
def readWords (i : ℕ) : ℕ → Sector → Driver Sector
  | 0, buffer => pure buffer
  | n + 1, buffer => do
    let data ← inw ataData
    readWords (i + 1) n (putByte (putByte buffer (i * 2) data.toUInt8) (i * 2 + 1) (data >>> 8).toUInt8)

/-- The loop of `ata_write_sector` from word `i`, with so many words left. -/
def writeWords (data : Sector) (i : ℕ) : ℕ → Driver Unit
  | 0 => pure ()
  | n + 1 => do
    outw ataData ((byteAt data (i * 2)).toUInt16 ||| (byteAt data (i * 2 + 1)).toUInt16 <<< 8)
    writeWords data (i + 1) n

/-- `ata_read_sector`: the answer is what the buffer holds then. -/
def ataReadSector (fuel : ℕ) (lba : UInt32) (buffer : Sector) : Driver Sector := do
  ataDisableIrq
  ataWaitBsy fuel
  setTaskFile lba
  outb ataCommand 0x20
  if !(← ataWaitDrq) then
    kprint (text "ATA Error: DRQ Timeout\n")
    pure buffer
  else readWords 0 256 buffer

/-- `ata_write_sector`: what `ata_wait_drq` answers is not looked at. -/
def ataWriteSector (fuel : ℕ) (lba : UInt32) (data : Sector) : Driver Unit := do
  ataDisableIrq
  ataWaitBsy fuel
  setTaskFile lba
  outb ataCommand 0x30
  ataWaitBsy fuel
  let _ ← ataWaitDrq
  writeWords data 0 256
  outb ataCommand 0xe7
  ataWaitBsy fuel

/-! ### The drive -/

/-- What a drive is doing: `word` is the next word of the sector `lba`, `left` the number of sectors after it. -/
inductive Phase
  | idle
  | dataIn (lba left word : ℕ)
  | dataOut (lba left word : ℕ)
  deriving DecidableEq

/-- A transfer is under way. -/
def Phase.isTransfer : Phase → Bool
  | .idle => false
  | _ => true

/-- A drive.  It will answer `busy` polls with BSY, and then `gap` more before a transfer goes on; `event`
counts the delays so far. -/
structure Drive where
  disk : Disk
  buffer : Sector
  sectorCnt : UInt8
  registers : LbaRegisters
  control : UInt8
  phase : Phase
  busy : ℕ
  gap : ℕ
  event : ℕ

/-- How many polls the delays of a drive last, and the status bits that nobody looks at.  A sector of a read
is there, and BSY gives way to DRQ in a write, before `ata_wait_drq` gives up. -/
structure Timing where
  readBusy : ℕ → ℕ
  readGap : ℕ → ℕ
  writeBusy : ℕ → ℕ
  writeGap : ℕ → ℕ
  commit : ℕ → ℕ
  flush : ℕ → ℕ
  rest : ℕ → UInt8
  read_in_time : ∀ n, readBusy n + readGap n < drqLimit
  write_in_time : ∀ n, writeGap n < drqLimit

/-- The master is selected, in LBA mode. -/
def selected (r : LbaRegisters) : Bool := r.driveHead &&& 0x50 = 0x40

namespace Drive

variable (t : Timing) (s : Drive)

/-- BSY, DRQ or neither. -/
def statusBits : UInt8 :=
  if 0 < s.busy then statusBsy
  else if 0 < s.gap then 0
  else if s.phase.isTransfer then statusDrq
  else 0

/-- The status register: there are no errors. -/
def status : UInt8 := (t.rest s.event &&& 0x56) ||| s.statusBits

/-- The drive after a poll. -/
def poll : Drive := if 0 < s.busy then { s with busy := s.busy - 1 } else { s with gap := s.gap - 1 }

/-- The number of sectors a command transfers. -/
def sectors : ℕ := if s.sectorCnt = 0 then 256 else s.sectorCnt.toNat

/-- The sector `lba` goes to the host next. -/
def startIn (lba left : ℕ) : Drive :=
  { s with
    buffer := s.disk.get lba, phase := .dataIn lba left 0, busy := t.readBusy s.event,
    gap := t.readGap s.event, event := s.event + 1 }

/-- The sector `lba` comes from the host next. -/
def startOut (lba left : ℕ) : Drive :=
  { s with
    phase := .dataOut lba left 0, busy := t.writeBusy s.event, gap := t.writeGap s.event,
    event := s.event + 1 }

/-- A store to the command register. -/
def command (v : UInt8) : Drive :=
  if !selected s.registers then s
  else if v = 0x20 then s.startIn t s.registers.address (s.sectors - 1)
  else if v = 0x30 then s.startOut t s.registers.address (s.sectors - 1)
  else if v = 0xe7 then { s with busy := t.flush s.event, event := s.event + 1 }
  else s

/-- `outb`: a busy drive, or one in a transfer, takes nothing but the control register. -/
def outb (port : ℕ) (v : UInt8) : Drive :=
  if port = ataControl then { s with control := v }
  else if 0 < s.busy ∨ s.phase.isTransfer then s
  else if port = ataSectorCnt then { s with sectorCnt := v }
  else if port = ataLbaLow then { s with registers := { s.registers with lbaLow := v } }
  else if port = ataLbaMid then { s with registers := { s.registers with lbaMid := v } }
  else if port = ataLbaHigh then { s with registers := { s.registers with lbaHigh := v } }
  else if port = ataDriveHead then { s with registers := { s.registers with driveHead := v } }
  else if port = ataCommand then s.command t v
  else s

/-- The drive after the word `word` went to the host. -/
def nextIn (lba left word : ℕ) : Drive :=
  if word + 1 < 256 then { s with phase := .dataIn lba left (word + 1) }
  else if left = 0 then { s with phase := .idle }
  else s.startIn t (lba + 1) (left - 1)

/-- The drive after the word `word` came from the host: the last one puts the sector on the disk. -/
def nextOut (lba left word : ℕ) : Drive :=
  if word + 1 < 256 then { s with phase := .dataOut lba left (word + 1) }
  else
    let s := { s with disk := s.disk.put lba s.buffer }
    if left = 0 then { s with phase := .idle, busy := t.commit s.event, event := s.event + 1 }
    else s.startOut t (lba + 1) (left - 1)

/-- `inw`: only the data port of a drive with DRQ has words. -/
def inw (port : ℕ) : UInt16 × Drive :=
  if port = ataData ∧ s.busy = 0 ∧ s.gap = 0 then
    match s.phase with
    | .dataIn lba left word => (u16At s.buffer (2 * word), s.nextIn t lba left word)
    | _ => (0xffff, s)
  else (0xffff, s)

/-- `outw`: only the data port of a drive with DRQ takes words. -/
def outw (port : ℕ) (v : UInt16) : Drive :=
  if port = ataData ∧ s.busy = 0 ∧ s.gap = 0 then
    match s.phase with
    | .dataOut lba left word => { s with buffer := putU16 s.buffer (2 * word) v }.nextOut t lba left word
    | _ => s
  else s

end Drive

/-- **The drive** behind the ports. -/
def drive (t : Timing) : (o : PortOp) → Drive → Option (o.Res × Drive)
  | .inb port, s => if port = ataStatus then some (s.status t, s.poll) else some (0xff, s)
  | .outb port v, s => some ((), s.outb t port v)
  | .inw port, s => some (s.inw t port)
  | .outw port v, s => some ((), s.outw t port v)
  | .kprint _, s => some ((), s)

/-! ### Waiting -/

section Waiting

variable (t : Timing) {s : Drive}

/-- The bits nobody looks at do not hide the others. -/
theorem masked_or_and {m : UInt8} (h : (0x56 : UInt8) &&& m = 0) (r b : UInt8) :
    ((r &&& 0x56) ||| b) &&& m = b &&& m := by
  have hm : (0x56 : UInt8).toNat &&& m.toNat = 0 := by rw [← UInt8.toNat_and, h]; rfl
  rw [← UInt8.toNat_inj, UInt8.toNat_and, UInt8.toNat_or, UInt8.toNat_and, UInt8.toNat_and,
    Nat.and_or_distrib_right, Nat.and_assoc, hm, Nat.and_zero, Nat.zero_or]

theorem status_and {m : UInt8} (h : (0x56 : UInt8) &&& m = 0) : s.status t &&& m = s.statusBits &&& m :=
  masked_or_and h _ _

theorem status_bsy : s.status t &&& statusBsy ≠ 0 ↔ 0 < s.busy := by
  rw [status_and t (by decide), Drive.statusBits]
  split_ifs with hbusy hgap htransfer
  · exact iff_of_true (by decide) hbusy
  · exact iff_of_false (by decide) hbusy
  · exact iff_of_false (by decide) hbusy
  · exact iff_of_false (by decide) hbusy

theorem status_err : s.status t &&& statusErr = 0 := by
  rw [status_and t (by decide), Drive.statusBits]
  split_ifs <;> rfl

theorem status_df : s.status t &&& statusDf = 0 := by
  rw [status_and t (by decide), Drive.statusBits]
  split_ifs <;> rfl

theorem status_drq (htransfer : s.phase.isTransfer) :
    s.status t &&& statusDrq ≠ 0 ↔ s.busy + s.gap = 0 := by
  rw [status_and t (by decide), Drive.statusBits, if_pos htransfer]
  split_ifs with hbusy hgap
  · exact iff_of_false (by decide) (by omega)
  · exact iff_of_false (by decide) (by omega)
  · exact iff_of_true (by decide) (by omega)

@[simp] theorem run_inb_status : run (drive t) (inb ataStatus) s = some (s.status t, s.poll) := rfl

/-- `ata_wait_bsy` polls until the drive is no longer busy; the last poll finds it so. -/
theorem run_ataWaitBsy {fuel : ℕ} (hfuel : s.busy < fuel) :
    run (drive t) (ataWaitBsy fuel) s = some ((), { s with busy := 0, gap := s.gap - 1 }) := by
  induction fuel generalizing s with
  | zero => omega
  | succ fuel ih =>
    rw [ataWaitBsy, run_bind, run_inb_status, Option.bind_some]
    by_cases hbusy : 0 < s.busy
    · rw [if_pos ((status_bsy t).mpr hbusy), Drive.poll, if_pos hbusy, ih (by show s.busy - 1 < fuel; omega)]
    · rw [if_neg (mt (status_bsy t).mp hbusy), Drive.poll, if_neg hbusy, run_pure,
        show s.busy = 0 from by omega]

/-- `ata_wait_drq` answers 1 where a transfer goes on in time. -/
theorem run_waitDrqLoop (htransfer : s.phase.isTransfer) {limit : ℕ} (hlimit : s.busy + s.gap < limit) :
    run (drive t) (waitDrqLoop limit) s = some (true, { s with busy := 0, gap := 0 }) := by
  induction limit generalizing s with
  | zero => omega
  | succ limit ih =>
    rw [waitDrqLoop, run_bind, run_inb_status, Option.bind_some]
    dsimp only
    rw [if_neg (not_not.mpr (status_err t)), if_neg (not_not.mpr (status_df t))]
    by_cases hready : s.busy + s.gap = 0
    · rw [if_pos ((status_drq t htransfer).mpr hready), Drive.poll, if_neg (by omega), run_pure,
        show s.busy = 0 from by omega, show s.gap = 0 from by omega]
    · rw [if_neg (mt (status_drq t htransfer).mp hready), Drive.poll]
      split_ifs with hbusy
      · rw [ih (by exact htransfer) (by show s.busy - 1 + s.gap < limit; omega)]
      · rw [ih (by exact htransfer) (by show s.busy + (s.gap - 1) < limit; omega)]

theorem run_ataWaitDrq (htransfer : s.phase.isTransfer) (hlimit : s.busy + s.gap < drqLimit) :
    run (drive t) ataWaitDrq s = some (true, { s with busy := 0, gap := 0 }) :=
  run_waitDrqLoop t htransfer hlimit

end Waiting

/-! ### The task file -/

section TaskFile

variable (t : Timing) {s : Drive}

theorem run_ataDisableIrq : run (drive t) ataDisableIrq s = some ((), { s with control := 0x02 }) := rfl

/-- A drive at rest latches the address, and one sector. -/
theorem run_setTaskFile (hidle : s.phase = .idle) (hbusy : s.busy = 0) (lba : UInt32) :
    run (drive t) (setTaskFile lba) s = some ((), { s with sectorCnt := 1, registers := lbaRegisters lba }) := by
  obtain ⟨disk, buffer, sectorCnt, registers, control, phase, busy, gap, event⟩ := s
  obtain rfl : phase = .idle := hidle
  obtain rfl : busy = 0 := hbusy
  rfl

/-- The drive register the driver programs selects the master in LBA mode. -/
theorem selected_lbaRegisters (lba : UInt32) : selected (lbaRegisters lba) = true := by
  have hall : ∀ n < 16, UInt8.ofNat (0xe0 + n) &&& 0x50 = 0x40 := by decide
  have hlt : lba.toNat / 2 ^ 24 % 16 < 16 := Nat.mod_lt _ (by decide)
  rw [selected, ← UInt8.ofNat_toNat (x := (lbaRegisters lba).driveHead), driveHead_toNat, decide_eq_true_eq]
  exact hall _ hlt

end TaskFile

/-! ### The words of a sector -/

section Words

variable (t : Timing) {s : Drive}

/-- The word that `ata_write_sector` puts together is the little-endian word of the model. -/
theorem or_shift_eq_le16 (lo hi : UInt8) : lo.toUInt16 ||| hi.toUInt16 <<< 8 = le16 lo hi := by
  have hlo : lo.toNat < 2 ^ 8 := UInt8.toNat_lt lo
  have hhi : hi.toNat < 2 ^ 8 := UInt8.toNat_lt hi
  rw [← UInt16.toNat_inj, le16, UInt16.toNat_ofNat', UInt16.toNat_or, UInt16.toNat_shiftLeft,
    UInt8.toNat_toUInt16, UInt8.toNat_toUInt16, show (8 : UInt16).toNat % 16 = 8 from rfl,
    Nat.shiftLeft_eq, Nat.mod_eq_of_lt (by omega), Nat.mod_eq_of_lt (by omega), Nat.or_comm, Nat.mul_comm,
    ← Nat.two_pow_add_eq_or_of_lt hlo]
  omega

theorem word_eq_u16At (data : Sector) (i : ℕ) :
    (byteAt data (i * 2)).toUInt16 ||| (byteAt data (i * 2 + 1)).toUInt16 <<< 8 = u16At data (2 * i) := by
  rw [or_shift_eq_le16, Nat.mul_comm i 2, u16At]

/-- The two byte stores of `ata_read_sector` are one little-endian store. -/
theorem putByte_putByte (buffer : Sector) (i : ℕ) (v : UInt16) :
    putByte (putByte buffer (i * 2) v.toUInt8) (i * 2 + 1) (v >>> 8).toUInt8 = putU16 buffer (2 * i) v := by
  have hlo : v.toUInt8 = lo8 v := by rw [← UInt8.toNat_inj, toNat_lo8, UInt16.toNat_toUInt8]
  have hhi : (v >>> 8).toUInt8 = hi8 v := by
    rw [← UInt8.toNat_inj, hi8, UInt8.toNat_ofNat', UInt16.toNat_toUInt8, UInt16.toNat_shiftRight,
      show (8 : UInt16).toNat % 16 = 8 from rfl, Nat.shiftRight_eq_div_pow]
  funext k
  rw [putByte, putByte, putU16, hlo, hhi, Nat.mul_comm i 2]
  split_ifs with hodd heven
  · omega
  · rfl
  · rfl
  · rfl

/-- A sector of which the words from `i` on are those of `data`. -/
def fromWord (i : ℕ) (data rest : Sector) : Sector := fun k => if 2 * i ≤ k.val then data k else rest k

theorem fromWord_zero (data rest : Sector) : fromWord 0 data rest = data :=
  funext fun k => if_pos (Nat.zero_le k.val)

theorem fromWord_all (data rest : Sector) : fromWord 256 data rest = rest := by
  funext k
  have hk : k.val < 512 := k.isLt
  exact if_neg (by omega)

/-- One word more. -/
theorem fromWord_succ (data rest : Sector) (i : ℕ) :
    fromWord (i + 1) data (putU16 rest (2 * i) (u16At data (2 * i))) = fromWord i data rest := by
  funext k
  have hbyte : byteAt data k.val = data k := congrArg data (Fin.ext (Nat.mod_eq_of_lt k.isLt))
  rw [fromWord, fromWord, putU16, u16At, lo8_le16, hi8_le16]
  by_cases hnext : 2 * (i + 1) ≤ k.val
  · rw [if_pos hnext, if_pos (by omega)]
  · rw [if_neg hnext]
    by_cases heven : k.val = 2 * i
    · rw [if_pos heven, if_pos (by omega), ← heven, hbyte]
    · rw [if_neg heven]
      by_cases hodd : k.val = 2 * i + 1
      · rw [if_pos hodd, if_pos (by omega), ← hodd, hbyte]
      · rw [if_neg hodd, if_neg (by omega)]

theorem run_inw_data (hbusy : s.busy = 0) (hgap : s.gap = 0) {lba left word : ℕ}
    (hphase : s.phase = .dataIn lba left word) :
    run (drive t) (inw ataData) s = some (u16At s.buffer (2 * word), s.nextIn t lba left word) := by
  show some (s.inw t ataData) = _
  rw [Drive.inw, if_pos ⟨rfl, hbusy, hgap⟩, hphase]

theorem run_outw_data (hbusy : s.busy = 0) (hgap : s.gap = 0) {lba left word : ℕ}
    (hphase : s.phase = .dataOut lba left word) (v : UInt16) :
    run (drive t) (outw ataData v) s =
      some ((), { s with buffer := putU16 s.buffer (2 * word) v }.nextOut t lba left word) := by
  show some ((), s.outw t ataData v) = _
  rw [Drive.outw, if_pos ⟨rfl, hbusy, hgap⟩, hphase]

/-- **The loop of `ata_read_sector`** fills the buffer from the drive's. -/
theorem run_readWords (hbusy : s.busy = 0) (hgap : s.gap = 0) {lba i n : ℕ} (hi : i + (n + 1) = 256)
    (hphase : s.phase = .dataIn lba 0 i) (buffer : Sector) :
    run (drive t) (readWords i (n + 1) buffer) s =
      some (fromWord i s.buffer buffer, { s with phase := .idle }) := by
  induction n generalizing i s buffer with
  | zero =>
    obtain rfl : i = 255 := by omega
    rw [readWords, run_bind, run_inw_data t hbusy hgap hphase, Option.bind_some, readWords, run_pure,
      putByte_putByte, ← fromWord_succ s.buffer buffer 255, fromWord_all]
    rfl
  | succ n ih =>
    rw [readWords, run_bind, run_inw_data t hbusy hgap hphase, Option.bind_some, putByte_putByte, Drive.nextIn,
      if_pos (by omega), ih (by exact hbusy) (by exact hgap) (by omega) rfl]
    exact congrArg (fun b => some (b, _)) (fromWord_succ s.buffer buffer i)

/-- **The loop of `ata_write_sector`** fills the drive's buffer, and the last word puts it on the disk. -/
theorem run_writeWords (hbusy : s.busy = 0) (hgap : s.gap = 0) {lba i n : ℕ} (hi : i + (n + 1) = 256)
    (hphase : s.phase = .dataOut lba 0 i) (data : Sector) :
    run (drive t) (writeWords data i (n + 1)) s =
      some ((), { s with
        buffer := fromWord i data s.buffer, disk := s.disk.put lba (fromWord i data s.buffer), phase := .idle,
        busy := t.commit s.event, event := s.event + 1 }) := by
  induction n generalizing i s with
  | zero =>
    obtain rfl : i = 255 := by omega
    rw [writeWords, run_bind, word_eq_u16At, run_outw_data t hbusy hgap hphase, Option.bind_some, writeWords,
      run_pure, ← fromWord_succ data s.buffer 255, fromWord_all]
    rfl
  | succ n ih =>
    rw [writeWords, run_bind, word_eq_u16At, run_outw_data t hbusy hgap hphase, Option.bind_some, Drive.nextOut,
      if_pos (by omega), ih (by exact hbusy) (by exact hgap) (by omega) rfl]
    dsimp only
    rw [fromWord_succ]

end Words

/-! ### The driver on the drive -/

section Driver

variable (t : Timing) {s : Drive}

/-- A command reaches a drive that is neither busy nor in a transfer. -/
theorem outb_command (s : Drive) (v : UInt8) :
    s.outb t ataCommand v = if 0 < s.busy ∨ s.phase.isTransfer then s else s.command t v := rfl

/-- The drive after the register stores. -/
def addressed (s : Drive) (lba : UInt32) : Drive :=
  { s with control := 0x02, busy := 0, gap := s.gap - 1, sectorCnt := 1, registers := lbaRegisters lba }

/-- Up to the command both functions do the same. -/
theorem run_command {α : Type} (hidle : s.phase = .idle) {fuel : ℕ} (hfuel : s.busy < fuel) (lba : UInt32)
    (v : UInt8) (rest : Driver α) :
    run (drive t) (do ataDisableIrq; ataWaitBsy fuel; setTaskFile lba; outb ataCommand v; rest) s =
      run (drive t) rest ((addressed s lba).command t v) := by
  rw [run_bind, run_ataDisableIrq, Option.bind_some, run_bind, run_ataWaitBsy t (by exact hfuel),
    Option.bind_some, run_bind, run_setTaskFile t (by exact hidle) rfl, Option.bind_some, run_bind]
  show run (drive t) rest ((addressed s lba).outb t ataCommand v) = _
  rw [outb_command, if_neg (by simp [addressed, hidle, Phase.isTransfer])]

theorem command_read (lba : UInt32) :
    (addressed s lba).command t 0x20 = (addressed s lba).startIn t (lba.toNat % lbaSpace) 0 := by
  rw [Drive.command, if_neg (by simp [addressed, selected_lbaRegisters]), if_pos rfl, ← address_lbaRegisters]
  rfl

theorem command_write (lba : UInt32) :
    (addressed s lba).command t 0x30 = (addressed s lba).startOut t (lba.toNat % lbaSpace) 0 := by
  rw [Drive.command, if_neg (by simp [addressed, selected_lbaRegisters]), if_neg (by decide), if_pos rfl,
    ← address_lbaRegisters]
  rfl

/-- **`ata_read_sector`** on the drive: the sector comes back, and the disk stays as it is. -/
theorem run_ataReadSector (hidle : s.phase = .idle) (lba : UInt32) (buffer : Sector) :
    ∃ s', (∀ fuel, s.busy < fuel →
        run (drive t) (ataReadSector fuel lba buffer) s = some (s.disk.get lba.toNat, s')) ∧
      s'.phase = .idle ∧ s'.disk = s.disk := by
  refine ⟨{ (addressed s lba).startIn t (lba.toNat % lbaSpace) 0 with busy := 0, gap := 0, phase := .idle },
    ?_, rfl, rfl⟩
  intro fuel hfuel
  have hsector : s.disk.get (lba.toNat % lbaSpace) = s.disk.get lba.toNat :=
    congrArg s.disk (Nat.mod_mod lba.toNat lbaSpace)
  rw [ataReadSector, run_command t hidle hfuel, command_read, run_bind,
    run_ataWaitDrq t rfl (t.read_in_time _), Option.bind_some]
  show run (drive t) (readWords 0 256 buffer) _ = _
  rw [run_readWords t rfl rfl rfl rfl, fromWord_zero, ← hsector]
  rfl

/-- The cache flush, which a drive that is still busy does not hear. -/
theorem run_flush (hidle : s.phase = .idle) :
    ∃ needed s', (∀ fuel, needed < fuel →
        run (drive t) (do outb ataCommand 0xe7; ataWaitBsy fuel) s = some ((), s')) ∧
      s'.phase = .idle ∧ s'.disk = s.disk := by
  have hkept : (s.outb t ataCommand 0xe7).phase = .idle ∧ (s.outb t ataCommand 0xe7).disk = s.disk := by
    rw [outb_command]
    split_ifs with hbusy
    · exact ⟨hidle, rfl⟩
    · rw [Drive.command]
      split_ifs with hselected hread hwrite hflush
      · exact ⟨hidle, rfl⟩
      · exact absurd hread (by decide)
      · exact absurd hwrite (by decide)
      · exact ⟨hidle, rfl⟩
      · exact absurd rfl hflush
  refine ⟨(s.outb t ataCommand 0xe7).busy, { s.outb t ataCommand 0xe7 with
    busy := 0, gap := (s.outb t ataCommand 0xe7).gap - 1 }, ?_, hkept⟩
  intro fuel hfuel
  rw [run_bind, show run (drive t) (outb ataCommand 0xe7) s = some ((), s.outb t ataCommand 0xe7) from rfl,
    Option.bind_some, run_ataWaitBsy t (by exact hfuel)]

/-- **`ata_write_sector`** on the drive: the sector is on the disk, and nothing else changes there. -/
theorem run_ataWriteSector (hidle : s.phase = .idle) (lba : UInt32) (data : Sector) :
    ∃ needed s', (∀ fuel, needed < fuel →
        run (drive t) (ataWriteSector fuel lba data) s = some ((), s')) ∧
      s'.phase = .idle ∧ s'.disk = s.disk.put lba.toNat data := by
  -- the drive when it asks for the first word, and after the last one
  let asking : Drive :=
    { (addressed s lba).startOut t (lba.toNat % lbaSpace) 0 with busy := 0, gap := 0 }
  let written : Drive :=
    { asking with
      buffer := data, disk := s.disk.put (lba.toNat % lbaSpace) data, phase := .idle,
      busy := t.commit asking.event, event := asking.event + 1 }
  obtain ⟨needed, s', hflush, hidle', hdisk⟩ := run_flush t (s := written) rfl
  have hput : s.disk.put (lba.toNat % lbaSpace) data = s.disk.put lba.toNat data := by
    rw [Disk.put, Disk.put, Nat.mod_mod]
  refine ⟨max s.busy (max (t.writeBusy s.event) needed), s', ?_, hidle', hdisk.trans hput⟩
  intro fuel hfuel
  obtain ⟨hbusy, hfuel⟩ := Nat.max_lt.mp hfuel
  obtain ⟨hcommand, hneeded⟩ := Nat.max_lt.mp hfuel
  rw [ataWriteSector, run_command t hidle hbusy, command_write, run_bind,
    run_ataWaitBsy t (by exact hcommand), Option.bind_some, run_bind,
    run_ataWaitDrq t rfl (by have := t.write_in_time s.event; show 0 + (t.writeGap s.event - 1) < drqLimit; omega),
    Option.bind_some, run_bind]
  show (run (drive t) (writeWords data 0 256) asking).bind _ = _
  rw [run_writeWords t rfl rfl rfl rfl, fromWord_zero, Option.bind_some]
  exact hflush fuel hneeded

/-- **The sector round trip.**  What was written to a sector is read back from it, and every other sector
still reads as before, with all fuel from some point on. -/
theorem ata_sector_round_trip (hidle : s.phase = .idle) (lba l : UInt32) (hlba : lba.toNat < 2 ^ 28)
    (hl : l.toNat < 2 ^ 28) (d b : Sector) :
    ∃ needed s', ∀ fuel, needed < fuel →
      run (drive t) (do ataWriteSector fuel lba d; ataReadSector fuel l b) s =
        some (if l = lba then d else s.disk l.toNat, s') := by
  obtain ⟨needed, s₁, hwrite, hidle₁, hdisk⟩ := run_ataWriteSector t hidle lba d
  obtain ⟨s₂, hread, -, -⟩ := run_ataReadSector t hidle₁ l b
  have hcontent : s₁.disk.get l.toNat = if l = lba then d else s.disk l.toNat := by
    rw [hdisk]
    split_ifs with hsame
    · rw [hsame, Disk.get_put_same]
    · have hne : l.toNat % lbaSpace ≠ lba.toNat % lbaSpace := by
        rw [lbaSpace, Nat.mod_eq_of_lt hl, Nat.mod_eq_of_lt hlba]
        exact mt UInt32.toNat_inj.mp hsame
      rw [Disk.get_put_of_ne s.disk d hne, Disk.get, lbaSpace, Nat.mod_eq_of_lt hl]
  refine ⟨max needed s₁.busy, s₂, ?_⟩
  intro fuel hfuel
  obtain ⟨hneeded, hbusy⟩ := Nat.max_lt.mp hfuel
  rw [run_bind, hwrite fuel hneeded, Option.bind_some, hread fuel hbusy, hcontent]

/-- A drive that is busy for seven polls after each command and at rest on the zero disk. -/
def slowDrive : Drive :=
  ⟨fun _ _ => 0, fun _ => 0xff, 0, ⟨0xa0, 0, 0, 0⟩, 0, .idle, 2, 0, 0⟩

/-- Its timing. -/
def slowTiming : Timing where
  readBusy _ := 7
  readGap _ := 1
  writeBusy _ := 7
  writeGap _ := 1
  commit _ := 7
  flush _ := 7
  rest _ := 0x50
  read_in_time _ := by decide
  write_in_time _ := by decide

/-- The sector 0x0edcba98 and its neighbour after a write. -/
theorem ata_sector_round_trip_slow :
    (∃ needed s', ∀ fuel, needed < fuel →
      run (drive slowTiming) (do
        ataWriteSector fuel 0x0edcba98 (fun _ => 0xab)
        ataReadSector fuel 0x0edcba98 (fun _ => 0)) slowDrive = some (fun _ => 0xab, s')) ∧
    ∃ needed s', ∀ fuel, needed < fuel →
      run (drive slowTiming) (do
        ataWriteSector fuel 0x0edcba98 (fun _ => 0xab)
        ataReadSector fuel 0x0edcba99 (fun _ => 0xff)) slowDrive = some (fun _ => 0, s') :=
  ⟨ata_sector_round_trip slowTiming (s := slowDrive) rfl 0x0edcba98 0x0edcba98
      (by decide) (by decide) (fun _ => 0xab) (fun _ => 0),
    ata_sector_round_trip slowTiming (s := slowDrive) rfl 0x0edcba98 0x0edcba99
      (by decide) (by decide) (fun _ => 0xab) (fun _ => 0xff)⟩

end Driver

/-! ### The kernel on the drive -/

section Kernel

variable (junk : Sector) (t : Timing)

/-- The calls of the kernel other than the two to the driver: none reaches the drive. -/
def otherCalls : (o : Call) → Drive → Option (o.Res × Drive) :=
  fun o s => (device junk o s.disk).map fun r => (r.1, { s with disk := r.2 })

/-- The kernel's calls, those to the driver carried out on the ports. -/
def onPorts (fuel : ℕ) : (o : Call) → Program (PortOp ⊕ Call) (SumRes PortOp.Res Call.Res) o.Res
  | .ataReadSector lba buffer => inLeft (ataReadSector fuel (UInt32.ofNat lba) buffer.data)
  | .ataWriteSector lba data => inLeft (ataWriteSector fuel (UInt32.ofNat lba) data.data)
  | .kmalloc size => perform (Sum.inr (Call.kmalloc size))
  | .kfree ptr => perform (Sum.inr (Call.kfree ptr))
  | .kprint message => perform (Sum.inr (Call.kprint message))
  | .clearScreen => perform (Sum.inr Call.clearScreen)
  | .printMemoryMap => perform (Sum.inr Call.printMemoryMap)
  | .pmmAllocBlock => perform (Sum.inr Call.pmmAllocBlock)
  | .outw port data => perform (Sum.inr (Call.outw port data))
  | .divideError => perform (Sum.inr Call.divideError)

/-- A drive at rest with this disk. -/
def Holds (d : Disk) (s : Drive) : Prop := s.phase = .idle ∧ s.disk = d

theorem toNat_mod_lbaSpace (lba : ℕ) : (UInt32.ofNat lba).toNat % lbaSpace = lba % lbaSpace := by
  rw [UInt32.toNat_ofNat', lbaSpace]
  omega

/-- **The driver does on the drive what the device is said to do.** -/
theorem simulates_device :
    Simulates (device junk) (both (drive t) (otherCalls junk)) onPorts Holds := by
  intro o d r s hr hs
  obtain ⟨hidle, rfl⟩ := hs
  cases o with
  | ataReadSector lba buffer =>
    obtain rfl := Option.some.inj hr
    obtain ⟨s', hrun, hidle', hdisk⟩ := run_ataReadSector t hidle (UInt32.ofNat lba) buffer.data
    refine ⟨s.busy, s', ?_, hidle', hdisk⟩
    intro fuel hfuel
    rw [onPorts, run_inLeft, hrun fuel hfuel, Disk.get, toNat_mod_lbaSpace]
    rfl
  | ataWriteSector lba data =>
    obtain rfl := Option.some.inj hr
    obtain ⟨needed, s', hrun, hidle', hdisk⟩ := run_ataWriteSector t hidle (UInt32.ofNat lba) data.data
    refine ⟨needed, s', ?_, hidle', ?_⟩
    · intro fuel hfuel
      rw [onPorts, run_inLeft, hrun fuel hfuel]
    · rw [hdisk, Disk.put, toNat_mod_lbaSpace]
      rfl
  | _ =>
    refine ⟨0, { s with disk := r.2 }, ?_, hidle, rfl⟩
    intro fuel _
    rw [onPorts, run_perform, both, otherCalls, hr]
    rfl

/-- **Kernel code that comes back on the device comes back on the ports**, with the same answer and the same
disk. -/
theorem execute_on_ports {α : Type} {p : Kernel α} {s : Drive} (hidle : s.phase = .idle) {r : α × Disk}
    (hrun : execute junk p s.disk = some r) :
    ∃ needed s', (∀ fuel, needed < fuel →
        run (both (drive t) (otherCalls junk)) (expand (onPorts fuel) p) s = some (r.1, s')) ∧
      s'.phase = .idle ∧ s'.disk = r.2 :=
  (simulates_device junk t).run hrun ⟨hidle, rfl⟩

end Kernel

end OsEojin.AtaPio
