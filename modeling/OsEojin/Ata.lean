import OsEojin.Lib.Programs
import Mathlib.Logic.Function.Basic
import Mathlib.Data.BitVec

/-!
# Sectors, the calls into the kernel, and a disk without errors

The file system reads and writes whole sectors of 512 bytes through `ata_read_sector` and
`ata_write_sector`, and works on the bytes of a heap buffer in between: the 256 little-endian words of a
FAT sector, or the 16 directory entries of 32 bytes.

* `u16At` / `putU16`: one word of a sector; `entryAt` / `putEntry`: one directory entry;
* `Call`: the kernel's functions the file system and the shell call;
* `device`: the handler in which every allocation and every transfer succeeds;
* `console`: the same with the messages printed.
-/

namespace OsEojin.Ata

open OsEojin.Lib.Programs

/-! ### Bytes, words and entries of a sector -/

/-- The content of one sector. -/
abbrev Sector := Fin 512 → UInt8

/-- A little-endian 16-bit word. -/
def le16 (lo hi : UInt8) : UInt16 := UInt16.ofNat (lo.toNat + 256 * hi.toNat)

/-- The low byte of a word. -/
def lo8 (v : UInt16) : UInt8 := UInt8.ofNat v.toNat

/-- The high byte of a word. -/
def hi8 (v : UInt16) : UInt8 := UInt8.ofNat (v.toNat / 256)

theorem toNat_le16 (lo hi : UInt8) : (le16 lo hi).toNat = lo.toNat + 256 * hi.toNat := by
  have hlo : lo.toNat < 256 := UInt8.toNat_lt lo
  have hhi : hi.toNat < 256 := UInt8.toNat_lt hi
  rw [le16, UInt16.toNat_ofNat']
  omega

theorem toNat_lo8 (v : UInt16) : (lo8 v).toNat = v.toNat % 256 := UInt8.toNat_ofNat'

theorem toNat_hi8 (v : UInt16) : (hi8 v).toNat = v.toNat / 256 := by
  have hv : v.toNat < 65536 := UInt16.toNat_lt v
  rw [hi8, UInt8.toNat_ofNat']
  omega

@[simp] theorem le16_lo8_hi8 (v : UInt16) : le16 (lo8 v) (hi8 v) = v := by
  rw [← UInt16.toNat_inj, toNat_le16, toNat_lo8, toNat_hi8]
  omega

@[simp] theorem lo8_le16 (lo hi : UInt8) : lo8 (le16 lo hi) = lo := by
  have hlo : lo.toNat < 256 := UInt8.toNat_lt lo
  rw [← UInt8.toNat_inj, toNat_lo8, toNat_le16]
  omega

@[simp] theorem hi8_le16 (lo hi : UInt8) : hi8 (le16 lo hi) = hi := by
  have hlo : lo.toNat < 256 := UInt8.toNat_lt lo
  rw [← UInt8.toNat_inj, toNat_hi8, toNat_le16]
  omega

theorem mod_sector_lt (i : ℕ) : i % 512 < 512 := Nat.mod_lt i (by decide)

/-- `buffer[i]`. -/
def byteAt (s : Sector) (i : ℕ) : UInt8 := s ⟨i % 512, mod_sector_lt i⟩

/-- `*(uint16_t*)&buffer[off]`. -/
def u16At (s : Sector) (off : ℕ) : UInt16 := le16 (byteAt s off) (byteAt s (off + 1))

/-- The store `*(uint16_t*)&buffer[off] = v`. -/
def putU16 (s : Sector) (off : ℕ) (v : UInt16) : Sector :=
  fun i => if i.val = off then lo8 v else if i.val = off + 1 then hi8 v else s i

theorem byteAt_putU16 (s : Sector) (v : UInt16) {off i : ℕ} (hi : i < 512) :
    byteAt (putU16 s off v) i =
      if i = off then lo8 v else if i = off + 1 then hi8 v else byteAt s i := by
  simp only [byteAt, putU16, Nat.mod_eq_of_lt hi]

theorem u16At_putU16_same (s : Sector) (v : UInt16) {off : ℕ} (h : off + 1 < 512) :
    u16At (putU16 s off v) off = v := by
  rw [u16At, byteAt_putU16 s v (by omega), byteAt_putU16 s v h, if_pos rfl, if_neg (by omega),
    if_pos rfl, le16_lo8_hi8]

/-- Words at different even offsets do not overlap. -/
theorem u16At_putU16_of_ne (s : Sector) (v : UInt16) {j k : ℕ} (hk : k < 256) (h : j ≠ k) :
    u16At (putU16 s (2 * j) v) (2 * k) = u16At s (2 * k) := by
  rw [u16At, byteAt_putU16 s v (by omega), byteAt_putU16 s v (by omega), if_neg (by omega),
    if_neg (by omega), if_neg (by omega), if_neg (by omega), u16At]

/-- A directory entry, `fat_dir_entry_t`: 32 packed bytes. -/
abbrev DirEntry := Fin 32 → UInt8

/-- `((fat_dir_entry_t*)buffer)[k]`. -/
def entryAt (s : Sector) (k : ℕ) : DirEntry := fun i => byteAt s (32 * k + i)

/-- The store of a whole entry. -/
def putEntry (s : Sector) (k : ℕ) (e : DirEntry) : Sector :=
  fun i => if i.val / 32 = k then e (Fin.ofNat 32 i) else s i

theorem entryAt_putEntry_same (s : Sector) (e : DirEntry) {k : ℕ} (hk : k < 16) :
    entryAt (putEntry s k e) k = e := by
  funext i
  have hi : i.val < 32 := i.isLt
  simp only [entryAt, byteAt, putEntry]
  rw [if_pos (by omega)]
  congr 1
  apply Fin.ext
  rw [Fin.val_ofNat]
  omega

theorem entryAt_putEntry_of_ne (s : Sector) (e : DirEntry) {j k : ℕ} (hk : k < 16) (h : k ≠ j) :
    entryAt (putEntry s j e) k = entryAt s k := by
  funext i
  have hi : i.val < 32 := i.isLt
  simp only [entryAt, byteAt, putEntry]
  rw [if_neg (by omega)]

/-! ### The fields of a directory entry -/

/-- `name[i]`. -/
def DirEntry.name (e : DirEntry) (i : ℕ) : UInt8 := e (Fin.ofNat 32 i)

/-- `ext[i]`. -/
def DirEntry.ext (e : DirEntry) (i : ℕ) : UInt8 := e (Fin.ofNat 32 (8 + i))

/-- `attributes`. -/
def DirEntry.attributes (e : DirEntry) : UInt8 := e 11

/-- `first_cluster_low`. -/
def DirEntry.firstClusterLow (e : DirEntry) : UInt16 := le16 (e 26) (e 27)

/-- `file_size`. -/
def DirEntry.fileSize (e : DirEntry) : ℕ :=
  (le16 (e 28) (e 29)).toNat + 65536 * (le16 (e 30) (e 31)).toNat

/-- `ATTR_VOLUME_ID`. -/
def attrVolumeId : UInt8 := 0x08

/-- `ATTR_DIRECTORY`. -/
def attrDirectory : UInt8 := 0x10

/-! ### Calls into the kernel -/

/-- A block from the heap, with the 512 bytes the file system uses of it. -/
structure Buffer where
  ptr : ℕ
  data : Sector

/-- The kernel's functions that the file system and the shell call. -/
inductive Call
  | kmalloc (size : ℕ)
  | kfree (ptr : ℕ)
  | ataReadSector (lba : ℕ) (buffer : Buffer)
  | ataWriteSector (lba : ℕ) (data : Buffer)
  | kprint (message : List UInt8)
  | clearScreen
  | printMemoryMap
  | pmmAllocBlock
  | outw (port data : ℕ)
  | divideError

/-- What each call answers.  `ata_read_sector` answers the buffer's new bytes; a division by zero never
comes back. -/
@[reducible] def Call.Res : Call → Type
  | .kmalloc _ => Buffer
  | .ataReadSector _ _ => Sector
  | .pmmAllocBlock => ℕ
  | .divideError => Empty
  | _ => Unit

/-- Kernel code: a tree of calls. -/
abbrev Kernel := Program Call Call.Res

/-- `kmalloc(size)`. -/
def kmalloc (size : ℕ) : Kernel Buffer := .perform (Call.kmalloc size)

/-- `kfree(ptr)`. -/
def kfree (b : Buffer) : Kernel Unit := .perform (Call.kfree b.ptr)

/-- `ata_read_sector(lba, buffer)`: the bytes arrive in the same block. -/
def ataReadSector (lba : ℕ) (buffer : Buffer) : Kernel Buffer := do
  let data ← (Program.perform (Call.ataReadSector lba buffer) : Kernel Sector)
  pure { buffer with data := data }

/-- `ata_write_sector(lba, data)`. -/
def ataWriteSector (lba : ℕ) (data : Buffer) : Kernel Unit :=
  .perform (Call.ataWriteSector lba data)

/-- `kprint(message)`. -/
def kprint (message : List UInt8) : Kernel Unit := .perform (Call.kprint message)

/-- The divide-error exception of an integer division by zero. -/
def divideError {α : Type} : Kernel α :=
  .call Call.divideError fun e => e.elim

/-- The bytes of a text literal. -/
def text (s : String) : List UInt8 := s.toList.map fun c => UInt8.ofNat c.toNat

/-! ### The disk without errors -/

/-- The sectors of the drive, by LBA. -/
abbrev Disk := ℕ → Sector

/-- The number of sectors the driver's 28 address bits reach. -/
def lbaSpace : ℕ := 2 ^ 28

/-- The content of a disk after one sector was written. -/
def Disk.put (d : Disk) (lba : ℕ) (s : Sector) : Disk := Function.update d (lba % lbaSpace) s

/-- The sector a driver call with this `lba` reaches: the registers hold the low 28 bits. -/
def Disk.get (d : Disk) (lba : ℕ) : Sector := d (lba % lbaSpace)

/-- The block an allocation returns. -/
def freshBlock (junk : Sector) : Buffer := ⟨0x2000018, junk⟩

@[simp] theorem freshBlock_ptr_ne (junk : Sector) : ((freshBlock junk).ptr = 0) = False := by
  simp [freshBlock]

/-- **The device**: every allocation succeeds, with `junk` in the fresh block, and every transfer is
complete. -/
def device (junk : Sector) : (o : Call) → Disk → Option (o.Res × Disk)
  | .kmalloc _, d => some (freshBlock junk, d)
  | .kfree _, d => some ((), d)
  | .ataReadSector lba _, d => some (d.get lba, d)
  | .ataWriteSector lba b, d => some ((), d.put lba b.data)
  | .kprint _, d => some ((), d)
  | .clearScreen, d => some ((), d)
  | .printMemoryMap, d => some ((), d)
  | .pmmAllocBlock, d => some (0, d)
  | .outw _ _, d => some ((), d)
  | .divideError, _ => none

/-- Kernel code on the device. -/
def execute {α : Type} (junk : Sector) (p : Kernel α) (d : Disk) : Option (α × Disk) :=
  p.run (device junk) d

section Execute

variable {α β : Type} (junk : Sector) (d : Disk)

@[simp] theorem execute_pure (a : α) : execute junk (pure a) d = some (a, d) := rfl

@[simp] theorem execute_bind (p : Kernel α) (f : α → Kernel β) :
    execute junk (p >>= f) d = (execute junk p d).bind fun r => execute junk (f r.1) r.2 :=
  Program.run_bind (device junk) p f d

@[simp] theorem execute_hang : execute junk (.hang : Kernel α) d = none := rfl

@[simp] theorem execute_kmalloc (size : ℕ) :
    execute junk (kmalloc size) d = some (freshBlock junk, d) := rfl

@[simp] theorem execute_kfree (b : Buffer) : execute junk (kfree b) d = some ((), d) := rfl

@[simp] theorem execute_ataReadSector (lba : ℕ) (b : Buffer) :
    execute junk (ataReadSector lba b) d = some ({ b with data := d.get lba }, d) := rfl

@[simp] theorem execute_ataWriteSector (lba : ℕ) (b : Buffer) :
    execute junk (ataWriteSector lba b) d = some ((), d.put lba b.data) := rfl

@[simp] theorem execute_kprint (message : List UInt8) :
    execute junk (kprint message) d = some ((), d) := rfl

@[simp] theorem execute_divideError : execute junk (divideError : Kernel α) d = none := rfl

end Execute

/-! ### The disk and the console -/

/-- The disk and what was printed, the last message first. -/
structure Console where
  disk : Disk
  messages : List (List UInt8)

/-- The device with a console that remembers what was printed on it. -/
def console (junk : Sector) : (o : Call) → Console → Option (o.Res × Console)
  | .kprint message, s => some ((), { s with messages := message :: s.messages })
  | .clearScreen, s => some ((), { s with messages := [] })
  | o, s => (device junk o s.disk).map fun r => (r.1, { s with disk := r.2 })

/-- The calls that do not reach the console. -/
def IsQuiet : Call → Prop
  | .kprint _ => False
  | .clearScreen => False
  | _ => True

/-- Quiet code does on the device with a console what it does on the device. -/
theorem run_console_quiet {α : Type} {junk : Sector} {p : Kernel α} (hp : p.Calls IsQuiet) (d : Disk)
    (messages : List (List UInt8)) :
    p.run (console junk) ⟨d, messages⟩ =
      (execute junk p d).map fun r => (r.1, (⟨r.2, messages⟩ : Console)) := by
  refine hp.run_transport (f := fun d => (⟨d, messages⟩ : Console)) ?_ d
  intro o s ho
  cases o with
  | kprint message => exact ho.elim
  | clearScreen => exact ho.elim
  | _ => rfl

theorem Disk.get_put_same (d : Disk) (lba : ℕ) (s : Sector) : (d.put lba s).get lba = s :=
  Function.update_self ..

theorem Disk.get_put_of_ne (d : Disk) (s : Sector) {lba lba' : ℕ}
    (h : lba' % lbaSpace ≠ lba % lbaSpace) : (d.put lba s).get lba' = d.get lba' :=
  Function.update_of_ne h ..

end OsEojin.Ata
