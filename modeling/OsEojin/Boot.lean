import OsEojin.Lib.ByteMemory
import OsEojin.FatGeometry

/-!
# The boot sector

`boot_fat16.asm` (`src/boot`) finds `LOADER.BIN` in the root directory, copies the FAT to segment `0x2000`
and loads the file's clusters from `0x7e00` on.  It computes in 16-bit registers; all sectors come through
`read_sectors`, one call of BIOS function 42h each.  Here the transfers succeed.

* `readSectors`: the loop over the sectors, with the register `AX` it counts in;
* `rootDirStart`, `rootSectors`, `dataStart`, `clusterToLba`: the layout;
* `searchRoot`, `nextCluster`: the look-ups in the copies of the root directory and the FAT;
* `loadLoop`, `boot`: the file's sectors, in the order they are asked for.

Code, variables and BPB of the loader are at `0x7c00`, its stack below, the interrupt vectors and the data of
the BIOS below `0x500`.  A sector that is stored over these ends the run.
-/

namespace OsEojin.Boot

open OsEojin.Lib.ByteMemory OsEojin.Ata OsEojin.Fat

/-! ### Reading sectors -/

/-- The physical address of `es:bx`. -/
def linear (es bx : UInt16) : ℕ := 16 * es.toNat + bx.toNat

/-- A sector at `a` leaves the vectors, the data of the BIOS, the stack and the loader alone. -/
def Spares (a : ℕ) : Prop := 0x500 ≤ a ∧ (a + 512 ≤ 0x7b00 ∨ 0x7e00 ≤ a)

instance (a : ℕ) : Decidable (Spares a) := by
  unfold Spares
  infer_instance

/-- The memory after a sector was stored at `a`. -/
def storeSector (m : Memory) (a : ℕ) (s : Sector) : Memory :=
  fun x => if a ≤ x ∧ x < a + 512 then byteAt s (x - a) else m x

/-- `AX` after the call: `mov ah, 0x42` has replaced the high byte, and function 42h answers `AH = 0`. -/
def afterInt13 (ax : UInt16) : UInt16 := ax &&& 0xff

/-- The loop of `read_sectors`, `n` rounds: the addresses asked for, and the memory unless the loader is lost. -/
def readLoop (d : Disk) (es : UInt16) : ℕ → UInt16 → UInt16 → Memory → List ℕ × Option Memory
  | 0, _, _, m => ([], some m)
  | n + 1, ax, bx, m =>
    if Spares (linear es bx) then
      let rest := readLoop d es n (afterInt13 ax + 1) (bx + 512)
        (storeSector m (linear es bx) (d.get ax.toNat))
      (ax.toNat :: rest.1, rest.2)
    else ([ax.toNat], none)

/-- `dec cx` / `jnz`: the count 0 makes 65536 rounds. -/
def rounds (cx : UInt16) : ℕ := if cx = 0 then 65536 else cx.toNat

/-- `read_sectors`. -/
def readSectors (d : Disk) (ax cx es bx : UInt16) (m : Memory) : List ℕ × Option Memory :=
  readLoop d es (rounds cx) ax bx m

/-! ### The layout -/

/-- The root directory: the low word of `fat_size_16 * fat_count`, plus `reserved_sectors`. -/
def rootDirStart (b : Bpb) : UInt16 := b.fatSize16 * UInt16.ofNat b.fatCount.toNat + b.reservedSectors

/-- Its sectors. -/
def rootSectors (b : Bpb) : UInt16 := (b.rootDirEntries <<< 5) / b.bytesPerSector

/-- `data_start`. -/
def dataStart (b : Bpb) : UInt16 := rootDirStart b + rootSectors b

/-- The first sector of a cluster. -/
def clusterToLba (b : Bpb) (cluster : UInt16) : UInt16 :=
  (cluster - 2) * UInt16.ofNat b.sectorsPerCluster.toNat + dataStart b

/-! ### Look-ups -/

/-- `filename`. -/
def filename : List UInt8 := text "LOADER  BIN"

/-- The word at an offset of the first segment. -/
def wordAt (m : Memory) (off : UInt16) : UInt16 := le16 (m off.toNat) (m (off + 1).toNat)

/-- `.search`: the first cluster of the first entry with the name, for `n` entries from `di` on. -/
def searchRoot (m : Memory) : ℕ → UInt16 → Option UInt16
  | 0, _ => none
  | n + 1, di =>
    if (List.range 11).all fun i => m (di + UInt16.ofNat i).toNat == filename.getD i 0 then
      some (wordAt m (di + 26))
    else searchRoot m n (di + 32)

/-- The address of a cluster's entry in the copy of the FAT: `shl ax, 1` keeps 16 bits. -/
def entryAddr (cluster : UInt16) : ℕ := linear 0x2000 (cluster <<< 1)

/-- The next cluster. -/
def nextCluster (m : Memory) (cluster : UInt16) : UInt16 :=
  le16 (m (entryAddr cluster)) (m (entryAddr cluster + 1))

/-! ### The file -/

/-- `es:bx` behind a cluster: the carry of `bx` goes to `es`. -/
def advance (b : Bpb) (p : UInt16 × UInt16) : UInt16 × UInt16 :=
  let ax := UInt16.ofNat b.sectorsPerCluster.toNat * 512
  (if p.2.toNat + ax.toNat < 65536 then p.1 else p.1 + 0x1000, p.2 + ax)

/-- `.load_loop`: the sectors asked for, at most `fuel` clusters, from the given one on. -/
def loadLoop (b : Bpb) (d : Disk) : ℕ → UInt16 → UInt16 × UInt16 → Memory → List ℕ
  | 0, _, _, _ => []
  | fuel + 1, cluster, p, m =>
    let (lbas, m) := readSectors d (clusterToLba b cluster) (UInt16.ofNat b.sectorsPerCluster.toNat) p.1 p.2 m
    match m with
    | none => lbas
    | some m =>
      let next := nextCluster m cluster
      -- 0 is the error `Z`
      if next = 0 ∨ 0xfff8 ≤ next then lbas
      else lbas ++ loadLoop b d fuel next (advance b p) m

/-- The sectors of the file that the loader asks for, from the memory `m` on. -/
def boot (d : Disk) (m : Memory) (fuel : ℕ) : List ℕ :=
  let b := Bpb.parse (d.get 0)
  match (readSectors d (rootDirStart b) (rootSectors b) 0 0x500 m).2 with
  | none => []
  | some m =>
    match searchRoot m b.rootDirEntries.toNat 0x500 with
    | none => []
    | some cluster =>
      match (readSectors d b.reservedSectors b.fatSize16 0x2000 0 m).2 with
      | none => []
      | some m => loadLoop b d fuel cluster (0, 0x7e00) m

end OsEojin.Boot
