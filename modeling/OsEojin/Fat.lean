import OsEojin.Ata
import Mathlib.Data.List.DropRight

/-!
# The FAT16 file system

`src/fs/fat.c`, function by function, as kernel code over the calls of `OsEojin.Ata`.  The globals are
one record, passed in and, where a function changes them, handed back.

* `fatInit`, `fatNextCluster`, `fatWriteFatEntry`, `fatAllocateCluster`: the volume and its FAT;
* `fatReadDirSector`: sector `i` of a directory, the root or a cluster chain;
* `scanDir`: the loop that `fatFindFile`, `fatCreateEntry`, `fatIsDirEmpty`, `fatDeleteFile` and
  `fatDeleteDir` share, each with its own test of an entry;
* `fatChangeDir`, `fatCreateEntry`, `fatFreeClusterChain`, `fatDeleteFile`, `fatDeleteDir`.

Loops that need not end take fuel.
-/

namespace OsEojin.Fat

open OsEojin.Lib.Programs OsEojin.Ata

/-! ### The globals -/

/-- `fat_bpb_t`, the fields the kernel reads and the two sector counts. -/
structure Bpb where
  oemName : List UInt8
  bytesPerSector : UInt16
  sectorsPerCluster : UInt8
  reservedSectors : UInt16
  fatCount : UInt8
  rootDirEntries : UInt16
  totalSectors16 : UInt16
  fatSize16 : UInt16
  totalSectors32 : ℕ

/-- The `memcpy` of the boot sector into `fat_info`. -/
def Bpb.parse (s : Sector) : Bpb where
  oemName := (List.range 8).map fun i => byteAt s (3 + i)
  bytesPerSector := u16At s 11
  sectorsPerCluster := byteAt s 13
  reservedSectors := u16At s 14
  fatCount := byteAt s 16
  rootDirEntries := u16At s 17
  totalSectors16 := u16At s 19
  fatSize16 := u16At s 22
  totalSectors32 := (u16At s 32).toNat + 65536 * (u16At s 34).toNat

/-- `(root_dir_entries * 32) / bytes_per_sector`. -/
def Bpb.rootDirSectors (b : Bpb) : ℕ := b.rootDirEntries.toNat * 32 / b.bytesPerSector.toNat

/-- The globals of `fat.c`.  `current_path` is the string before its NUL. -/
structure Globals where
  fatInfo : Bpb
  fatStartSector : ℕ
  rootDirSector : ℕ
  dataStartSector : ℕ
  currentDirCluster : UInt16
  currentPath : List UInt8
  isFatInitialized : Bool

/-- The C string in a block of bytes: what stands before the first NUL. -/
def cString (bytes : List UInt8) : List UInt8 := bytes.takeWhile fun c => c != 0

/-- `hex_to_ascii(n, str)`: `0x` and sixteen digits. -/
def hexToAscii (n : ℕ) : List UInt8 :=
  text "0x" ++ ((List.range 16).map fun i =>
    (text "0123456789abcdef").getD (n / 16 ^ (15 - i) % 16) 0)

/-- `fat_init`: read LBA 0 and compute where the regions of the volume start. -/
def fatInit (g : Globals) : Kernel Globals := do
  let buffer ← kmalloc 512
  if buffer.ptr = 0 then
    kprint (text "FAT: Memory allocation failed\n")
    pure g
  else
    let buffer ← ataReadSector 0 buffer
    let info := Bpb.parse buffer.data
    kprint (text "---FAT16 Init ---\n")
    kprint (text "OEM Name: ")
    info.oemName.forM fun c => kprint (cString [c])
    kprint (text "\n")
    kprint (text "Bytes per Sector: ")
    kprint (hexToAscii info.bytesPerSector.toNat)
    kprint (text "\n")
    kprint (text "Sectors per Cluster: ")
    kprint (hexToAscii info.sectorsPerCluster.toNat)
    kprint (text "\n")
    kprint (text "Reserved Sectors: ")
    kprint (hexToAscii info.reservedSectors.toNat)
    kprint (text "\n")
    kprint (text "Root Dir Entries: ")
    kprint (hexToAscii info.rootDirEntries.toNat)
    kprint (text "\n")
    let fatStart := info.reservedSectors.toNat
    let rootDir := fatStart + info.fatCount.toNat * info.fatSize16.toNat
    if info.bytesPerSector = 0 then divideError
    else
      let dataStart := rootDir + info.rootDirSectors
      kprint (text "Data Start Sector: ")
      kprint (hexToAscii dataStart)
      kprint (text "\n")
      kfree buffer
      pure { g with
        fatInfo := info
        fatStartSector := fatStart
        rootDirSector := rootDir
        dataStartSector := dataStart
        isFatInitialized := true }

/-! ### The FAT -/

/-- `fat_start_sector + fat_offset / 512`: the sector of a cluster's FAT entry. -/
def fatSector (g : Globals) (cluster : UInt16) : ℕ := g.fatStartSector + cluster.toNat * 2 / 512

/-- `fat_offset % 512`: the entry's place in that sector. -/
def entOffset (cluster : UInt16) : ℕ := cluster.toNat * 2 % 512

/-- `fat_next_cluster`. -/
def fatNextCluster (g : Globals) (cluster : UInt16) : Kernel UInt16 := do
  let buffer ← kmalloc 512
  let buffer ← ataReadSector (fatSector g cluster) buffer
  let nextCluster := u16At buffer.data (entOffset cluster)
  kfree buffer
  pure nextCluster

/-- `fat_write_fat_entry`. -/
def fatWriteFatEntry (g : Globals) (cluster value : UInt16) : Kernel Unit := do
  let buffer ← kmalloc 512
  let buffer ← ataReadSector (fatSector g cluster) buffer
  let buffer := { buffer with data := putU16 buffer.data (entOffset cluster) value }
  ataWriteSector (fatSector g cluster) buffer
  kfree buffer

/-- The inner loop of `fat_allocate_cluster`: `n` entries of FAT sector `i` from entry `j` on. -/
def allocInSector (s : Sector) (i : ℕ) : ℕ → ℕ → Option UInt16
  | 0, _ => none
  | n + 1, j =>
    -- the cluster number is cut to 16 bits
    let cluster := UInt16.ofNat (i * 256 + j)
    if cluster < 2 then allocInSector s i n (j + 1)
    else if u16At s (j * 2) = 0 then some cluster
    else allocInSector s i n (j + 1)

/-- The outer loop of `fat_allocate_cluster`: `n` FAT sectors from sector `i` on. -/
def allocLoop (g : Globals) : ℕ → ℕ → Buffer → Kernel UInt16
  | 0, _, buffer => do
    kfree buffer
    pure 0
  | n + 1, i, buffer => do
    let buffer ← ataReadSector (g.fatStartSector + i) buffer
    match allocInSector buffer.data i 256 0 with
    | some cluster =>
      fatWriteFatEntry g cluster 0xFFFF
      kfree buffer
      pure cluster
    | none => allocLoop g n (i + 1) buffer

/-- `fat_allocate_cluster`: the first free entry's cluster, marked as an end of chain; `0` if none. -/
def fatAllocateCluster (g : Globals) : Kernel UInt16 := do
  let buffer ← kmalloc 512
  allocLoop g g.fatInfo.fatSize16.toNat 0 buffer

/-- `fat_lba_of_cluster`, in 32 bits: `cluster - 2` is negative for the numbers `0` and `1`. -/
def fatLbaOfCluster (g : Globals) (cluster : UInt16) : ℕ :=
  (((g.dataStartSector : ℤ) + ((cluster.toNat : ℤ) - 2) * g.fatInfo.sectorsPerCluster.toNat)
    % 2 ^ 32).toNat

/-! ### Directory sectors -/

/-- The cluster loop of `fat_read_dir_sector`: `n` links from `curr`, with the end mark checked before
every link and once more at the end. -/
def dirClusterLoop (g : Globals) : ℕ → UInt16 → Kernel (Option UInt16)
  | 0, curr => if curr ≥ 0xFFF8 then pure none else pure (some curr)
  | n + 1, curr =>
    if curr ≥ 0xFFF8 then pure none
    else do
      let next ← fatNextCluster g curr
      dirClusterLoop g n next

/-- `fat_read_dir_sector`: `none` for the answer `0`. -/
def fatReadDirSector (g : Globals) (startCluster : UInt16) (sectorIdx : ℕ) (buffer : Buffer) :
    Kernel (Option Buffer) :=
  if startCluster = 0 then
    if g.fatInfo.bytesPerSector = 0 then divideError
    else if g.fatInfo.rootDirSectors ≤ sectorIdx then pure none
    else do
      let buffer ← ataReadSector (g.rootDirSector + sectorIdx) buffer
      pure (some buffer)
  else
    let spc := g.fatInfo.sectorsPerCluster.toNat
    if spc = 0 then divideError
    else do
      match ← dirClusterLoop g (sectorIdx / spc) startCluster with
      | none => pure none
      | some curr =>
        let buffer ← ataReadSector (fatLbaOfCluster g curr + sectorIdx % spc) buffer
        pure (some buffer)

/-- `n` unchecked links from `curr`. -/
def followLinks (g : Globals) : ℕ → UInt16 → Kernel UInt16
  | 0, curr => pure curr
  | n + 1, curr => do
    let next ← fatNextCluster g curr
    followLinks g n next

/-- The address a changed directory sector is written back to, as `fat_create_entry`,
`fat_delete_file` and `fat_delete_dir` compute it. -/
def writeBackLba (g : Globals) (sectorIdx : ℕ) : Kernel ℕ :=
  if g.currentDirCluster = 0 then pure (g.rootDirSector + sectorIdx)
  else
    let spc := g.fatInfo.sectorsPerCluster.toNat
    if spc = 0 then divideError
    else do
      let curr ← followLinks g (sectorIdx / spc) g.currentDirCluster
      pure (fatLbaOfCluster g curr + sectorIdx % spc)

/-- What the loop over a sector's sixteen entries does at one entry: go on, take it, or leave. -/
inductive Verdict
  | skip
  | hit
  | stop
  deriving DecidableEq

/-- How the loop over one sector ended. -/
inductive SectorScan
  | hit (k : ℕ)
  | stop
  | through

/-- The loop `for (k = 0; k < 16; k++)`, with `n` entries to go from entry `k` on. -/
def scanSector (verdict : DirEntry → Verdict) (s : Sector) : ℕ → ℕ → SectorScan
  | 0, _ => .through
  | n + 1, k =>
    match verdict (entryAt s k) with
    | .skip => scanSector verdict s n (k + 1)
    | .hit => .hit k
    | .stop => .stop

/-- How the loop over a directory ended: at entry `k` of a sector, at an end mark, or with the
directory's sectors used up. -/
inductive DirScan
  | hit (sectorIdx k : ℕ) (buffer : Buffer)
  | stop (buffer : Buffer)
  | through (buffer : Buffer)

/-- The buffer the loop leaves behind. -/
def DirScan.buffer : DirScan → Buffer
  | .hit _ _ b => b
  | .stop b => b
  | .through b => b

/-- The loop over the sectors of a directory.  Where `endReturns` the function returns at an end mark;
elsewhere the mark only ends the loop over its sector. -/
def scanDir (g : Globals) (startCluster : UInt16) (endReturns : Bool)
    (verdict : DirEntry → Verdict) : ℕ → ℕ → Buffer → Kernel DirScan
  | 0, _, _ => .hang
  | fuel + 1, i, buffer => do
    match ← fatReadDirSector g startCluster i buffer with
    | none => pure (.through buffer)
    | some buffer =>
      match scanSector verdict buffer.data 16 0 with
      | .hit k => pure (.hit i k buffer)
      | .through => scanDir g startCluster endReturns verdict fuel (i + 1) buffer
      | .stop =>
        if endReturns then pure (.stop buffer)
        else scanDir g startCluster endReturns verdict fuel (i + 1) buffer

/-- The calls of code that only fetches sectors: buffers are taken and freed, sectors read. -/
def IsFetch : Call → Prop
  | .kmalloc _ => True
  | .kfree _ => True
  | .ataReadSector _ _ => True
  | .divideError => True
  | _ => False

/-! ### Names -/

/-- `if (c >= 'a' && c <= 'z') c -= 32;` -/
def toUpper (c : UInt8) : UInt8 := if 97 ≤ c ∧ c ≤ 122 then c - 32 else c

/-- The bytes of `name` or `ext` before the first blank. -/
def beforeBlank (bytes : List UInt8) : List UInt8 := bytes.takeWhile fun c => c != 32

/-- The eight bytes of `name`. -/
def nameBytes (e : DirEntry) : List UInt8 := (List.range 8).map e.name

/-- The three bytes of `ext`. -/
def extBytes (e : DirEntry) : List UInt8 := (List.range 3).map e.ext

/-- The characters that `fat_filename_match` stores to `temp[0]`, `temp[1]`, ...; twelve at most. -/
def matchTemp (e : DirEntry) : List UInt8 :=
  beforeBlank (nameBytes e) ++
    if e.ext 0 = 32 then [] else 46 :: beforeBlank (extBytes e)

/-- The comparison loop: both strings must end together. -/
def matchLoop : List UInt8 → List UInt8 → Bool
  | [], [] => true
  | a :: as, b :: bs => if toUpper a = toUpper b then matchLoop as bs else false
  | _, _ => false

/-- The comparison behind `temp[11]`, for a name that fills the array.  As the kernel is built, `temp[12]` is the local
`c2` and `temp[13]` is `c1`, which hold the last character compared, and `temp[14]` and `temp[15]` are the low bytes of
the counter: the terminating zero is gone. -/
def matchBehind (last : UInt8) : List UInt8 → Bool
  | [x, y, z] => toUpper x == last && toUpper y == last && toUpper z == 14
  | _ => false

/-- `fat_filename_match`. -/
def fatFilenameMatch (e : DirEntry) (input : List UInt8) : Bool :=
  let temp := cString (matchTemp e)
  let rest := cString input
  if temp.length < 12 then matchLoop temp rest
  else matchLoop temp (rest.take 12) && matchBehind (toUpper (temp.getD 11 0)) (rest.drop 12)

/-- The name a C string has before its first dot or its end. -/
def baseName (filename : List UInt8) : List UInt8 :=
  filename.takeWhile fun c => c != 0 && c != 46

/-- `name` as `fat_create_entry` fills it. -/
def shortName (filename : List UInt8) : List UInt8 :=
  (((baseName filename).take 8).map toUpper).rightpad 8 32

/-- `ext` as `fat_create_entry` fills it: what follows the first dot, further dots included. -/
def shortExt (filename : List UInt8) : List UInt8 :=
  ((((cString (filename.drop ((baseName filename).length + 1))).take 3).map toUpper)).rightpad 3 32

/-! ### Listing and looking up -/

/-- The entries `fat_list` and `fat_find_file` do not show: long names and volume labels. -/
def isHidden (e : DirEntry) : Bool :=
  e.attributes == 0x0F || e.attributes &&& attrVolumeId != 0

/-- The directory attribute. -/
def isDirectory (e : DirEntry) : Bool := e.attributes &&& attrDirectory != 0

/-- Trailing blanks become NULs. -/
def trimBlanks (bytes : List UInt8) : List UInt8 := cString (bytes.rdropWhile fun c => c == 32)

/-- One line of `fat_list`. -/
def listEntry (e : DirEntry) : Kernel Unit := do
  kprint (trimBlanks (nameBytes e))
  if trimBlanks (extBytes e) ≠ [] then
    kprint (text ".")
    kprint (trimBlanks (extBytes e))
  if isDirectory e then kprint (text "/")
  kprint (text "        ")
  kprint (hexToAscii e.fileSize)
  kprint (text "\n")

/-- The loop of `fat_list` over a sector; `true` at the end mark. -/
def listSector (s : Sector) : ℕ → ℕ → Kernel Bool
  | 0, _ => pure false
  | n + 1, k =>
    if (entryAt s k).name 0 = 0x00 then pure true
    else if (entryAt s k).name 0 = 0xE5 then listSector s n (k + 1)
    else if isHidden (entryAt s k) then listSector s n (k + 1)
    else do
      listEntry (entryAt s k)
      listSector s n (k + 1)

section Printing

open Program

/-- The calls of code that only prints. -/
def IsPrint (o : Call) : Prop := ∃ message, o = .kprint message

variable {α : Type}

theorem calls_kprint (message : List UInt8) : Calls IsPrint (kprint message) :=
  calls_perform ⟨message, rfl⟩

theorem calls_print (message : List UInt8) {k : Unit → Kernel α} (hk : Calls IsPrint (k ())) :
    Calls IsPrint (kprint message >>= k) :=
  calls_bind (calls_kprint message) fun _ => hk

/-- A text printed byte by byte. -/
theorem calls_prints (bytes : List UInt8) :
    Calls IsPrint (bytes.forM fun c => kprint (cString [c])) := by
  induction bytes with
  | nil => exact calls_pure _
  | cons c bytes ih => exact calls_print _ ih

theorem calls_listEntry (e : DirEntry) : Calls IsPrint (listEntry e) := by
  have hsize : Calls IsPrint (do
      kprint (text "        ")
      kprint (hexToAscii e.fileSize)
      kprint (text "\n")) :=
    calls_print _ (calls_print _ (calls_kprint _))
  have hslash : Calls IsPrint (do
      if isDirectory e then kprint (text "/")
      kprint (text "        ")
      kprint (hexToAscii e.fileSize)
      kprint (text "\n")) := by
    dsimp only
    split
    · exact calls_print _ hsize
    · exact hsize
  refine calls_print _ ?_
  dsimp only at hslash ⊢
  split
  · exact calls_print _ (calls_print _ hslash)
  · exact hslash

theorem calls_listSector (s : Sector) (n : ℕ) : ∀ k, Calls IsPrint (listSector s n k) := by
  induction n with
  | zero =>
    intro k
    exact calls_pure _
  | succ n ih =>
    intro k
    rw [listSector]
    split
    · exact calls_pure _
    · split
      · exact ih (k + 1)
      · split
        · exact ih (k + 1)
        · exact calls_bind (calls_listEntry _) fun _ => ih (k + 1)

end Printing

/-- The loop of `fat_list` over the sectors of the directory. -/
def listLoop (g : Globals) : ℕ → ℕ → Buffer → Kernel Unit
  | 0, _, _ => .hang
  | fuel + 1, i, buffer => do
    match ← fatReadDirSector g g.currentDirCluster i buffer with
    | none => kfree buffer
    | some buffer =>
      if ← listSector buffer.data 16 0 then kfree buffer
      else listLoop g fuel (i + 1) buffer

/-- `fat_list`. -/
def fatList (g : Globals) (fuel : ℕ) : Kernel Unit :=
  if !g.isFatInitialized then
    kprint (text "File system not mounted. Run 'mount' first.\n")
  else do
    let buffer ← kmalloc 512
    if buffer.ptr = 0 then
      kprint (text "ls: Memory allocation failed\n")
    else
      kprint (text "Filename        Size\n")
      kprint (text "--------------------\n")
      listLoop g fuel 0 buffer

/-- The test of `fat_find_file`. -/
def findVerdict (filename : List UInt8) (e : DirEntry) : Verdict :=
  if e.name 0 = 0x00 then .stop
  else if e.name 0 = 0xE5 then .skip
  else if isHidden e then .skip
  else if fatFilenameMatch e filename then .hit
  else .skip

/-- `fat_find_file`: the entry copied to `entry_out`, `none` for the answer `0`. -/
def fatFindFile (g : Globals) (fuel : ℕ) (filename : List UInt8) : Kernel (Option DirEntry) :=
  if !g.isFatInitialized then do
    kprint (text "File system not mounted. Run 'mount' first.\n")
    pure none
  else do
    let buffer ← kmalloc 512
    if buffer.ptr = 0 then pure none
    else
      match ← scanDir g g.currentDirCluster true (findVerdict filename) fuel 0 buffer with
      | .hit _ k buffer =>
        kfree buffer
        pure (some (entryAt buffer.data k))
      | .stop buffer =>
        kfree buffer
        pure none
      | .through buffer =>
        kfree buffer
        pure none

/-! ### Changing the directory -/

/-- The backward search for `/`: the position of the last one at or below `i`. -/
def slashSearch (path : List UInt8) : ℕ → Option ℕ
  | 0 => if path.getD 0 0 = 47 then some 0 else none
  | i + 1 => if path.getD (i + 1) 0 = 47 then some (i + 1) else slashSearch path i

/-- `current_path` after `cd ..`. -/
def pathUp (path : List UInt8) : List UInt8 :=
  if 1 < path.length then
    match slashSearch path (path.length - 1) with
    | some 0 => path.take 1
    | some i => path.take i
    | none => path
  else path

/-- `current_path` after a change into the directory stored as `realName`. -/
def pathDown (path realName : List UInt8) : List UInt8 :=
  if path.length + realName.length + 2 < 256 then
    if 1 < path.length ∧ path.getD (path.length - 1) 0 ≠ 47 then path ++ 47 :: realName
    else path ++ realName
  else path

/-- `fat_change_dir`. -/
def fatChangeDir (g : Globals) (fuel : ℕ) (dirname : List UInt8) : Kernel Globals :=
  if !g.isFatInitialized then do
    kprint (text "File system not mounted. Run 'mount' first.\n")
    pure g
  else do
    match ← fatFindFile g fuel dirname with
    | some entry =>
      if isDirectory entry then
        kprint (text "Changed directory.\n")
        let path :=
          if cString dirname = text ".." then pathUp g.currentPath
          else if cString dirname = text "." then g.currentPath
          else pathDown g.currentPath (trimBlanks (nameBytes entry))
        pure { g with currentDirCluster := entry.firstClusterLow, currentPath := path }
      else
        kprint (text "Not a directory.\n")
        pure g
    | none =>
      kprint (text "Directory not found.\n")
      pure g

/-! ### Creating an entry -/

/-- The slot `target` after `fat_create_entry` filled it.  `create_time_tenth`, `last_access_date`,
`write_time` and `write_date` keep the old slot's bytes. -/
def fillEntry (old : DirEntry) (filename : List UInt8) (attr : UInt8) (cluster : UInt16) (size : ℕ) :
    DirEntry := fun i =>
  if i.val < 8 then (shortName filename).getD i 0
  else if i.val < 11 then (shortExt filename).getD (i - 8) 0
  else if i.val = 11 then attr
  else if i.val = 26 then lo8 cluster
  else if i.val = 27 then hi8 cluster
  else if 28 ≤ i.val then UInt8.ofNat (size / 256 ^ (i.val - 28))
  else if i.val = 13 ∨ i.val = 18 ∨ i.val = 19 ∨ 22 ≤ i.val then old i
  else 0

/-- The name `fat_create_entry` prints. -/
def finalName (e : DirEntry) : List UInt8 :=
  ((nameBytes e).filter fun c => c != 32) ++
    if e.ext 0 = 32 then [] else 46 :: ((extBytes e).filter fun c => c != 32)

/-- The test of `fat_create_entry`: a slot never used, or a deleted one. -/
def freeVerdict (e : DirEntry) : Verdict :=
  if e.name 0 = 0x00 ∨ e.name 0 = 0xE5 then .hit else .skip

/-- `fat_create_entry`. -/
def fatCreateEntry (g : Globals) (fuel : ℕ) (filename : List UInt8) (attr : UInt8) (cluster : UInt16)
    (size : ℕ) : Kernel Bool :=
  if !g.isFatInitialized then pure false
  else do
    let buffer ← kmalloc 512
    match ← scanDir g g.currentDirCluster false freeVerdict fuel 0 buffer with
    | .hit sectorIdx k buffer =>
      let target := fillEntry (entryAt buffer.data k) filename attr cluster size
      let buffer := { buffer with data := putEntry buffer.data k target }
      let lba ← writeBackLba g sectorIdx
      ataWriteSector lba buffer
      kfree buffer
      kprint (text "Entry created: ")
      kprint (cString (finalName target))
      kprint (text "\n")
      pure true
    | .stop buffer =>
      kfree buffer
      kprint (text "Directory full or error.\n")
      pure false
    | .through buffer =>
      kfree buffer
      kprint (text "Directory full or error.\n")
      pure false

/-! ### Deleting -/

/-- The loop of `fat_free_cluster_chain`. -/
def freeLoop (g : Globals) : ℕ → UInt16 → Kernel Unit
  | 0, _ => .hang
  | fuel + 1, curr =>
    if curr < 0xFFF8 then do
      let next ← fatNextCluster g curr
      fatWriteFatEntry g curr 0x0000
      freeLoop g fuel next
    else pure ()

/-- `fat_free_cluster_chain`. -/
def fatFreeClusterChain (g : Globals) (fuel : ℕ) (cluster : UInt16) : Kernel Unit :=
  if cluster < 2 then pure () else freeLoop g fuel cluster

/-- The entries `fat_is_dir_empty` takes for `.` -/
def isDot (e : DirEntry) : Bool := e.name 0 == 46 && e.name 1 == 32

/-- The entries `fat_is_dir_empty` takes for `..` -/
def isDotDot (e : DirEntry) : Bool := e.name 0 == 46 && e.name 1 == 46 && e.name 2 == 32

/-- The test of `fat_is_dir_empty`. -/
def emptyVerdict (e : DirEntry) : Verdict :=
  if e.name 0 = 0x00 then .stop
  else if e.name 0 = 0xE5 then .skip
  else if isDot e || isDotDot e then .skip
  else .hit

/-- `fat_is_dir_empty`. -/
def fatIsDirEmpty (g : Globals) (fuel : ℕ) (cluster : UInt16) : Kernel Bool := do
  let buffer ← kmalloc 512
  if buffer.ptr = 0 then pure false
  else
    match ← scanDir g cluster true emptyVerdict fuel 0 buffer with
    | .hit _ _ buffer =>
      kfree buffer
      pure false
    | .stop buffer =>
      kfree buffer
      pure true
    | .through buffer =>
      kfree buffer
      pure true

/-- The store `entries[found].name[0] = 0xE5`. -/
def markDeleted (e : DirEntry) : DirEntry := fun i => if i.val = 0 then 0xE5 else e i

/-- The test of `fat_delete_file`. -/
def deleteFileVerdict (filename : List UInt8) (e : DirEntry) : Verdict :=
  if e.name 0 = 0x00 then .stop
  else if e.name 0 = 0xE5 then .skip
  else if e.attributes &&& attrVolumeId ≠ 0 then .skip
  else if fatFilenameMatch e filename then .hit
  else .skip

/-- Free the chain of entry `k` of the sector in `buffer`, mark it deleted and write it back. -/
def deleteFound (g : Globals) (fuel sectorIdx k : ℕ) (buffer : Buffer) (message : String) :
    Kernel Bool := do
  let lba ← writeBackLba g sectorIdx
  fatFreeClusterChain g fuel (entryAt buffer.data k).firstClusterLow
  let buffer := { buffer with data := putEntry buffer.data k (markDeleted (entryAt buffer.data k)) }
  ataWriteSector lba buffer
  kfree buffer
  kprint (text message)
  pure true

/-- `fat_delete_file`. -/
def fatDeleteFile (g : Globals) (fuel : ℕ) (filename : List UInt8) : Kernel Bool :=
  if !g.isFatInitialized then pure false
  else do
    let buffer ← kmalloc 512
    match ← scanDir g g.currentDirCluster false (deleteFileVerdict filename) fuel 0 buffer with
    | .hit sectorIdx k buffer =>
      if isDirectory (entryAt buffer.data k) then
        kprint (text "Error: Is a directory.\n")
        kfree buffer
        pure false
      else deleteFound g fuel sectorIdx k buffer "File deleted.\n"
    | .stop buffer =>
      kfree buffer
      kprint (text "File not found.\n")
      pure false
    | .through buffer =>
      kfree buffer
      kprint (text "File not found.\n")
      pure false

/-- The test of `fat_delete_dir`: volume labels and long names are not skipped. -/
def deleteDirVerdict (dirname : List UInt8) (e : DirEntry) : Verdict :=
  if e.name 0 = 0x00 then .stop
  else if e.name 0 = 0xE5 then .skip
  else if fatFilenameMatch e dirname then .hit
  else .skip

/-- `fat_delete_dir`. -/
def fatDeleteDir (g : Globals) (fuel : ℕ) (dirname : List UInt8) : Kernel Bool :=
  if !g.isFatInitialized then pure false
  else do
    let buffer ← kmalloc 512
    match ← scanDir g g.currentDirCluster false (deleteDirVerdict dirname) fuel 0 buffer with
    | .hit sectorIdx k buffer =>
      if !isDirectory (entryAt buffer.data k) then
        kprint (text "Error: Not a directory.\n")
        kfree buffer
        pure false
      else if !(← fatIsDirEmpty g fuel (entryAt buffer.data k).firstClusterLow) then
        kprint (text "Error: Directory not empty.\n")
        kfree buffer
        pure false
      else deleteFound g fuel sectorIdx k buffer "Directory deleted.\n"
    | .stop buffer =>
      kfree buffer
      kprint (text "Directory not found.\n")
      pure false
    | .through buffer =>
      kfree buffer
      kprint (text "Directory not found.\n")
      pure false

/-! ### The entry points -/

/-- A call of one of the functions of `fat.c`, with its arguments. -/
inductive Operation
  | fatInit
  | fatList
  | fatFindFile (filename : List UInt8)
  | fatChangeDir (dirname : List UInt8)
  | fatNextCluster (cluster : UInt16)
  | fatWriteFatEntry (cluster value : UInt16)
  | fatAllocateCluster
  | fatCreateEntry (filename : List UInt8) (attr : UInt8) (cluster : UInt16) (size : ℕ)
  | fatFreeClusterChain (cluster : UInt16)
  | fatIsDirEmpty (cluster : UInt16)
  | fatDeleteFile (filename : List UInt8)
  | fatDeleteDir (dirname : List UInt8)

/-- The call as kernel code, its answer dropped. -/
def Operation.code (g : Globals) (fuel : ℕ) : Operation → Kernel Unit
  | fatInit => do let _ ← Fat.fatInit g
  | fatList => Fat.fatList g fuel
  | fatFindFile filename => do let _ ← Fat.fatFindFile g fuel filename
  | fatChangeDir dirname => do let _ ← Fat.fatChangeDir g fuel dirname
  | fatNextCluster cluster => do let _ ← Fat.fatNextCluster g cluster
  | fatWriteFatEntry cluster value => Fat.fatWriteFatEntry g cluster value
  | fatAllocateCluster => do let _ ← Fat.fatAllocateCluster g
  | fatCreateEntry filename attr cluster size => do
    let _ ← Fat.fatCreateEntry g fuel filename attr cluster size
  | fatFreeClusterChain cluster => Fat.fatFreeClusterChain g fuel cluster
  | fatIsDirEmpty cluster => do let _ ← Fat.fatIsDirEmpty g fuel cluster
  | fatDeleteFile filename => do let _ ← Fat.fatDeleteFile g fuel filename
  | fatDeleteDir dirname => do let _ ← Fat.fatDeleteDir g fuel dirname

/-- A volume with two sectors of root directory, one FAT sector and one sector for each cluster. -/
def twoSectorRoot : Globals where
  fatInfo :=
    { oemName := [], bytesPerSector := 512, sectorsPerCluster := 1, reservedSectors := 1,
      fatCount := 1, rootDirEntries := 32, totalSectors16 := 64, fatSize16 := 1, totalSectors32 := 0 }
  fatStartSector := 1
  rootDirSector := 2
  dataStartSector := 4
  currentDirCluster := 0
  currentPath := text "/"
  isFatInitialized := true

end OsEojin.Fat
