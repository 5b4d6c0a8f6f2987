import OsEojin.Vmm

/-!
# `exec`: from the staged file to an address space

`exec` of `src/kernel/kernel.c` copies the file to `0x4000000`, makes an address space and loads the file
into it: an ELF file segment by segment (`src/kernel/elf.c`), anything else as one image at `0x10000000`.
The loaders reach pages, tables and file through physical addresses, and so do these definitions: they are the
loaders as long as the kernel's map leads every address in use to itself.  A page that is mapped below 512 GB
changes that map; the same functions with the accesses going through it are those of `KernelMap`, and
`Steady.exec` and `InPlace.elfLoadFile` say when the two agree.

* `flatPage`, `flatLoop`: the loop of `exec` over the pages of a flat binary;
* `elfPage`, `elfSegment`, `elfLoadFile`: the ELF loader, one page, one segment, the whole file;
* `exec`: all of it.
-/

namespace OsEojin.Exec

open OsEojin.Lib.ByteMemory OsEojin.Pmm OsEojin.Vmm

/-- `load_addr`: where the file is staged. -/
def loadAddr : ℕ := 0x4000000

/-! ### Flat binaries -/

/-- `flat_binary_vaddr`. -/
def flatBinaryVaddr : ℕ := 0x10000000

/-- One round of the loop over a flat binary: a cleared block with the bytes from `offset` on, mapped
behind the ones before it.  `false` when there is no block. -/
def flatPage (s : VmState) (pml4 flatBinarySize offset : ℕ) : Bool × VmState :=
  match pmmAllocBlock s.pmm with
  | (paddr, pmm) =>
    if paddr = 0 then (false, { s with pmm := pmm })
    else
      let copyLen := if flatBinarySize < offset + pageSize then flatBinarySize - offset else pageSize
      let mem := copy (fill s.mem paddr pageSize 0) paddr (loadAddr + offset) copyLen
      (true, vmmMapPage { s with mem := mem, pmm := pmm } pml4 (flatBinaryVaddr + offset) paddr
        pagingFlagsAll)

/-- The loop, for `n` pages from `offset` on. -/
def flatLoop (pml4 flatBinarySize : ℕ) : ℕ → ℕ → VmState → Bool × VmState
  | 0, _, s => (true, s)
  | n + 1, offset, s =>
    match flatPage s pml4 flatBinarySize offset with
    | (false, s) => (false, s)
    | (true, s) => flatLoop pml4 flatBinarySize n (offset + pageSize) s

/-! ### ELF files -/

/-- `elf_check_file`: the magic number. -/
def elfCheckFile (m : Memory) (hdr : ℕ) : Bool :=
  hdr != 0 && m hdr == 0x7F && m (hdr + 1) == 69 && m (hdr + 2) == 76 && m (hdr + 3) == 70

/-- `elf_check_supported`: 64 bits, little endian, x86-64, executable or shared. -/
def elfCheckSupported (m : Memory) (hdr : ℕ) : Bool :=
  elfCheckFile m hdr && m (hdr + 4) == 2 && m (hdr + 5) == 1 && readLe m (hdr + 18) 2 == 62 &&
    (readLe m (hdr + 16) 2 == 2 || readLe m (hdr + 16) 2 == 3)

/-- The fields of a program header that the loader reads. -/
structure Segment where
  vaddrStart : ℕ
  memSize : ℕ
  fileSize : ℕ
  fileOffset : ℕ

/-- `phdr[i]` of the table at `phdr`. -/
def phdrAddr (phdr i : ℕ) : ℕ := (phdr + 56 * i) % 2 ^ 64

/-- The segment of the program header at `p`. -/
def segmentAt (m : Memory) (p : ℕ) : Segment where
  vaddrStart := readLe m (p + 16) 8
  memSize := readLe m (p + 40) 8
  fileSize := readLe m (p + 32) 8
  fileOffset := readLe m (p + 8) 8

/-- The bytes of the segment that belong to the page at `vaddr`: first and last address. -/
def copyRange (seg : Segment) (vaddr : ℕ) : ℕ × ℕ :=
  let segDataEnd := (seg.vaddrStart + seg.fileSize) % 2 ^ 64
  let pageEnd := (vaddr + pageSize) % 2 ^ 64
  (if vaddr < seg.vaddrStart then seg.vaddrStart else vaddr,
    if segDataEnd < pageEnd then segDataEnd else pageEnd)

/-- The memory after the page's bytes were copied to the block at `paddr`. -/
def copySegment (m : Memory) (fileBuffer : ℕ) (seg : Segment) (vaddr paddr : ℕ) : Memory :=
  let copyStart := (copyRange seg vaddr).1
  let copyEnd := (copyRange seg vaddr).2
  if copyStart < copyEnd then
    copy m (paddr + (copyStart - vaddr))
      ((fileBuffer + seg.fileOffset + (copyStart - seg.vaddrStart)) % 2 ^ 64) (copyEnd - copyStart)
  else m

/-- One round of the loop over the pages of a segment: a block is mapped, cleared and filled.  `false`
when there is no block. -/
def elfPage (s : VmState) (pml4 fileBuffer : ℕ) (seg : Segment) (vaddr : ℕ) : Bool × VmState :=
  match pmmAllocBlock s.pmm with
  | (paddr, pmm) =>
    if paddr = 0 then (false, { s with pmm := pmm })
    else
      let s := vmmMapPage { s with pmm := pmm } pml4 vaddr paddr pagingFlagsAll
      (true, { s with mem := copySegment (fill s.mem paddr pageSize 0) fileBuffer seg vaddr paddr })

/-- The loop over the pages of a segment, for `n` pages from `vaddr` on. -/
def elfPages (pml4 fileBuffer : ℕ) (seg : Segment) : ℕ → ℕ → VmState → Bool × VmState
  | 0, _, s => (true, s)
  | n + 1, vaddr, s =>
    match elfPage s pml4 fileBuffer seg vaddr with
    | (false, s) => (false, s)
    | (true, s) => elfPages pml4 fileBuffer seg n (vaddr + pageSize) s

/-- A segment: the pages from its first to its last address. -/
def elfSegment (s : VmState) (pml4 fileBuffer : ℕ) (seg : Segment) : Bool × VmState :=
  let vaddr := seg.vaddrStart / pageSize * pageSize
  let endVaddr := (seg.vaddrStart + seg.memSize + pageSize - 1) % 2 ^ 64 / pageSize * pageSize
  elfPages pml4 fileBuffer seg ((endVaddr - vaddr) / pageSize) vaddr s

/-- The loop over the program headers.  `e_phnum` has 16 bits, so 65536 rounds are enough. -/
def elfHeaders (pml4 fileBuffer phdr : ℕ) : ℕ → ℕ → VmState → Bool × VmState
  | 0, _, s => (true, s)
  | fuel + 1, i, s =>
    if i < readLe s.mem (fileBuffer + 56) 2 then
      if readLe s.mem (phdrAddr phdr i) 4 = 1 then
        match elfSegment s pml4 fileBuffer (segmentAt s.mem (phdrAddr phdr i)) with
        | (false, s) => (false, s)
        | (true, s) => elfHeaders pml4 fileBuffer phdr fuel (i + 1) s
      else elfHeaders pml4 fileBuffer phdr fuel (i + 1) s
    else (true, s)

/-- `elf_load_file(pml4, file_buffer)`: the entry point, `0` when the file was not loaded.  Its pointers are physical
addresses (`KernelMap.elfLoadFile` for the general case). -/
def elfLoadFile (s : VmState) (pml4 fileBuffer : ℕ) : ℕ × VmState :=
  if elfCheckSupported s.mem fileBuffer then
    match elfHeaders pml4 fileBuffer ((fileBuffer + readLe s.mem (fileBuffer + 32) 8) % 2 ^ 64) 65536 0 s with
    | (false, s) => (0, s)
    | (true, s) => (readLe s.mem (fileBuffer + 24) 8, s)
  else (0, s)

/-! ### The command -/

/-- `exec` from the staged file on: the entry point and the PML4 handed to `create_user_process`. -/
def execSpawn (s : VmState) (fileSize : ℕ) : Option (ℕ × ℕ) × VmState :=
  match vmmCreateUserPml4 s with
  | (procPml4, s) =>
    if procPml4 = 0 then (none, s)
    else if elfCheckFile s.mem loadAddr then
      match elfLoadFile s procPml4 loadAddr with
      | (entryPoint, s) => if entryPoint = 0 then (none, s) else (some (entryPoint, procPml4), s)
    else
      match flatLoop procPml4 fileSize ((fileSize + pageSize - 1) / pageSize) 0 s with
      | (false, s) => (none, s)
      | (true, s) => (some (flatBinaryVaddr, procPml4), s)

/-- `exec` of a file with these bytes, with physical addresses for pointers (`KernelMap.exec` for the general
case). -/
def exec (s : VmState) (image : List UInt8) (fileSize : ℕ) : Option (ℕ × ℕ) × VmState :=
  execSpawn { s with mem := store s.mem loadAddr image } fileSize

/-! ### The loaders write into their block -/

/-- The bytes of a page stay in its block. -/
theorem copySegment_of_notMem {m : Memory} {fileBuffer vaddr paddr x : ℕ} {seg : Segment}
    (hx : x < paddr ∨ paddr + pageSize ≤ x) :
    copySegment m fileBuffer seg vaddr paddr x = m x := by
  have hstart : vaddr ≤ (copyRange seg vaddr).1 := by
    simp only [copyRange]
    split <;> omega
  have hend : (copyRange seg vaddr).2 ≤ vaddr + pageSize := by
    have hmod : (vaddr + pageSize) % 2 ^ 64 ≤ vaddr + pageSize := Nat.mod_le _ _
    simp only [copyRange]
    split <;> omega
  rw [copySegment]
  split
  · exact copy_of_notMem (by omega)
  · rfl

end OsEojin.Exec
