import OsEojin.ElfRounds
import OsEojin.ExecTwins

/-!
# The loaders and the kernel's own map

`exec` and `elf_load_file` run with the paging switched on: a pointer of theirs leads where the tables of the
current address space say, and these tables change while pages are mapped.  An address space has entry 0 in
common with the kernel (`vmm_create_user_pml4` of `src/kernel/vmm.c`), so a page below 512 GB that is mapped for
a process is mapped for the kernel as well, from that call on.

* `frame`: the byte behind an address; `peek`, `poke`, `memset`, `memcpy`: the accesses;
* `vmmMapPage`, `elfLoadFile`, `exec`: the functions of `Vmm` and `Exec` with these accesses;
* `Steady`: the addresses in use are still their own;
* `Steady.mapPage`, `Steady.elfPage`, `Steady.flatPage`: as long as no page is mapped over one of them, the
  functions are those of `Vmm` and `Exec`, whose pointers are physical addresses.

Without an answer (`none`) are a page fault, and a kernel that finds a page of a process in place of its own.
-/

namespace OsEojin.KernelMap

open OsEojin.Lib.ByteMemory OsEojin.Lib.Forests OsEojin.Pmm OsEojin.Vmm
open OsEojin.Exec (Segment phdrAddr copyRange loadAddr flatBinaryVaddr)

/-! ### Accesses -/

/-- Bits 47 to 63 are the same. -/
def canonical (a : ℕ) : Bool := a < 2 ^ 47 || 2 ^ 64 - 2 ^ 47 ≤ a && a < 2 ^ 64

/-- **The byte of memory behind an address**, with the tables as they are. -/
def frame (s : VmState) (a : ℕ) : Option ℕ :=
  if canonical a then translate s.mem s.currentPml4 a else none

def peek (s : VmState) (a : ℕ) : Option UInt8 := (frame s a).map s.mem

def poke (s : VmState) (a : ℕ) (b : UInt8) : Option VmState :=
  (frame s a).map fun x => { s with mem := Function.update s.mem x b }

/-- A number of `n` bytes. -/
def peekLe (s : VmState) : ℕ → ℕ → Option ℕ
  | _, 0 => some 0
  | a, n + 1 => (peek s a).bind fun b => (peekLe s (a + 1) n).map fun rest => b.toNat + 256 * rest

/-- `memset(dest, val, count)`. -/
def memset (s : VmState) (dest : ℕ) (val : UInt8) : ℕ → Option VmState
  | 0 => some s
  | n + 1 => (memset s dest val n).bind fun s => poke s (dest + n) val

/-- `memcpy(dest, source, nbytes)`. -/
def memcpy (s : VmState) (dest source : ℕ) : ℕ → Option VmState
  | 0 => some s
  | n + 1 => (memcpy s dest source n).bind fun s => (peek s (source + n)).bind fun b => poke s (dest + n) b

/-- The loop of `exec` that stores the file. -/
def storeBytes (s : VmState) (dest : ℕ) (bytes : List UInt8) : ℕ → Option VmState
  | 0 => some s
  | n + 1 => (storeBytes s dest bytes n).bind fun s => poke s (dest + n) (bytes.getD n 0)

/-- `table->entries[i]`: eight bytes of one page. -/
def entry (s : VmState) (table : ℕ) (i : Fin 512) : Option ℕ :=
  (frame s (table + 8 * i)).map fun x => readLe s.mem x 8

def putEntry (s : VmState) (table : ℕ) (i : Fin 512) (v : ℕ) : Option VmState :=
  (frame s (table + 8 * i)).map fun x => { s with mem := writeLe s.mem x 8 v }

/-! ### Mapping -/

/-- The pages of the kernel, its code, its data and its stack, are where they were. -/
def intact (own : List ℕ) (s : VmState) : Bool := own.all fun a => frame s a == some a

/-- One level of `vmm_map_page`. -/
def nextTable (s : VmState) (table : ℕ) (i : Fin 512) : Option (Option ℕ × VmState) :=
  (entry s table i).bind fun e =>
    if present e then some (some (tableOf e), s)
    else
      match pmmAllocBlock s.pmm with
      | (block, pmm) =>
        if block = 0 then some (none, { s with pmm := pmm })
        else
          (memset { s with pmm := pmm } block 0 pageSize).bind fun s =>
            (putEntry s table i
              (block ||| pagingFlagPresent ||| pagingFlagWritable ||| pagingFlagUser)).bind fun s =>
              (entry s table i).map fun e => (some (tableOf e), s)

/-- `vmm_map_page(pml4, vaddr, paddr, flags)`, by a kernel with the pages `own`. -/
def vmmMapPage (own : List ℕ) (s : VmState) (pml4 vaddr paddr flags : ℕ) : Option VmState :=
  (nextTable s pml4 (pml4Index vaddr)).bind fun
    | (none, s) => some s
    | (some pdpt, s) => (nextTable s pdpt (pdptIndex vaddr)).bind fun
      | (none, s) => some s
      | (some pd, s) => (nextTable s pd (pdIndex vaddr)).bind fun
        | (none, s) => some s
        | (some pt, s) =>
          (putEntry s pt (ptIndex vaddr) (paddr &&& 0xFFFFFFFFFF000 ||| flags)).bind fun s =>
            if intact own s then some s else none

/-- `vmm_create_user_pml4`. -/
def vmmCreateUserPml4 (s : VmState) : Option (ℕ × VmState) :=
  match pmmAllocBlock s.pmm with
  | (block, pmm) =>
    if block = 0 then some (0, { s with pmm := pmm })
    else
      (memset { s with pmm := pmm } block 0 pageSize).bind fun s =>
        (entry s s.kernelPml4 (pml4Index 0)).bind fun e =>
          (putEntry s block (pml4Index 0) e).map fun s => (block, s)

/-! ### ELF files -/

/-- Checks one after the other, up to the first that fails. -/
def checks : List (Option Bool) → Option Bool
  | [] => some true
  | c :: cs => c.bind fun ok => if ok then checks cs else some false

/-- `elf_check_file`. -/
def elfCheckFile (s : VmState) (hdr : ℕ) : Option Bool :=
  checks [some (hdr != 0), (peek s hdr).map (· == 0x7F), (peek s (hdr + 1)).map (· == 69),
    (peek s (hdr + 2)).map (· == 76), (peek s (hdr + 3)).map (· == 70)]

/-- `elf_check_supported`. -/
def elfCheckSupported (s : VmState) (hdr : ℕ) : Option Bool :=
  checks [elfCheckFile s hdr, (peek s (hdr + 4)).map (· == 2), (peek s (hdr + 5)).map (· == 1),
    (peekLe s (hdr + 18) 2).map (· == 62),
    (peekLe s (hdr + 16) 2).map fun eType => eType == 2 || eType == 3]

/-- The segment of the program header at `p`. -/
def segmentAt (s : VmState) (p : ℕ) : Option Segment :=
  (peekLe s (p + 16) 8).bind fun vaddrStart => (peekLe s (p + 40) 8).bind fun memSize =>
    (peekLe s (p + 32) 8).bind fun fileSize => (peekLe s (p + 8) 8).map fun fileOffset =>
      ⟨vaddrStart, memSize, fileSize, fileOffset⟩

/-- The page's bytes are copied to the block at `paddr`. -/
def copySegment (s : VmState) (fileBuffer : ℕ) (seg : Segment) (vaddr paddr : ℕ) : Option VmState :=
  let copyStart := (copyRange seg vaddr).1
  let copyEnd := (copyRange seg vaddr).2
  if copyStart < copyEnd then
    memcpy s (paddr + (copyStart - vaddr))
      ((fileBuffer + seg.fileOffset + (copyStart - seg.vaddrStart)) % 2 ^ 64) (copyEnd - copyStart)
  else some s

/-- One round of the loop over the pages of a segment. -/
def elfPage (own : List ℕ) (s : VmState) (pml4 fileBuffer : ℕ) (seg : Segment) (vaddr : ℕ) :
    Option (Bool × VmState) :=
  match pmmAllocBlock s.pmm with
  | (paddr, pmm) =>
    if paddr = 0 then some (false, { s with pmm := pmm })
    else
      (vmmMapPage own { s with pmm := pmm } pml4 vaddr paddr pagingFlagsAll).bind fun s =>
        (memset s paddr 0 pageSize).bind fun s =>
          (copySegment s fileBuffer seg vaddr paddr).map fun s => (true, s)

/-- The loop over the pages of a segment, for `n` pages from `vaddr` on. -/
def elfPages (own : List ℕ) (pml4 fileBuffer : ℕ) (seg : Segment) : ℕ → ℕ → VmState → Option (Bool × VmState)
  | 0, _, s => some (true, s)
  | n + 1, vaddr, s => (elfPage own s pml4 fileBuffer seg vaddr).bind fun
    | (false, s) => some (false, s)
    | (true, s) => elfPages own pml4 fileBuffer seg n (vaddr + pageSize) s

/-- A segment: the pages from its first to its last address. -/
def elfSegment (own : List ℕ) (s : VmState) (pml4 fileBuffer : ℕ) (seg : Segment) : Option (Bool × VmState) :=
  let vaddr := seg.vaddrStart / pageSize * pageSize
  let endVaddr := (seg.vaddrStart + seg.memSize + pageSize - 1) % 2 ^ 64 / pageSize * pageSize
  elfPages own pml4 fileBuffer seg ((endVaddr - vaddr) / pageSize) vaddr s

/-- The loop over the program headers. -/
def elfHeaders (own : List ℕ) (pml4 fileBuffer phdr : ℕ) : ℕ → ℕ → VmState → Option (Bool × VmState)
  | 0, _, s => some (true, s)
  | fuel + 1, i, s => (peekLe s (fileBuffer + 56) 2).bind fun phnum =>
    if i < phnum then
      (peekLe s (phdrAddr phdr i) 4).bind fun pType =>
        if pType = 1 then
          (segmentAt s (phdrAddr phdr i)).bind fun seg => (elfSegment own s pml4 fileBuffer seg).bind fun
            | (false, s) => some (false, s)
            | (true, s) => elfHeaders own pml4 fileBuffer phdr fuel (i + 1) s
        else elfHeaders own pml4 fileBuffer phdr fuel (i + 1) s
    else some (true, s)

/-- `elf_load_file(pml4, file_buffer)`. -/
def elfLoadFile (own : List ℕ) (s : VmState) (pml4 fileBuffer : ℕ) : Option (ℕ × VmState) :=
  (elfCheckSupported s fileBuffer).bind fun supported =>
    if supported then
      (peekLe s (fileBuffer + 32) 8).bind fun phoff =>
        (elfHeaders own pml4 fileBuffer ((fileBuffer + phoff) % 2 ^ 64) 65536 0 s).bind fun
          | (false, s) => some (0, s)
          | (true, s) => (peekLe s (fileBuffer + 24) 8).map fun eEntry => (eEntry, s)
    else some (0, s)

/-! ### The command -/

/-- One round of the loop over a flat binary. -/
def flatPage (own : List ℕ) (s : VmState) (pml4 flatBinarySize offset : ℕ) : Option (Bool × VmState) :=
  match pmmAllocBlock s.pmm with
  | (paddr, pmm) =>
    if paddr = 0 then some (false, { s with pmm := pmm })
    else
      let copyLen := if flatBinarySize < offset + pageSize then flatBinarySize - offset else pageSize
      (memset { s with pmm := pmm } paddr 0 pageSize).bind fun s =>
        (memcpy s paddr (loadAddr + offset) copyLen).bind fun s =>
          (vmmMapPage own s pml4 (flatBinaryVaddr + offset) paddr pagingFlagsAll).map fun s => (true, s)

/-- The loop, for `n` pages from `offset` on. -/
def flatLoop (own : List ℕ) (pml4 flatBinarySize : ℕ) : ℕ → ℕ → VmState → Option (Bool × VmState)
  | 0, _, s => some (true, s)
  | n + 1, offset, s => (flatPage own s pml4 flatBinarySize offset).bind fun
    | (false, s) => some (false, s)
    | (true, s) => flatLoop own pml4 flatBinarySize n (offset + pageSize) s

/-- `exec` from the staged file on. -/
def execSpawn (own : List ℕ) (s : VmState) (fileSize : ℕ) : Option (Option (ℕ × ℕ) × VmState) :=
  (vmmCreateUserPml4 s).bind fun (procPml4, s) =>
    if procPml4 = 0 then some (none, s)
    else (elfCheckFile s loadAddr).bind fun elf =>
      if elf then
        (elfLoadFile own s procPml4 loadAddr).map fun (entryPoint, s) =>
          if entryPoint = 0 then (none, s) else (some (entryPoint, procPml4), s)
      else
        (flatLoop own procPml4 fileSize ((fileSize + pageSize - 1) / pageSize) 0 s).map fun
          | (false, s) => (none, s)
          | (true, s) => (some (flatBinaryVaddr, procPml4), s)

/-- `exec` of a file with these bytes. -/
def exec (own : List ℕ) (s : VmState) (image : List UInt8) (fileSize : ℕ) :
    Option (Option (ℕ × ℕ) × VmState) :=
  (storeBytes s loadAddr image image.length).bind fun s => execSpawn own s fileSize

/-- `exec` of a file with these bytes goes the way of ELF files. -/
def takesElf (s : VmState) (image : List UInt8) : Option Bool :=
  (storeBytes s loadAddr image image.length).bind fun s => (vmmCreateUserPml4 s).bind fun (procPml4, s) =>
    if procPml4 = 0 then some false else elfCheckFile s loadAddr

/-! ### Addresses that are their own -/

/-- **The addresses in use are their own**: the current address space maps each of them to itself, and the
bytes of the tables are among them. -/
structure Steady (U root : ℕ → Prop) (s : VmState) : Prop where
  ok : TablesOk s root
  current : root s.currentPml4
  kernel : root s.kernelPml4
  tables : ∀ t x, Node (next s.mem) root 3 t → t ≤ x → x < t + pageSize → U x
  straight : ∀ x, U x → frame s x = some x

section Steady

variable {U root : ℕ → Prop} {s : VmState} {t : ℕ}

/-- An address leads where it led while the entry of its page is the same. -/
theorem frame_congr {root' : ℕ → Prop} {s' : VmState} {x : ℕ} (h : TablesOk s root) (h' : TablesOk s' root')
    (hroot : root s.currentPml4) (hroot' : root' s.currentPml4) (hcurrent : s'.currentPml4 = s.currentPml4)
    (hpage : pageEntry s'.mem s.currentPml4 x = pageEntry s.mem s.currentPml4 x) : frame s' x = frame s x := by
  rw [frame, frame, hcurrent, Vmm.translate_eq h'.noHuge hroot', Vmm.translate_eq h.noHuge hroot, hpage]

/-- What leaves the tables alone. -/
theorem Steady.transfer (h : Steady U root s) {s' : VmState} (hpmm : Later s.pmm s'.pmm)
    (hkernel : s'.kernelPml4 = s.kernelPml4) (hcurrent : s'.currentPml4 = s.currentPml4)
    (hentry : ∀ t k, Node (next s.mem) root 3 t → Vmm.entry s'.mem t k = Vmm.entry s.mem t k) :
    Steady U root s' := by
  have hok := h.ok.transfer hpmm hentry
  refine ⟨hok, by rw [hcurrent]; exact h.current, by rw [hkernel]; exact h.kernel, ?_, ?_⟩
  · rintro t x ⟨r, q, hr, hq, ht⟩ hx hx'
    rw [reach_transfer hentry hr hq] at ht
    exact h.tables t x ⟨r, q, hr, hq, ht⟩ hx hx'
  · intro x hx
    rw [frame_congr h.ok hok h.current h.current hcurrent (pageEntry_transfer hentry h.current x)]
    exact h.straight x hx

theorem Steady.alloc (h : Steady U root s) : Steady U root { s with pmm := (pmmAllocBlock s.pmm).2 } :=
  h.transfer (later_alloc _) rfl rfl fun _ _ _ => rfl

theorem peekLe_eq (h : ∀ x, U x → frame s x = some x) {a n : ℕ} (ha : ∀ x, a ≤ x → x < a + n → U x) :
    peekLe s a n = some (readLe s.mem a n) := by
  induction n generalizing a with
  | zero => rfl
  | succ n ih =>
    rw [peekLe, peek, h a (ha a (Nat.le_refl a) (by omega)), ih fun x hx hx' => ha x (by omega) (by omega)]
    rfl

theorem Steady.entry (h : Steady U root s) (ht : Node (next s.mem) root 3 t) (i : Fin 512) :
    KernelMap.entry s t i = some (Vmm.entry s.mem t i) := by
  have hi := i.isLt
  rw [KernelMap.entry, h.straight _ (h.tables t _ ht (by omega) (by rw [pageSize]; omega))]
  rfl

theorem Steady.putEntry (h : Steady U root s) (ht : Node (next s.mem) root 3 t) (i : Fin 512) (v : ℕ) :
    KernelMap.putEntry s t i v = some { s with mem := Vmm.putEntry s.mem t i v } := by
  have hi := i.isLt
  rw [KernelMap.putEntry, h.straight _ (h.tables t _ ht (by omega) (by rw [pageSize]; omega))]
  rfl

/-! ### A block that is no table -/

section Block

variable {a : ℕ} (h : Steady U root s) (ha : a % 4096 = 0) (hnode : ¬ Node (next s.mem) root 3 a)
include h ha hnode

theorem Steady.write {mem : Memory} (hmem : ∀ x, x < a ∨ a + pageSize ≤ x → mem x = s.mem x) :
    Steady U root { s with mem := mem } :=
  h.transfer (Later.refl _) rfl rfl fun _ k ht => h.ok.entry_of_block ha hnode hmem ht k

theorem Steady.fillBlock (val : UInt8) {n : ℕ} (hn : n ≤ pageSize) :
    Steady U root { s with mem := fill s.mem a n val } :=
  h.write ha hnode fun _ hx => fill_of_notMem (by omega)

/-- The tables are the same. -/
theorem Steady.node_write {mem : Memory} (hmem : ∀ x, x < a ∨ a + pageSize ≤ x → mem x = s.mem x) {y : ℕ} :
    Node (next mem) root 3 y ↔ Node (next s.mem) root 3 y := by
  have hentry : ∀ t k, Node (next s.mem) root 3 t →
      Vmm.entry ({ s with mem := mem } : VmState).mem t k = Vmm.entry s.mem t k :=
    fun _ k ht => h.ok.entry_of_block ha hnode hmem ht k
  have hreach : ∀ {r q}, root r → q.length ≤ 3 → reach (next mem) r q = reach (next s.mem) r q :=
    fun hr hq => reach_transfer hentry hr hq
  constructor
  · rintro ⟨r, q, hr, hq, hy⟩
    exact ⟨r, q, hr, hq, (hreach hr hq).symm.trans hy⟩
  · rintro ⟨r, q, hr, hq, hy⟩
    exact ⟨r, q, hr, hq, (hreach hr hq).trans hy⟩

theorem Steady.node_fillBlock {y : ℕ} :
    Node (next (fill s.mem a pageSize 0)) root 3 y ↔ Node (next s.mem) root 3 y :=
  h.node_write ha hnode fun _ hx => fill_of_notMem hx

theorem Steady.copyBlock {dest source n : ℕ} (hlow : a ≤ dest) (hhigh : dest + n ≤ a + pageSize) :
    Steady U root { s with mem := copy s.mem dest source n } :=
  h.write ha hnode fun _ hx => copy_of_notMem (by omega)

variable (hU : ∀ x, a ≤ x → x < a + pageSize → U x)
include hU

/-- **Clearing a block**, byte by byte. -/
theorem Steady.memset (val : UInt8) {n : ℕ} (hn : n ≤ pageSize) :
    KernelMap.memset s a val n = some { s with mem := fill s.mem a n val } := by
  induction n with
  | zero =>
    have hnone : fill s.mem a 0 val = s.mem := by
      funext x
      exact fill_of_notMem (by omega)
    rw [KernelMap.memset, hnone]
  | succ n ih =>
    have hbefore := h.fillBlock ha hnode val (show n ≤ pageSize from by omega)
    rw [KernelMap.memset, ih (by omega), Option.bind_some, poke,
      hbefore.straight _ (hU (a + n) (by omega) (by omega)), Option.map_some, fill_succ]

/-- **Copying to it.** -/
theorem Steady.memcpy {dest source n : ℕ} (hlow : a ≤ dest) (hhigh : dest + n ≤ a + pageSize)
    (hsource : ∀ x, source ≤ x → x < source + n → U x) :
    KernelMap.memcpy s dest source n = some { s with mem := copy s.mem dest source n } := by
  induction n with
  | zero => rfl
  | succ n ih =>
    have hbefore : Steady U root { s with mem := copy s.mem dest source n } :=
      h.copyBlock ha hnode hlow (by omega)
    rw [KernelMap.memcpy, ih (by omega) fun x hx hx' => hsource x hx (by omega), Option.bind_some, peek,
      hbefore.straight _ (hsource (source + n) (by omega) (by omega)), Option.map_some, Option.bind_some, poke,
      hbefore.straight _ (hU (dest + n) (by omega) (by omega)), Option.map_some, copy]

end Block

/-! ### One level -/

/-- A new table, whose block is one of the addresses in use. -/
theorem Steady.hang (h : Steady U root s) (ht : Node (next s.mem) root 2 t) {i : Fin 512}
    (h0 : (pmmAllocBlock s.pmm).1 ≠ 0) (hnone : next s.mem t i = none)
    (hU : ∀ x, (pmmAllocBlock s.pmm).1 ≤ x → x < (pmmAllocBlock s.pmm).1 + pageSize → U x) :
    Steady U root (Vmm.hang s t i) := by
  have hlt := h.ok.block_lt h0
  have hgrows := grows_hang h.ok.forest ht h0 hlt hnone
  have hok := h.ok.hang ht h0 hnone
  refine ⟨hok, h.current, h.kernel, ?_, ?_⟩
  · rintro y x ⟨r, q, hr, hq, hy⟩ hx hx'
    cases hgrows.reach_cases hr hq hy with
    | inl hold => exact h.tables y x ⟨r, q, hr, hq, hold⟩ hx hx'
    | inr hnew =>
      rw [hnew.1] at hx hx'
      exact hU x hx hx'
  · intro x hx
    rw [frame_congr h.ok hok h.current h.current rfl
      (pageEntry_hang h.ok.forest ht h0 hlt hnone h.current x)]
    exact h.straight x hx

/-- The block of an allocation is one of the addresses in use. -/
theorem block_of_taken (h0 : (pmmAllocBlock s.pmm).1 ≠ 0) {p : PmmState}
    (hp : Allocates (pmmAllocBlock s.pmm).2 p) (hblocks : ∀ x, Taken s.pmm p x → U x) :
    ∀ x, (pmmAllocBlock s.pmm).1 ≤ x → x < (pmmAllocBlock s.pmm).1 + pageSize → U x :=
  fun x hx hx' => hblocks x (((taken_alloc h0 x).mpr ⟨hx, hx'⟩).mono (Allocates.refl _) hp)

theorem Steady.nextTable (h : Steady U root s) (ht : Node (next s.mem) root 2 t) (i : Fin 512)
    (hblocks : ∀ x, Taken s.pmm (Vmm.nextTable s t i).2.pmm x → U x) :
    KernelMap.nextTable s t i = some (Vmm.nextTable s t i) ∧ Steady U root (Vmm.nextTable s t i).2 := by
  have hnode : Node (next s.mem) root 3 t := node_mono (by decide) ht
  rw [KernelMap.nextTable, h.entry hnode, Option.bind_some]
  cases hpresent : present (Vmm.entry s.mem t i) with
  | true =>
    rw [if_pos rfl, nextTable_of_next (next_eq_some hpresent)]
    exact ⟨rfl, h⟩
  | false =>
    have heq := nextTable_absent hpresent
    rw [if_neg Bool.false_ne_true]
    dsimp only
    by_cases h0 : (pmmAllocBlock s.pmm).1 = 0
    · rw [if_pos h0] at heq ⊢
      rw [heq]
      exact ⟨rfl, h.alloc⟩
    · rw [if_neg h0] at heq ⊢
      rw [heq] at hblocks ⊢
      have halign := pmmAllocBlock_aligned s.pmm
      have hU := block_of_taken h0 (Allocates.refl _) hblocks
      have hcleared := h.alloc.fillBlock halign (h.ok.fresh h0) 0 (Nat.le_refl pageSize)
      have hnode' : Node (next (fill s.mem (pmmAllocBlock s.pmm).1 pageSize 0)) root 3 t :=
        (h.node_fillBlock halign (h.ok.fresh h0)).mpr hnode
      have hhang := h.hang ht h0 (next_eq_none hpresent) hU
      have hnode'' : Node (next (Vmm.hang s t i).mem) root 3 t := by
        obtain ⟨r, q, hr, hq, hreach⟩ := hnode
        exact ⟨r, q, hr, hq, (grows_hang h.ok.forest ht h0 (h.ok.block_lt h0)
          (next_eq_none hpresent)).reach_old hr hq hreach⟩
      have hentry := hhang.entry hnode'' i
      rw [h.alloc.memset halign (h.ok.fresh h0) hU 0 (Nat.le_refl pageSize), Option.bind_some,
        hcleared.putEntry hnode' i, Option.bind_some, pointer_eq halign]
      rw [Vmm.hang] at hentry ⊢
      rw [hentry]
      exact ⟨rfl, hhang⟩

end Steady

/-! ### The way down, and the entry of a page -/

/-- The levels of `vmm_map_page` as one recursion over the indices. -/
def descend (s : VmState) (table : ℕ) : List (Fin 512) → Option (Option ℕ × VmState)
  | [] => some (some table, s)
  | i :: rest => (nextTable s table i).bind fun
    | (none, s) => some (none, s)
    | (some table, s) => descend s table rest

theorem vmmMapPage_eq (own : List ℕ) (s : VmState) (pml4 vaddr paddr flags : ℕ) :
    vmmMapPage own s pml4 vaddr paddr flags = (descend s pml4 (dirs vaddr)).bind fun
      | (none, s) => some s
      | (some pt, s) => (putEntry s pt (ptIndex vaddr) (paddr &&& 0xFFFFFFFFFF000 ||| flags)).bind fun s =>
          if intact own s then some s else none := by
  rw [vmmMapPage, dirs, descend]
  rcases nextTable s pml4 (pml4Index vaddr) with _ | ⟨_ | pdpt, s₁⟩
  · rfl
  · rfl
  simp only [Option.bind_some, descend]
  rcases nextTable s₁ pdpt (pdptIndex vaddr) with _ | ⟨_ | pd, s₂⟩
  · rfl
  · rfl
  simp only [Option.bind_some]
  rcases nextTable s₂ pd (pdIndex vaddr) with _ | ⟨_ | pt, s₃⟩
  · rfl
  · rfl
  · rfl

section Maps

variable {U root : ℕ → Prop} {s : VmState} {P : ℕ}

/-- **The way down**, by induction on what is left of it. -/
theorem Steady.descend (h : Steady U root s) (hP : root P) (p rest : List (Fin 512))
    (hlen : p.length + rest.length ≤ 3) {t : ℕ} (ht : reach (next s.mem) P p = some t)
    (hblocks : ∀ x, Taken s.pmm (Vmm.descend s t rest).2.pmm x → U x) :
    KernelMap.descend s t rest = some (Vmm.descend s t rest) ∧ Steady U root (Vmm.descend s t rest).2 := by
  induction rest generalizing s t p with
  | nil => exact ⟨rfl, h⟩
  | cons i rest ih =>
    simp only [List.length_cons] at hlen
    have hnode : Node (next s.mem) root 2 t := ⟨P, p, hP, by omega, ht⟩
    have hfirst : ∀ x, Taken s.pmm (Vmm.nextTable s t i).2.pmm x → U x :=
      fun x hx => hblocks x (hx.mono (Allocates.refl _) (allocates_descend_next s t i rest))
    obtain ⟨hsame, hsteady⟩ := h.nextTable hnode i hfirst
    have htarget := (descend_spec h.ok hP p [i] (by simp only [List.length_singleton]; omega) ht).target
    have hnext : Allocates s.pmm (Vmm.nextTable s t i).2.pmm := by
      cases nextTable_calls s t i with
      | inl hfound =>
        rw [hfound]
        exact Allocates.refl _
      | inr hasked =>
        rw [hasked.1]
        exact allocates_alloc _
    rw [Vmm.descend] at hblocks ⊢
    rw [Vmm.descend] at htarget
    rw [KernelMap.descend, hsame, Option.bind_some]
    generalize Vmm.nextTable s t i = r at hsteady htarget hblocks hnext ⊢
    obtain ⟨o, s₁⟩ := r
    cases o with
    | none => exact ⟨rfl, hsteady⟩
    | some y =>
      exact ih hsteady (p ++ [i]) (by simp only [List.length_append, List.length_singleton]; omega)
        (htarget y rfl) fun x hx => hblocks x (hx.mono hnext (Allocates.refl _))

theorem Steady.putLeaf (h : Steady U root s) (hP : root P) {vaddr pt : ℕ}
    (hpt : reach (next s.mem) P (dirs vaddr) = some pt) (hapart : ∀ x, U x → ¬ SamePage x vaddr) (v : ℕ) :
    Steady U root { s with mem := Vmm.putEntry s.mem pt (ptIndex vaddr) v } := by
  have hlen := dirs_length vaddr
  have hok := h.ok.putLeaf hP hlen hpt (ptIndex vaddr) v
  refine ⟨hok, h.current, h.kernel, ?_, ?_⟩
  · rintro t x ⟨r, q, hr, hq, ht⟩ hx hx'
    rw [reach_putLeaf h.ok.forest hP hlen hpt _ _ hr hq] at ht
    exact h.tables t x ⟨r, q, hr, hq, ht⟩ hx hx'
  · intro x hx
    have hne : indices x ≠ indices vaddr := fun heq => hapart x hx ((indices_eq_iff x vaddr).mp heq)
    rw [frame_congr h.ok hok h.current h.current rfl
      (pageEntry_putLeaf_of_ne h.ok.forest hP h.current hpt hne v)]
    exact h.straight x hx

variable {own : List ℕ}

theorem Steady.intact (h : Steady U root s) (hown : ∀ a ∈ own, U a) : intact own s = true := by
  rw [KernelMap.intact, List.all_eq_true]
  intro a ha
  rw [h.straight a (hown a ha)]
  exact beq_self_eq_true _

/-- **`vmm_map_page`**, when the page is at none of the addresses in use. -/
theorem Steady.mapPage (h : Steady U root s) (hP : root P) (hown : ∀ a ∈ own, U a) {vaddr : ℕ}
    (hapart : ∀ x, U x → ¬ SamePage x vaddr) (paddr flags : ℕ)
    (hblocks : ∀ x, Taken s.pmm (Vmm.vmmMapPage s P vaddr paddr flags).pmm x → U x) :
    KernelMap.vmmMapPage own s P vaddr paddr flags = some (Vmm.vmmMapPage s P vaddr paddr flags) ∧
      Steady U root (Vmm.vmmMapPage s P vaddr paddr flags) := by
  rw [vmmMapPage_pmm] at hblocks
  obtain ⟨hsame, hsteady⟩ := h.descend hP [] (dirs vaddr) (le_of_eq (dirs_length vaddr)) rfl hblocks
  have htarget := (descend_spec h.ok hP [] (dirs vaddr) (le_of_eq (dirs_length vaddr)) rfl).target
  rw [KernelMap.vmmMapPage_eq, hsame, Option.bind_some, Vmm.vmmMapPage_eq]
  generalize Vmm.descend s P (dirs vaddr) = d at hsteady htarget
  obtain ⟨o, s₁⟩ := d
  cases o with
  | none => exact ⟨rfl, hsteady⟩
  | some pt =>
    have hpt : reach (next s₁.mem) P (dirs vaddr) = some pt := htarget pt rfl
    have hset := hsteady.putLeaf hP hpt hapart (paddr &&& 0xFFFFFFFFFF000 ||| flags)
    have hput := hsteady.putEntry ⟨P, dirs vaddr, hP, le_of_eq (dirs_length vaddr), hpt⟩ (ptIndex vaddr)
      (paddr &&& 0xFFFFFFFFFF000 ||| flags)
    refine ⟨?_, hset⟩
    dsimp only at hput ⊢
    rw [hput, Option.bind_some, if_pos (hset.intact hown)]

/-- **`vmm_create_user_pml4`**: the new PML4 is one more root. -/
theorem Steady.createUserPml4 (h : Steady U root s)
    (hblocks : ∀ x, Taken s.pmm (pmmAllocBlock s.pmm).2 x → U x) :
    KernelMap.vmmCreateUserPml4 s = some (Vmm.vmmCreateUserPml4 s) ∧
      ((pmmAllocBlock s.pmm).1 ≠ 0 →
        Steady U (fun r => root r ∨ r = (pmmAllocBlock s.pmm).1) (newRoot s)) := by
  rw [KernelMap.vmmCreateUserPml4, Vmm.vmmCreateUserPml4_eq, pml4Index_zero]
  dsimp only
  by_cases h0 : (pmmAllocBlock s.pmm).1 = 0
  · rw [if_pos h0, if_pos h0]
    exact ⟨rfl, fun hne => absurd h0 hne⟩
  · have halign := pmmAllocBlock_aligned s.pmm
    have hU := block_of_taken h0 (Allocates.refl _) hblocks
    have hcleared := h.alloc.fillBlock halign (h.ok.fresh h0) 0 (Nat.le_refl pageSize)
    have hkernel : Node (next (fill s.mem (pmmAllocBlock s.pmm).1 pageSize 0)) root 3 s.kernelPml4 :=
      ⟨s.kernelPml4, [], h.kernel, by decide, rfl⟩
    have hslot : frame { s with mem := fill s.mem (pmmAllocBlock s.pmm).1 pageSize 0
                                pmm := (pmmAllocBlock s.pmm).2 } ((pmmAllocBlock s.pmm).1 + 8 * (0 : Fin 512)) =
        some ((pmmAllocBlock s.pmm).1 + 8 * (0 : Fin 512)) :=
      hcleared.straight _ (hU _ (by omega) (by rw [pageSize, Fin.val_zero]; omega))
    have hentry := hcleared.entry hkernel 0
    dsimp only at hentry
    rw [if_neg h0, if_neg h0, h.alloc.memset halign (h.ok.fresh h0) hU 0 (Nat.le_refl pageSize),
      Option.bind_some, hentry, Option.bind_some, KernelMap.putEntry, hslot]
    refine ⟨rfl, fun _ => ?_⟩
    have hok := tablesOk_newRoot h.ok h.kernel h0
    refine ⟨hok, Or.inl h.current, Or.inl h.kernel, ?_, ?_⟩
    · intro t x ht hx hx'
      cases node_newRoot h.ok h.kernel h0 (Nat.le_refl 3) ht with
      | inl hnew =>
        rw [hnew] at hx hx'
        exact hU x hx hx'
      | inr hold => exact h.tables t x hold hx hx'
    · intro x hx
      rw [frame_congr h.ok hok h.current (Or.inl h.current) rfl
        (pageEntry_transfer (fun t k ht => entry_newRoot_of_node h.ok h.kernel h0 ht k) h.current x)]
      exact h.straight x hx

end Maps

/-! ### Pages of a file -/

section Pages

variable {U root : ℕ → Prop} {s : VmState} {P : ℕ} {own : List ℕ} (h : Steady U root s) (hP : root P)
  (hown : ∀ a ∈ own, U a)
include h

/-- The bytes of a page are copied to a block that is no table. -/
theorem Steady.copySegment {fileBuffer vaddr paddr : ℕ} {seg : Segment} (ha : paddr % 4096 = 0)
    (hnode : ¬ Node (next s.mem) root 3 paddr) (hU : ∀ x, paddr ≤ x → x < paddr + pageSize → U x)
    (hsource : SourceIn U fileBuffer seg vaddr) :
    KernelMap.copySegment s fileBuffer seg vaddr paddr =
      some { s with mem := Exec.copySegment s.mem fileBuffer seg vaddr paddr } := by
  have hstart : vaddr ≤ (copyRange seg vaddr).1 := by
    simp only [copyRange]
    split <;> omega
  have hend : (copyRange seg vaddr).2 ≤ vaddr + pageSize := by
    have hmod : (vaddr + pageSize) % 2 ^ 64 ≤ vaddr + pageSize := Nat.mod_le _ _
    simp only [copyRange]
    split <;> omega
  rw [KernelMap.copySegment, Exec.copySegment]
  by_cases hlt : (copyRange seg vaddr).1 < (copyRange seg vaddr).2
  · rw [if_pos hlt, if_pos hlt]
    exact h.memcpy ha hnode hU (by omega) (by omega) (hsource hlt)
  · rw [if_neg hlt, if_neg hlt]

include hP hown

/-- **A page of a segment.** -/
theorem Steady.elfPage {fileBuffer vaddr : ℕ} {seg : Segment} (hapart : ∀ x, U x → ¬ SamePage x vaddr)
    (hsource : SourceIn U fileBuffer seg vaddr)
    (hblocks : ∀ x, Taken s.pmm (Exec.elfPage s P fileBuffer seg vaddr).2.pmm x → U x) :
    KernelMap.elfPage own s P fileBuffer seg vaddr = some (Exec.elfPage s P fileBuffer seg vaddr) ∧
      Steady U root (Exec.elfPage s P fileBuffer seg vaddr).2 := by
  rw [KernelMap.elfPage]
  dsimp only
  by_cases h0 : (pmmAllocBlock s.pmm).1 = 0
  · have hnone : Exec.elfPage s P fileBuffer seg vaddr = (false, { s with pmm := (pmmAllocBlock s.pmm).2 }) := by
      rw [Exec.elfPage]
      dsimp only
      rw [if_pos h0]
    rw [if_pos h0, hnone]
    exact ⟨rfl, h.alloc⟩
  · have hpmm : (Exec.elfPage s P fileBuffer seg vaddr).2.pmm = (Exec.mapBlock s P vaddr).pmm := Exec.elfPage_pmm h0
    have hlater : Allocates (pmmAllocBlock s.pmm).2 (Exec.mapBlock s P vaddr).pmm :=
      allocates_vmmMapPage { s with pmm := (pmmAllocBlock s.pmm).2 } P vaddr _ _
    rw [hpmm] at hblocks
    have hU := block_of_taken h0 hlater hblocks
    have halign := pmmAllocBlock_aligned s.pmm
    have hnode : ¬ Node (next (Exec.mapBlock s P vaddr).mem) root 3 (pmmAllocBlock s.pmm).1 :=
      h.ok.not_node_mapPage h0 hP vaddr (pmmAllocBlock s.pmm).1 pagingFlagsAll
    obtain ⟨hmap, hsteady⟩ : KernelMap.vmmMapPage own { s with pmm := (pmmAllocBlock s.pmm).2 } P vaddr
        (pmmAllocBlock s.pmm).1 pagingFlagsAll = some (Exec.mapBlock s P vaddr) ∧
          Steady U root (Exec.mapBlock s P vaddr) :=
      h.alloc.mapPage hP hown hapart (pmmAllocBlock s.pmm).1 pagingFlagsAll fun x hx =>
        hblocks x (hx.mono (allocates_alloc _) (Allocates.refl _))
    rw [if_neg h0, hmap, Option.bind_some, Exec.elfPage_eq h0]
    generalize Exec.mapBlock s P vaddr = s₁ at hnode hsteady ⊢
    have hcleared := hsteady.fillBlock halign hnode 0 (Nat.le_refl pageSize)
    have hnode' : ¬ Node (next (fill s₁.mem (pmmAllocBlock s.pmm).1 pageSize 0)) root 3
        (pmmAllocBlock s.pmm).1 := mt (hsteady.node_fillBlock halign hnode).mp hnode
    rw [hsteady.memset halign hnode hU 0 (Nat.le_refl pageSize), Option.bind_some,
      hcleared.copySegment halign hnode' hU hsource]
    refine ⟨rfl, hsteady.write halign hnode ?_⟩
    intro x hx
    rw [Exec.copySegment_of_notMem hx, fill_of_notMem hx]

/-- **A page of a flat binary.** -/
theorem Steady.flatPage {size offset : ℕ} (hapart : ∀ x, U x → ¬ SamePage x (flatBinaryVaddr + offset))
    (hsource : ∀ x, loadAddr + offset ≤ x → x < loadAddr + offset + pageSize → x < loadAddr + size → U x)
    (hblocks : ∀ x, Taken s.pmm (Exec.flatPage s P size offset).2.pmm x → U x) :
    KernelMap.flatPage own s P size offset = some (Exec.flatPage s P size offset) ∧
      Steady U root (Exec.flatPage s P size offset).2 := by
  rw [KernelMap.flatPage, flatPage_eq]
  rw [flatPage_eq] at hblocks
  dsimp only
  by_cases h0 : (pmmAllocBlock s.pmm).1 = 0
  · rw [if_pos h0, if_pos h0]
    exact ⟨rfl, h.alloc⟩
  · rw [if_neg h0] at hblocks
    have hlater := allocates_vmmMapPage (flatBlock s size offset) P (flatBinaryVaddr + offset)
      (pmmAllocBlock s.pmm).1 pagingFlagsAll
    have hU := block_of_taken h0 hlater hblocks
    have halign := pmmAllocBlock_aligned s.pmm
    have hlen : (if size < offset + pageSize then size - offset else pageSize) ≤ pageSize := by
      split <;> omega
    have hclear := h.alloc.memset halign (h.ok.fresh h0) hU 0 (Nat.le_refl pageSize)
    have hcleared := h.alloc.fillBlock halign (h.ok.fresh h0) 0 (Nat.le_refl pageSize)
    have hnode' : ¬ Node (next (fill s.mem (pmmAllocBlock s.pmm).1 pageSize 0)) root 3
        (pmmAllocBlock s.pmm).1 := mt (h.node_fillBlock halign (h.ok.fresh h0)).mp (h.ok.fresh h0)
    have hbytes : ∀ x, loadAddr + offset ≤ x →
        x < loadAddr + offset + (if size < offset + pageSize then size - offset else pageSize) → U x :=
      fun x hx hx' => hsource x hx (by omega) (by split at hx' <;> omega)
    have hcopy := hcleared.memcpy halign hnode' hU (Nat.le_refl _) (Nat.add_le_add_left hlen _) hbytes
    have hsteady : Steady U root (flatBlock s size offset) :=
      h.alloc.write halign (h.ok.fresh h0) fun _ hx => flatBlock_of_notMem hx
    obtain ⟨hmap, hmapped⟩ := hsteady.mapPage hP hown hapart (pmmAllocBlock s.pmm).1
      pagingFlagsAll fun x hx => hblocks x (hx.mono (allocates_alloc _) (Allocates.refl _))
    rw [flatBlock] at hmap
    dsimp only at hcopy hmap
    rw [if_neg h0, if_neg h0, hclear, Option.bind_some, hcopy, Option.bind_some, hmap]
    exact ⟨rfl, hmapped⟩

end Pages

end OsEojin.KernelMap
