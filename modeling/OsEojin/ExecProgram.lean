import OsEojin.ElfSegments
import OsEojin.ExecFile
import OsEojin.ExecLeak
import OsEojin.FileReading
import OsEojin.Multitasking

/-!
# `exec`, from the disk to a process that can run

The pieces of `exec` in one run: the lookup and the loop that stages the file, the loader of its segments, and
`create_user_process`.  The staging area is not reserved, and what keeps it whole is that blocks are handed out
from the front; so the loader is first followed on a machine that ends where the staging area starts.

* `capped`, `Lockstep`: that machine, and the calls that do the same on it as long as it has a free block;
* `Executable`, `Ready`: a file that can be run, and a kernel that can run it;
* `Placed`: a byte in a used block, and `placed_elfRounds`: the loader puts every byte of a segment there;
* `Ready.exec`, `Ready.runs`: `exec`, and the process it creates;
* `execUserMapped`: `exec` with the kernel's pointers, and `ExecInPlace.execUser`: when that is the same;
* `exec_runs_file`: from the directory entry to the process.
-/

namespace OsEojin.ExecProgram

open OsEojin.Lib.ByteMemory OsEojin.Lib.Forests OsEojin.Pmm OsEojin.Vmm OsEojin.Exec
open OsEojin.Process (Scheduler execUser allocates_execUser createUserProcess createUserProcess_cases maxProcesses
  stackSize trapFrame)
open OsEojin.Multitasking (FrameAt initialContext createUserProcess_spec)

/-! ### A machine that ends below the staging area -/

/-- The allocator of a machine whose last block is in front of the staging area. -/
def capped (p : PmmState) : PmmState where
  bitmap := p.bitmap
  totalBlocks := min p.totalBlocks (loadAddr / 4096)
  total_lt := by
    have := p.total_lt
    omega

def cappedVm (s : VmState) : VmState := { s with pmm := capped s.pmm }

/-- **The same on the smaller machine**: a call that only takes blocks, and does the same there when that machine
still has a free block in the end. -/
structure Lockstep {α : Type} (f : VmState → α × VmState) : Prop where
  allocates : ∀ s, Allocates s.pmm (f s).2.pmm
  same : ∀ s, testBit s.pmm.bitmap 0 = true → 0 < (freeBlocks (f (cappedVm s)).2.pmm).card →
    f (cappedVm s) = ((f s).1, cappedVm (f s).2)

/-- A block of the smaller machine is the one the larger one hands out. -/
theorem alloc_capped {p : PmmState} (h0 : (pmmAllocBlock (capped p)).1 ≠ 0) :
    pmmAllocBlock (capped p) = ((pmmAllocBlock p).1, capped (pmmAllocBlock p).2) := by
  obtain ⟨i, haddr, hlt, hfree, hbelow, hstate⟩ := pmmAllocBlock_fresh _ h0
  have hi : i < p.totalBlocks := lt_of_lt_of_le hlt (min_le_left _ _)
  have hleast : IsLeast (pool p) i := by
    refine ⟨⟨hfree, hi⟩, ?_⟩
    intro j hj
    by_contra hji
    have hused := hbelow j (Nat.lt_of_not_le hji)
    exact absurd (hj.1.symm.trans hused) (by decide)
  rw [Prod.ext_iff, haddr, hstate, pmmAllocBlock_of_isLeast hleast]
  exact ⟨rfl, rfl⟩

theorem alloc_capped_of_free {p : PmmState} (hzero : testBit p.bitmap 0 = true)
    (hfree : 0 < (freeBlocks (pmmAllocBlock (capped p)).2).card) :
    (pmmAllocBlock (capped p)).1 ≠ 0 ∧
      pmmAllocBlock (capped p) = ((pmmAllocBlock p).1, capped (pmmAllocBlock p).2) := by
  have hsome := Finset.card_pos.mp hfree
  have h0 := pmmAllocBlock_ne_zero (p := capped p) hzero
    (Finset.card_pos.mpr (hsome.mono (freeBlocks_subset (allocates_alloc (capped p)))))
  exact ⟨h0, alloc_capped h0⟩

section Calls

variable {α β : Type}

/-- A call that reads and writes memory only. -/
theorem lockstep_store (a : Memory → α) (m : Memory → Memory) :
    Lockstep fun s => (a s.mem, { s with mem := m s.mem }) where
  allocates _ := Allocates.refl _
  same _ _ _ := rfl

/-- What a call does may depend on memory. -/
theorem Lockstep.reads {f : Memory → VmState → α × VmState} (h : ∀ m, Lockstep (f m)) :
    Lockstep fun s => f s.mem s where
  allocates s := (h s.mem).allocates s
  same s hzero hfree := (h s.mem).same s hzero hfree

/-- **One call after another**: the free block of the end was free in between. -/
theorem Lockstep.next {f : VmState → α × VmState} {g : α → VmState → β × VmState} (hf : Lockstep f)
    (hg : ∀ a, Lockstep (g a)) : Lockstep fun s => g (f s).1 (f s).2 where
  allocates s := (hf.allocates s).trans ((hg _).allocates _)
  same s hzero hfree := by
    have hbetween : 0 < (freeBlocks (f (cappedVm s)).2.pmm).card :=
      Finset.card_pos.mpr ((Finset.card_pos.mp hfree).mono (freeBlocks_subset ((hg _).allocates _)))
    have hfirst := hf.same s hzero hbetween
    have hzero' := (hf.allocates s).later.used 0 hzero
    rw [hfirst] at hfree
    dsimp only at hfree ⊢
    rw [hfirst]
    exact (hg _).same _ hzero' hfree

/-- A block is taken first. -/
theorem Lockstep.afterAlloc {g : ℕ → VmState → β × VmState} (hg : ∀ block, Lockstep (g block)) :
    Lockstep fun s => g (pmmAllocBlock s.pmm).1 { s with pmm := (pmmAllocBlock s.pmm).2 } := by
  have halloc : Lockstep fun s => ((pmmAllocBlock s.pmm).1, { s with pmm := (pmmAllocBlock s.pmm).2 }) := by
    refine ⟨fun s => allocates_alloc s.pmm, ?_⟩
    intro s hzero hfree
    obtain ⟨-, heq⟩ := alloc_capped_of_free hzero hfree
    show ((pmmAllocBlock (capped s.pmm)).1, { s with pmm := (pmmAllocBlock (capped s.pmm)).2 }) = _
    rw [heq]
    rfl
  exact halloc.next hg

end Calls

/-! ### The loader on the smaller machine -/

theorem lockstep_nextTable (t : ℕ) (i : Fin 512) : Lockstep fun s => nextTable s t i := by
  -- the memory after the block was cleared and entered
  let hung (block : ℕ) (m : Memory) : Memory := putEntry (fill m block pageSize 0) t i
    (block ||| pagingFlagPresent ||| pagingFlagWritable ||| pagingFlagUser)
  have hhang : ∀ block, Lockstep fun s : VmState => if block = 0 then (none, s) else
      (some (tableOf (entry (hung block s.mem) t i)), { s with mem := hung block s.mem }) := by
    intro block
    split
    · exact lockstep_store (fun _ => none) id
    · exact lockstep_store (fun m => some (tableOf (entry (hung block m) t i))) (hung block)
  have hread : ∀ m : Memory, Lockstep fun s => if present (entry m t i) then (some (tableOf (entry m t i)), s) else
      if (pmmAllocBlock s.pmm).1 = 0 then (none, { s with pmm := (pmmAllocBlock s.pmm).2 }) else
        (some (tableOf (entry (hung (pmmAllocBlock s.pmm).1 s.mem) t i)),
          { s with mem := hung (pmmAllocBlock s.pmm).1 s.mem, pmm := (pmmAllocBlock s.pmm).2 }) := by
    intro m
    split
    · exact lockstep_store (fun _ => some (tableOf (entry m t i))) id
    · exact Lockstep.afterAlloc hhang
  exact Lockstep.reads hread

theorem lockstep_descend (t : ℕ) (rest : List (Fin 512)) : Lockstep fun s => descend s t rest := by
  induction rest generalizing t with
  | nil => exact lockstep_store (fun _ => some t) id
  | cons i rest ih =>
    have hrest : ∀ y : Option ℕ, Lockstep fun s => y.elim (none, s) fun y => descend s y rest := by
      intro y
      cases y with
      | none => exact lockstep_store (fun _ => none) id
      | some y => exact ih y
    have heq : (fun s => descend s t (i :: rest)) =
        fun s => (nextTable s t i).1.elim (none, (nextTable s t i).2) fun y => descend (nextTable s t i).2 y rest := by
      funext s
      rw [descend]
      rcases nextTable s t i with ⟨_ | y, s'⟩
      · rfl
      · rfl
    rw [heq]
    exact (lockstep_nextTable t i).next hrest

theorem lockstep_mapPage (pml4 vaddr paddr flags : ℕ) :
    Lockstep fun s => ((), vmmMapPage s pml4 vaddr paddr flags) := by
  have hput : ∀ y : Option ℕ, Lockstep fun s : VmState => ((), y.elim s fun pt =>
      { s with mem := putEntry s.mem pt (ptIndex vaddr) (paddr &&& 0xFFFFFFFFFF000 ||| flags) }) := by
    intro y
    cases y with
    | none => exact lockstep_store (fun _ => ()) id
    | some pt => exact lockstep_store (fun _ => ()) fun m => putEntry m pt _ _
  have heq : (fun s => ((), vmmMapPage s pml4 vaddr paddr flags)) = fun s => ((),
      (descend s pml4 (dirs vaddr)).1.elim (descend s pml4 (dirs vaddr)).2 fun pt =>
        { (descend s pml4 (dirs vaddr)).2 with
          mem := putEntry (descend s pml4 (dirs vaddr)).2.mem pt (ptIndex vaddr)
            (paddr &&& 0xFFFFFFFFFF000 ||| flags) }) := by
    funext s
    rw [vmmMapPage_eq]
    rcases descend s pml4 (dirs vaddr) with ⟨_ | pt, s'⟩
    · rfl
    · rfl
  rw [heq]
  exact (lockstep_descend pml4 (dirs vaddr)).next hput

section Loader

variable (pml4 fileBuffer : ℕ)

theorem lockstep_elfPage (seg : Segment) (vaddr : ℕ) :
    Lockstep fun s => elfPage s pml4 fileBuffer seg vaddr := by
  have hwrite : ∀ (paddr : ℕ) (_ : Unit), Lockstep fun s : VmState =>
      (true, { s with mem := copySegment (fill s.mem paddr pageSize 0) fileBuffer seg vaddr paddr }) :=
    fun paddr _ => lockstep_store (fun _ => true) fun m =>
      copySegment (fill m paddr pageSize 0) fileBuffer seg vaddr paddr
  have hfill : ∀ paddr, Lockstep fun s : VmState => if paddr = 0 then (false, s) else
      (true, { vmmMapPage s pml4 vaddr paddr pagingFlagsAll with
        mem := copySegment (fill (vmmMapPage s pml4 vaddr paddr pagingFlagsAll).mem paddr pageSize 0) fileBuffer seg
          vaddr paddr }) := by
    intro paddr
    split
    · exact lockstep_store (fun _ => false) id
    · have hnext := (lockstep_mapPage pml4 vaddr paddr pagingFlagsAll).next (hwrite paddr)
      exact hnext
  exact Lockstep.afterAlloc hfill

/-- A loop that stops at the first page or header that fails. -/
theorem Lockstep.andThen {f g : VmState → Bool × VmState} (hf : Lockstep f) (hg : Lockstep g) :
    Lockstep fun s => match f s with
      | (false, s) => (false, s)
      | (true, s) => g s := by
  have hrest : ∀ ok : Bool, Lockstep fun s => if ok then g s else (false, s) := by
    intro ok
    cases ok with
    | false => exact lockstep_store (fun _ => false) id
    | true => exact hg
  have heq : (fun s => match f s with
      | (false, s) => (false, s)
      | (true, s) => g s) = fun s => if (f s).1 then g (f s).2 else (false, (f s).2) := by
    funext s
    rcases f s with ⟨_ | _, s'⟩
    · rfl
    · rfl
  rw [heq]
  exact hf.next hrest

theorem lockstep_elfPages (seg : Segment) (n vaddr : ℕ) :
    Lockstep fun s => elfPages pml4 fileBuffer seg n vaddr s := by
  induction n generalizing vaddr with
  | zero => exact lockstep_store (fun _ => true) id
  | succ n ih => exact (lockstep_elfPage pml4 fileBuffer seg vaddr).andThen (ih (vaddr + pageSize))

theorem lockstep_elfHeaders (phdr fuel i : ℕ) :
    Lockstep fun s => elfHeaders pml4 fileBuffer phdr fuel i s := by
  induction fuel generalizing i with
  | zero => exact lockstep_store (fun _ => true) id
  | succ fuel ih =>
    have hread : ∀ m : Memory, Lockstep fun s => if i < readLe m (fileBuffer + 56) 2 then
        if readLe m (phdrAddr phdr i) 4 = 1 then
          match elfSegment s pml4 fileBuffer (segmentAt m (phdrAddr phdr i)) with
          | (false, s) => (false, s)
          | (true, s) => elfHeaders pml4 fileBuffer phdr fuel (i + 1) s
        else elfHeaders pml4 fileBuffer phdr fuel (i + 1) s
      else (true, s) := by
      intro m
      split
      · split
        · exact (lockstep_elfPages pml4 fileBuffer (segmentAt m (phdrAddr phdr i)) _ _).andThen (ih (i + 1))
        · exact ih (i + 1)
      · exact lockstep_store (fun _ => true) id
    exact Lockstep.reads hread

theorem lockstep_entryPoint (phdr fuel : ℕ) :
    Lockstep fun s => match elfHeaders pml4 fileBuffer phdr fuel 0 s with
      | (false, s) => (0, s)
      | (true, s) => (readLe s.mem (fileBuffer + 24) 8, s) := by
  have hentry : ∀ ok : Bool, Lockstep fun s : VmState => (if ok then readLe s.mem (fileBuffer + 24) 8 else 0, s) :=
    fun ok => lockstep_store (fun m => if ok then readLe m (fileBuffer + 24) 8 else 0) id
  have heq : (fun s => match elfHeaders pml4 fileBuffer phdr fuel 0 s with
      | (false, s) => (0, s)
      | (true, s) => (readLe s.mem (fileBuffer + 24) 8, s)) =
      fun s => (if (elfHeaders pml4 fileBuffer phdr fuel 0 s).1 then
        readLe (elfHeaders pml4 fileBuffer phdr fuel 0 s).2.mem (fileBuffer + 24) 8 else 0,
        (elfHeaders pml4 fileBuffer phdr fuel 0 s).2) := by
    funext s
    rcases elfHeaders pml4 fileBuffer phdr fuel 0 s with ⟨_ | _, s'⟩
    · rfl
    · rfl
  rw [heq]
  exact (lockstep_elfHeaders pml4 fileBuffer phdr fuel 0).next hentry

/-- **`elf_load_file` on the smaller machine.** -/
theorem lockstep_elfLoadFile : Lockstep fun s => elfLoadFile s pml4 fileBuffer := by
  have hread : ∀ m : Memory, Lockstep fun s => if elfCheckSupported m fileBuffer then
      match elfHeaders pml4 fileBuffer ((fileBuffer + readLe m (fileBuffer + 32) 8) % 2 ^ 64) 65536 0 s with
      | (false, s) => (0, s)
      | (true, s) => (readLe s.mem (fileBuffer + 24) 8, s)
    else (0, s) := by
    intro m
    split
    · exact lockstep_entryPoint pml4 fileBuffer _ _
    · exact lockstep_store (fun _ => 0) id
  exact Lockstep.reads hread

end Loader

/-! ### A file that can be run -/

/-- The segments of a file. -/
def segmentsOf (image : List UInt8) : List Segment := loadSegments (stagedFile image) loadAddr

/-- `e_entry`. -/
def entryOf (image : List UInt8) : ℕ := readLe (stagedFile image) (loadAddr + 24) 8

/-- **A file that can be run**: a supported ELF file with an entry point, complete, and no page of a later segment
puts another byte at an address of an earlier one. -/
structure Executable (image : List UInt8) : Prop where
  /-- the staging area is mapped -/
  size : loadAddr + image.length ≤ identityMapEnd
  supported : elfCheckSupported (stagedFile image) loadAddr = true
  headers : HeadersIn (stagedFile image) loadAddr image
  entry : entryOf image ≠ 0
  segments : ∀ seg ∈ segmentsOf image, seg.InFile image
  apart : (rounds (segmentsOf image)).Pairwise (Round.Spares image)

/-- **A kernel that can run it**: no table is in the staging area, and in front of it there are blocks for the
PML4, for every page with its tables, and for two stacks. -/
structure Ready (s : VmState) (root : ℕ → Prop) (image : List UInt8) : Prop where
  tables : TablesOk s root
  kernel : root s.kernelPml4
  staging : ∀ x, InFile image x → OffTables s.mem root x
  blocks : 4 * (rounds (segmentsOf image)).length + 3 ≤ (freeBlocks (capped s.pmm)).card

section Headers

variable {image : List UInt8} {m : Memory}

theorem Shows.elfCheckSupported (h : Shows image m) (hfile : Executable image) :
    elfCheckSupported m loadAddr = true := by
  have hlen := hfile.headers.file
  rw [h.elfCheckSupported_eq (elfCheckFile_congr fun k hk => h _ ⟨by omega, by omega⟩) (Or.inl (by omega))]
  exact hfile.supported

theorem Shows.headersIn (h : Shows image m) (hfile : Executable image) : HeadersIn m loadAddr image := by
  have hlen := hfile.headers.file
  refine ⟨hlen, ?_⟩
  rw [programHeaders, h.readLe_eq ⟨by omega, by omega⟩, h.readLe_eq ⟨by omega, by omega⟩]
  exact hfile.headers.table

/-- The headers are read as they stand in the file. -/
theorem Shows.segmentsFrom (h : Shows image m) {phdr : ℕ} (n : ℕ) : ∀ i,
    (∀ j, i ≤ j → j < i + n → loadAddr ≤ phdrAddr phdr j ∧ phdrAddr phdr j + 56 ≤ loadAddr + image.length) →
    segmentsFrom m phdr n i = segmentsFrom (stagedFile image) phdr n i := by
  induction n with
  | zero => exact fun _ _ => rfl
  | succ n ih =>
    intro i hin
    obtain ⟨hlow, hhigh⟩ := hin i le_rfl (by omega)
    rw [Exec.segmentsFrom, Exec.segmentsFrom, h.readLe_eq ⟨hlow, by omega⟩, h.segmentAt_eq ⟨hlow, by omega⟩,
      ih (i + 1) fun j hj hj' => hin j (by omega) (by omega)]

theorem Shows.loadSegments (h : Shows image m) (hfile : Executable image) :
    loadSegments m loadAddr = segmentsOf image := by
  have hlen := hfile.headers.file
  have htable := hfile.headers.table
  rw [programHeaders] at htable
  rw [segmentsOf, Exec.loadSegments, Exec.loadSegments, programHeaders, programHeaders,
    h.readLe_eq ⟨by omega, by omega⟩, h.readLe_eq ⟨by omega, by omega⟩]
  exact Shows.segmentsFrom h _ 0 fun j _ hj => htable j (by omega)

end Headers

/-! ### Bytes in blocks -/

/-- Writing a block that was free leaves the tables. -/
theorem entry_of_free_write {s : VmState} {root : ℕ → Prop} (h : Forest s root) {m : Memory} {c t : ℕ}
    (hfree : testBit s.pmm.bitmap c = false) (hm : ∀ x, x < c * 4096 ∨ c * 4096 + 4096 ≤ x → m x = s.mem x)
    (ht : Node (next s.mem) root 3 t) (k : Fin 512) : entry m t k = entry s.mem t k := by
  have hnode : ¬ Node (next s.mem) root 3 (c * 4096) := by
    intro hnode
    have hused := h.used _ hnode
    rw [Nat.mul_div_cancel _ (by decide), hfree] at hused
    cases hused
  exact h.entry_of_block (Nat.mul_mod_left c 4096) hnode hm ht k

/-- The byte at `v` is found in a used block, through entries for the user. -/
def Placed (p : PmmState) (m : Memory) (pml4 v : ℕ) (b : UInt8) : Prop :=
  ∃ a, a % 4096 = 0 ∧ a < 2 ^ 52 ∧ testBit p.bitmap (a / 4096) = true ∧ pageEntry m pml4 v = some (a + 7) ∧
    m (a + v % 4096) = b

section Placed

variable {s : VmState} {m : Memory} {pml4 v : ℕ} {b : UInt8}

theorem Placed.seen (h : Placed s.pmm m pml4 v b) (hsmall : Flagged NoHuge m (fun r => r = pml4)) :
    Seen m pml4 v b := by
  obtain ⟨a, halign, hlow, -, hentry, hbyte⟩ := h
  refine ⟨a + v % 4096, ?_, hbyte⟩
  rw [translate_eq hsmall rfl, hentry, Option.map_some, tableOf_pointer halign hlow]
  rfl

theorem Placed.userMapped (h : Placed s.pmm m pml4 v b) (hsmall : Flagged NoHuge m (fun r => r = pml4))
    (huser : Flagged UserFlag m (fun r => r = pml4)) : UserMapped m pml4 v := by
  obtain ⟨a, halign, -, -, hentry, -⟩ := h
  exact (userMapped_iff hsmall huser v).mpr ⟨a + 7, hentry, userFlag_block halign⟩

/-- Writing a block that was free changes none of it. -/
theorem Placed.write (h : Placed s.pmm s.mem pml4 v b) (hforest : Forest s (fun r => r = pml4)) {c : ℕ}
    (hfree : testBit s.pmm.bitmap c = false) (hm : ∀ x, x < c * 4096 ∨ c * 4096 + 4096 ≤ x → m x = s.mem x) :
    Placed s.pmm m pml4 v b := by
  obtain ⟨a, halign, hlow, hused, hentry, hbyte⟩ := h
  have hne : a ≠ c * 4096 := by
    rintro rfl
    rw [Nat.mul_div_cancel _ (by decide), hfree] at hused
    cases hused
  refine ⟨a, halign, hlow, hused, ?_, ?_⟩
  · have htables : ∀ t k, Node (next s.mem) (fun r => r = pml4) 3 t →
        entry ({ s with mem := m } : VmState).mem t k = entry s.mem t k :=
      fun t k ht => entry_of_free_write hforest hfree hm ht k
    exact (pageEntry_transfer htables (show (fun r => r = pml4) pml4 from rfl) v).trans hentry
  · rw [hm (a + v % 4096) (by omega)]
    exact hbyte

end Placed

/-! ### The rounds -/

section Rounds

variable {pml4 fileBuffer : ℕ} {image : List UInt8} {s : VmState} (hclear : ∀ p, Clear pml4 fileBuffer image s p)
include hclear

/-- The last round at a page has put its byte into a block. -/
theorem placed_last (hstaged : Staged s.mem fileBuffer image) (h : Loading pml4 fileBuffer image s s)
    (before : List Round) (r : Round) (after : List Round)
    (hsucceed : RoundsSucceed pml4 fileBuffer (before ++ r :: after) s) (hr : r.InFile image) {v : ℕ}
    (hv : SamePage v r.vaddr) (hafter : ∀ r' ∈ after, ¬ SamePage v r'.vaddr) :
    Placed (elfRounds pml4 fileBuffer (before ++ r :: after) s).2.pmm
      (elfRounds pml4 fileBuffer (before ++ r :: after) s).2.mem pml4 v
      (byteOf image r.seg (r.vaddr + v % 4096)) := by
  have halign := hr.aligned
  obtain ⟨a, ha, -, hentry, hbyte⟩ := pageIn_last hclear hstaged h before r after hsucceed hr hv hafter
  have hplace : (r.vaddr + v % 4096) % 4096 = v % 4096 := by omega
  refine ⟨a, returned_aligned ha, (hclear _).low a ha, ?_, ?_, ?_⟩
  · obtain ⟨i, rfl, -, -, hused⟩ := ha.block
    rwa [blockSize, Nat.mul_div_cancel _ (by decide)]
  · rw [pageEntry_samePage (samePage_offset halign hv)]
    exact hentry
  · rw [hplace] at hbyte
    exact byteOf_eq hr.seg hbyte

/-- **After the rounds** every byte of a segment is in a block. -/
theorem placed_elfRounds (hstaged : Staged s.mem fileBuffer image) (h : Loading pml4 fileBuffer image s s)
    {rs : List Round} (hsucceed : RoundsSucceed pml4 fileBuffer rs s) (hfile : ∀ r ∈ rs, r.InFile image)
    (hspares : rs.Pairwise (Round.Spares image)) {r : Round} (hr : r ∈ rs) {v : ℕ} (hv : r.Holds v) :
    Placed (elfRounds pml4 fileBuffer rs s).2.pmm (elfRounds pml4 fileBuffer rs s).2.mem pml4 v
      (byteOf image r.seg v) := by
  obtain ⟨before, last, after, rfl, hsame, hafter, hbyte⟩ := exists_last_round hfile hspares hr hv
  have hlast := hfile last (List.mem_append_right before List.mem_cons_self)
  have hplaced := placed_last hclear hstaged h before last after hsucceed hlast hsame hafter
  rwa [hbyte] at hplaced

end Rounds

/-! ### The loader -/

/-- The file in the staging area. -/
def stagedVm (s : VmState) (image : List UInt8) : VmState := { s with mem := store s.mem loadAddr image }

theorem stagedVm_of_notMem {s : VmState} {image : List UInt8} {x : ℕ} (hx : ¬ InFile image x) :
    (stagedVm s image).mem x = s.mem x :=
  if_neg hx

/-- The smaller machine when `elf_load_file` is called. -/
def atLoad (s : VmState) (image : List UInt8) : VmState := cappedVm (newRoot (stagedVm s image))

/-- What the loader leaves below the new PML4. -/
structure Loaded (image : List UInt8) (pml4 : ℕ) (s : VmState) : Prop where
  zero : testBit s.pmm.bitmap 0 = true
  blocks : 2 ≤ (freeBlocks s.pmm).card
  forest : Forest s (fun r => r = pml4)
  small : Flagged NoHuge s.mem (fun r => r = pml4)
  user : Flagged UserFlag s.mem (fun r => r = pml4)
  placed : ∀ seg ∈ segmentsOf image, ∀ k, k < seg.memSize →
    Placed s.pmm s.mem pml4 (seg.vaddrStart + k) (byteOf image seg (seg.vaddrStart + k))

theorem freeBlocks_capped (p : PmmState) :
    freeBlocks (capped p) ⊆ freeBlocks p ∧ ∀ i ∈ freeBlocks (capped p), i < loadAddr / 4096 := by
  constructor
  · intro i hi
    obtain ⟨hlt, hfree⟩ := Finset.mem_filter.mp hi
    exact Finset.mem_filter.mpr ⟨Finset.mem_range.mpr (lt_of_lt_of_le (Finset.mem_range.mp hlt) (min_le_left _ _)),
      hfree⟩
  · intro i hi
    exact lt_of_lt_of_le (Finset.mem_range.mp (Finset.mem_filter.mp hi).1) (min_le_right _ _)

/-- On the larger machine the same blocks are used and more are free. -/
theorem Loaded.of_capped {image : List UInt8} {pml4 : ℕ} {s : VmState} (h : Loaded image pml4 (cappedVm s)) :
    Loaded image pml4 s where
  zero := h.zero
  blocks := h.blocks.trans (Finset.card_le_card (freeBlocks_capped s.pmm).1)
  forest := ⟨h.forest.aligned, h.forest.used, h.forest.separated⟩
  small := h.small
  user := h.user
  placed := h.placed

section Load

variable {s : VmState} {root : ℕ → Prop} {image : List UInt8} (h : Ready s root image)
include h

theorem Ready.alloc : (pmmAllocBlock (capped s.pmm)).1 ≠ 0 :=
  pmmAllocBlock_ne_zero h.tables.zero (by have := h.blocks; omega)

/-- The PML4 is in front of the staging area. -/
theorem Ready.pml4 : (pmmAllocBlock s.pmm).1 ≠ 0 ∧ (pmmAllocBlock s.pmm).1 + pageSize ≤ loadAddr := by
  have h0 := h.alloc
  have hsame := congrArg Prod.fst (alloc_capped h0)
  obtain ⟨i, haddr, hlt, -⟩ := pmmAllocBlock_fresh _ h0
  have hi : i < loadAddr / 4096 := lt_of_lt_of_le hlt (min_le_right _ _)
  rw [← hsame]
  refine ⟨h0, ?_⟩
  rw [haddr, blockSize, pageSize]
  simp only [loadAddr] at hi ⊢
  omega

theorem Ready.tables_staged : TablesOk (stagedVm s image) root := by
  refine h.tables.transfer (Later.refl _) ?_
  intro t k ht
  apply entry_of_page
  intro x hx hx'
  exact stagedVm_of_notMem fun hin => h.staging x hin t ht ⟨hx, hx'⟩

/-- The file is still whole. -/
theorem Ready.shows : Shows image (newRoot (stagedVm s image)).mem := by
  intro x hx
  have hout : (pmmAllocBlock (stagedVm s image).pmm).1 + pageSize ≤ x := h.pml4.2.trans hx.1
  rw [newRoot_of_notMem (Or.inr hout)]
  exact shows_store s.mem image x hx

theorem Ready.tables_atLoad : TablesOk (atLoad s image) (fun r => root r ∨ r = (pmmAllocBlock s.pmm).1) := by
  have hroot := tablesOk_newRoot h.tables_staged h.kernel h.pml4.1
  exact ⟨(min_le_left _ _).trans hroot.total, hroot.zero, hroot.aligned, hroot.used, hroot.separated, hroot.plain⟩

theorem Ready.blocks_atLoad :
    4 * (rounds (segmentsOf image)).length + 2 ≤ (freeBlocks (atLoad s image).pmm).card := by
  have hcard := freeBlocks_card_alloc h.alloc
  have heq : (atLoad s image).pmm = (pmmAllocBlock (capped s.pmm)).2 :=
    (congrArg Prod.snd (alloc_capped h.alloc)).symm
  have := h.blocks
  rw [heq]
  omega

theorem Ready.addressable : Addressable (atLoad s image).pmm :=
  fun _ hi _ => lt_of_lt_of_le hi h.tables_atLoad.total

variable (hfile : Executable image)
include hfile

theorem Ready.fileApart : FileApart (atLoad s image) (pmmAllocBlock s.pmm).1 loadAddr image where
  staged := by
    have hsize := hfile.size
    refine ⟨by simp only [identityMapEnd] at hsize; omega, ?_⟩
    intro j hj
    exact (h.shows (loadAddr + j) ⟨by omega, by omega⟩).trans (stagedFile_getD hj)
  headers := Shows.headersIn h.shows hfile
  tables := by
    intro x hx t ht hin
    obtain ⟨r, q, rfl, hq, hreach⟩ := ht
    cases node_newRoot h.tables_staged h.kernel h.pml4.1 (Nat.le_refl 3) ⟨_, q, Or.inr rfl, hq, hreach⟩ with
    | inl hnew =>
      have hlow := h.pml4.2
      rw [hnew] at hin
      have hx' := hx.1
      exact absurd hin.2 (not_lt.mpr (hlow.trans hx'))
    | inr hold =>
      obtain ⟨r, q', hr, hq', hreach'⟩ := hold
      refine h.staging x hx t ⟨r, q', hr, hq', ?_⟩ hin
      rw [← hreach']
      refine (reach_transfer (s := s) ?_ hr hq').symm
      intro t k ht
      apply entry_of_page
      intro y hy hy'
      exact stagedVm_of_notMem fun hin => h.staging y hin t ht ⟨hy, hy'⟩
  blocks := by
    intro x hx hfree
    have hlt := (freeBlocks_capped (newRoot (stagedVm s image)).pmm).2 _ hfree
    have hlow := hx.1
    omega

/-- The loader on the smaller machine. -/
theorem Ready.loaded_capped : ∃ s', elfLoadFile (atLoad s image) (pmmAllocBlock s.pmm).1 loadAddr =
    (entryOf image, s') ∧ Loaded image (pmmAllocBlock s.pmm).1 s' := by
  have hapart := h.fileApart hfile
  have hsegs : loadSegments (atLoad s image).mem loadAddr = segmentsOf image := Shows.loadSegments h.shows hfile
  have hneeded := blocksNeeded_le (atLoad s image) (pmmAllocBlock s.pmm).1 (rounds (segmentsOf image))
  have hfree := h.blocks_atLoad
  have henough : EnoughMemory (atLoad s image) (pmmAllocBlock s.pmm).1 loadAddr :=
    ⟨h.tables_atLoad.zero, by rw [hsegs]; omega⟩
  have htree := userTree_of_tablesOk h.tables_atLoad (Or.inr rfl)
  have hclear := hapart.clear h.addressable
  have hstart := loading_start htree.toTreeOk loadAddr image
  have hsucceed := henough.succeed hclear hstart
  have hload := elfLoadFile_of_rounds htree.toTreeOk hclear hapart.headers hsucceed.ok
    (Shows.elfCheckSupported h.shows hfile)
  have hlen := hfile.headers.file
  have hentry : readLe (atLoad s image).mem (loadAddr + 24) 8 = entryOf image :=
    h.shows.readLe_eq ⟨by omega, by omega⟩
  rw [hsegs] at hsucceed hload
  rw [hentry] at hload
  have hend := loading_elfRounds hclear hstart hsucceed.ok
  have hbudget := elfRounds_budget hclear (fun _ => length_of_mem_roundWays) hstart hsucceed.ok
    (Finset.Subset.refl (roundWays (rounds (segmentsOf image))))
  refine ⟨_, hload, ?_, ?_, hend.forest, hend.small, ?_, ?_⟩
  · exact hend.allocates.later.used 0 h.tables_atLoad.zero
  · rw [blocksNeeded] at hneeded
    omega
  · exact flagged_elfRounds hclear userFlag_seven hstart hsucceed.ok htree.flagged
  · intro seg hseg k hk
    obtain ⟨r, hr, rfl, -, hfirst, hlast⟩ := round_of_address hseg (hfile.segments seg hseg).page hk
    have hholds : r.Holds (r.seg.vaddrStart + k) := ⟨⟨hfirst, hlast⟩, by omega, by omega⟩
    exact placed_elfRounds hclear hapart.staged hstart hsucceed (inFile_of_mem hfile.segments) hfile.apart hr hholds

/-- **The loader on a ready kernel.** -/
theorem Ready.loaded : ∃ s', elfLoadFile (newRoot (stagedVm s image)) (pmmAllocBlock s.pmm).1 loadAddr =
    (entryOf image, s') ∧ Loaded image (pmmAllocBlock s.pmm).1 s' ∧ 2 ≤ (freeBlocks (capped s'.pmm)).card := by
  obtain ⟨s', hload, hloaded⟩ := h.loaded_capped hfile
  have hblocks : 0 < (freeBlocks (elfLoadFile (atLoad s image) (pmmAllocBlock s.pmm).1 loadAddr).2.pmm).card := by
    rw [hload]
    exact Nat.lt_of_lt_of_le Nat.zero_lt_two hloaded.blocks
  have hlock : elfLoadFile (atLoad s image) (pmmAllocBlock s.pmm).1 loadAddr =
      ((elfLoadFile (newRoot (stagedVm s image)) (pmmAllocBlock s.pmm).1 loadAddr).1,
        cappedVm (elfLoadFile (newRoot (stagedVm s image)) (pmmAllocBlock s.pmm).1 loadAddr).2) :=
    (lockstep_elfLoadFile (pmmAllocBlock s.pmm).1 loadAddr).same (newRoot (stagedVm s image)) h.tables_atLoad.zero
      hblocks
  rw [hload] at hlock
  generalize elfLoadFile (newRoot (stagedVm s image)) (pmmAllocBlock s.pmm).1 loadAddr = r at hlock ⊢
  obtain ⟨hentry, rfl⟩ := Prod.mk.inj hlock
  exact ⟨r.2, Prod.ext hentry.symm rfl, hloaded.of_capped, hloaded.blocks⟩

/-- **`exec` on a ready kernel.** -/
theorem Ready.exec (fileSize : ℕ) :
    ∃ s', exec s image fileSize = (some (entryOf image, (pmmAllocBlock s.pmm).1), s') ∧
      Loaded image (pmmAllocBlock s.pmm).1 s' ∧ 2 ≤ (freeBlocks (capped s'.pmm)).card := by
  obtain ⟨s', hload, hloaded⟩ := h.loaded hfile
  have helf : elfCheckFile (newRoot (stagedVm s image)).mem loadAddr = true := by
    have hsupported := Shows.elfCheckSupported h.shows hfile
    simp only [elfCheckSupported, Bool.and_eq_true] at hsupported
    exact hsupported.1.1.1.1
  refine ⟨s', ?_, hloaded⟩
  have hspawn := execSpawn_eq (stagedVm s image) fileSize
  have h0 : (pmmAllocBlock (stagedVm s image).pmm).1 ≠ 0 := h.pml4.1
  rw [if_neg h0, if_pos helf] at hspawn
  refine hspawn.trans ?_
  have hload' : elfLoadFile (newRoot (stagedVm s image)) (pmmAllocBlock (stagedVm s image).pmm).1 loadAddr =
      (entryOf image, s') := hload
  rw [hload']
  dsimp only
  rw [if_neg hfile.entry]
  rfl

end Load

/-! ### The process -/

/-- **A new process that runs the file**: its saved registers are those of a start at the entry point in ring 3,
and the segments are in its address space. -/
structure Runs (image : List UInt8) (s s' : Scheduler) : Prop where
  count : s'.processCount = s.processCount + 1
  others : ∀ pid, pid < s.processCount → s'.processes pid = s.processes pid
  ready : (s'.processes s.processCount).state = .ready
  context : FrameAt s'.mem (UInt64.ofNat (s'.processes s.processCount).rsp)
    (initialContext (UInt64.ofNat (entryOf image))
      (UInt64.ofNat ((s'.processes s.processCount).stackBase + stackSize)))
  bytes : ∀ seg ∈ segmentsOf image, ∀ k, k < seg.memSize → seg.vaddrStart + k < 2 ^ 47 →
    Seen s'.mem (s'.processes s.processCount).pml4 (seg.vaddrStart + k) (byteOf image seg (seg.vaddrStart + k)) ∧
      UserMapped s'.mem (s'.processes s.processCount).pml4 (seg.vaddrStart + k)

/-- With two blocks and a slot the process is created. -/
theorem createUserProcess_count {s : Scheduler} (hslot : s.processCount < maxProcesses)
    (hzero : testBit s.pmm.bitmap 0 = true) (hblocks : 2 ≤ (freeBlocks s.pmm).card) (entry pml4 : ℕ) :
    (createUserProcess s entry pml4).processCount = s.processCount + 1 := by
  have huser := pmmAllocBlock_ne_zero hzero (show 0 < (freeBlocks s.pmm).card from by omega)
  have hcard := freeBlocks_card_alloc huser
  have hkernel := pmmAllocBlock_ne_zero (used_mono s.pmm hzero)
    (show 0 < (freeBlocks (pmmAllocBlock s.pmm).2).card from by omega)
  rw [createUserProcess, if_neg (Nat.not_le.mpr hslot)]
  simp only [if_neg huser, if_neg hkernel]

section Process

variable {s : Scheduler} {root : ℕ → Prop} {image : List UInt8}

theorem Ready.runs (h : Ready s.vm root image) (hfile : Executable image) (hslot : s.processCount < maxProcesses)
    (fileSize : ℕ) : Runs image s (execUser s image fileSize) := by
  obtain ⟨vm, hexec, hloaded, -⟩ := h.exec hfile fileSize
  have hword : entryOf image < 2 ^ 64 := (readLe_lt _ _ 8).trans_eq (by norm_num)
  have hentry : (UInt64.ofNat (entryOf image)).toNat = entryOf image := by
    rw [UInt64.toNat_ofNat', Nat.mod_eq_of_lt hword]
  have heq : execUser s image fileSize =
      createUserProcess (s.withVm vm) (UInt64.ofNat (entryOf image)).toNat (pmmAllocBlock s.vm.pmm).1 := by
    rw [execUser, hexec, hentry]
  have hcount := createUserProcess_count (s := s.withVm vm) hslot hloaded.zero hloaded.blocks
    (UInt64.ofNat (entryOf image)).toNat (pmmAllocBlock s.vm.pmm).1
  obtain ⟨-, -, -, hothers, hcases⟩ := createUserProcess_spec (s.withVm vm) (UInt64.ofNat (entryOf image))
    (pmmAllocBlock s.vm.pmm).1
  rcases hcases with ⟨hsame, -⟩ | ⟨-, b, p, hp, -, hfree, -, -, -, hframe, hmem⟩
  · omega
  obtain hnone | ⟨-, p', hready, hslots, hsame | ⟨-, hpml4, -⟩⟩ := createUserProcess_cases (s.withVm vm)
    (UInt64.ofNat (entryOf image)).toNat (pmmAllocBlock s.vm.pmm).1
  · rw [hnone] at hcount
    omega
  · omega
  have hp' : p' = p := by
    rw [← hp, hslots, Function.update_self]
  subst hp'
  rw [← heq] at hcount hothers hp hframe hmem
  have hslot : (execUser s image fileSize).processes s.processCount = p' := hp
  -- the frame went to a block that was free, and the segments are in used ones
  have hwrite : ∀ x, x < b * 4096 ∨ b * 4096 + 4096 ≤ x → (execUser s image fileSize).mem x = vm.mem x := hmem
  have htables : ∀ t k, Node (next vm.mem) (fun r => r = (pmmAllocBlock s.vm.pmm).1) 3 t →
      entry (execUser s image fileSize).mem t k = entry vm.mem t k :=
    fun t k ht => entry_of_free_write hloaded.forest hfree hwrite ht k
  have hkept : ∀ φ, Flagged φ vm.mem (fun r => r = (pmmAllocBlock s.vm.pmm).1) →
      Flagged φ ({ vm with mem := (execUser s image fileSize).mem } : VmState).mem
        (fun r => r = (pmmAllocBlock s.vm.pmm).1) :=
    fun φ h => h.transfer htables
  refine ⟨hcount, hothers, ?_, ?_, ?_⟩
  · rw [hslot]
    exact hready
  · rw [hslot]
    exact hframe
  · intro seg hseg k hk _
    rw [hslot, hpml4]
    have hplaced := (hloaded.placed seg hseg k hk).write hloaded.forest hfree hwrite
    have hsmall := hkept NoHuge hloaded.small
    exact ⟨hplaced.seen hsmall, hplaced.userMapped hsmall (hkept UserFlag hloaded.user)⟩

end Process

/-! ### The kernel's pointers -/

/-- One `rsp -= 8; *rsp = v`, through the kernel's map. -/
def pushMapped (f : ℕ × VmState) (v : ℕ) : Option (ℕ × VmState) :=
  (KernelMap.frame f.2 (f.1 - 8)).map fun x => (f.1 - 8, { f.2 with mem := writeLe f.2.mem x 8 v })

/-- `create_user_process`, whose frame is written through the kernel's map. -/
def createUserProcessMapped (s : Scheduler) (entry pml4PhysAddr : ℕ) : Option Scheduler :=
  if maxProcesses ≤ s.processCount then some s
  else
    let p : Process.ProcessEntry := { s.processes s.processCount with pid := s.processCount, state := .ready }
    let claim (p : Process.ProcessEntry) : ℕ → Process.ProcessEntry := Function.update s.processes s.processCount p
    let user := pmmAllocBlock s.pmm
    if user.1 = 0 then some { s with processes := claim p, pmm := user.2 }
    else
      let p := { p with stackBase := user.1 }
      let kernel := pmmAllocBlock user.2
      if kernel.1 = 0 then some { s with processes := claim p, pmm := kernel.2 }
      else
        let top := kernel.1 + stackSize
        ((trapFrame 0x1B (user.1 + stackSize) 0x202 0x23 entry).foldlM pushMapped (top, s.vm)).map fun frame =>
          { s with
            processes := claim { p with
              rsp := frame.1, kernelStackBase := kernel.1, kernelStackTop := top, pml4 := pml4PhysAddr }
            processCount := s.processCount + 1
            pmm := kernel.2
            mem := frame.2.mem }

/-- **`exec`** of a file with these bytes, by a kernel with the pages `own`. -/
def execUserMapped (own : List ℕ) (s : Scheduler) (image : List UInt8) (fileSize : ℕ) : Option Scheduler :=
  (KernelMap.exec own s.vm image fileSize).bind fun
    | (none, vm) => some (s.withVm vm)
    | (some (entryPoint, procPml4), vm) => createUserProcessMapped (s.withVm vm) entryPoint procPml4

/-- **The frame** goes to its block when that leads to itself, by induction on the words. -/
theorem foldlM_pushMapped {U root : ℕ → Prop} {vm : VmState} {a : ℕ} (h : KernelMap.Steady U root vm)
    (ha : a % 4096 = 0) (hnode : ¬ Node (next vm.mem) root 3 a) (hU : ∀ x, a ≤ x → x < a + pageSize → U x)
    (vs : List ℕ) {rsp : ℕ} (hlow : a + 8 * vs.length ≤ rsp) (hhigh : rsp ≤ a + pageSize) :
    vs.foldlM pushMapped (rsp, vm) = some ((vs.foldl Process.push (rsp, vm.mem)).1,
      { vm with mem := (vs.foldl Process.push (rsp, vm.mem)).2 }) := by
  induction vs generalizing rsp vm with
  | nil => rfl
  | cons v vs ih =>
    rw [List.length_cons] at hlow
    have hout : ∀ x, x < a ∨ a + pageSize ≤ x → writeLe vm.mem (rsp - 8) 8 v x = vm.mem x := by
      intro x hx
      rw [writeLe, if_neg (by omega)]
    have hstep := h.write ha hnode hout
    have hfirst : pushMapped (rsp, vm) v = some (rsp - 8, { vm with mem := writeLe vm.mem (rsp - 8) 8 v }) := by
      rw [pushMapped]
      dsimp only
      rw [h.straight (rsp - 8) (hU _ (by omega) (by omega))]
      rfl
    have hlow' : a + 8 * vs.length ≤ rsp - 8 := by omega
    have hhigh' : rsp - 8 ≤ a + pageSize := by omega
    rw [List.foldlM_cons, hfirst]
    exact ih hstep (mt (h.node_write ha hnode hout).mp hnode) hlow' hhigh'

/-- **`create_user_process`**, when its stacks lead to themselves. -/
theorem createUserProcessMapped_eq {U root : ℕ → Prop} {s : Scheduler} (h : KernelMap.Steady U root s.vm)
    (entry pml4 : ℕ) (hblocks : ∀ x, Taken s.pmm (createUserProcess s entry pml4).pmm x → U x) :
    createUserProcessMapped s entry pml4 = some (createUserProcess s entry pml4) := by
  rw [createUserProcess] at hblocks ⊢
  rw [createUserProcessMapped]
  by_cases hfull : maxProcesses ≤ s.processCount
  · rw [if_pos hfull, if_pos hfull]
  · rw [if_neg hfull] at hblocks
    rw [if_neg hfull, if_neg hfull]
    dsimp only at hblocks ⊢
    by_cases huser : (pmmAllocBlock s.pmm).1 = 0
    · rw [if_pos huser, if_pos huser]
    · rw [if_neg huser] at hblocks
      rw [if_neg huser, if_neg huser]
      by_cases hkernel : (pmmAllocBlock (pmmAllocBlock s.pmm).2).1 = 0
      · rw [if_pos hkernel, if_pos hkernel]
      · rw [if_neg hkernel] at hblocks
        rw [if_neg hkernel, if_neg hkernel]
        have halloc : KernelMap.Steady U root { s.vm with pmm := (pmmAllocBlock s.pmm).2 } := h.alloc
        have hfresh : ¬ Node (next s.mem) root 3 (pmmAllocBlock (pmmAllocBlock s.pmm).2).1 :=
          halloc.ok.fresh hkernel
        have hU : ∀ x, (pmmAllocBlock (pmmAllocBlock s.pmm).2).1 ≤ x →
            x < (pmmAllocBlock (pmmAllocBlock s.pmm).2).1 + pageSize → U x := by
          intro x hx hx'
          apply hblocks x
          exact ((taken_alloc hkernel x).mpr ⟨hx, hx'⟩).mono (allocates_alloc s.pmm) (Allocates.refl _)
        have hlength : (trapFrame 0x1B ((pmmAllocBlock s.pmm).1 + stackSize) 0x202 0x23 entry).length = 23 := rfl
        generalize trapFrame 0x1B ((pmmAllocBlock s.pmm).1 + stackSize) 0x202 0x23 entry = vs at hlength ⊢
        have hlow : (pmmAllocBlock (pmmAllocBlock s.pmm).2).1 + 8 * vs.length ≤
            (pmmAllocBlock (pmmAllocBlock s.pmm).2).1 + stackSize := by
          rw [hlength]
          exact Nat.add_le_add_left (by decide) _
        have hframe := foldlM_pushMapped h (pmmAllocBlock_aligned _) hfresh hU vs hlow (Nat.le_refl _)
        generalize (pmmAllocBlock (pmmAllocBlock s.pmm).2).1 + stackSize = top at hframe ⊢
        rw [hframe]
        rfl

section Mapped

variable {own : List ℕ} {root : ℕ → Prop} {s : Scheduler} {image : List UInt8}

/-- A page of a segment is made of bytes of the file. -/
theorem sourceIn_of_inFile {r : Round} (hr : r.InFile image) (hsize : loadAddr + image.length ≤ identityMapEnd) :
    SourceIn (InFile image) loadAddr r.seg r.vaddr := by
  have hfile := hr.seg.file
  intro hlt x hx hx'
  rw [copyRange_eq hr.seg.data hr.page] at hlt hx hx'
  dsimp only at hlt hx hx'
  have hend : loadAddr + r.seg.fileOffset + (max r.vaddr r.seg.vaddrStart - r.seg.vaddrStart) < 2 ^ 64 := by
    rw [identityMapEnd] at hsize
    omega
  rw [Nat.mod_eq_of_lt hend] at hx hx'
  exact ⟨by omega, by omega⟩

/-- The program headers and the segments are in the file. -/
theorem Executable.headerInside (hfile : Executable image) {i : ℕ}
    (hi : i < readLe (stagedFile image) (loadAddr + 56) 2) :
    HeaderInside image (programHeaders (stagedFile image) loadAddr) i := by
  obtain ⟨hfirst, hlast⟩ := hfile.headers.table i hi
  have hsegs : ∀ seg ∈ segmentsOf image, ∀ k, k < segmentPages seg →
      SourceIn (InFile image) loadAddr seg (seg.vaddrStart / pageSize * pageSize + k * pageSize) := by
    intro seg hseg k hk
    have hpage : seg.vaddrStart / pageSize * pageSize + k * pageSize = seg.firstPage + 4096 * k := by
      rw [Segment.firstPage, Nat.mul_comm k pageSize]
      rfl
    rw [hpage]
    have hround : (⟨seg, seg.firstPage + 4096 * k⟩ : Round) ∈ rounds (segmentsOf image) :=
      mem_rounds.mpr ⟨hseg, k, hk, rfl⟩
    exact sourceIn_of_inFile (inFile_of_mem hfile.segments _ hround) hfile.size
  refine ⟨⟨hfirst, by omega⟩, fun hload => ⟨⟨hfirst, by omega⟩, ?_⟩⟩
  exact hsegs _ (KernelMap.mem_segmentsFrom.mpr ⟨i, Nat.zero_le i, (Nat.zero_add _).symm ▸ hi, hload, rfl⟩)

/-- **A file that can be run is complete.** -/
theorem Executable.selfContained (hfile : Executable image) : SelfContained image image.length := by
  have hlen := hfile.headers.file
  exact ⟨rfl, Or.inl (by omega), fun _ => Or.inl (by omega), fun _ => ⟨by omega, fun i hi => hfile.headerInside hi⟩⟩

/-- The blocks of the load are in front of the staging area. -/
theorem Ready.not_taken (h : Ready s.vm root image) (hfile : Executable image) (fileSize : ℕ) {x : ℕ}
    (hx : InFile image x) : ¬ Taken s.vm.pmm (Exec.exec s.vm image fileSize).2.pmm x := by
  obtain ⟨vm, hexec, -, hblocks⟩ := h.exec hfile fileSize
  rw [hexec]
  rintro ⟨a, ⟨q, -, hq, haddr, h0⟩, -, hlt⟩
  subst haddr
  obtain ⟨i, hi⟩ := Finset.card_pos.mp (Nat.lt_of_lt_of_le Nat.zero_lt_two hblocks)
  have hlow := (freeBlocks_capped vm.pmm).2 i hi
  have hfree := (Finset.mem_filter.mp hi).2
  obtain ⟨j, hblock, -, -, hbelow, hstate⟩ := pmmAllocBlock_fresh q h0
  -- a block that is free in the end was free before
  have hji : j ≤ i := by
    by_contra hlt
    have hused := ((allocates_alloc q).trans hq).later.used i (hbelow i (by omega))
    exact absurd (hused.symm.trans hfree) (by decide)
  have hstart := hx.1
  rw [blockSize] at hblock hlt
  rw [loadAddr] at hlow hstart
  omega

/-- **A file that runs in place**: the pages of an executable file keep away from all that `exec` uses, the stacks
of the process among it. -/
theorem Ready.execUserMapped_eq (h : Ready s.vm root image) (hfile : Executable image)
    (hcurrent : root s.vm.currentPml4)
    (hplace : ExecInPlace own root s.vm image image.length (execUser s image image.length).pmm) :
    execUserMapped own s image image.length = some (execUser s image image.length) := by
  have hsteady := hplace.steady h.tables hcurrent h.kernel
  have hmiss : ∀ x, InFile image x → ¬ TablePage s.vm.mem root x := by
    rintro x hx ⟨t, ht, hin⟩
    exact h.staging x hx t ht hin
  have hcreate : Allocates (Exec.exec s.vm image image.length).2.pmm (execUser s image image.length).pmm := by
    rw [execUser]
    generalize Exec.exec s.vm image image.length = d
    rcases d with ⟨_ | ⟨entryPoint, procPml4⟩, vm⟩
    · exact Allocates.refl _
    · exact Process.allocates_createUserProcess (s.withVm vm) entryPoint procPml4
  have hspawn := spawnOk_of_file h.tables h.kernel hfile.selfContained hmiss
    (fun _ x hx => h.not_taken hfile image.length hx) (fun x => ExecUses.header) (fun x => ExecUses.file)
    (fun x hx => ExecUses.block (hx.mono (Allocates.refl _) hcreate)) hplace.apart
  obtain ⟨hrun, root', hend⟩ := hsteady.exec (fun x => ExecUses.own) (fun x hx hx' => h.staging x ⟨hx, hx'⟩)
    (fun x hx hx' => ExecUses.file ⟨hx, hx'⟩) hspawn
  have htakes : Allocates s.vm.pmm (Exec.exec s.vm image image.length).2.pmm :=
    (allocates_alloc _).trans (allocates_exec s.vm image image.length)
  have hblocks : ∀ x, Taken (Exec.exec s.vm image image.length).2.pmm (execUser s image image.length).pmm x →
      ExecUses own root s.vm image (execUser s image image.length).pmm x :=
    fun x hx => ExecUses.block (hx.mono htakes (Allocates.refl _))
  rw [execUserMapped, hrun, Option.bind_some]
  generalize ExecUses own root s.vm image (execUser s image image.length).pmm = U at hend hblocks
  clear hplace hsteady hspawn hrun htakes hcreate
  rw [execUser] at hblocks ⊢
  generalize Exec.exec s.vm image image.length = d at hend hblocks ⊢
  rcases d with ⟨_ | ⟨entryPoint, procPml4⟩, vm⟩
  · rfl
  · exact createUserProcessMapped_eq (s := s.withVm vm) hend entryPoint procPml4 hblocks

end Mapped

/-! ### The file -/

section Disk

open OsEojin.Lib.Programs OsEojin.Lib.Programs.Program OsEojin.Ata OsEojin.Fat OsEojin.Shell OsEojin.FileReading

/-- The disk after a run with an account of the sectors read. -/
theorem execute_of_reader {α : Type} (junk : Sector) (p : Kernel α) (s : Reader) :
    (p.run (reader junk) s).map (fun r => (r.1, r.2.console.disk)) = execute junk p s.console.disk := by
  refine run_project (f := fun s : Reader => s.console.disk) ?_ p s
  intro o t
  cases o <;> rfl

variable {junk : Sector} {g : Globals} {d : Disk}

/-- `exec` of a file that is found stages its bytes. -/
theorem execute_cmdExec {n : ℕ} {w : List UInt8} {e : DirEntry}
    (hfind : execute junk (fatFindFile g (n + 1) w) d = some (some e, d)) (hn : e.fileSize ≤ 512 * n) :
    execute junk (cmdExec g (n + 1) w) d =
      some (some ⟨w, e.fileSize, staged g d n e.fileSize e.firstClusterLow⟩, d) := by
  obtain ⟨b, hload⟩ := run_loadLoop junk g d n e.fileSize e.firstClusterLow (freshBlock junk) [] [] [] hn
  have hdisk := execute_of_reader junk (loadLoop g (n + 1) e.fileSize e.firstClusterLow (freshBlock junk) [])
    ⟨⟨d, []⟩, []⟩
  rw [hload, Option.map_some, List.nil_append] at hdisk
  simp only [cmdExec, execute_bind, hfind, Option.bind_some, execute_kmalloc, freshBlock_ptr_ne, if_false,
    ← hdisk, execute_kfree, execute_kprint, execute_pure]

/-- **From a file to a process that runs it.**  On a ready kernel with a free slot, `exec` of a complete ELF file
whose clusters it reads (one sector in a cluster, or clusters whose sectors look alike), and whose pages keep away
from the kernel, stages the file's bytes and ends with a new process: ready, about to start at the entry point in
ring 3, with every byte of every segment in its address space. -/
theorem exec_runs_file {n : ℕ} {w : List UInt8} {e : DirEntry}
    (hfind : execute junk (fatFindFile g (n + 1) w) d = some (some e, d)) (hn : e.fileSize ≤ 512 * n)
    {l : List UInt16} (hchain : FileChain g d e.firstClusterLow l) (hspc : 1 ≤ spc g)
    (hlength : e.fileSize ≤ l.length * spc g * 512) (hsectors : spc g = 1 ∨ Coincides g d l e.fileSize)
    {image : List UInt8} (himage : (fileBytes g d l).take e.fileSize = image) (hfile : Executable image)
    {own : List ℕ} {s : Scheduler} {root : ℕ → Prop} (hready : Ready s.vm root image)
    (hcurrent : root s.vm.currentPml4)
    (hplace : ExecInPlace own root s.vm image e.fileSize (execUser s image e.fileSize).pmm)
    (hslot : s.processCount < maxProcesses) :
    execute junk (cmdExec g (n + 1) w) d = some (some ⟨w, e.fileSize, image⟩, d) ∧
      ∃ s', execUserMapped own s image e.fileSize = some s' ∧ Runs image s s' := by
  have hsize : image.length = e.fileSize := by
    rw [← himage, List.length_take, length_fileBytes, Nat.min_eq_left hlength]
  refine ⟨?_, execUser s image e.fileSize, ?_, hready.runs hfile hslot e.fileSize⟩
  · rw [execute_cmdExec hfind hn, staged_fileChain hchain hn hlength, take_firstSectors_eq hspc hsectors, himage]
  · rw [← hsize] at hplace ⊢
    exact hready.execUserMapped_eq hfile hcurrent hplace

end Disk

/-! ### The file of two bytes -/

section Tiny

open OsEojin.Lib.Programs OsEojin.Ata OsEojin.Fat OsEojin.Shell OsEojin.FileReading

theorem segmentsOf_tinyElf : segmentsOf tinyElf = [tinySegment] := by
  have hcount : readLe (stagedFile tinyElf) (loadAddr + 56) 2 = 1 := by decide +kernel
  have hphdr : phdrAddr (programHeaders (stagedFile tinyElf) loadAddr) 0 = 0x4000040 := by decide +kernel
  have hload : readLe (stagedFile tinyElf) 0x4000040 4 = 1 := by decide +kernel
  have hsegment : segmentAt (stagedFile tinyElf) 0x4000040 = tinySegment :=
    segmentAt_eq (by decide +kernel) (by decide +kernel) (by decide +kernel) (by decide +kernel)
  rw [segmentsOf, loadSegments, hcount, segmentsFrom, hphdr, if_pos hload, hsegment]
  rfl

theorem rounds_tinySegment : rounds [tinySegment] = [⟨tinySegment, 0x400000⟩] := by
  have hcount : tinySegment.pageCount = 1 := by decide
  have hfirst : tinySegment.firstPage = 0x400000 := by decide
  rw [rounds_cons, Segment.rounds, hcount, hfirst]
  rfl

theorem executable_tinyElf : Executable tinyElf := by
  have hlen : tinyElf.length = 122 := rfl
  have hcount : readLe (stagedFile tinyElf) (loadAddr + 56) 2 = 1 := by decide +kernel
  have hphdr : phdrAddr (programHeaders (stagedFile tinyElf) loadAddr) 0 = 0x4000040 := by decide +kernel
  refine ⟨by rw [hlen]; decide, by decide +kernel, ⟨by omega, ?_⟩, by decide +kernel, ?_, ?_⟩
  · intro i hi
    obtain rfl : i = 0 := by omega
    rw [hphdr, hlen]
    decide
  · intro seg hseg
    rw [segmentsOf_tinyElf] at hseg
    rw [List.mem_singleton.mp hseg]
    exact ⟨by rw [Segment.Wraps]; decide, by decide, by rw [hlen]; decide⟩
  · rw [segmentsOf_tinyElf, rounds_tinySegment]
    exact List.pairwise_singleton _ _

/-- The kernel of the machine of 128 MB. -/
def kernel128 : Scheduler := Process.boot (vmmInit vm128).pmm (vmmInit vm128).mem (vmmInit vm128).kernelPml4 0

theorem vm_kernel128 : kernel128.vm = vmmInit vm128 := by
  have hcurrent := KernelMap.vmmInit_currentPml4 vm128
  rw [kernel128]
  generalize vmmInit vm128 = s at hcurrent ⊢
  obtain ⟨mem, pmm, kernelPml4, currentPml4⟩ := s
  obtain rfl : currentPml4 = kernelPml4 := hcurrent
  rfl

section Started

variable {s : VmState} (hs : KernelMap.Started s)
include hs

/-- It has 7933 free blocks in front of the staging area. -/
theorem free_capped : 7933 ≤ (freeBlocks (capped s.pmm)).card := by
  have hsub : freeBlocks s.pmm ⊆ freeBlocks (capped s.pmm) ∪ Finset.Ico 16384 32768 := by
    intro i hi
    obtain ⟨hlt, hfree⟩ := Finset.mem_filter.mp hi
    have hlt' := Finset.mem_range.mp hlt
    rw [hs.total] at hlt'
    rw [Finset.mem_union]
    by_cases hlow : i < 16384
    · refine Or.inl (Finset.mem_filter.mpr ⟨Finset.mem_range.mpr ?_, hfree⟩)
      show i < min s.pmm.totalBlocks (loadAddr / 4096)
      rw [hs.total, loadAddr]
      omega
    · exact Or.inr (Finset.mem_Ico.mpr ⟨by omega, hlt'⟩)
  have hcard := (Finset.card_le_card hsub).trans (Finset.card_union_le _ _)
  have hupper : (Finset.Ico 16384 32768).card = 16384 := by rw [Nat.card_Ico]
  have hfree := hs.free
  omega

theorem ready_started (hstage : testBit s.pmm.bitmap 16384 = false) :
    Ready s (fun r => r = s.kernelPml4) tinyElf := by
  have hblocks := free_capped hs
  refine ⟨hs.steady.ok, rfl, ?_, ?_⟩
  · rintro x ⟨hx, hx'⟩ t ht hin
    have hlen : tinyElf.length = 122 := rfl
    rw [hlen] at hx'
    have hpage : loadAddr + 122 ≤ loadAddr + pageSize := Nat.add_le_add_left (by decide) loadAddr
    exact not_tablePage_of_stage hs.steady.ok hstage hx (Nat.lt_of_lt_of_le hx' hpage) ⟨t, ht, hin⟩
  · rw [segmentsOf_tinyElf, rounds_tinySegment]
    exact Nat.le_trans (by decide) hblocks

/-- Its page keeps away from the kernel. -/
theorem execInPlace_tinyElf (p : PmmState) :
    ExecInPlace [0x8600] (fun r => r = s.kernelPml4) s tinyElf 122 p := by
  have hlen : tinyElf.length = 122 := rfl
  refine execInPlace_started hs (by rw [hlen]; decide) p ?_
  intro v hv x hx hpage
  cases hv with
  | @elf seg k _ hseg hk =>
    obtain ⟨i, hi, hload, rfl⟩ := hseg
    have hmem : segmentAt (stagedFile tinyElf) (phdrAddr (programHeaders (stagedFile tinyElf) loadAddr) i) ∈
        segmentsOf tinyElf := KernelMap.mem_segmentsFrom.mpr ⟨i, Nat.zero_le i, by omega, hload, rfl⟩
    rw [segmentsOf_tinyElf, List.mem_singleton, programHeaders] at hmem
    rw [hmem] at hk hpage
    have hcount : segmentPages tinySegment = 1 := by decide
    have hfirst : tinySegment.vaddrStart / pageSize * pageSize = 0x400000 := by decide
    rw [hcount] at hk
    obtain rfl : k = 0 := by omega
    rw [hfirst, SamePage] at hpage
    omega
  | flat hflat _ =>
    have helf : elfCheckFile (stagedFile tinyElf) loadAddr = true := by decide +kernel
    rw [helf] at hflat
    cases hflat

end Started

/-- The entry `A` with cluster `2` and 122 bytes. -/
def tinyEntry : DirEntry := fun i =>
  if i.val = 0 then 65 else if i.val < 11 then 32 else if i.val = 26 then 2 else if i.val = 28 then 122 else 0

/-- A disk with that entry in its root directory, end marks in its FAT and the file everywhere else. -/
def tinyDisk : Disk := fun lba =>
  if lba = 1 then fun _ => 0xFF else if lba = 2 then putEntry (fun _ => 0) 0 tinyEntry
  else fun i => tinyElf.getD i.val 0

theorem exec_runs_file_tinyElf :
    execute (fun _ => 0) (cmdExec (clustersOf 1) 2 (text "A")) tinyDisk =
        some (some ⟨text "A", 122, tinyElf⟩, tinyDisk) ∧
      ∃ s', execUserMapped [0x8600] kernel128 tinyElf 122 = some s' ∧ Runs tinyElf kernel128 s' := by
  have hfind : execute (fun _ => 0) (fatFindFile (clustersOf 1) 2 (text "A")) tinyDisk =
      some (some (entryAt (tinyDisk.get 2) 0), tinyDisk) := rfl
  have hsize : (entryAt (tinyDisk.get 2) 0).fileSize = 122 := by decide
  have hchain : FileChain (clustersOf 1) tinyDisk (entryAt (tinyDisk.get 2) 0).firstClusterLow [2] :=
    Or.inr (Chain.last ⟨by decide, by decide⟩ (by decide))
  have hbytes : (fileBytes (clustersOf 1) tinyDisk [2]).take 122 = tinyElf := by decide +kernel
  have hready := ready_started KernelMap.started_vm128 stage_vm128
  have hplace := execInPlace_tinyElf KernelMap.started_vm128
    (execUser kernel128 tinyElf (entryAt (tinyDisk.get 2) 0).fileSize).pmm
  have hcurrent := KernelMap.vmmInit_currentPml4 vm128
  rw [← vm_kernel128] at hready hplace hcurrent
  rw [← hsize] at hbytes hplace ⊢
  exact exec_runs_file hfind (by decide) hchain (by decide) (by decide) (Or.inl rfl) hbytes executable_tinyElf
    hready hcurrent hplace (by decide)

end Tiny

end OsEojin.ExecProgram
