import OsEojin.AddressSpaces

/-!
# `exec` and the isolation of address spaces

The loaders are runs of the events of `Machine`, so what holds along such runs holds for `exec`.  The
address spaces stay apart as long as every page goes behind an entry other than 0; a flat binary is loaded
at `0x10000000`, behind entry 0, into the tables of the kernel.

* `execEvents`, `run_execEvents`: the events of `exec`;
* `address_spaces_isolated`: every run whose steps keep to tables of their own;
* `exec_remaps_kernel`: the run that does not.
-/

namespace OsEojin.Vmm

open OsEojin.Lib.ByteMemory OsEojin.Lib.Forests OsEojin.Lib.Runs OsEojin.Pmm OsEojin.Exec

/-! ### `exec` as a run -/

/-- The events of the loop over a flat binary. -/
def flatEvents (pml4 size : ℕ) : ℕ → ℕ → VmState → List Event
  | 0, _, _ => []
  | n + 1, offset, s =>
    .flatPage pml4 size offset ::
      match flatPage s pml4 size offset with
      | (false, _) => []
      | (true, s) => flatEvents pml4 size n (offset + pageSize) s

/-- The events of the loop over the pages of a segment. -/
def elfPagesEvents (pml4 fileBuffer : ℕ) (seg : Segment) : ℕ → ℕ → VmState → List Event
  | 0, _, _ => []
  | n + 1, vaddr, s =>
    .elfPage pml4 fileBuffer seg vaddr ::
      match elfPage s pml4 fileBuffer seg vaddr with
      | (false, _) => []
      | (true, s) => elfPagesEvents pml4 fileBuffer seg n (vaddr + pageSize) s

/-- The events of a segment. -/
def elfSegmentEvents (s : VmState) (pml4 fileBuffer : ℕ) (seg : Segment) : List Event :=
  let vaddr := seg.vaddrStart / pageSize * pageSize
  let endVaddr := (seg.vaddrStart + seg.memSize + pageSize - 1) % 2 ^ 64 / pageSize * pageSize
  elfPagesEvents pml4 fileBuffer seg ((endVaddr - vaddr) / pageSize) vaddr s

/-- The events of the loop over the program headers. -/
def elfHeadersEvents (pml4 fileBuffer phdr : ℕ) : ℕ → ℕ → VmState → List Event
  | 0, _, _ => []
  | fuel + 1, i, s =>
    if i < readLe s.mem (fileBuffer + 56) 2 then
      if readLe s.mem (phdrAddr phdr i) 4 = 1 then
        elfSegmentEvents s pml4 fileBuffer (segmentAt s.mem (phdrAddr phdr i)) ++
          match elfSegment s pml4 fileBuffer (segmentAt s.mem (phdrAddr phdr i)) with
          | (false, _) => []
          | (true, s) => elfHeadersEvents pml4 fileBuffer phdr fuel (i + 1) s
      else elfHeadersEvents pml4 fileBuffer phdr fuel (i + 1) s
    else []

/-- The events of the ELF loader. -/
def elfEvents (s : VmState) (pml4 fileBuffer : ℕ) : List Event :=
  if elfCheckSupported s.mem fileBuffer then
    elfHeadersEvents pml4 fileBuffer ((fileBuffer + readLe s.mem (fileBuffer + 32) 8) % 2 ^ 64) 65536 0 s
  else []

/-- The events of `exec` from the staged file on. -/
def spawnEvents (s : VmState) (fileSize : ℕ) : List Event :=
  .create ::
    match vmmCreateUserPml4 s with
    | (procPml4, s) =>
      if procPml4 = 0 then []
      else if elfCheckFile s.mem loadAddr then elfEvents s procPml4 loadAddr
      else flatEvents procPml4 fileSize ((fileSize + pageSize - 1) / pageSize) 0 s

/-- **The events of `exec`.** -/
def execEvents (s : VmState) (image : List UInt8) (fileSize : ℕ) : List Event :=
  .store loadAddr image :: spawnEvents { s with mem := store s.mem loadAddr image } fileSize

/-- The PML4s after `exec`. -/
def execSpaces (s : VmState) (image : List UInt8) (spaces : List ℕ) : List ℕ :=
  (step ⟨{ s with mem := store s.mem loadAddr image }, spaces⟩ .create).spaces

section ExecRuns

variable {pml4 fileBuffer : ℕ} {spaces : List ℕ}

theorem run_flatEvents (size n offset : ℕ) (s : VmState) :
    run step ⟨s, spaces⟩ (flatEvents pml4 size n offset s) =
      ⟨(flatLoop pml4 size n offset s).2, spaces⟩ := by
  induction n generalizing offset s with
  | zero => rfl
  | succ n ih =>
    rw [flatEvents, run_cons, step, flatLoop]
    rcases flatPage s pml4 size offset with ⟨_ | _, s'⟩
    · rfl
    · exact ih (offset + pageSize) s'

theorem run_elfPagesEvents (seg : Segment) (n vaddr : ℕ) (s : VmState) :
    run step ⟨s, spaces⟩ (elfPagesEvents pml4 fileBuffer seg n vaddr s) =
      ⟨(elfPages pml4 fileBuffer seg n vaddr s).2, spaces⟩ := by
  induction n generalizing vaddr s with
  | zero => rfl
  | succ n ih =>
    rw [elfPagesEvents, run_cons, step, elfPages]
    rcases elfPage s pml4 fileBuffer seg vaddr with ⟨_ | _, s'⟩
    · rfl
    · exact ih (vaddr + pageSize) s'

theorem run_elfSegmentEvents (s : VmState) (seg : Segment) :
    run step ⟨s, spaces⟩ (elfSegmentEvents s pml4 fileBuffer seg) =
      ⟨(elfSegment s pml4 fileBuffer seg).2, spaces⟩ :=
  run_elfPagesEvents seg _ _ s

theorem run_elfHeadersEvents (phdr fuel i : ℕ) (s : VmState) :
    run step ⟨s, spaces⟩ (elfHeadersEvents pml4 fileBuffer phdr fuel i s) =
      ⟨(elfHeaders pml4 fileBuffer phdr fuel i s).2, spaces⟩ := by
  induction fuel generalizing i s with
  | zero => rfl
  | succ fuel ih =>
    rw [elfHeadersEvents, elfHeaders]
    split
    · split
      · rw [run_append, run_elfSegmentEvents]
        rcases elfSegment s pml4 fileBuffer (segmentAt s.mem (phdrAddr phdr i)) with ⟨_ | _, s'⟩
        · rfl
        · exact ih (i + 1) s'
      · exact ih (i + 1) s
    · rfl

theorem run_elfEvents (s : VmState) :
    run step ⟨s, spaces⟩ (elfEvents s pml4 fileBuffer) = ⟨(elfLoadFile s pml4 fileBuffer).2, spaces⟩ := by
  rw [elfEvents, elfLoadFile]
  split
  · rw [run_elfHeadersEvents]
    generalize elfHeaders pml4 fileBuffer _ 65536 0 s = r
    rcases r with ⟨_ | _, s'⟩
    · rfl
    · rfl
  · rfl

theorem run_spawnEvents (s : VmState) (fileSize : ℕ) :
    run step ⟨s, spaces⟩ (spawnEvents s fileSize) =
      ⟨(execSpawn s fileSize).2, (step ⟨s, spaces⟩ .create).spaces⟩ := by
  rw [spawnEvents, run_cons, step, execSpawn]
  rcases vmmCreateUserPml4 s with ⟨procPml4, s'⟩
  simp only
  by_cases h0 : procPml4 = 0
  · rw [if_pos h0, if_pos h0, if_pos h0]
    rfl
  · rw [if_neg h0, if_neg h0, if_neg h0]
    split
    · rw [run_elfEvents]
      rcases elfLoadFile s' procPml4 loadAddr with ⟨entryPoint, s''⟩
      simp only
      split
      · rfl
      · rfl
    · rw [run_flatEvents]
      generalize flatLoop procPml4 fileSize _ 0 s' = r
      rcases r with ⟨_ | _, s''⟩
      · rfl
      · rfl

/-- **`exec` is the run of its events.** -/
theorem run_execEvents (s : VmState) (image : List UInt8) (fileSize : ℕ) :
    run step ⟨s, spaces⟩ (execEvents s image fileSize) =
      ⟨(exec s image fileSize).2, execSpaces s image spaces⟩ := by
  rw [execEvents, run_cons, step, run_spawnEvents, exec, execSpaces]

end ExecRuns

/-! ### Isolation -/

/-- What a run is made of: single events, in any order, and whole `exec` commands. -/
inductive Action where
  | event (e : Event)
  | exec (image : List UInt8) (fileSize : ℕ)

def act (σ : Machine) : Action → Machine
  | .event e => step σ e
  | .exec image fileSize => ⟨(exec σ.vm image fileSize).2, execSpaces σ.vm image σ.spaces⟩

/-- The action keeps to tables of its own; an `exec` does when all its events do. -/
def ActsOnOwnTables (σ : Machine) : Action → Prop
  | .event e => OwnTables σ e
  | .exec image fileSize => Admits step OwnTables σ (execEvents σ.vm image fileSize)

theorem Isolated.act {σ : Machine} (h : Isolated σ) {a : Action} (ha : ActsOnOwnTables σ a) :
    Isolated (act σ a) := by
  cases a with
  | event e => exact h.step ha
  | exec image fileSize =>
    have hkeeps : ∀ σ e, Isolated σ → OwnTables σ e → Isolated (Vmm.step σ e) :=
      fun _ _ hI hC => hI.step hC
    have hrun := run_invariant hkeeps σ h (execEvents σ.vm image fileSize) ha
    rw [run_execEvents] at hrun
    exact hrun

/-- **Address spaces are isolated** along every run after `vmm_init` whose actions keep to tables of their
own: a page mapped in one of them changes no walk in another one or in the kernel's, and the kernel's
translates every address below 512 MB to itself. -/
theorem address_spaces_isolated {s₀ : VmState} {spare : ℕ} (hboots : Boots s₀ spare)
    (actions : List Action) (hown : Admits act ActsOnOwnTables ⟨vmmInit s₀, []⟩ actions) :
    let σ := run act ⟨vmmInit s₀, []⟩ actions
    (∀ P Q vaddr paddr flags u, P ∈ σ.spaces → Q ∈ σ.spaces ∨ Q = σ.vm.kernelPml4 → P ≠ Q →
      pml4Index vaddr ≠ 0 →
      pageWalk (vmmMapPage σ.vm P vaddr paddr flags).mem Q u = pageWalk σ.vm.mem Q u) ∧
    ∀ u, u < identityMapEnd → translate σ.vm.mem σ.vm.kernelPml4 u = some u := by
  intro σ
  have hkeeps : ∀ σ a, Isolated σ → ActsOnOwnTables σ a → Isolated (act σ a) :=
    fun _ _ hI hC => hI.act hC
  have hσ : Isolated σ := run_invariant hkeeps _ (isolated_vmmInit hboots) actions hown
  refine ⟨?_, ?_⟩
  · intro P Q vaddr paddr flags u hP hQ hne hindex
    have hPr : σ.root P := Or.inr hP
    exact (vmmMapPage_root hσ.tables hPr vaddr paddr flags).pageWalk_of_ne_root hσ.tables hPr hQ.symm hne
      hindex u
  · intro u hu
    apply translate_identity hσ.tables σ.root_kernel hu
    apply hσ.identity
    rw [identityMapEnd] at hu
    omega

/-! ### A machine of 128 MB -/

/-- 128 MB, of which `init_pmm` keeps the first 32 MB. -/
def pmm128 : PmmState := ⟨fun word => if word < 256 then BitVec.allOnes 32 else 0#32, 32768, by decide⟩

/-- The same before `vmm_init`. -/
def vm128 : VmState := ⟨fun _ => 0, pmm128, 0, 0⟩

theorem testBit_pmm128 (i : ℕ) : testBit pmm128.bitmap i = decide (i < 8192) := by
  have hmod : i % 32 < 32 := Nat.mod_lt _ (by decide)
  have hword : pmm128.bitmap (i / 32) = if i / 32 < 256 then BitVec.allOnes 32 else 0#32 := rfl
  rw [testBit_eq_getLsbD, hword]
  by_cases hi : i < 8192
  · rw [if_pos (by omega), BitVec.getLsbD_allOnes]
    simp [hi, hmod]
  · rw [if_neg (by omega), BitVec.getLsbD_zero]
    simp [hi]

theorem boots_vm128 : Boots vm128 24317 := by
  refine ⟨by decide, ?_, ?_⟩
  · exact testBit_pmm128 0
  · have hsub : Finset.Ico 8192 32768 ⊆ freeBlocks pmm128 := by
      intro i hi
      obtain ⟨hlow, hhigh⟩ := Finset.mem_Ico.mp hi
      refine Finset.mem_filter.mpr ⟨Finset.mem_range.mpr hhigh, ?_⟩
      rw [testBit_pmm128]
      simp [hlow]
    have hcard := Finset.card_le_card hsub
    rw [Nat.card_Ico] at hcard
    exact hcard

/-- There are blocks for many more tables after `vmm_init`. -/
theorem free_vmmInit_vm128 : 24317 ≤ (freeBlocks (vmmInit vm128).pmm).card := by
  have hblocks := (vmmInit_spec boots_vm128).blocks
  rw [if_neg (by decide)] at hblocks
  omega

/-- One address space, with a page behind entry 1. -/
def onePage (s : VmState) : List Action :=
  [.event .create, .event (.mapPage (pmmAllocBlock s.pmm).1 0x8000000000 0x3000000 pagingFlagsAll)]

section OnePage

variable {s : VmState} (h : Isolated ⟨s, []⟩) (hfree : 0 < (freeBlocks s.pmm).card)
include h hfree

theorem run_onePage :
    run act ⟨s, []⟩ (onePage s) =
      ⟨vmmMapPage (newRoot s) (pmmAllocBlock s.pmm).1 0x8000000000 0x3000000 pagingFlagsAll,
        [(pmmAllocBlock s.pmm).1]⟩ := by
  rw [onePage, run_cons, act, step_create (pmmAllocBlock_ne_zero h.tables.zero hfree), run_cons, act, step,
    run_nil]

theorem admits_onePage : Admits act ActsOnOwnTables ⟨s, []⟩ (onePage s) := by
  refine ⟨trivial, ?_, trivial⟩
  rw [act, step_create (pmmAllocBlock_ne_zero h.tables.zero hfree)]
  exact ⟨List.mem_singleton_self _, by decide⟩

theorem mem_spaces_onePage : (pmmAllocBlock s.pmm).1 ∈ (run act ⟨s, []⟩ (onePage s)).spaces := by
  rw [run_onePage h hfree]
  exact List.mem_singleton_self _

theorem onePage_ne_kernel : (pmmAllocBlock s.pmm).1 ≠ (run act ⟨s, []⟩ (onePage s)).vm.kernelPml4 := by
  have h0 := pmmAllocBlock_ne_zero h.tables.zero hfree
  have hcreated := h.create
  rw [step_create h0] at hcreated
  have hspec := vmmMapPage_root hcreated.tables (Or.inr (List.mem_singleton_self _)) 0x8000000000 0x3000000
    pagingFlagsAll
  rw [run_onePage h hfree, hspec.kernelPml4]
  intro heq
  exact h.fresh h0 ⟨s.kernelPml4, [], Or.inl rfl, Nat.zero_le 3, congrArg some heq.symm⟩

end OnePage

theorem address_spaces_isolated_onePage :
    Boots vm128 24317 ∧ Admits act ActsOnOwnTables ⟨vmmInit vm128, []⟩ (onePage (vmmInit vm128)) ∧
      let σ := run act ⟨vmmInit vm128, []⟩ (onePage (vmmInit vm128))
      let P := (pmmAllocBlock (vmmInit vm128).pmm).1
      P ∈ σ.spaces ∧ P ≠ σ.vm.kernelPml4 ∧
      (∀ u, pageWalk (vmmMapPage σ.vm P 0x8000001000 0x3001000 pagingFlagsAll).mem σ.vm.kernelPml4 u =
        pageWalk σ.vm.mem σ.vm.kernelPml4 u) ∧
      translate σ.vm.mem σ.vm.kernelPml4 0x10000000 = some 0x10000000 := by
  have hfree : 0 < (freeBlocks (vmmInit vm128).pmm).card := Nat.lt_of_lt_of_le (by decide) free_vmmInit_vm128
  have hinit := isolated_vmmInit boots_vm128
  have hown := admits_onePage hinit hfree
  have hP := mem_spaces_onePage hinit hfree
  have hne := onePage_ne_kernel hinit hfree
  have hall := address_spaces_isolated boots_vm128 _ hown
  refine ⟨boots_vm128, hown, hP, hne, ?_, hall.2 _ (by decide)⟩
  intro u
  exact hall.1 _ _ _ _ _ u hP (Or.inr rfl) hne (by decide)

/-! ### A flat binary -/

section Flat

variable {s : VmState} (h : Isolated ⟨s, []⟩)
include h

/-- Behind entry 0 a new address space and the kernel have the same page tables. -/
theorem sharesTable_newRoot (h0 : (pmmAllocBlock s.pmm).1 ≠ 0) {k : ℕ} (hk : k < 131072) :
    SharesTable (newRoot s) (pmmAllocBlock s.pmm).1 s.kernelPml4 (k * 4096) := by
  have hroot : Machine.root ⟨s, []⟩ s.kernelPml4 := Or.inl rfl
  obtain ⟨pt, hpt, -⟩ := h.identity k hk
  refine ⟨pt, ?_, ?_⟩
  · rw [dirs_page hk] at hpt ⊢
    rw [reach_newRoot h.tables hroot h0 (by simp)]
    exact hpt
  · rw [reach_of_nodes (fun _ j hx => next_newRoot_of_node h.tables hroot h0 hx j) hroot
      (le_of_eq (dirs_length _))]
    exact hpt

/-- The staged byte hits no table while the staging area is free. -/
theorem ownTables_staged (hstage : testBit s.pmm.bitmap 16384 = false) :
    OwnTables ⟨s, []⟩ (.store loadAddr [0x90]) := by
  intro t ht
  have halign := h.tables.aligned_of_node ht
  have hne : t ≠ 16384 * 4096 := by
    rintro rfl
    have hused := h.tables.used _ ht
    rw [Nat.mul_div_cancel _ (by decide)] at hused
    exact absurd (hused.symm.trans hstage) (by decide)
  rw [loadAddr, pageSize, List.length_singleton]
  omega

theorem isolated_staged (hstage : testBit s.pmm.bitmap 16384 = false) :
    Isolated ⟨{ s with mem := store s.mem loadAddr [0x90] }, []⟩ :=
  h.step (ownTables_staged h hstage)

end Flat

/-- Through a shared page table the mapped page is the kernel's. -/
theorem translate_shared {σ : Machine} (h : Isolated σ) {P vaddr n : ℕ} (hP : P ∈ σ.spaces)
    (hshares : SharesTable σ.vm P σ.vm.kernelPml4 vaddr) (hn : n < 2 ^ 40) :
    translate (vmmMapPage σ.vm P vaddr (n * 4096) pagingFlagsAll).mem σ.vm.kernelPml4 vaddr =
      some (n * 4096 + vaddr % 4096) := by
  have hroot : σ.root P := Or.inr hP
  have hok := (vmmMapPage_root h.tables hroot vaddr (n * 4096) pagingFlagsAll).ok
  have hmapped := vmmMapPage_shared h.tables hroot σ.root_kernel (n * 4096) pagingFlagsAll hshares
  rw [leafEntry_page hn] at hmapped
  rw [translate_of_mapped hok σ.root_kernel hmapped (by rw [present_iff]; omega),
    tableOf_pointer (by omega) (by omega)]

/-- The first page of a flat binary, when its address is behind a shared page table. -/
theorem translate_flatPage {σ : Machine} (h : Isolated σ) {P : ℕ} (hP : P ∈ σ.spaces)
    (hshares : SharesTable σ.vm P σ.vm.kernelPml4 flatBinaryVaddr) (size : ℕ)
    (hfree : 0 < (freeBlocks σ.vm.pmm).card) :
    ∃ n, n < σ.vm.pmm.totalBlocks ∧ (pmmAllocBlock σ.vm.pmm).1 = n * blockSize ∧
      (flatPage σ.vm P size 0).1 = true ∧
      translate (flatPage σ.vm P size 0).2.mem σ.vm.kernelPml4 flatBinaryVaddr = some (n * 4096) := by
  have h0 := pmmAllocBlock_ne_zero h.tables.zero hfree
  have htotal := h.tables.total
  obtain ⟨n, haddr, hn, -, -, -⟩ := pmmAllocBlock_fresh σ.vm.pmm h0
  have hblock := h.flatBlock size 0 h0
  have hshared : SharesTable (flatBlock σ.vm size 0) P σ.vm.kernelPml4 flatBinaryVaddr :=
    hshares.transfer (fun _ k ht => h.tables.entry_of_block (pmmAllocBlock_aligned _) (h.fresh h0)
      (fun _ hx => flatBlock_of_notMem hx) ht k) (Or.inr hP) σ.root_kernel
  refine ⟨n, hn, haddr, ?_, ?_⟩
  · rw [flatPage_eq, if_neg h0]
  · rw [flatPage_eq, if_neg h0, haddr, blockSize]
    have htranslate := translate_shared hblock hP hshared (show n < 2 ^ 40 from by omega)
    rw [show flatBinaryVaddr % 4096 = 0 from by decide, Nat.add_zero] at htranslate
    exact htranslate

/-- A file that does not start with the magic number is no ELF file. -/
theorem elfCheckFile_of_ne {m : Memory} {hdr : ℕ} (h : m hdr ≠ 0x7F) : elfCheckFile m hdr = false := by
  have hbyte : (m hdr == 0x7F) = false := beq_eq_false_iff_ne.mpr h
  rw [elfCheckFile, hbyte]
  simp

/-- A new PML4 changes nothing outside its block. -/
theorem newRoot_of_notMem {s : VmState} {x : ℕ}
    (hx : x < (pmmAllocBlock s.pmm).1 ∨ (pmmAllocBlock s.pmm).1 + pageSize ≤ x) :
    (newRoot s).mem x = s.mem x := by
  have hsize : pageSize = 4096 := rfl
  simp only [newRoot]
  rw [pml4Index_zero, putEntry, writeLe, if_neg (by simp only [Fin.val_zero]; omega), fill_of_notMem hx]

/-- A new PML4 is not where the file is. -/
theorem elfCheckFile_newRoot {s : VmState} (hblock : (pmmAllocBlock s.pmm).1 ≠ loadAddr)
    (hbyte : s.mem loadAddr ≠ 0x7F) : elfCheckFile (newRoot s).mem loadAddr = false := by
  have halign := pmmAllocBlock_aligned s.pmm
  apply elfCheckFile_of_ne
  rw [newRoot_of_notMem]
  · exact hbyte
  · rw [blockSize] at halign
    rw [loadAddr] at hblock ⊢
    rw [pageSize]
    omega

theorem store_oneByte (m : Memory) : store m loadAddr [0x90] loadAddr ≠ 0x7F := by
  rw [store, if_pos ⟨Nat.le_refl _, Nat.lt_succ_self _⟩, Nat.sub_self]
  decide

theorem flatLoop_one {s : VmState} {P size offset : ℕ} (hok : (flatPage s P size offset).1 = true) :
    flatLoop P size 1 offset s = (true, (flatPage s P size offset).2) := by
  cases hpage : flatPage s P size offset with
  | mk ok s' =>
    rw [hpage] at hok
    subst hok
    rw [flatLoop, hpage]
    rfl

/-- `exec` from the staged file on, branch by branch. -/
theorem execSpawn_eq (s : VmState) (fileSize : ℕ) :
    execSpawn s fileSize =
      if (pmmAllocBlock s.pmm).1 = 0 then (none, { s with pmm := (pmmAllocBlock s.pmm).2 })
      else if elfCheckFile (newRoot s).mem loadAddr then
        let loaded := elfLoadFile (newRoot s) (pmmAllocBlock s.pmm).1 loadAddr
        (if loaded.1 = 0 then none else some (loaded.1, (pmmAllocBlock s.pmm).1), loaded.2)
      else
        let loaded := flatLoop (pmmAllocBlock s.pmm).1 fileSize ((fileSize + pageSize - 1) / pageSize) 0
          (newRoot s)
        (if loaded.1 then some (flatBinaryVaddr, (pmmAllocBlock s.pmm).1) else none, loaded.2) := by
  rw [execSpawn, vmmCreateUserPml4_eq]
  by_cases h0 : (pmmAllocBlock s.pmm).1 = 0
  · rw [if_pos h0, if_pos h0]
    exact if_pos rfl
  · rw [if_neg h0, if_neg h0]
    simp only [if_neg h0]
    congr 1
    · generalize elfLoadFile (newRoot s) (pmmAllocBlock s.pmm).1 loadAddr = r
      split
      · rfl
      · rfl
    · generalize flatLoop (pmmAllocBlock s.pmm).1 fileSize _ 0 (newRoot s) = r
      rcases r with ⟨_ | _, s'⟩
      · rfl
      · rfl

/-- While there are blocks enough, the next one is not in the staging area. -/
theorem alloc_ne_loadAddr {p : PmmState} (hstage : testBit p.bitmap 16384 = false)
    (hfree : p.totalBlocks ≤ (freeBlocks p).card + 16383) (hfree' : 2 ≤ (freeBlocks p).card)
    (h0 : (pmmAllocBlock p).1 ≠ 0) : (pmmAllocBlock p).1 ≠ loadAddr := by
  have hcard := freeBlocks_card_alloc h0
  obtain ⟨i, haddr, -, -, -, hstate⟩ := pmmAllocBlock_fresh p h0
  intro hblock
  have hi : i = 16384 := by
    rw [haddr, blockSize, loadAddr] at hblock
    omega
  have hclear := (later_alloc p).free_of_card hstage (by omega)
  simp [hstate, hi, testBit_setBit] at hclear

section ExecFlat

variable {s : VmState} (h : Isolated ⟨s, []⟩) (hstage : testBit s.pmm.bitmap 16384 = false)
  (hfree : s.pmm.totalBlocks ≤ (freeBlocks s.pmm).card + 16383) (hfree' : 2 ≤ (freeBlocks s.pmm).card)
include h hstage hfree hfree'

/-- **A file of one byte**: its page becomes the kernel's as well. -/
theorem execSpawn_oneByte (hbyte : s.mem loadAddr ≠ 0x7F) :
    ∃ n, n < s.pmm.totalBlocks ∧ (pmmAllocBlock (pmmAllocBlock s.pmm).2).1 = n * blockSize ∧
      (execSpawn s 1).1 = some (flatBinaryVaddr, (pmmAllocBlock s.pmm).1) ∧
      translate (execSpawn s 1).2.mem s.kernelPml4 flatBinaryVaddr = some (n * 4096) := by
  have h0 : (pmmAllocBlock s.pmm).1 ≠ 0 := pmmAllocBlock_ne_zero h.tables.zero (by omega)
  have hcard := freeBlocks_card_alloc h0
  have hblock := alloc_ne_loadAddr hstage hfree hfree' h0
  have helf := elfCheckFile_newRoot hblock hbyte
  have hcreated := h.create
  rw [step_create h0] at hcreated
  have hshares := sharesTable_newRoot h h0 (show 65536 < 131072 from by decide)
  obtain ⟨n, hn, haddr, hok, htranslate⟩ := translate_flatPage hcreated (List.mem_singleton_self _) hshares 1
    (show 0 < (freeBlocks (pmmAllocBlock s.pmm).2).card from by omega)
  have hspawn : execSpawn s 1 = (some (flatBinaryVaddr, (pmmAllocBlock s.pmm).1),
      (flatPage (newRoot s) (pmmAllocBlock s.pmm).1 1 0).2) := by
    rw [execSpawn_eq, if_neg h0, if_neg (by rw [helf]; decide),
      show (1 + pageSize - 1) / pageSize = 1 from by decide, flatLoop_one hok]
    rfl
  rw [hspawn]
  refine ⟨n, ?_, haddr, rfl, htranslate⟩
  rw [newRoot, pmmAllocBlock_totalBlocks] at hn
  exact hn

theorem exec_oneByte :
    ∃ n, n < s.pmm.totalBlocks ∧ (pmmAllocBlock (pmmAllocBlock s.pmm).2).1 = n * blockSize ∧
      (exec s [0x90] 1).1 = some (flatBinaryVaddr, (pmmAllocBlock s.pmm).1) ∧
      translate (exec s [0x90] 1).2.mem s.kernelPml4 flatBinaryVaddr = some (n * 4096) := by
  obtain ⟨n, hn, haddr, hspawned, htranslate⟩ :=
    execSpawn_oneByte (isolated_staged h hstage) hstage hfree hfree' (store_oneByte s.mem)
  exact ⟨n, hn, haddr, hspawned, htranslate⟩

end ExecFlat

/-- **A call of `vmm_map_page` on a new address space** that changes a walk of the kernel. -/
theorem mapPage_remaps {s : VmState} (h : Isolated ⟨s, []⟩) (hfree : 0 < (freeBlocks s.pmm).card) :
    (run step ⟨s, []⟩ [.create]).spaces = [(pmmAllocBlock s.pmm).1] ∧
      (pmmAllocBlock s.pmm).1 ≠ s.kernelPml4 ∧
      pageWalk (vmmMapPage (run step ⟨s, []⟩ [.create]).vm (pmmAllocBlock s.pmm).1 flatBinaryVaddr
        0x3000000 pagingFlagsAll).mem s.kernelPml4 flatBinaryVaddr ≠
          pageWalk (run step ⟨s, []⟩ [.create]).vm.mem s.kernelPml4 flatBinaryVaddr := by
  have h0 : (pmmAllocBlock s.pmm).1 ≠ 0 := pmmAllocBlock_ne_zero h.tables.zero hfree
  have hcreated := h.create
  have hshares := sharesTable_newRoot h h0 (show 65536 < 131072 from by decide)
  rw [run_cons, run_nil, step_create h0]
  rw [step_create h0] at hcreated
  refine ⟨rfl, ?_, ?_⟩
  · intro heq
    exact h.fresh h0 ⟨s.kernelPml4, [], Or.inl rfl, Nat.zero_le 3, congrArg some heq.symm⟩
  · intro hwalk
    have hbefore : translate (newRoot s).mem s.kernelPml4 flatBinaryVaddr = some flatBinaryVaddr :=
      translate_identity hcreated.tables (Or.inl rfl) (by decide) (hcreated.identity 65536 (by decide))
    have hafter := translate_shared hcreated (List.mem_singleton_self _) hshares
      (show 0x3000 < 2 ^ 40 from by decide)
    rw [translate] at hbefore hafter
    rw [← hwalk] at hbefore
    have hsame := hafter.symm.trans hbefore
    exact absurd (Option.some.inj hsame) (by decide)

theorem stage_vm128 : testBit (vmmInit vm128).pmm.bitmap 16384 = false := by
  have hfree := free_vmmInit_vm128
  refine (vmmInit_spec boots_vm128).pmm.free_of_card (testBit_pmm128 16384) ?_
  exact Nat.lt_of_lt_of_le (by decide) hfree

theorem exec_remaps_kernel :
    (let σ := run step ⟨vmmInit vm128, []⟩ [.create]
      let P := (pmmAllocBlock (vmmInit vm128).pmm).1
      σ.spaces = [P] ∧ P ≠ (vmmInit vm128).kernelPml4 ∧
      pageWalk (vmmMapPage σ.vm P flatBinaryVaddr 0x3000000 pagingFlagsAll).mem (vmmInit vm128).kernelPml4
        flatBinaryVaddr ≠ pageWalk σ.vm.mem (vmmInit vm128).kernelPml4 flatBinaryVaddr) ∧
    (exec (vmmInit vm128) [0x90] 1).1 ≠ none ∧
    translate (exec (vmmInit vm128) [0x90] 1).2.mem (vmmInit vm128).kernelPml4 0x10000000 ≠
      some 0x10000000 := by
  have hinit := isolated_vmmInit boots_vm128
  have hfree := free_vmmInit_vm128
  have htotal : (vmmInit vm128).pmm.totalBlocks = 32768 := (vmmInit_spec boots_vm128).pmm.total
  obtain ⟨n, hn, -, hspawned, htranslate⟩ :=
    exec_oneByte hinit stage_vm128 (by omega) (by omega)
  rw [htotal] at hn
  refine ⟨mapPage_remaps hinit (by omega), ?_, ?_⟩
  · rw [hspawned]
    exact Option.some_ne_none _
  · -- the block is below 128 MB
    rw [show (0x10000000 : ℕ) = flatBinaryVaddr from rfl, htranslate, flatBinaryVaddr]
    intro heq
    have hblock := Option.some.inj heq
    omega

end OsEojin.Vmm
