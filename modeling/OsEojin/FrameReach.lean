import OsEojin.InPlace

/-!
# Frames the kernel can reach

The kernel reaches a frame through its physical address, which works where `kernel_pml4` maps addresses to
themselves: below 512 MB (`identity_map_end` of `src/kernel/vmm.c`).  `init_pmm` takes its range from the
memory map of the BIOS instead, so on a larger machine `pmm_alloc_block` goes on above 512 MB when the
blocks below are used up.  And a page of a process that is mapped below 512 GB is mapped for the kernel too,
over the block with that address.

* `returned_below_iff`: when all blocks handed out are below a given one;
* `vmmInit_of_free`: a block that is left after `vmm_init` says that its tables are right;
* `ActsBeside`, `translate_run`: runs that map nothing over the pages in use leave the kernel's map of them;
* `frames_reachable_iff`: when every frame of such a run is in reach;
* `alloc_out_of_reach`, `exec_hides_block`: a machine of 1 GB, and a run that maps a page over a block.
-/

namespace OsEojin.Pmm

variable {p p' : PmmState} {bound : ℕ}

/-- A block below `bound` is free. -/
def FreeUnder (p : PmmState) (bound : ℕ) : Prop :=
  ∃ i, i < bound ∧ i < p.totalBlocks ∧ testBit p.bitmap i = false

/-- No block from `bound` on is free. -/
def NoneFrom (p : PmmState) (bound : ℕ) : Prop :=
  ∀ i, bound ≤ i → i < p.totalBlocks → testBit p.bitmap i = true

/-- While a block below `bound` is free, the next one is below it. -/
theorem alloc_lt_of_freeUnder (h : FreeUnder p bound) : (pmmAllocBlock p).1 < bound * blockSize := by
  obtain ⟨i, hi, htotal, hfree⟩ := h
  cases pmmAllocBlock_cases p with
  | inl hsome =>
    obtain ⟨k, -, -, hbelow, heq⟩ := hsome
    have hk : k ≤ i := by
      by_contra hlt
      exact absurd ((hbelow i (by omega)).symm.trans hfree) (by decide)
    rw [heq, blockSize]
    omega
  | inr hnone => exact absurd ((hnone.1 i htotal).symm.trans hfree) (by decide)

/-- **When all blocks that are handed out are below `bound`**: there are no others, or each call finds one
of them free. -/
theorem returned_below_iff (h : Allocates p p') (hzero : testBit p.bitmap 0 = true) :
    (∀ a, Returned p p' a → a < bound * blockSize) ↔
      NoneFrom p bound ∨ ∀ q, Allocates p q → Allocates q p' → q ≠ p' → FreeUnder q bound := by
  constructor
  · intro hbelow
    by_cases hnone : NoneFrom p bound
    · exact Or.inl hnone
    right
    intro q hpq hqp hne
    have hrest := (Allocates.eq_or_tail hqp).resolve_left hne
    cases pmmAllocBlock_cases q with
    | inl hsome =>
      obtain ⟨k, hk, hfree, -, heq⟩ := hsome
      have hk0 : k ≠ 0 := by
        rintro rfl
        exact absurd ((hpq.later.used 0 hzero).symm.trans hfree) (by decide)
      have hne0 : (pmmAllocBlock q).1 ≠ 0 := by
        rw [heq, blockSize]
        omega
      have hlt := hbelow _ ⟨q, hpq, hrest, rfl, hne0⟩
      rw [heq] at hlt
      exact ⟨k, Nat.lt_of_mul_lt_mul_right hlt, hk, hfree⟩
    | inr hfull =>
      -- a block from `bound` on was free and is used by now
      exfalso
      apply hnone
      intro i hi htotal
      by_contra hfree
      rw [Bool.not_eq_true] at hfree
      have hi0 : i ≠ 0 := by
        rintro rfl
        exact absurd (hzero.symm.trans hfree) (by decide)
      have hused := hfull.1 i (by rw [hpq.later.total]; exact htotal)
      have hlt := hbelow _ ((returned_of_used hpq hi0 hfree hused).mono (Allocates.refl _) hqp)
      exact absurd (Nat.lt_of_mul_lt_mul_right hlt) (by omega)
  · rintro (hnone | hfree) a hreturned
    · obtain ⟨i, rfl, hi, hclear, -⟩ := hreturned.block
      have hlt : i < bound := by
        by_contra hge
        exact absurd ((hnone i (by omega) hi).symm.trans hclear) (by decide)
      exact Nat.mul_lt_mul_of_pos_right hlt (by decide)
    · obtain ⟨q, hpq, hrest, rfl, h0⟩ := hreturned
      apply alloc_lt_of_freeUnder
      apply hfree q hpq ((allocates_alloc q).trans hrest)
      rintro rfl
      exact not_returned_self ⟨q, Allocates.refl q, hrest, rfl, h0⟩

end OsEojin.Pmm

namespace OsEojin.Vmm

open OsEojin.Lib.ByteMemory OsEojin.Lib.Forests OsEojin.Lib.Runs OsEojin.Pmm OsEojin.Exec

/-! ### `vmm_init` on any machine -/

section Init

variable {s : VmState} {i : ℕ}

theorem allocates_identityLoop_le (pml4 : ℕ) {n k : ℕ} (h : n ≤ k) :
    Allocates (identityLoop pml4 n 0 s).pmm (identityLoop pml4 k 0 s).pmm := by
  induction k with
  | zero =>
    obtain rfl : n = 0 := by omega
    exact Allocates.refl _
  | succ k ih =>
    by_cases heq : n = k + 1
    · rw [heq]
      exact Allocates.refl _
    · rw [identityLoop_succ pml4 k]
      exact (ih (by omega)).trans (allocates_vmmMapPage _ _ _ _ _)

theorem vmmInit_pmm (s : VmState) :
    (vmmInit s).pmm = (identityLoop (kernelRoot s).kernelPml4 131072 0 (kernelRoot s)).pmm := by
  rw [vmmInit_eq, vmmSwitchPml4_pmm]

/-- A block that is free later on was free all the time. -/
theorem free_of_allocates {p q : PmmState} (h : Allocates p q) (hi : testBit q.bitmap i = false) :
    testBit p.bitmap i = false := by
  by_contra hused
  rw [Bool.not_eq_false] at hused
  exact absurd ((h.later.used i hused).symm.trans hi) (by decide)

/-- While block `i` is free and the null address is not, an allocation succeeds. -/
theorem alloc_ne_zero_of_free {p : PmmState} (hzero : testBit p.bitmap 0 = true) (hi : i < p.totalBlocks)
    (hfree : testBit p.bitmap i = false) : (pmmAllocBlock p).1 ≠ 0 :=
  pmmAllocBlock_ne_zero hzero
    (Finset.card_pos.mpr ⟨i, Finset.mem_filter.mpr ⟨Finset.mem_range.mpr hi, hfree⟩⟩)

/-- **A block with a 52-bit address that is left after `vmm_init`** says that it got all its tables, from
the blocks below. -/
theorem vmmInit_of_free (hzero : testBit s.pmm.bitmap 0 = true) (hi : i < s.pmm.totalBlocks)
    (hlow : i < 2 ^ 40) (hfree : testBit (vmmInit s).pmm.bitmap i = false) :
    IdentityTree (vmmInit s) (vmmInit s).kernelPml4 131072 (kernelRoot s).pmm := by
  have hroot : Allocates s.pmm (kernelRoot s).pmm := allocates_alloc s.pmm
  rw [vmmInit_pmm] at hfree
  apply vmmInit_tree
  · have hstart := free_of_allocates (hroot.trans (allocates_identityLoop _ _ _ _)) hfree
    obtain ⟨j, haddr, -, -, -, hstate⟩ := pmmAllocBlock_fresh s.pmm (alloc_ne_zero_of_free hzero hi hstart)
    rw [kernelRoot_pmm, kernelRoot_kernelPml4, haddr, hstate, blockSize, Nat.mul_div_cancel _ (by decide),
      testBit_setBit]
    simp
  · intro n hn _
    have hbefore : Allocates s.pmm (identityLoop (kernelRoot s).kernelPml4 n 0 (kernelRoot s)).pmm :=
      hroot.trans (allocates_identityLoop _ _ _ _)
    -- the calls for this page come before the last one
    have hafter := allocates_identityLoop_le (s := kernelRoot s) (kernelRoot s).kernelPml4
      (show n + 1 ≤ 131072 from hn)
    rw [identityLoop_succ, Nat.zero_add, vmmMapPage_pmm] at hafter
    generalize identityLoop (kernelRoot s).kernelPml4 131072 0 (kernelRoot s) = last at hfree hafter
    generalize identityLoop (kernelRoot s).kernelPml4 n 0 (kernelRoot s) = sₙ at hbefore hafter
    refine ⟨?_, ?_⟩
    · intro a ha
      obtain ⟨j, rfl, -, hjfree, hjused⟩ := ha.block
      have hji : j ≤ i := by
        by_contra hlt
        have hused := (allocates_descend _ _ _).later.front j i hjfree hjused (by omega)
        exact absurd (hused.symm.trans (free_of_allocates hafter hfree)) (by decide)
      rw [blockSize]
      omega
    · intro hnone
      obtain ⟨k, -, h0, hpmm⟩ := descend_stops hnone
      rw [hpmm, pmmAfter_succ_last] at hafter
      have hk := hbefore.trans (allocates_pmmAfter k sₙ.pmm)
      refine alloc_ne_zero_of_free (hk.later.used 0 hzero) ?_
        (free_of_allocates ((allocates_alloc _).trans hafter) hfree) h0
      rw [hk.later.total]
      exact hi

end Init

/-! ### The kernel's PML4 -/

section Kernel

theorem kernelPml4_nextTable (s : VmState) (t : ℕ) (i : Fin 512) :
    (nextTable s t i).2.kernelPml4 = s.kernelPml4 := by
  rw [nextTable]
  dsimp only
  split
  · rfl
  · split
    · rfl
    · rfl

theorem kernelPml4_descend (s : VmState) (t : ℕ) (path : List (Fin 512)) :
    (descend s t path).2.kernelPml4 = s.kernelPml4 := by
  induction path generalizing s t with
  | nil => rfl
  | cons i path ih =>
    have hfirst := kernelPml4_nextTable s t i
    rw [descend]
    generalize nextTable s t i = r at hfirst
    obtain ⟨o, s₁⟩ := r
    cases o with
    | none => exact hfirst
    | some y => exact (ih s₁ y).trans hfirst

theorem kernelPml4_vmmMapPage (s : VmState) (pml4 vaddr paddr flags : ℕ) :
    (vmmMapPage s pml4 vaddr paddr flags).kernelPml4 = s.kernelPml4 := by
  rw [← kernelPml4_descend s pml4 (dirs vaddr), vmmMapPage_eq]
  generalize descend s pml4 (dirs vaddr) = d
  obtain ⟨o, s₁⟩ := d
  cases o with
  | none => rfl
  | some pt => rfl

/-- **Nobody changes `kernel_pml4`.** -/
theorem kernelPml4_step (σ : Machine) (e : Event) : (step σ e).vm.kernelPml4 = σ.vm.kernelPml4 := by
  cases e with
  | create =>
    show (vmmCreateUserPml4 σ.vm).2.kernelPml4 = _
    rw [vmmCreateUserPml4_eq]
    split
    · rfl
    · rfl
  | mapPage pml4 vaddr paddr flags => exact kernelPml4_vmmMapPage _ _ _ _ _
  | flatPage pml4 size offset =>
    show (flatPage σ.vm pml4 size offset).2.kernelPml4 = _
    rw [flatPage_eq]
    split
    · rfl
    · exact kernelPml4_vmmMapPage (flatBlock σ.vm size offset) _ _ _ _
  | elfPage pml4 fileBuffer seg vaddr =>
    show (elfPage σ.vm pml4 fileBuffer seg vaddr).2.kernelPml4 = _
    by_cases h0 : (pmmAllocBlock σ.vm.pmm).1 = 0
    · rw [Exec.elfPage]
      dsimp only
      rw [if_pos h0]
    · rw [elfPage_eq h0, mapBlock, kernelPml4_vmmMapPage]
  | switch pml4 => rfl
  | alloc => rfl
  | store addr bytes => rfl

theorem kernelPml4_exec (s : VmState) (image : List UInt8) (fileSize : ℕ) :
    (exec s image fileSize).2.kernelPml4 = s.kernelPml4 := by
  have hrun := run_invariant (I := fun σ => σ.vm.kernelPml4 = s.kernelPml4) (C := fun _ _ => True)
    (fun σ e h _ => (kernelPml4_step σ e).trans h) ⟨s, []⟩ rfl (execEvents s image fileSize)
    (admits_of_forall (fun _ _ => trivial) _ _)
  rw [run_execEvents] at hrun
  exact hrun

end Kernel

/-! ### Runs -/

/-- **Every frame handed out since `p₀` is in reach**: the kernel's tables map each of its bytes to itself. -/
def KernelReaches (p₀ : PmmState) (s : VmState) : Prop :=
  ∀ a, Returned p₀ s.pmm a → ∀ x, a ≤ x → x < a + blockSize → translate s.mem s.kernelPml4 x = some x

/-- The pages of the kernel's own 32 MB and of the blocks in use. -/
def InUse (p : PmmState) (k : ℕ) : Prop :=
  k < reservedBlocks ∨ k < p.totalBlocks ∧ testBit p.bitmap k = true

/-- `exec` with the file in place and a new PML4. -/
def execVm (s : VmState) (image : List UInt8) : VmState := newRoot { s with mem := store s.mem loadAddr image }

/-- **The addresses of the file that `exec` uses.** -/
inductive FileUses (s : VmState) (image : List UInt8) (fileSize : ℕ) : ℕ → Prop
  | staged {x : ℕ} (hx : loadAddr ≤ x) (hx' : x < loadAddr + image.length) : FileUses s image fileSize x
  | header {x : ℕ} (hx : loadAddr ≤ x) (hx' : x < loadAddr + 64) : FileUses s image fileSize x
  | programHeader {d : ℕ × ℕ} {x : ℕ} (helf : elfCheckSupported (execVm s image).mem loadAddr = true)
      (hd : d ∈ KernelMap.headersRead (pmmAllocBlock s.pmm).1 loadAddr
        (programHeaders (execVm s image).mem loadAddr) 65536 0 (execVm s image))
      (hx : d.1 ≤ x) (hx' : x < d.1 + d.2) : FileUses s image fileSize x
  | source {r : Round} {x : ℕ} (helf : elfCheckSupported (execVm s image).mem loadAddr = true)
      (hr : r ∈ rounds (segmentsLoaded (execVm s image) (pmmAllocBlock s.pmm).1 loadAddr))
      (hx : KernelMap.Copies loadAddr r x) : FileUses s image fileSize x
  | flat {x : ℕ} (hflat : elfCheckFile (execVm s image).mem loadAddr = false) (hx : loadAddr ≤ x)
      (hx' : x < loadAddr + fileSize) : FileUses s image fileSize x

/-- **The action leaves the pages `kept` alone**; an `exec` does when all its events do, and the file it uses is on
such pages. -/
def ActsBeside (kept : ℕ → Prop) (σ : Machine) : Action → Prop
  | .event e => KeepsPages kept σ e
  | .exec image fileSize =>
    (∀ x, FileUses σ.vm image fileSize x → x < identityMapEnd ∧ kept (x / pageSize)) ∧
      Admits step (KeepsPages kept) σ (execEvents σ.vm image fileSize)

theorem KernelPages.act {kept : ℕ → Prop} {e : ℕ → Option ℕ} {σ : Machine} (h : KernelPages kept e σ)
    {a : Action} (ha : ActsBeside kept σ a) : KernelPages kept e (act σ a) := by
  cases a with
  | event ev => exact h.step ha
  | exec image fileSize =>
    have hkeeps : ∀ σ ev, KernelPages kept e σ → KeepsPages kept σ ev → KernelPages kept e (Vmm.step σ ev) :=
      fun _ _ hI hC => hI.step hC
    have hrun := run_invariant hkeeps σ h (execEvents σ.vm image fileSize) ha.2
    rw [run_execEvents] at hrun
    exact hrun

/-- A frame is in reach after `vmm_init` when it is below 512 MB. -/
theorem reaches_iff {s : VmState} (hzero : testBit s.pmm.bitmap 0 = true) {p : PmmState} {a : ℕ}
    (ha : Returned (vmmInit s).pmm p a) :
    (∀ x, a ≤ x → x < a + blockSize →
        translate (vmmInit s).mem (vmmInit s).kernelPml4 x = some x) ↔ a < 131072 * blockSize := by
  obtain ⟨i, rfl, hi, hfree, -⟩ := ha.block
  rw [(allocates_vmmInit s).later.total] at hi
  constructor
  · intro h
    have hself := h (i * blockSize) (Nat.le_refl _) (Nat.lt_add_of_pos_right (by decide))
    have hlt := translate_lt hself
    rw [blockSize] at hself hlt ⊢
    exact (vmmInit_of_free hzero hi (by omega) hfree).lt_of_translate hself
  · intro hlt x hx hx'
    rw [blockSize] at hlt hx hx'
    have htree := vmmInit_of_free hzero hi (by omega) hfree
    apply htree.translate_low
    rw [identityMapEnd]
    omega

theorem used_zero_initPmm (ram : Bitmap) (entries : List MemoryMapEntry) :
    testBit (initPmm ram entries).bitmap 0 = true :=
  (testBit_initPmm ram entries 0).mpr (Or.inl (by decide))

/-- **The kernel's own pages stay** along a run that leaves them alone. -/
theorem translate_run {s : VmState} (hzero : testBit s.pmm.bitmap 0 = true) (htotal : s.pmm.totalBlocks ≤ 2 ^ 40)
    {kept : ℕ → Prop} {actions : List Action} (hbeside : Admits act (ActsBeside kept) ⟨vmmInit s, []⟩ actions)
    {p : PmmState} {a : ℕ} (ha : Returned (vmmInit s).pmm p a) (hkept : kept (a / 4096)) {x : ℕ} (hx : a ≤ x)
    (hx' : x < a + blockSize) :
    let σ := run act ⟨vmmInit s, []⟩ actions
    translate σ.vm.mem σ.vm.kernelPml4 x = translate (vmmInit s).mem (vmmInit s).kernelPml4 x := by
  intro σ
  obtain ⟨i, rfl, hi, hfree, -⟩ := ha.block
  have hlater := (allocates_vmmInit s).later
  rw [hlater.total] at hi
  have htree := vmmInit_of_free hzero hi (by omega) hfree
  have hstart : KernelPages kept (fun k => pageEntry (vmmInit s).mem (vmmInit s).kernelPml4 (k * 4096))
      ⟨vmmInit s, []⟩ := by
    refine ⟨?_, fun _ _ => rfl⟩
    rw [Machine.root_nil]
    exact htree.forest.tablesOk (by rw [hlater.total]; exact htotal) (hlater.used 0 hzero) htree.plain
  have hend := run_invariant (C := ActsBeside kept) (fun _ _ hI hC => KernelPages.act hI hC) _ hstart actions hbeside
  have hpage := hend.pages i (by rw [blockSize, Nat.mul_div_cancel _ (by decide)] at hkept; exact hkept)
  rw [blockSize] at hx hx'
  have hsame : SamePage x (i * 4096) := by
    rw [SamePage]
    omega
  rw [translate_eq hend.tables.noHuge σ.root_kernel, translate_eq htree.noHuge rfl, pageEntry_samePage hsame,
    pageEntry_samePage hsame]
  exact congrArg _ hpage

/-- **When every frame is in reach**, for every memory map and every run since boot in which no page of a process
covers the kernel's memory, a block in use or a file that is loaded: no block from 512 MB on is free after
`vmm_init`, or every call of `pmm_alloc_block` since finds a free block below 512 MB. -/
theorem frames_reachable_iff (mem : Memory) (ram : Bitmap) (entries : List MemoryMapEntry)
    (htotal : (initPmm ram entries).totalBlocks ≤ 2 ^ 40) (actions : List Action) (kept : ℕ → Prop)
    (hkept : ∀ k, InUse (run act ⟨vmmInit (booted mem ram entries), []⟩ actions).vm.pmm k → kept k)
    (hbeside : Admits act (ActsBeside kept) ⟨vmmInit (booted mem ram entries), []⟩ actions) :
    let s := vmmInit (booted mem ram entries)
    let σ := run act ⟨s, []⟩ actions
    KernelReaches s.pmm σ.vm ↔ NoneFrom s.pmm 131072 ∨
      ∀ q, Allocates s.pmm q → Allocates q σ.vm.pmm → q ≠ σ.vm.pmm → FreeUnder q 131072 := by
  intro s σ
  have hzero : testBit (booted mem ram entries).pmm.bitmap 0 = true := used_zero_initPmm ram entries
  have hinit : Allocates (booted mem ram entries).pmm s.pmm := allocates_vmmInit _
  have hrun : Allocates s.pmm σ.vm.pmm := allocates_run ⟨s, []⟩ actions
  have hsame : ∀ a, Returned s.pmm σ.vm.pmm a → ∀ x, a ≤ x → x < a + blockSize →
      translate σ.vm.mem σ.vm.kernelPml4 x = translate s.mem s.kernelPml4 x := by
    intro a ha x hx hx'
    refine translate_run hzero htotal hbeside ha (hkept _ ?_) hx hx'
    obtain ⟨i, rfl, hi, -, hused⟩ := ha.block
    rw [blockSize, Nat.mul_div_cancel _ (by decide)]
    exact Or.inr ⟨by rw [hrun.later.total]; exact hi, hused⟩
  rw [← returned_below_iff hrun (hinit.later.used 0 hzero)]
  constructor
  · intro h a ha
    exact (reaches_iff hzero ha).mp fun x hx hx' => (hsame a ha x hx hx').symm.trans (h a ha x hx hx')
  · intro h a ha x hx hx'
    exact (hsame a ha x hx hx').trans ((reaches_iff hzero ha).mpr (h a ha) x hx hx')

/-! ### Machines of one region -/

/-- A machine with one usable region from address 0 on, before `vmm_init`. -/
def regionVm (length : UInt64) : VmState := booted (fun _ => 0) (fun _ => 0) [⟨0, length, 1⟩]

section Region

variable {length : UInt64}

theorem totalBlocks_regionVm : (regionVm length).pmm.totalBlocks = length.toNat / blockSize := by
  have htop : maxAddr [⟨0, length, 1⟩] = length := by
    have hsum : (0 : UInt64) + length = length := UInt64.zero_add length
    simp only [maxAddr, List.foldl_cons, List.foldl_nil, hsum, if_true]
    split
    · rfl
    · rename_i hzero
      exact (UInt64.le_zero_iff.mp (UInt64.not_lt.mp hzero)).symm
  show (maxAddr [⟨0, length, 1⟩]).toNat / blockSize = _
  rw [htop]

theorem used_regionVm {i : ℕ} (hi : i < 8192) : testBit (regionVm length).pmm.bitmap i = true :=
  (testBit_initPmm _ _ i).mpr (Or.inl hi)

theorem free_regionVm {i : ℕ} (hi : 8192 ≤ i) (hi' : i < length.toNat / blockSize) :
    testBit (regionVm length).pmm.bitmap i = false := by
  have husable : Usable [⟨0, length, 1⟩] i := by
    refine ⟨⟨0, length, 1⟩, List.mem_singleton_self _, rfl, ?_, ?_⟩
    · show 0 / blockSize ≤ i
      rw [Nat.zero_div]
      exact Nat.zero_le i
    · show i < 0 / blockSize + length.toNat / blockSize
      rw [Nat.zero_div, Nat.zero_add]
      exact hi'
  rw [← Bool.not_eq_true]
  intro hused
  cases (testBit_initPmm (fun _ => 0) [⟨0, length, 1⟩] i).mp hused with
  | inl hlt =>
    rw [reservedBlocks, blockSize] at hlt
    omega
  | inr hnot => exact hnot.1 husable

theorem boots_regionVm {spare : ℕ} (hspare : 8192 + 259 + spare ≤ length.toNat / blockSize)
    (htotal : length.toNat / blockSize ≤ 2 ^ 40) : Boots (regionVm length) spare := by
  refine ⟨?_, used_regionVm (by decide), ?_⟩
  · rw [totalBlocks_regionVm]
    exact htotal
  · have hsub : Finset.Ico 8192 (length.toNat / blockSize) ⊆ freeBlocks (regionVm length).pmm := by
      intro i hi
      obtain ⟨hlow, hhigh⟩ := Finset.mem_Ico.mp hi
      refine Finset.mem_filter.mpr ⟨Finset.mem_range.mpr ?_, free_regionVm hlow hhigh⟩
      rw [totalBlocks_regionVm]
      exact hhigh
    have hcard := Finset.card_le_card hsub
    rw [Nat.card_Ico] at hcard
    omega

/-- A block with 259 others below it is free after `vmm_init`. -/
theorem free_vmmInit_regionVm (spare : ℕ) {i : ℕ} (hspare : 8192 + 259 + spare = length.toNat / blockSize)
    (htotal : length.toNat / blockSize ≤ 2 ^ 40) (hi : 8192 + 259 ≤ i) (hi' : i < length.toNat / blockSize) :
    testBit (vmmInit (regionVm length)).pmm.bitmap i = false := by
  have hspec := vmmInit_spec (boots_regionVm (le_of_eq hspare) htotal)
  have hblocks := hspec.blocks
  rw [if_neg (by decide)] at hblocks
  apply hspec.pmm.free_of_card (free_regionVm (by omega) hi')
  rw [totalBlocks_regionVm]
  omega

end Region

/-! ### A flat binary of one byte -/

section OneByte

variable {s : VmState} (h : Isolated ⟨s, []⟩) (hstage : testBit s.pmm.bitmap 16384 = false)
  (hblock : (pmmAllocBlock s.pmm).1 ≠ loadAddr) (h0 : (pmmAllocBlock s.pmm).1 ≠ 0)
include hblock

theorem elfCheckFile_execVm : elfCheckFile (execVm s [0x90]).mem loadAddr = false :=
  elfCheckFile_newRoot hblock (store_oneByte s.mem)

/-- `exec` uses the first 64 bytes of the staging area. -/
theorem lt_of_fileUses {x : ℕ} (hx : FileUses s [0x90] 1 x) : x < loadAddr + 64 := by
  have hsupported : elfCheckSupported (execVm s [0x90]).mem loadAddr = false := by
    rw [elfCheckSupported, elfCheckFile_execVm hblock]
    rfl
  cases hx with
  | staged hx hx' => exact Nat.lt_trans hx' (Nat.add_lt_add_left (by decide) loadAddr)
  | header hx hx' => exact hx'
  | programHeader helf hd hx hx' =>
    rw [hsupported] at helf
    cases helf
  | source helf hr hx =>
    rw [hsupported] at helf
    cases helf
  | flat hflat hx hx' => exact Nat.lt_trans hx' (Nat.add_lt_add_left (by decide) loadAddr)

include h0

/-- It makes an address space and maps one page. -/
theorem execEvents_oneByte :
    execEvents s [0x90] 1 = [.store loadAddr [0x90], .create, .flatPage (pmmAllocBlock s.pmm).1 1 0] := by
  have helf := elfCheckFile_execVm hblock
  rw [execVm] at helf
  rw [execEvents, spawnEvents, vmmCreateUserPml4_eq]
  dsimp only
  rw [if_neg h0]
  dsimp only
  rw [if_neg h0, helf, if_neg Bool.false_ne_true, show (1 + pageSize - 1) / pageSize = 1 from by decide, flatEvents]
  generalize flatPage _ _ _ _ = r
  obtain ⟨ok, s'⟩ := r
  cases ok with
  | false => rfl
  | true => rfl

include h hstage

/-- Its page is at 256 MB, and covers nothing that is below. -/
theorem actsBeside_oneByte : ActsBeside (· < 32768) ⟨s, []⟩ (.exec [0x90] 1) := by
  refine ⟨?_, ?_⟩
  · intro x hx
    have hlt := lt_of_fileUses hblock hx
    rw [loadAddr] at hlt
    rw [identityMapEnd, pageSize]
    omega
  · show Admits step (KeepsPages (· < 32768)) ⟨s, []⟩ (execEvents s [0x90] 1)
    rw [execEvents_oneByte hblock h0]
    refine ⟨ownTables_staged h hstage, trivial, ⟨?_, ?_⟩, trivial⟩
    · have h0' : (pmmAllocBlock (step ⟨s, []⟩ (.store loadAddr [0x90])).vm.pmm).1 ≠ 0 := h0
      rw [step_create h0']
      exact List.mem_singleton_self _
    · intro k hk hpage
      rw [SamePage, flatBinaryVaddr] at hpage
      omega

end OneByte

theorem mem_run_allocs (σ : Machine) (k : ℕ) :
    (run act σ (List.replicate k (.event .alloc))).vm.mem = σ.vm.mem := by rw [run_allocs]

theorem kernelPml4_run_allocs (σ : Machine) (k : ℕ) :
    (run act σ (List.replicate k (.event .alloc))).vm.kernelPml4 = σ.vm.kernelPml4 := by rw [run_allocs]

/-- With `k` of them, every block below `8192 + k` has been handed out. -/
theorem returned_allocs {p₀ : PmmState} {σ : Machine} (h : Allocates p₀ σ.vm.pmm)
    (hused : ∀ i, i < 8192 → testBit p₀.bitmap i = true) {i k : ℕ} (hi : i < 8192 + k) (htotal : i < p₀.totalBlocks)
    (hfree : testBit p₀.bitmap i = false) :
    Returned p₀ (run act σ (List.replicate k (.event .alloc))).vm.pmm (i * blockSize) := by
  have hrun := h.trans (allocates_run σ (List.replicate k (.event .alloc)))
  have hi0 : i ≠ 0 := by
    rintro rfl
    rw [hused 0 (by decide)] at hfree
    cases hfree
  refine returned_of_used hrun hi0 hfree ?_
  rw [pmm_run_allocs]
  refine used_iterate (n := 8192) (fun j hj _ => h.later.used j (hused j hj)) k hi ?_
  rw [h.later.total]
  exact htotal

/-- A file of one byte on a machine of 128 MB, and an `alloc` command. -/
theorem frames_reachable_iff_oneByte :
    (initPmm (fun _ => 0) [⟨0, 0x8000000, 1⟩]).totalBlocks ≤ 2 ^ 40 ∧
      Admits act (ActsBeside (· < 32768)) ⟨vmmInit (regionVm 0x8000000), []⟩ [.exec [0x90] 1, .event .alloc] ∧
      KernelReaches (vmmInit (regionVm 0x8000000)).pmm
        (run act ⟨vmmInit (regionVm 0x8000000), []⟩ [.exec [0x90] 1, .event .alloc]).vm := by
  have hblocks : (0x8000000 : UInt64).toNat / blockSize = 32768 := by rw [blockSize]; decide
  have htotal : (initPmm (fun _ => 0) [⟨0, 0x8000000, 1⟩]).totalBlocks = 32768 :=
    totalBlocks_regionVm.trans hblocks
  have hboots : Boots (regionVm 0x8000000) 24317 :=
    boots_regionVm (by rw [hblocks]) (by rw [hblocks]; decide)
  have hinit := isolated_vmmInit hboots
  have hstage : testBit (vmmInit (regionVm 0x8000000)).pmm.bitmap 16384 = false :=
    free_vmmInit_regionVm 24317 (by rw [hblocks]) (by rw [hblocks]; decide) (by decide)
      (by rw [hblocks]; decide)
  have hfree := (vmmInit_spec hboots).blocks
  rw [if_neg (by decide)] at hfree
  have hcount : (vmmInit (regionVm 0x8000000)).pmm.totalBlocks = 32768 :=
    (allocates_vmmInit _).later.total.trans htotal
  have h0 := pmmAllocBlock_ne_zero hinit.tables.zero (Nat.lt_of_lt_of_le (by decide) hfree)
  have hblock := alloc_ne_loadAddr hstage (by omega) (by omega) h0
  have hbeside : Admits act (ActsBeside (· < 32768)) ⟨vmmInit (regionVm 0x8000000), []⟩
      [.exec [0x90] 1, .event .alloc] :=
    ⟨actsBeside_oneByte hinit hstage hblock h0, trivial, trivial⟩
  have hiff := frames_reachable_iff (fun _ => 0) (fun _ => 0) [⟨0, 0x8000000, 1⟩] (by rw [htotal]; decide)
    [.exec [0x90] 1, .event .alloc] (· < 32768)
  rw [show booted (fun _ => 0) (fun _ => 0) [⟨0, 0x8000000, 1⟩] = regionVm 0x8000000 from rfl] at hiff
  refine ⟨by rw [htotal]; decide, hbeside, ?_⟩
  generalize vmmInit (regionVm 0x8000000) = s at hiff hbeside hcount ⊢
  refine (hiff ?_ hbeside).mpr (Or.inl ?_)
  · intro k hk
    have hrun := (allocates_run ⟨s, []⟩ [.exec [0x90] 1, .event .alloc]).later.total
    have hsame := hrun.trans hcount
    cases hk with
    | inl hlow =>
      rw [reservedBlocks, blockSize] at hlow
      exact Nat.lt_trans hlow (by decide)
    | inr hused => exact Nat.lt_of_lt_of_eq hused.1 hsame
  · intro i hi hi'
    rw [hcount] at hi'
    omega

/-- With the tables that `vmm_init` left, a block from 512 MB on is out of reach. -/
theorem not_reaches_high {s vm : VmState} (hzero : testBit s.pmm.bitmap 0 = true)
    (hmem : vm.mem = (vmmInit s).mem) (hkernel : vm.kernelPml4 = (vmmInit s).kernelPml4) {a : ℕ}
    (ha : Returned (vmmInit s).pmm vm.pmm a) (hhigh : 131072 * blockSize ≤ a) :
    ¬ KernelReaches (vmmInit s).pmm vm := by
  intro hreaches
  have hself := hreaches a ha
  rw [hmem, hkernel] at hself
  have hlt := (reaches_iff hzero ha).mp hself
  omega

/-- **1 GB and 122881 `alloc` commands**: the last of them takes the block at 512 MB. -/
theorem alloc_out_of_reach :
    ¬ KernelReaches (vmmInit (regionVm 0x40000000)).pmm
      (run act ⟨vmmInit (regionVm 0x40000000), []⟩ (List.replicate 122881 (.event .alloc))).vm := by
  have hblocks : (0x40000000 : UInt64).toNat / blockSize = 262144 := by rw [blockSize]; decide
  have hlater := (allocates_vmmInit (regionVm 0x40000000)).later
  have hzero : testBit (regionVm 0x40000000).pmm.bitmap 0 = true := used_regionVm (by decide)
  have hfree : testBit (vmmInit (regionVm 0x40000000)).pmm.bitmap 131072 = false :=
    free_vmmInit_regionVm 253693 (by rw [hblocks]) (by rw [hblocks]; decide) (by decide)
      (by rw [hblocks]; decide)
  have htotal : 131072 < (vmmInit (regionVm 0x40000000)).pmm.totalBlocks := by
    rw [hlater.total, totalBlocks_regionVm, hblocks]
    decide
  have hstart : Allocates (vmmInit (regionVm 0x40000000)).pmm
      (⟨vmmInit (regionVm 0x40000000), []⟩ : Machine).vm.pmm := Allocates.refl _
  have hreturned := returned_allocs hstart
    (fun i hi => hlater.used i (used_regionVm hi)) (show 131072 < 8192 + 122881 from by decide) htotal hfree
  exact not_reaches_high hzero (mem_run_allocs _ _) (kernelPml4_run_allocs _ _) hreturned (Nat.le_refl _)

/-- The page of the file is where the block at 256 MB should be. -/
theorem not_reaches_oneByte {s : VmState} (h : Isolated ⟨s, []⟩)
    (hused : ∀ i, i < 8192 → testBit s.pmm.bitmap i = true) (hstage : testBit s.pmm.bitmap 16384 = false)
    (hfree : s.pmm.totalBlocks ≤ (freeBlocks s.pmm).card + 16383) (hfree' : 2 ≤ (freeBlocks s.pmm).card)
    (hmiddle : testBit s.pmm.bitmap 65536 = false)
    (htotal : 65536 < s.pmm.totalBlocks) {k : ℕ} (hk : 57345 ≤ k) :
    ¬ KernelReaches s.pmm (run act ⟨s, []⟩ (.exec [0x90] 1 :: List.replicate k (.event .alloc))).vm := by
  obtain ⟨n, -, haddr, -, htranslate⟩ := exec_oneByte h hstage hfree hfree'
  -- the block of the page is one of the first
  have h0 : (pmmAllocBlock s.pmm).1 ≠ 0 :=
    pmmAllocBlock_ne_zero h.tables.zero (Nat.lt_of_lt_of_le (by decide) hfree')
  have hcard := freeBlocks_card_alloc h0
  have hlater := later_alloc s.pmm
  have hnext : testBit (pmmAllocBlock s.pmm).2.bitmap 16384 = false := hlater.free_of_card hstage (by omega)
  have hunder : FreeUnder (pmmAllocBlock s.pmm).2 65536 := ⟨16384, by decide, by rw [hlater.total]; omega, hnext⟩
  have hn := alloc_lt_of_freeUnder hunder
  rw [haddr] at hn
  have hexec : Allocates s.pmm (act ⟨s, []⟩ (.exec [0x90] 1)).vm.pmm := allocates_act ⟨s, []⟩ (.exec [0x90] 1)
  have hreturned := returned_allocs hexec hused (show 65536 < 8192 + k from by omega) htotal hmiddle
  intro hreaches
  have hself := hreaches _ hreturned flatBinaryVaddr (by rw [blockSize, flatBinaryVaddr])
    (by rw [blockSize, flatBinaryVaddr]; omega)
  rw [run_cons, mem_run_allocs, kernelPml4_run_allocs, act, kernelPml4_exec, htranslate] at hself
  have heq := Option.some.inj hself
  rw [flatBinaryVaddr] at heq
  rw [blockSize] at hn
  omega

/-- **512 MB, a file of one byte and 57345 `alloc` commands**: no block is above 512 MB, but the one at 256 MB is
behind the page of the file. -/
theorem exec_hides_block :
    NoneFrom (vmmInit (regionVm 0x20000000)).pmm 131072 ∧
      ¬ KernelReaches (vmmInit (regionVm 0x20000000)).pmm (run act ⟨vmmInit (regionVm 0x20000000), []⟩
        (.exec [0x90] 1 :: List.replicate 57345 (.event .alloc))).vm := by
  have hblocks : (0x20000000 : UInt64).toNat / blockSize = 131072 := by rw [blockSize]; decide
  have hlater := (allocates_vmmInit (regionVm 0x20000000)).later
  have hboots : Boots (regionVm 0x20000000) 122621 :=
    boots_regionVm (by rw [hblocks]) (by rw [hblocks]; decide)
  have hfree : ∀ i, 8451 ≤ i → i < 131072 → testBit (vmmInit (regionVm 0x20000000)).pmm.bitmap i = false :=
    fun i hi hi' => free_vmmInit_regionVm 122621 (by rw [hblocks]) (by rw [hblocks]; decide) hi
      (by rw [hblocks]; exact hi')
  have hinit := isolated_vmmInit hboots
  have hcard := (vmmInit_spec hboots).blocks
  rw [if_neg (by decide)] at hcard
  have htotal : (vmmInit (regionVm 0x20000000)).pmm.totalBlocks = 131072 :=
    hlater.total.trans (totalBlocks_regionVm.trans hblocks)
  have hused : ∀ i, i < 8192 → testBit (vmmInit (regionVm 0x20000000)).pmm.bitmap i = true :=
    fun i hi => hlater.used i (used_regionVm hi)
  generalize vmmInit (regionVm 0x20000000) = s at hfree hinit hcard htotal hused ⊢
  refine ⟨fun i hi hi' => absurd (htotal ▸ hi') (by omega), ?_⟩
  exact not_reaches_oneByte hinit hused (hfree 16384 (by decide) (by decide)) (by omega) (by omega)
    (hfree 65536 (by decide) (by decide)) (by omega) (Nat.le_refl _)

end OsEojin.Vmm
