import OsEojin.PmmInit
import OsEojin.ExecIsolation

/-!
# The staging area of `exec` and the allocator

`exec` fills the physical memory from `0x4000000` on with the file, and the allocator does not know:
`init_pmm` keeps the first 32 MB only.  Blocks are taken from the front and never given back, so the
staging area is private as long as there is a free block below it.

* `allocates_vmmMapPage`, `allocates_step`, `allocates_exec`: all that the memory side of the kernel does
  to the allocator is to take blocks;
* `StagingPrivate`, `staging_private_iff`: when no block is in the staging area, for every run since boot;
* `exec_stages_into_block`: the run after which one is.
-/

namespace OsEojin.Vmm

open OsEojin.Lib.ByteMemory OsEojin.Lib.Runs OsEojin.Pmm OsEojin.Exec

/-! ### Everybody only takes blocks -/

theorem allocates_vmmMapPage (s : VmState) (pml4 vaddr paddr flags : ℕ) :
    Allocates s.pmm (vmmMapPage s pml4 vaddr paddr flags).pmm := by
  rw [vmmMapPage_pmm]
  exact allocates_descend s pml4 (dirs vaddr)

theorem allocates_identityLoop (pml4 n addr : ℕ) (s : VmState) :
    Allocates s.pmm (identityLoop pml4 n addr s).pmm := by
  induction n generalizing addr s with
  | zero => exact Allocates.refl _
  | succ n ih => exact (allocates_vmmMapPage s pml4 addr addr pagingFlagsAll).trans (ih _ _)

theorem vmmSwitchPml4_pmm (s : VmState) (pml4 : ℕ) : (vmmSwitchPml4 s pml4).pmm = s.pmm := rfl

theorem allocates_vmmInit (s : VmState) : Allocates s.pmm (vmmInit s).pmm := by
  have hroot : Allocates s.pmm (kernelRoot s).pmm := allocates_alloc s.pmm
  rw [vmmInit_eq, vmmSwitchPml4_pmm]
  exact hroot.trans (allocates_identityLoop _ _ _ _)

/-- A new address space is exactly one block. -/
theorem vmmCreateUserPml4_pmm (s : VmState) : (vmmCreateUserPml4 s).2.pmm = (pmmAllocBlock s.pmm).2 := by
  rw [vmmCreateUserPml4_eq]
  split
  · rfl
  · rfl

theorem allocates_flatPage (s : VmState) (pml4 size offset : ℕ) :
    Allocates s.pmm (flatPage s pml4 size offset).2.pmm := by
  rw [flatPage_eq]
  split
  · exact allocates_alloc _
  · exact (allocates_alloc _).trans (allocates_vmmMapPage (flatBlock s size offset) _ _ _ _)

theorem allocates_elfPage (s : VmState) (pml4 fileBuffer : ℕ) (seg : Segment) (vaddr : ℕ) :
    Allocates s.pmm (elfPage s pml4 fileBuffer seg vaddr).2.pmm := by
  rw [Exec.elfPage]
  simp only
  split
  · exact allocates_alloc _
  · have hmap := allocates_vmmMapPage { s with pmm := (pmmAllocBlock s.pmm).2 } pml4 vaddr
      (pmmAllocBlock s.pmm).1 pagingFlagsAll
    exact (allocates_alloc _).trans hmap

/-- **One event only takes blocks.** -/
theorem allocates_step (σ : Machine) (e : Event) : Allocates σ.vm.pmm (step σ e).vm.pmm := by
  cases e with
  | create =>
    show Allocates σ.vm.pmm (vmmCreateUserPml4 σ.vm).2.pmm
    rw [vmmCreateUserPml4_pmm]
    exact allocates_alloc _
  | mapPage pml4 vaddr paddr flags => exact allocates_vmmMapPage _ _ _ _ _
  | flatPage pml4 size offset => exact allocates_flatPage _ _ _ _
  | elfPage pml4 fileBuffer seg vaddr => exact allocates_elfPage _ _ _ _ _
  | switch pml4 => exact Allocates.refl _
  | alloc => exact allocates_alloc _
  | store addr bytes => exact Allocates.refl _

theorem allocates_events (σ : Machine) (events : List Event) :
    Allocates σ.vm.pmm (run step σ events).vm.pmm :=
  run_invariant (I := fun σ' => Allocates σ.vm.pmm σ'.vm.pmm) (C := fun _ _ => True)
    (fun σ' e h _ => h.trans (allocates_step σ' e)) σ (Allocates.refl _) events
    (admits_of_forall (fun _ _ => trivial) σ events)

theorem allocates_elfHeaders (pml4 fileBuffer phdr fuel i : ℕ) (s : VmState) :
    Allocates s.pmm (elfHeaders pml4 fileBuffer phdr fuel i s).2.pmm := by
  have hevents := allocates_events ⟨s, []⟩ (elfHeadersEvents pml4 fileBuffer phdr fuel i s)
  rw [run_elfHeadersEvents] at hevents
  exact hevents

theorem allocates_elfLoadFile (s : VmState) (pml4 fileBuffer : ℕ) :
    Allocates s.pmm (elfLoadFile s pml4 fileBuffer).2.pmm := by
  have hevents := allocates_events ⟨s, []⟩ (elfEvents s pml4 fileBuffer)
  rw [run_elfEvents] at hevents
  exact hevents

theorem allocates_flatLoop (pml4 size n offset : ℕ) (s : VmState) :
    Allocates s.pmm (flatLoop pml4 size n offset s).2.pmm := by
  have hevents := allocates_events ⟨s, []⟩ (flatEvents pml4 size n offset s)
  rw [run_flatEvents] at hevents
  exact hevents

/-- `exec` asks for the block of the PML4, and for more when it gets that. -/
theorem allocates_execSpawn (s : VmState) (fileSize : ℕ) :
    Allocates (pmmAllocBlock s.pmm).2 (execSpawn s fileSize).2.pmm := by
  have helf := allocates_elfLoadFile (newRoot s) (pmmAllocBlock s.pmm).1 loadAddr
  have hflat := allocates_flatLoop (pmmAllocBlock s.pmm).1 fileSize
    ((fileSize + pageSize - 1) / pageSize) 0 (newRoot s)
  rw [execSpawn_eq]
  by_cases h0 : (pmmAllocBlock s.pmm).1 = 0
  · rw [if_pos h0]
    exact Allocates.refl _
  · rw [if_neg h0]
    split
    · exact helf
    · exact hflat

/-- **`exec` only takes blocks**, the one of the PML4 first. -/
theorem allocates_exec (s : VmState) (image : List UInt8) (fileSize : ℕ) :
    Allocates (pmmAllocBlock s.pmm).2 (exec s image fileSize).2.pmm :=
  allocates_execSpawn { s with mem := store s.mem loadAddr image } fileSize

theorem allocates_act (σ : Machine) (a : Action) : Allocates σ.vm.pmm (act σ a).vm.pmm := by
  cases a with
  | event e => exact allocates_step σ e
  | exec image fileSize => exact (allocates_alloc _).trans (allocates_exec _ _ _)

/-- **Whole runs only take blocks.** -/
theorem allocates_run (σ : Machine) (actions : List Action) :
    Allocates σ.vm.pmm (run act σ actions).vm.pmm :=
  run_invariant (I := fun σ' => Allocates σ.vm.pmm σ'.vm.pmm) (C := fun _ _ => True)
    (fun σ' a h _ => h.trans (allocates_act σ' a)) σ (Allocates.refl _) actions
    (admits_of_forall (fun _ _ => trivial) σ actions)

/-! ### The staging area -/

/-- The block at `a` has bytes of the range that `exec` fills, whole sectors from `0x4000000` on. -/
def InStaging (fileSize a : ℕ) : Prop :=
  loadAddr < a + blockSize ∧ a < loadAddr + 512 * ((fileSize + 511) / 512)

/-- **The staging area is private**: it meets no block that was handed out since boot, and none that is
handed out while `exec` loads the file. -/
def StagingPrivate (boot : PmmState) (s : VmState) (image : List UInt8) (fileSize : ℕ) : Prop :=
  ∀ a, Returned boot s.pmm a ∨ Returned s.pmm (exec s image fileSize).2.pmm a → ¬ InStaging fileSize a

/-- There is a free block below the staging area. -/
def FreeBelowStaging (p : PmmState) : Prop :=
  ∃ i, i < p.totalBlocks ∧ i * blockSize < loadAddr ∧ testBit p.bitmap i = false

/-- The memory map leaves no block of the staging area to the allocator. -/
def StagingReserved (p : PmmState) (fileSize : ℕ) : Prop :=
  ∀ i, i < p.totalBlocks → InStaging fileSize (i * blockSize) → testBit p.bitmap i = true

/-- No block of the staging area is handed out from `p` to `p'`. -/
def Spared (p p' : PmmState) (fileSize : ℕ) : Prop :=
  ∀ a, Returned p p' a → ¬ InStaging fileSize a

section Spared

variable {p p' : PmmState} {fileSize : ℕ}

/-- One allocation takes a block below the staging area while there is one. -/
theorem not_inStaging_of_freeBelow (h : FreeBelowStaging p) :
    ¬ InStaging fileSize (pmmAllocBlock p).1 := by
  obtain ⟨i, hi, hlow, hfree⟩ := h
  rintro ⟨hin, -⟩
  cases pmmAllocBlock_cases p with
  | inl hsome =>
    obtain ⟨k, -, -, hbelow, heq⟩ := hsome
    have hk : k ≤ i := by
      by_contra hlt
      exact absurd ((hbelow i (by omega)).symm.trans hfree) (by decide)
    simp only [heq, loadAddr, blockSize] at hin hlow
    omega
  | inr hnone => exact absurd ((hnone.1 i hi).symm.trans hfree) (by decide)

/-- A reserved staging area is never handed out. -/
theorem StagingReserved.spared (h : StagingReserved p fileSize) : Spared p p' fileSize := by
  intro a hreturned hin
  obtain ⟨i, rfl, hi, hfree, -⟩ := hreturned.block
  exact absurd ((h i hi hin).symm.trans hfree) (by decide)

/-- A spared staging area that is used by now was reserved from the start. -/
theorem Spared.reserved (h : Spared p p' fileSize) (hp : Allocates p p')
    (hzero : testBit p.bitmap 0 = true)
    (hused : ∀ i, i < p.totalBlocks → InStaging fileSize (i * blockSize) → testBit p'.bitmap i = true) :
    StagingReserved p fileSize := by
  intro i hi hin
  by_contra hfree
  rw [Bool.not_eq_true] at hfree
  have hi0 : i ≠ 0 := by
    rintro rfl
    exact absurd (hzero.symm.trans hfree) (by decide)
  exact h _ (returned_of_used hp hi0 hfree (hused i hi hin)) hin

theorem Spared.before (h : Spared p p' fileSize) {q : PmmState} (hq : Allocates q p') :
    Spared p q fileSize :=
  fun a ha => h a (ha.mono (Allocates.refl p) hq)

/-- **When no block of the staging area is handed out**: it is reserved, or each call finds a free block
below. -/
theorem spared_iff (h : Allocates p p') (hzero : testBit p.bitmap 0 = true) :
    Spared p p' fileSize ↔ StagingReserved p fileSize ∨
      ∀ q, Allocates p q → Allocates q p' → q ≠ p' → FreeBelowStaging q := by
  constructor
  · intro hspared
    by_cases hreserved : StagingReserved p fileSize
    · exact Or.inl hreserved
    right
    intro q hpq hqp hne
    have hlater := hpq.later
    have hrest := (Allocates.eq_or_tail hqp).resolve_left hne
    cases pmmAllocBlock_cases q with
    | inr hnone =>
      exfalso
      apply hreserved
      apply (hspared.before hqp).reserved hpq hzero
      intro i hi _
      exact hnone.1 i (by rw [hlater.total]; exact hi)
    | inl hsome =>
      obtain ⟨k, hk, hfree, hbelow, heq⟩ := hsome
      refine ⟨k, hk, ?_, hfree⟩
      by_contra hhigh
      have hk0 : k ≠ 0 := by
        rintro rfl
        exact absurd ((hlater.used 0 hzero).symm.trans hfree) (by decide)
      have hne0 : (pmmAllocBlock q).1 ≠ 0 := by
        rw [heq, blockSize]
        omega
      have hout := hspared _ ⟨q, hpq, hrest, rfl, hne0⟩
      -- every block of the staging area is before `k`, so it is used by now
      apply hreserved
      apply (hspared.before hqp).reserved hpq hzero
      intro i _ hin
      apply hbelow
      simp only [heq, InStaging, loadAddr, blockSize] at hout hin hhigh
      omega
  · intro hcases
    cases hcases with
    | inl hreserved => exact hreserved.spared
    | inr hbelow =>
      rintro a ⟨q, hpq, hrest, haddr, h0⟩
      rw [← haddr]
      apply not_inStaging_of_freeBelow
      apply hbelow q hpq ((allocates_alloc q).trans hrest)
      rintro rfl
      exact not_returned_self ⟨q, Allocates.refl q, hrest, haddr, h0⟩

end Spared

/-- The allocator of a machine before `vmm_init`. -/
def booted (mem : Memory) (ram : Bitmap) (entries : List MemoryMapEntry) : VmState :=
  ⟨mem, initPmm ram entries, 0, 0⟩

/-- **The staging area of `exec`**, for every memory map, every run since boot, every file: it is private
exactly when the memory map reserves it or every call of `pmm_alloc_block` up to the end of the `exec`
finds a free block below it. -/
theorem staging_private_iff (mem : Memory) (ram : Bitmap) (entries : List MemoryMapEntry)
    (actions : List Action) (image : List UInt8) (fileSize : ℕ) :
    let boot := initPmm ram entries
    let s := (run act ⟨vmmInit (booted mem ram entries), []⟩ actions).vm
    StagingPrivate boot s image fileSize ↔
      StagingReserved boot fileSize ∨
        ∀ q, Allocates boot q → Allocates q (exec s image fileSize).2.pmm →
          q ≠ (exec s image fileSize).2.pmm → FreeBelowStaging q := by
  intro boot s
  have hzero : testBit boot.bitmap 0 = true := (testBit_initPmm ram entries 0).mpr (Or.inl (by decide))
  have hinit : Allocates boot (vmmInit (booted mem ram entries)).pmm :=
    allocates_vmmInit (booted mem ram entries)
  have hs : Allocates boot s.pmm :=
    hinit.trans (allocates_run ⟨vmmInit (booted mem ram entries), []⟩ actions)
  have hexec : Allocates s.pmm (exec s image fileSize).2.pmm :=
    (allocates_alloc _).trans (allocates_exec s image fileSize)
  rw [← spared_iff (hs.trans hexec) hzero]
  constructor
  · intro h a ha
    exact h a (ha.split hs)
  · intro h a ha
    cases ha with
    | inl hbefore => exact h a (hbefore.mono (Allocates.refl _) hexec)
    | inr hduring => exact h a (hduring.mono hs (Allocates.refl _))

/-! ### A machine of 128 MB -/

/-- One usable region of 128 MB. -/
def map128 : List MemoryMapEntry := [⟨0, 0x8000000, 1⟩]

theorem totalBlocks_map128 (ram : Bitmap) : (initPmm ram map128).totalBlocks = 32768 := by
  have htop : (maxAddr map128).toNat = 0x8000000 := by decide
  show (maxAddr map128).toNat / blockSize = 32768
  rw [htop, blockSize]

theorem free_map128 (ram : Bitmap) : testBit (initPmm ram map128).bitmap 16384 = false := by
  rw [← Bool.not_eq_true, testBit_initPmm]
  have husable : Usable map128 16384 := ⟨⟨0, 0x8000000, 1⟩, List.mem_singleton_self _, by decide⟩
  simp [husable, reservedBlocks, blockSize]

/-- `k` times the `alloc` command. -/
theorem run_allocs (σ : Machine) (k : ℕ) :
    run act σ (List.replicate k (.event .alloc)) =
      ⟨{ σ.vm with pmm := (fun q => (pmmAllocBlock q).2)^[k] σ.vm.pmm }, σ.spaces⟩ := by
  induction k generalizing σ with
  | zero => rfl
  | succ k ih =>
    rw [List.replicate_succ, run_cons, ih, Function.iterate_succ_apply]
    rfl

theorem pmm_run_allocs (σ : Machine) (k : ℕ) :
    (run act σ (List.replicate k (.event .alloc))).vm.pmm =
      (fun q => (pmmAllocBlock q).2)^[k] σ.vm.pmm := by rw [run_allocs]

/-- **8193 `alloc` commands and an `exec`**: the block at `0x4000000` was handed out by then. -/
theorem exec_stages_into_block :
    ¬ StagingPrivate (initPmm (fun _ => 0) map128)
      (run act ⟨vmmInit (booted (fun _ => 0) (fun _ => 0) map128), []⟩
        (List.replicate 8193 (.event .alloc))).vm [0x90] 1 := by
  intro hprivate
  have hinit : Allocates (initPmm (fun _ => 0) map128)
      (vmmInit (booted (fun _ => 0) (fun _ => 0) map128)).pmm :=
    allocates_vmmInit (booted (fun _ => 0) (fun _ => 0) map128)
  have hrun := allocates_run ⟨vmmInit (booted (fun _ => 0) (fun _ => 0) map128), []⟩
    (List.replicate 8193 (.event .alloc))
  have htotal := hinit.later.total.trans (totalBlocks_map128 _)
  have hused := used_iterate (n := 8192) (fun i hi _ => hinit.later.used i
    ((testBit_initPmm _ _ i).mpr (Or.inl hi))) 8193 (show 16384 < 8192 + 8193 from by decide)
    (by rw [htotal]; decide)
  rw [← pmm_run_allocs ⟨_, []⟩ 8193] at hused
  have hreturned := returned_of_used (hinit.trans hrun) (show 16384 ≠ 0 from by decide) (free_map128 _) hused
  apply hprivate _ (Or.inl hreturned)
  rw [InStaging, loadAddr, blockSize]
  omega

end OsEojin.Vmm
