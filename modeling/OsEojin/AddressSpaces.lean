import OsEojin.VmmInit
import OsEojin.Exec
import OsEojin.Lib.Runs

/-!
# Address spaces over whole runs

`vmm_create_user_pml4` gives every address space the kernel's entry 0, and with it all tables behind that
entry: they are the kernel's own.  What is mapped behind another entry is private.

* `vmmCreateUserPml4_spec`: a new root in the forest of tables;
* `Machine`, `Event`, `step`: the calls that touch tables or hand out blocks, and everybody else's stores;
* `OwnTables`: the calls that keep to tables of their own;
* `KernelPages`, `KeepsPages`, `KernelPages.step`: pages of the kernel that nobody maps anything over;
* `Isolated`, `Isolated.step`: the invariant.
-/

namespace OsEojin.Vmm

open OsEojin.Lib.ByteMemory OsEojin.Lib.Forests OsEojin.Lib.Runs OsEojin.Pmm OsEojin.Exec

/-! ### A new address space -/

section Create

variable {s : VmState} {root : ℕ → Prop}

theorem pml4Index_zero : pml4Index 0 = 0 := rfl

/-- The state with a cleared block that has the kernel's entry 0. -/
def newRoot (s : VmState) : VmState :=
  let mem := fill s.mem (pmmAllocBlock s.pmm).1 pageSize 0
  { s with mem := putEntry mem (pmmAllocBlock s.pmm).1 (pml4Index 0) (entry mem s.kernelPml4 (pml4Index 0))
           pmm := (pmmAllocBlock s.pmm).2 }

theorem vmmCreateUserPml4_eq (s : VmState) :
    vmmCreateUserPml4 s = if (pmmAllocBlock s.pmm).1 = 0 then (0, { s with pmm := (pmmAllocBlock s.pmm).2 })
      else ((pmmAllocBlock s.pmm).1, newRoot s) := rfl

variable (h : TablesOk s root) (hK : root s.kernelPml4) (h0 : (pmmAllocBlock s.pmm).1 ≠ 0)
include h hK h0

/-- The entries after a root was added. -/
theorem entry_newRoot {x : ℕ} (hx : x % 4096 = 0) (k : Fin 512) :
    entry (newRoot s).mem x k = if x = (pmmAllocBlock s.pmm).1 then
      if k = 0 then entry s.mem s.kernelPml4 0 else 0 else entry s.mem x k := by
  have halign := pmmAllocBlock_aligned s.pmm
  have hne : s.kernelPml4 ≠ (pmmAllocBlock s.pmm).1 := by
    intro heq
    exact h.fresh h0 ⟨s.kernelPml4, [], hK, Nat.zero_le 3, by rw [← heq]; rfl⟩
  have hcopied : entry (fill s.mem (pmmAllocBlock s.pmm).1 pageSize 0) s.kernelPml4 0 =
      entry s.mem s.kernelPml4 0 := by
    rw [entry_fill _ halign (h.aligned _ hK), if_neg hne]
  rw [newRoot, pml4Index_zero, entry_putEntry _ halign hx, hcopied, entry_fill _ halign hx,
    Nat.mod_eq_of_lt (entry_lt _ _ _)]
  by_cases hroot : x = (pmmAllocBlock s.pmm).1
  · simp [hroot]
  · simp [hroot]

/-- The tables that were there are as they were. -/
theorem entry_newRoot_of_node {t : ℕ} (ht : Node (next s.mem) root 3 t) (k : Fin 512) :
    entry (newRoot s).mem t k = entry s.mem t k := by
  rw [entry_newRoot h hK h0 (h.aligned_of_node ht), if_neg]
  rintro rfl
  exact h.fresh h0 ht

theorem next_newRoot_of_node {t : ℕ} (ht : Node (next s.mem) root 3 t) (k : Fin 512) :
    next (newRoot s).mem t k = next s.mem t k :=
  next_congr (entry_newRoot_of_node h hK h0 ht k)

theorem next_newRoot_zero :
    next (newRoot s).mem (pmmAllocBlock s.pmm).1 0 = next s.mem s.kernelPml4 0 := by
  have hentry : entry (newRoot s).mem (pmmAllocBlock s.pmm).1 0 = entry s.mem s.kernelPml4 0 := by
    rw [entry_newRoot h hK h0 (pmmAllocBlock_aligned s.pmm), if_pos rfl, if_pos rfl]
  rw [next, next, hentry]

theorem entry_newRoot_other {k : Fin 512} (hk : k ≠ 0) :
    entry (newRoot s).mem (pmmAllocBlock s.pmm).1 k = 0 := by
  rw [entry_newRoot h hK h0 (pmmAllocBlock_aligned s.pmm), if_pos rfl, if_neg hk]

/-- **Behind entry 0 the new address space has the kernel's tables.** -/
theorem reach_newRoot {p : List (Fin 512)} (hp : p.length ≤ 2) :
    reach (next (newRoot s).mem) (pmmAllocBlock s.pmm).1 (0 :: p) =
      reach (next s.mem) s.kernelPml4 (0 :: p) :=
  reach_addRoot (fun _ k hx => next_newRoot_of_node h hK h0 hx k) hK (next_newRoot_zero h hK h0)
    (show (0 :: p).length ≤ 3 from Nat.succ_le_succ hp)

/-- A table of the new forest is the new root or an old table. -/
theorem node_newRoot {d t : ℕ} (hd : d ≤ 3)
    (ht : Node (next (newRoot s).mem) (fun r => root r ∨ r = (pmmAllocBlock s.pmm).1) d t) :
    t = (pmmAllocBlock s.pmm).1 ∨ Node (next s.mem) root d t := by
  obtain ⟨r, p, hr, hp, hreach⟩ := ht
  cases hr with
  | inl hr =>
    right
    rw [reach_of_nodes (fun _ k hx => next_newRoot_of_node h hK h0 hx k) hr (hp.trans hd)] at hreach
    exact ⟨r, p, hr, hp, hreach⟩
  | inr hr =>
    subst hr
    cases p with
    | nil => exact Or.inl (Option.some.inj hreach).symm
    | cons k p =>
      right
      by_cases hk : k = 0
      · subst hk
        simp only [List.length_cons] at hp
        rw [reach_newRoot h hK h0 (show p.length ≤ 2 from by omega)] at hreach
        exact ⟨s.kernelPml4, 0 :: p, hK, hp, hreach⟩
      · rw [reach_cons, next_eq_none] at hreach
        · cases hreach
        · rw [entry_newRoot_other h hK h0 hk]
          rfl

/-- **`vmm_create_user_pml4`** adds a root to the forest. -/
theorem tablesOk_newRoot :
    TablesOk (newRoot s) (fun r => root r ∨ r = (pmmAllocBlock s.pmm).1) := by
  obtain ⟨i, haddr, -, -, -, hstate⟩ := pmmAllocBlock_fresh s.pmm h0
  refine ⟨?_, used_mono _ h.zero, ?_, ?_, ?_, ?_⟩
  · rw [newRoot, pmmAllocBlock_totalBlocks]
    exact h.total
  · intro r hr
    cases hr with
    | inl hr => exact h.aligned r hr
    | inr hr =>
      rw [hr]
      exact pmmAllocBlock_aligned s.pmm
  · intro t ht
    cases node_newRoot h hK h0 (Nat.le_refl 3) ht with
    | inl hnew =>
      rw [hnew, newRoot, hstate, haddr, blockSize, Nat.mul_div_cancel _ (by decide)]
      simp [testBit_setBit]
    | inr hold => exact used_mono _ (h.used t hold)
  · apply h.separated.addRoot (fun _ k hx => next_newRoot_of_node h hK h0 hx k) hK (h.fresh h0)
    · rintro j rfl
      exact next_newRoot_zero h hK h0
    · intro j hj
      apply next_eq_none
      rw [entry_newRoot_other h hK h0 hj]
      rfl
  · intro t k ht hpresent
    cases node_newRoot h hK h0 (by decide) ht with
    | inl hnew =>
      subst hnew
      by_cases hk : k = 0
      · subst hk
        rw [entry_newRoot h hK h0 (pmmAllocBlock_aligned s.pmm), if_pos rfl, if_pos rfl] at hpresent ⊢
        exact h.plain s.kernelPml4 0 ⟨s.kernelPml4, [], hK, by decide, rfl⟩ hpresent
      · rw [entry_newRoot_other h hK h0 hk] at hpresent
        exact absurd hpresent (by decide)
    | inr hold =>
      rw [entry_newRoot_of_node h hK h0 (node_mono (by decide) hold)] at hpresent ⊢
      exact h.plain t k hold hpresent

end Create

/-! ### Runs -/

/-- The memory side of the kernel, and the PML4s that `vmm_create_user_pml4` has returned. -/
structure Machine where
  vm : VmState
  spaces : List ℕ

/-- The roots: the kernel's PML4 and the others. -/
def Machine.root (σ : Machine) (r : ℕ) : Prop := r = σ.vm.kernelPml4 ∨ r ∈ σ.spaces

/-- What happens after `vmm_init`, call by call: the loaders page by page, and between two of their pages
whatever else the kernel or a process does. -/
inductive Event where
  | create
  | mapPage (pml4 vaddr paddr flags : ℕ)
  | flatPage (pml4 flatBinarySize offset : ℕ)
  | elfPage (pml4 fileBuffer : ℕ) (seg : Segment) (vaddr : ℕ)
  | switch (pml4 : ℕ)
  | alloc
  | store (addr : ℕ) (bytes : List UInt8)

def step (σ : Machine) : Event → Machine
  | .create =>
    match vmmCreateUserPml4 σ.vm with
    | (pml4, vm) => ⟨vm, if pml4 = 0 then σ.spaces else pml4 :: σ.spaces⟩
  | .mapPage pml4 vaddr paddr flags => ⟨vmmMapPage σ.vm pml4 vaddr paddr flags, σ.spaces⟩
  | .flatPage pml4 flatBinarySize offset => ⟨(flatPage σ.vm pml4 flatBinarySize offset).2, σ.spaces⟩
  | .elfPage pml4 fileBuffer seg vaddr => ⟨(elfPage σ.vm pml4 fileBuffer seg vaddr).2, σ.spaces⟩
  | .switch pml4 => ⟨vmmSwitchPml4 σ.vm pml4, σ.spaces⟩
  | .alloc => ⟨{ σ.vm with pmm := (pmmAllocBlock σ.vm.pmm).2 }, σ.spaces⟩
  | .store addr bytes => ⟨{ σ.vm with mem := store σ.vm.mem addr bytes }, σ.spaces⟩

/-- **The event keeps to tables of its own**: what is mapped is not behind entry 0, and a store hits no
table. -/
def OwnTables (σ : Machine) : Event → Prop
  | .mapPage pml4 vaddr _ _ => pml4 ∈ σ.spaces ∧ pml4Index vaddr ≠ pml4Index 0
  | .flatPage pml4 _ offset => pml4 ∈ σ.spaces ∧ pml4Index (flatBinaryVaddr + offset) ≠ pml4Index 0
  | .elfPage pml4 _ _ vaddr => pml4 ∈ σ.spaces ∧ pml4Index vaddr ≠ pml4Index 0
  | .store addr bytes => ∀ t, Node (next σ.vm.mem) σ.root 3 t →
      addr + bytes.length ≤ t ∨ t + pageSize ≤ addr
  | .create | .switch _ | .alloc => True

/-- **The event leaves the pages `kept` alone**: nothing is mapped over them, and a store hits no table. -/
def KeepsPages (kept : ℕ → Prop) (σ : Machine) : Event → Prop
  | .mapPage pml4 vaddr _ _ => pml4 ∈ σ.spaces ∧ ∀ k, kept k → ¬ SamePage (k * 4096) vaddr
  | .flatPage pml4 _ offset =>
    pml4 ∈ σ.spaces ∧ ∀ k, kept k → ¬ SamePage (k * 4096) (flatBinaryVaddr + offset)
  | .elfPage pml4 _ _ vaddr => pml4 ∈ σ.spaces ∧ ∀ k, kept k → ¬ SamePage (k * 4096) vaddr
  | .store addr bytes => ∀ t, Node (next σ.vm.mem) σ.root 3 t →
      addr + bytes.length ≤ t ∨ t + pageSize ≤ addr
  | .create | .switch _ | .alloc => True

/-- **The kernel's pages**: the tables are in order, and the kernel's have the entries `e` for the pages
`kept`. -/
structure KernelPages (kept : ℕ → Prop) (e : ℕ → Option ℕ) (σ : Machine) : Prop where
  tables : TablesOk σ.vm σ.root
  pages : ∀ k, kept k → pageEntry σ.vm.mem σ.vm.kernelPml4 (k * 4096) = e k

/-- **The invariant**: the tables are in order, and the kernel's map the pages below 512 MB to
themselves. -/
structure Isolated (σ : Machine) : Prop where
  tables : TablesOk σ.vm σ.root
  identity : ∀ k, k < 131072 → Mapped σ.vm σ.vm.kernelPml4 (k * 4096) (k * 4096 + 7)

section Steps

variable {σ : Machine}

theorem Machine.root_kernel (σ : Machine) : σ.root σ.vm.kernelPml4 := Or.inl rfl

/-- The kernel's PML4 alone. -/
theorem Machine.root_nil (vm : VmState) : Machine.root ⟨vm, []⟩ = fun r => r = vm.kernelPml4 := by
  funext r
  simp only [Machine.root, List.not_mem_nil, or_false]

theorem Machine.root_congr {vm : VmState} (hkernel : vm.kernelPml4 = σ.vm.kernelPml4) :
    Machine.root ⟨vm, σ.spaces⟩ = σ.root := by
  funext r
  rw [Machine.root, Machine.root, hkernel]

section Blocks

variable {s : VmState} {root : ℕ → Prop} (h : TablesOk s root)
include h

/-- Writing a block that is not a table changes no table. -/
theorem TablesOk.entry_of_block {a : ℕ} {mem : Memory} (ha : a % 4096 = 0)
    (hnode : ¬ Node (next s.mem) root 3 a) (hmem : ∀ x, x < a ∨ a + pageSize ≤ x → mem x = s.mem x)
    {t : ℕ} (ht : Node (next s.mem) root 3 t) (k : Fin 512) : entry mem t k = entry s.mem t k :=
  h.forest.entry_of_block ha hnode hmem ht k

/-- Nor does handing it out. -/
theorem TablesOk.alloc : TablesOk { s with pmm := (pmmAllocBlock s.pmm).2 } root :=
  h.transfer (later_alloc _) fun _ _ _ => rfl

/-- The block of a page is no table after the page was mapped: it was in use when the tables were
taken. -/
theorem TablesOk.not_node_mapPage (h0 : (pmmAllocBlock s.pmm).1 ≠ 0) {P : ℕ} (hP : root P)
    (vaddr paddr flags : ℕ) :
    ¬ Node (next (vmmMapPage { s with pmm := (pmmAllocBlock s.pmm).2 } P vaddr paddr flags).mem) root 3
      (pmmAllocBlock s.pmm).1 := by
  rintro ⟨r, q, hr, hq, hx⟩
  cases (vmmMapPage_root h.alloc hP vaddr paddr flags).only r q _ hr hq hx with
  | inl hold => exact h.fresh h0 ⟨r, q, hr, hq, hold⟩
  | inr hfree =>
    obtain ⟨i, haddr, -, -, -, hstate⟩ := pmmAllocBlock_fresh s.pmm h0
    rw [haddr, blockSize, Nat.mul_div_cancel _ (by decide)] at hfree
    simp [hstate, testBit_setBit] at hfree

end Blocks

theorem step_create_none (h0 : (pmmAllocBlock σ.vm.pmm).1 = 0) :
    step σ .create = ⟨{ σ.vm with pmm := (pmmAllocBlock σ.vm.pmm).2 }, σ.spaces⟩ := by
  rw [step, vmmCreateUserPml4_eq, if_pos h0]
  simp only [if_true]

theorem step_create (h0 : (pmmAllocBlock σ.vm.pmm).1 ≠ 0) :
    step σ .create = ⟨newRoot σ.vm, (pmmAllocBlock σ.vm.pmm).1 :: σ.spaces⟩ := by
  rw [step, vmmCreateUserPml4_eq, if_neg h0]
  simp only [if_neg h0]

/-- The state in which the flat loop maps its block: the block has the bytes of the page. -/
def flatBlock (s : VmState) (size offset : ℕ) : VmState :=
  let paddr := (pmmAllocBlock s.pmm).1
  let copyLen := if size < offset + pageSize then size - offset else pageSize
  { s with mem := copy (fill s.mem paddr pageSize 0) paddr (loadAddr + offset) copyLen
           pmm := (pmmAllocBlock s.pmm).2 }

theorem flatPage_eq (s : VmState) (P size offset : ℕ) :
    flatPage s P size offset =
      if (pmmAllocBlock s.pmm).1 = 0 then (false, { s with pmm := (pmmAllocBlock s.pmm).2 })
      else (true, vmmMapPage (flatBlock s size offset) P (flatBinaryVaddr + offset)
        (pmmAllocBlock s.pmm).1 pagingFlagsAll) := rfl

theorem flatBlock_of_notMem {s : VmState} {size offset x : ℕ}
    (hx : x < (pmmAllocBlock s.pmm).1 ∨ (pmmAllocBlock s.pmm).1 + pageSize ≤ x) :
    (flatBlock s size offset).mem x = s.mem x := by
  have hlen : (if size < offset + pageSize then size - offset else pageSize) ≤ pageSize := by
    split <;> omega
  simp only [flatBlock]
  rw [copy_of_notMem (by omega), fill_of_notMem hx]

/-! ### Pages that nobody maps anything over -/

section Kept

variable {kept : ℕ → Prop} {e : ℕ → Option ℕ} (h : KernelPages kept e σ)
include h

/-- What leaves the tables alone. -/
theorem KernelPages.transfer {vm : VmState} (hkernel : vm.kernelPml4 = σ.vm.kernelPml4)
    (hpmm : Later σ.vm.pmm vm.pmm)
    (hentry : ∀ t k, Node (next σ.vm.mem) σ.root 3 t → entry vm.mem t k = entry σ.vm.mem t k) :
    KernelPages kept e ⟨vm, σ.spaces⟩ := by
  refine ⟨?_, ?_⟩
  · rw [Machine.root_congr hkernel]
    exact h.tables.transfer hpmm hentry
  · intro k hk
    show pageEntry vm.mem vm.kernelPml4 _ = _
    rw [hkernel, pageEntry_transfer hentry σ.root_kernel]
    exact h.pages k hk

theorem KernelPages.alloc : KernelPages kept e ⟨{ σ.vm with pmm := (pmmAllocBlock σ.vm.pmm).2 }, σ.spaces⟩ :=
  h.transfer rfl (later_alloc _) fun _ _ _ => rfl

/-- A block just handed out is not a table. -/
theorem KernelPages.fresh (h0 : (pmmAllocBlock σ.vm.pmm).1 ≠ 0) :
    ¬ Node (next σ.vm.mem) σ.root 3 (pmmAllocBlock σ.vm.pmm).1 :=
  h.tables.fresh h0

theorem KernelPages.writeBlock {a : ℕ} {mem : Memory} (ha : a % 4096 = 0)
    (hnode : ¬ Node (next σ.vm.mem) σ.root 3 a)
    (hmem : ∀ x, x < a ∨ a + pageSize ≤ x → mem x = σ.vm.mem x) :
    KernelPages kept e ⟨{ σ.vm with mem := mem }, σ.spaces⟩ :=
  h.transfer rfl (Later.refl _) fun _ k ht => h.tables.entry_of_block ha hnode hmem ht k

theorem KernelPages.mapPage {P vaddr : ℕ} (paddr flags : ℕ) (hP : P ∈ σ.spaces)
    (hapart : ∀ k, kept k → ¬ SamePage (k * 4096) vaddr) :
    KernelPages kept e ⟨vmmMapPage σ.vm P vaddr paddr flags, σ.spaces⟩ := by
  have hroot : σ.root P := Or.inr hP
  have hspec := vmmMapPage_root h.tables hroot vaddr paddr flags
  refine ⟨?_, ?_⟩
  · rw [Machine.root_congr hspec.kernelPml4]
    exact hspec.ok
  · intro k hk
    show pageEntry _ (vmmMapPage σ.vm P vaddr paddr flags).kernelPml4 _ = _
    have hne : indices (k * 4096) ≠ indices vaddr := fun heq => hapart k hk ((indices_eq_iff _ _).mp heq)
    rw [hspec.kernelPml4, pageEntry_vmmMapPage_of_ne h.tables hroot σ.root_kernel hne]
    exact h.pages k hk

theorem KernelPages.create : KernelPages kept e (step σ .create) := by
  by_cases h0 : (pmmAllocBlock σ.vm.pmm).1 = 0
  · rw [step_create_none h0]
    exact h.alloc
  · rw [step_create h0]
    have hroot : Machine.root ⟨newRoot σ.vm, (pmmAllocBlock σ.vm.pmm).1 :: σ.spaces⟩ =
        fun r => σ.root r ∨ r = (pmmAllocBlock σ.vm.pmm).1 := by
      funext r
      simp only [Machine.root, newRoot, List.mem_cons, eq_iff_iff]
      tauto
    refine ⟨?_, ?_⟩
    · rw [hroot]
      exact tablesOk_newRoot h.tables σ.root_kernel h0
    · intro k hk
      refine (pageEntry_transfer ?_ σ.root_kernel _).trans (h.pages k hk)
      exact fun t j ht => entry_newRoot_of_node h.tables σ.root_kernel h0 ht j

theorem KernelPages.flatBlock (size offset : ℕ) (h0 : (pmmAllocBlock σ.vm.pmm).1 ≠ 0) :
    KernelPages kept e ⟨flatBlock σ.vm size offset, σ.spaces⟩ :=
  h.alloc.writeBlock (pmmAllocBlock_aligned _) (h.fresh h0) fun _ hx => flatBlock_of_notMem hx

theorem KernelPages.flatPage {P offset : ℕ} (size : ℕ) (hP : P ∈ σ.spaces)
    (hapart : ∀ k, kept k → ¬ SamePage (k * 4096) (flatBinaryVaddr + offset)) :
    KernelPages kept e ⟨(flatPage σ.vm P size offset).2, σ.spaces⟩ := by
  rw [flatPage_eq]
  by_cases h0 : (pmmAllocBlock σ.vm.pmm).1 = 0
  · rw [if_pos h0]
    exact h.alloc
  · rw [if_neg h0]
    exact (h.flatBlock size offset h0).mapPage _ _ hP hapart

theorem KernelPages.elfPage {P vaddr : ℕ} (fileBuffer : ℕ) (seg : Segment) (hP : P ∈ σ.spaces)
    (hapart : ∀ k, kept k → ¬ SamePage (k * 4096) vaddr) :
    KernelPages kept e ⟨(elfPage σ.vm P fileBuffer seg vaddr).2, σ.spaces⟩ := by
  simp only [Exec.elfPage]
  by_cases h0 : (pmmAllocBlock σ.vm.pmm).1 = 0
  · rw [if_pos h0]
    exact h.alloc
  · rw [if_neg h0]
    have hmapped := h.alloc.mapPage (pmmAllocBlock σ.vm.pmm).1 pagingFlagsAll hP hapart
    have hspec := vmmMapPage_root h.alloc.tables (Or.inr hP) vaddr (pmmAllocBlock σ.vm.pmm).1 pagingFlagsAll
    apply hmapped.writeBlock (pmmAllocBlock_aligned _)
    · rw [Machine.root_congr hspec.kernelPml4]
      exact h.tables.not_node_mapPage h0 (Or.inr hP) vaddr _ _
    · intro x hx
      rw [copySegment_of_notMem hx, fill_of_notMem hx]

/-- **One step keeps the kernel's pages.** -/
theorem KernelPages.step {ev : Event} (hev : KeepsPages kept σ ev) : KernelPages kept e (step σ ev) := by
  cases ev with
  | create => exact h.create
  | mapPage P vaddr paddr flags => exact h.mapPage paddr flags hev.1 hev.2
  | flatPage P size offset => exact h.flatPage size hev.1 hev.2
  | elfPage P fileBuffer seg vaddr => exact h.elfPage fileBuffer seg hev.1 hev.2
  | switch P => exact h.transfer rfl (Later.refl _) fun _ _ _ => rfl
  | alloc => exact h.alloc
  | store addr bytes =>
    refine h.transfer rfl (Later.refl _) ?_
    intro t k ht
    apply entry_of_page
    intro x hx hx'
    have hmiss := hev t ht
    exact store_of_notMem (by omega)

end Kept

/-! ### The pages below 512 MB -/

/-- **The invariant is about the pages below 512 MB.** -/
theorem isolated_iff : Isolated σ ↔ KernelPages (· < 131072) (fun k => some (k * 4096 + 7)) σ := by
  constructor
  · intro h
    refine ⟨h.tables, ?_⟩
    intro k hk
    obtain ⟨pt, hpt, hentry⟩ := h.identity k hk
    rw [pageEntry, hpt, Option.bind_some, hentry, if_pos (by rw [present_iff]; omega)]
  · intro h
    refine ⟨h.tables, ?_⟩
    intro k hk
    have hpage := h.pages k hk
    rw [pageEntry] at hpage
    obtain ⟨pt, hpt, hentry⟩ := Option.bind_eq_some_iff.mp hpage
    split at hentry
    · exact ⟨pt, hpt, Option.some.inj hentry⟩
    · cases hentry

/-- A page behind another entry than 0 is none of them. -/
theorem not_samePage_of_pml4Index {vaddr k : ℕ} (hne : pml4Index vaddr ≠ 0) (hk : k < 131072) :
    ¬ SamePage (k * 4096) vaddr := by
  intro hpage
  have heq := (indices_eq_iff _ _).mpr hpage
  rw [indices, dirs_page hk, indices, dirs] at heq
  exact hne (List.cons.inj heq).1.symm

theorem OwnTables.keepsPages {e : Event} (he : OwnTables σ e) : KeepsPages (· < 131072) σ e := by
  cases e with
  | mapPage P vaddr paddr flags => exact ⟨he.1, fun _ => not_samePage_of_pml4Index he.2⟩
  | flatPage P size offset => exact ⟨he.1, fun _ => not_samePage_of_pml4Index he.2⟩
  | elfPage P fileBuffer seg vaddr => exact ⟨he.1, fun _ => not_samePage_of_pml4Index he.2⟩
  | store addr bytes => exact he
  | create => trivial
  | switch P => trivial
  | alloc => trivial

section Isolation

variable (h : Isolated σ)
include h

theorem Isolated.transfer {vm : VmState} (hkernel : vm.kernelPml4 = σ.vm.kernelPml4)
    (hpmm : Later σ.vm.pmm vm.pmm)
    (hentry : ∀ t k, Node (next σ.vm.mem) σ.root 3 t → entry vm.mem t k = entry σ.vm.mem t k) :
    Isolated ⟨vm, σ.spaces⟩ :=
  isolated_iff.mpr ((isolated_iff.mp h).transfer hkernel hpmm hentry)

theorem Isolated.create : Isolated (Vmm.step σ .create) := isolated_iff.mpr (isolated_iff.mp h).create

theorem Isolated.fresh (h0 : (pmmAllocBlock σ.vm.pmm).1 ≠ 0) :
    ¬ Node (next σ.vm.mem) σ.root 3 (pmmAllocBlock σ.vm.pmm).1 :=
  h.tables.fresh h0

theorem Isolated.flatBlock (size offset : ℕ) (h0 : (pmmAllocBlock σ.vm.pmm).1 ≠ 0) :
    Isolated ⟨Vmm.flatBlock σ.vm size offset, σ.spaces⟩ :=
  isolated_iff.mpr ((isolated_iff.mp h).flatBlock size offset h0)

/-- **One step keeps the invariant.** -/
theorem Isolated.step {e : Event} (he : OwnTables σ e) : Isolated (Vmm.step σ e) :=
  isolated_iff.mpr ((isolated_iff.mp h).step he.keepsPages)

end Isolation

/-- `vmm_init` establishes it. -/
theorem isolated_vmmInit {s : VmState} {spare : ℕ} (h : Boots s spare) : Isolated ⟨vmmInit s, []⟩ := by
  have hinit := vmmInit_spec h
  refine ⟨?_, hinit.pages⟩
  rw [Machine.root_nil]
  exact hinit.ok

end Steps

end OsEojin.Vmm
