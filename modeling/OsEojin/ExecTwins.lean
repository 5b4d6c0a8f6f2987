import OsEojin.ExecStaging

/-!
# Two machines side by side

Two machines with the same allocator and the same page tables, whose other memory may differ.  Every block
that is handed out is cleared before it is used, so what the tables and the new blocks hold depends on
nothing else, as long as the bytes copied into a block are among those the machines agree on.

* `Twins`: the machines agree on the tables, on a set `S` of bytes, and on every block taken so far;
* `Twins.takeBlock`, `Twins.putEntry`: the two ways in which memory is written;
* `Twins.mapPage`, `Twins.newRoot`: the functions of `vmm.c`;
* `Twins.flatPage`, `Twins.elfPage`: one page of a file.
-/

namespace OsEojin.Vmm

open OsEojin.Lib.ByteMemory OsEojin.Lib.Forests OsEojin.Pmm OsEojin.Exec

/-- **Two machines that agree on what they know**: the bytes in `T`, where the page tables were when the
allocator was in the state `p₀`, those in `S`, and the blocks taken since.  Outside the tables and these
blocks the bytes in `S` are still those of `m₀`. -/
structure Twins (p₀ : PmmState) (T S : ℕ → Prop) (m₀ : Memory) (root : ℕ → Prop) (s₁ s₂ : VmState) :
    Prop where
  allocates : Allocates p₀ s₁.pmm
  pmm : s₂.pmm = s₁.pmm
  kernelPml4 : s₂.kernelPml4 = s₁.kernelPml4
  ok : TablesOk s₁ root
  tables : ∀ t x, Node (next s₁.mem) root 3 t → t ≤ x → x < t + pageSize → T x ∨ Taken p₀ s₁.pmm x
  same : ∀ x, T x ∨ S x ∨ Taken p₀ s₁.pmm x → s₂.mem x = s₁.mem x
  kept : ∀ x, S x → ¬ T x → ¬ Taken p₀ s₁.pmm x → s₁.mem x = m₀ x

section Twins

variable {p₀ : PmmState} {T S : ℕ → Prop} {m₀ : Memory} {root : ℕ → Prop} {s₁ s₂ : VmState}

/-- The tables are the same. -/
theorem Twins.entry_eq (h : Twins p₀ T S m₀ root s₁ s₂) {t : ℕ} (ht : Node (next s₁.mem) root 3 t)
    (k : Fin 512) : entry s₂.mem t k = entry s₁.mem t k := by
  apply entry_of_page
  intro x hx hx'
  apply h.same
  exact (h.tables t x ht hx hx').imp_right Or.inr

/-- **A block is taken**, and the same is written to it on both sides. -/
theorem Twins.takeBlock (h : Twins p₀ T S m₀ root s₁ s₂) (h0 : (pmmAllocBlock s₁.pmm).1 ≠ 0)
    {m₁ m₂ : Memory}
    (hout₁ : ∀ x, x < (pmmAllocBlock s₁.pmm).1 ∨ (pmmAllocBlock s₁.pmm).1 + pageSize ≤ x →
      m₁ x = s₁.mem x)
    (hout₂ : ∀ x, x < (pmmAllocBlock s₁.pmm).1 ∨ (pmmAllocBlock s₁.pmm).1 + pageSize ≤ x →
      m₂ x = s₂.mem x)
    (hin : ∀ x, (pmmAllocBlock s₁.pmm).1 ≤ x → x < (pmmAllocBlock s₁.pmm).1 + pageSize → m₂ x = m₁ x) :
    Twins p₀ T S m₀ root { s₁ with mem := m₁, pmm := (pmmAllocBlock s₁.pmm).2 }
      { s₂ with mem := m₂, pmm := (pmmAllocBlock s₁.pmm).2 } := by
  have hone := allocates_alloc s₁.pmm
  have hentry : ∀ t k, Node (next s₁.mem) root 3 t → entry m₁ t k = entry s₁.mem t k := fun t k ht =>
    h.ok.entry_of_block (pmmAllocBlock_aligned _) (h.ok.fresh h0) hout₁ ht k
  refine ⟨h.allocates.trans hone, rfl, h.kernelPml4, h.ok.transfer (later_alloc _) hentry, ?_, ?_, ?_⟩
  · rintro t x ⟨r, q, hr, hq, ht⟩ hx hx'
    rw [reach_of_nodes (fun y k hy => next_congr (hentry y k hy)) hr hq] at ht
    exact (h.tables t x ⟨r, q, hr, hq, ht⟩ hx hx').imp_right fun htaken =>
      htaken.mono (Allocates.refl _) hone
  · intro x hx
    by_cases hblock : (pmmAllocBlock s₁.pmm).1 ≤ x ∧ x < (pmmAllocBlock s₁.pmm).1 + pageSize
    · exact hin x hblock.1 hblock.2
    · have hx' : T x ∨ S x ∨ Taken p₀ s₁.pmm x := by
        refine hx.imp_right fun hx => hx.imp_right fun htaken => ?_
        exact (htaken.split h.allocates).resolve_right fun hnew => hblock ((taken_alloc h0 x).mp hnew)
      have hout : x < (pmmAllocBlock s₁.pmm).1 ∨ (pmmAllocBlock s₁.pmm).1 + pageSize ≤ x := by omega
      show m₂ x = m₁ x
      rw [hout₁ x hout, hout₂ x hout]
      exact h.same x hx'
  · intro x hS hT htaken
    have hold : ¬ Taken p₀ s₁.pmm x := fun hold => htaken (hold.mono (Allocates.refl _) hone)
    have hblock : ¬ ((pmmAllocBlock s₁.pmm).1 ≤ x ∧ x < (pmmAllocBlock s₁.pmm).1 + pageSize) :=
      fun hblock => htaken (((taken_alloc h0 x).mpr hblock).mono h.allocates (Allocates.refl _))
    show m₁ x = m₀ x
    rw [hout₁ x (by omega)]
    exact h.kept x hS hT hold

/-- A block is taken and cleared. -/
theorem Twins.clearBlock (h : Twins p₀ T S m₀ root s₁ s₂) (h0 : (pmmAllocBlock s₁.pmm).1 ≠ 0) :
    Twins p₀ T S m₀ root
      { s₁ with mem := fill s₁.mem (pmmAllocBlock s₁.pmm).1 pageSize 0, pmm := (pmmAllocBlock s₁.pmm).2 }
      { s₂ with mem := fill s₂.mem (pmmAllocBlock s₁.pmm).1 pageSize 0
                pmm := (pmmAllocBlock s₁.pmm).2 } := by
  apply h.takeBlock h0
  · exact fun x hx => fill_of_notMem hx
  · exact fun x hx => fill_of_notMem hx
  · exact fun x hx hx' => fill_congr (Or.inl ⟨hx, hx'⟩)

/-- **An entry of a table is set** on both sides. -/
theorem Twins.putEntry (h : Twins p₀ T S m₀ root s₁ s₂) {root' : ℕ → Prop} {t : ℕ} (i : Fin 512) (v : ℕ)
    (hpage : ∀ x, t ≤ x → x < t + pageSize → T x ∨ Taken p₀ s₁.pmm x)
    (hok : TablesOk { s₁ with mem := putEntry s₁.mem t i v } root')
    (htables : ∀ t' x, Node (next (Vmm.putEntry s₁.mem t i v)) root' 3 t' → t' ≤ x →
      x < t' + pageSize → T x ∨ Taken p₀ s₁.pmm x) :
    Twins p₀ T S m₀ root' { s₁ with mem := Vmm.putEntry s₁.mem t i v }
      { s₂ with mem := Vmm.putEntry s₂.mem t i v } := by
  have hi := i.isLt
  refine ⟨h.allocates, h.pmm, h.kernelPml4, hok, htables, ?_, ?_⟩
  · intro x hx
    exact writeLe_congr (Or.inr (h.same x hx))
  · intro x hS hT htaken
    have hout : ¬ (t + 8 * i.val ≤ x ∧ x < t + 8 * i.val + 8) := by
      intro hin
      exact (hpage x (by omega) (by rw [pageSize]; omega)).elim hT htaken
    show Vmm.putEntry s₁.mem t i v x = m₀ x
    rw [Vmm.putEntry, writeLe, if_neg hout]
    exact h.kept x hS hT htaken

/-! ### The tables -/

/-- A table is hung in on both sides. -/
theorem Twins.hang (h : Twins p₀ T S m₀ root s₁ s₂) {t : ℕ} (ht : Node (next s₁.mem) root 2 t)
    (h0 : (pmmAllocBlock s₁.pmm).1 ≠ 0) {i : Fin 512} (hnone : next s₁.mem t i = none) :
    Twins p₀ T S m₀ root (hang s₁ t i) (hang s₂ t i) := by
  have hone := allocates_alloc s₁.pmm
  have hgrows := grows_hang h.ok.forest ht h0 (h.ok.block_lt h0) hnone
  have hold : ∀ t' x, Node (next s₁.mem) root 3 t' → t' ≤ x → x < t' + pageSize →
      T x ∨ Taken p₀ (pmmAllocBlock s₁.pmm).2 x := fun t' x ht' hx hx' =>
    (h.tables t' x ht' hx hx').imp_right fun htaken => htaken.mono (Allocates.refl _) hone
  rw [Vmm.hang, Vmm.hang, h.pmm]
  apply (h.clearBlock h0).putEntry i ((pmmAllocBlock s₁.pmm).1 + 7)
  · exact fun x => hold t x (node_mono (by decide) ht)
  · exact h.ok.hang ht h0 hnone
  · rintro t' x ⟨r, q, hr, hq, ht'⟩ hx hx'
    cases hgrows.reach_cases hr hq ht' with
    | inl hthere => exact hold t' x ⟨r, q, hr, hq, hthere⟩ hx hx'
    | inr hnew =>
      rw [hnew.1] at hx hx'
      exact Or.inr (((taken_alloc h0 x).mpr ⟨hx, hx'⟩).mono h.allocates (Allocates.refl _))

/-- One level goes the same way on both sides. -/
theorem Twins.nextTable (h : Twins p₀ T S m₀ root s₁ s₂) {t : ℕ} (ht : Node (next s₁.mem) root 2 t)
    (i : Fin 512) :
    (nextTable s₂ t i).1 = (nextTable s₁ t i).1 ∧
      Twins p₀ T S m₀ root (nextTable s₁ t i).2 (nextTable s₂ t i).2 := by
  have hnode : Node (next s₁.mem) root 3 t := node_mono (by decide) ht
  have hnext : next s₂.mem t i = next s₁.mem t i := next_congr (h.entry_eq hnode i)
  rcases nextTable_cases h.ok ht i with ⟨y, hy, heq⟩ | ⟨hnone, h0, heq⟩ | ⟨hnone, h0, -⟩
  · rw [nextTable_of_next (hnext.trans hy), heq]
    exact ⟨rfl, h⟩
  · have hsame : (pmmAllocBlock s₁.pmm).2 = s₂.pmm := by
      rw [h.pmm]
      exact h.ok.alloc_zero h0
    rw [nextTable_absent (present_of_next_eq_none (hnext.trans hnone)), heq, h.pmm, if_pos h0, hsame]
    exact ⟨rfl, h⟩
  · -- the table is a new block on both sides
    have hhung := h.hang ht h0 hnone
    have hstill : Node (next (Vmm.hang s₁ t i).mem) root 3 t := by
      obtain ⟨r, q, hr, hq, ht⟩ := hnode
      exact ⟨r, q, hr, hq, (grows_hang h.ok.forest ‹_› h0 (h.ok.block_lt h0) hnone).reach_old hr hq ht⟩
    rw [nextTable_absent (present_of_next_eq_none (hnext.trans hnone)),
      nextTable_absent (present_of_next_eq_none hnone), h.pmm, if_neg h0, if_neg h0]
    refine ⟨?_, hhung⟩
    rw [hhung.entry_eq hstill i]

/-- The way down goes the same way on both sides. -/
theorem Twins.descend (h : Twins p₀ T S m₀ root s₁ s₂) {P t : ℕ} (hP : root P) (p rest : List (Fin 512))
    (hlen : p.length + rest.length ≤ 3) (ht : reach (next s₁.mem) P p = some t) :
    (descend s₂ t rest).1 = (descend s₁ t rest).1 ∧
      Twins p₀ T S m₀ root (descend s₁ t rest).2 (descend s₂ t rest).2 := by
  induction rest generalizing s₁ s₂ t p with
  | nil => exact ⟨rfl, h⟩
  | cons i rest ih =>
    simp only [List.length_cons] at hlen
    have hnode : Node (next s₁.mem) root 2 t := ⟨P, p, hP, by omega, ht⟩
    obtain ⟨hsame, htwins⟩ := h.nextTable hnode i
    have hdown := descend_spec h.ok hP p [i] (by simp only [List.length_singleton]; omega) ht
    rw [Vmm.descend] at hdown ⊢
    rw [Vmm.descend]
    generalize Vmm.nextTable s₁ t i = r₁ at hsame htwins hdown ⊢
    generalize Vmm.nextTable s₂ t i = r₂ at hsame htwins ⊢
    obtain ⟨o₁, s₁'⟩ := r₁
    obtain ⟨o₂, s₂'⟩ := r₂
    obtain rfl : o₂ = o₁ := hsame
    cases o₂ with
    | none => exact ⟨rfl, htwins⟩
    | some y =>
      apply ih htwins (p ++ [i])
      · simp only [List.length_append, List.length_singleton]
        omega
      · exact hdown.target y rfl

/-- **`vmm_map_page`** on both sides. -/
theorem Twins.mapPage (h : Twins p₀ T S m₀ root s₁ s₂) {P : ℕ} (hP : root P) (vaddr paddr flags : ℕ) :
    Twins p₀ T S m₀ root (vmmMapPage s₁ P vaddr paddr flags) (vmmMapPage s₂ P vaddr paddr flags) := by
  obtain ⟨hsame, htwins⟩ := h.descend hP [] (dirs vaddr) (Nat.le_refl 3) rfl
  have hdown := descend_spec h.ok hP [] (dirs vaddr) (Nat.le_refl 3) rfl
  rw [vmmMapPage_eq, vmmMapPage_eq]
  generalize Vmm.descend s₁ P (dirs vaddr) = r₁ at hsame htwins hdown ⊢
  generalize Vmm.descend s₂ P (dirs vaddr) = r₂ at hsame htwins ⊢
  obtain ⟨o₁, s₁'⟩ := r₁
  obtain ⟨o₂, s₂'⟩ := r₂
  obtain rfl : o₂ = o₁ := hsame
  cases o₂ with
  | none => exact htwins
  | some pt =>
    have hlen := dirs_length vaddr
    have hpt := hdown.target pt rfl
    rw [List.nil_append] at hpt
    apply htwins.putEntry
    · exact fun x => htwins.tables pt x ⟨P, dirs vaddr, hP, le_of_eq hlen, hpt⟩
    · exact htwins.ok.putLeaf hP hlen hpt _ _
    · rintro t' x ⟨r, q, hr, hq, ht'⟩ hx hx'
      rw [reach_putLeaf htwins.ok.forest hP hlen hpt _ _ hr hq] at ht'
      exact htwins.tables t' x ⟨r, q, hr, hq, ht'⟩ hx hx'

/-- **`vmm_create_user_pml4`** on both sides. -/
theorem Twins.newRoot (h : Twins p₀ T S m₀ root s₁ s₂) (hK : root s₁.kernelPml4)
    (h0 : (pmmAllocBlock s₁.pmm).1 ≠ 0) :
    Twins p₀ T S m₀ (fun r => root r ∨ r = (pmmAllocBlock s₁.pmm).1) (newRoot s₁) (newRoot s₂) := by
  have hone := allocates_alloc s₁.pmm
  have hcleared := h.clearBlock h0
  have hentry : entry (fill s₂.mem (pmmAllocBlock s₁.pmm).1 pageSize 0) s₂.kernelPml4 (pml4Index 0) =
      entry (fill s₁.mem (pmmAllocBlock s₁.pmm).1 pageSize 0) s₁.kernelPml4 (pml4Index 0) := by
    rw [h.kernelPml4]
    exact hcleared.entry_eq ⟨s₁.kernelPml4, [], hK, Nat.zero_le 3, rfl⟩ (pml4Index 0)
  have hblock : ∀ x, (pmmAllocBlock s₁.pmm).1 ≤ x → x < (pmmAllocBlock s₁.pmm).1 + pageSize →
      T x ∨ Taken p₀ (pmmAllocBlock s₁.pmm).2 x := fun x hx hx' =>
    Or.inr (((taken_alloc h0 x).mpr ⟨hx, hx'⟩).mono h.allocates (Allocates.refl _))
  rw [Vmm.newRoot, Vmm.newRoot, h.pmm]
  simp only [hentry]
  apply hcleared.putEntry
  · exact hblock
  · exact tablesOk_newRoot h.ok hK h0
  · intro t x ht hx hx'
    cases node_newRoot h.ok hK h0 (Nat.le_refl 3) ht with
    | inl hnew =>
      rw [hnew] at hx hx'
      exact hblock x hx hx'
    | inr hold =>
      exact (h.tables t x hold hx hx').imp_right fun htaken => htaken.mono (Allocates.refl _) hone

/-! ### Pages of a file -/

/-- A failed allocation changes nothing. -/
theorem Twins.alloc_zero (h : Twins p₀ T S m₀ root s₁ s₂) (h0 : (pmmAllocBlock s₁.pmm).1 = 0) :
    Twins p₀ T S m₀ root { s₁ with pmm := (pmmAllocBlock s₁.pmm).2 }
      { s₂ with pmm := (pmmAllocBlock s₁.pmm).2 } := by
  have hpmm : ({ s₂ with pmm := s₁.pmm } : VmState) = s₂ := by rw [← h.pmm]
  rw [h.ok.alloc_zero h0, hpmm]
  exact h

/-- The block of a page of a flat binary, when the machines agree on the bytes of the file. -/
theorem Twins.flatBlock (h : Twins p₀ T S m₀ root s₁ s₂) (h0 : (pmmAllocBlock s₁.pmm).1 ≠ 0)
    {size : ℕ} (hS : ∀ x, loadAddr ≤ x → x < loadAddr + size → S x) (offset : ℕ) :
    Twins p₀ T S m₀ root (flatBlock s₁ size offset) (flatBlock s₂ size offset) := by
  have hlen : (if size < offset + pageSize then size - offset else pageSize) ≤ pageSize := by
    split <;> omega
  simp only [Vmm.flatBlock, h.pmm]
  apply h.takeBlock h0
  · intro x hx
    rw [copy_of_notMem (by omega), fill_of_notMem hx]
  · intro x hx
    rw [copy_of_notMem (by omega), fill_of_notMem hx]
  · intro x hx hx'
    apply copy_congr
    · intro y hy hy'
      apply fill_congr
      right
      apply h.same
      refine Or.inr (Or.inl (hS y (by omega) ?_))
      split at hy'
      · omega
      · omega
    · exact Or.inr (fill_congr (Or.inl ⟨hx, hx'⟩))

/-- **A page of a flat binary** on both sides. -/
theorem Twins.flatPage (h : Twins p₀ T S m₀ root s₁ s₂) {P : ℕ} (hP : root P) {size : ℕ}
    (hS : ∀ x, loadAddr ≤ x → x < loadAddr + size → S x) (offset : ℕ) :
    (flatPage s₂ P size offset).1 = (flatPage s₁ P size offset).1 ∧
      Twins p₀ T S m₀ root (flatPage s₁ P size offset).2 (flatPage s₂ P size offset).2 := by
  rw [flatPage_eq, flatPage_eq, h.pmm]
  by_cases h0 : (pmmAllocBlock s₁.pmm).1 = 0
  · rw [if_pos h0, if_pos h0]
    exact ⟨rfl, h.alloc_zero h0⟩
  · rw [if_neg h0, if_neg h0]
    exact ⟨rfl, (h.flatBlock h0 hS offset).mapPage hP _ _ _⟩

/-- What is known so far becomes the ground for what comes after an allocation. -/
theorem Twins.rebase (h : Twins p₀ T S m₀ root s₁ s₂) :
    Twins (pmmAllocBlock s₁.pmm).2 (fun x => T x ∨ Taken p₀ s₁.pmm x) S m₀ root
      { s₁ with pmm := (pmmAllocBlock s₁.pmm).2 } { s₂ with pmm := (pmmAllocBlock s₁.pmm).2 } := by
  refine ⟨Allocates.refl _, rfl, h.kernelPml4, h.ok.alloc, ?_, ?_, ?_⟩
  · intro t x ht hx hx'
    exact Or.inl (h.tables t x ht hx hx')
  · rintro x ((hT | htaken) | hS | htaken)
    · exact h.same x (Or.inl hT)
    · exact h.same x (Or.inr (Or.inr htaken))
    · exact h.same x (Or.inr (Or.inl hS))
    · exact absurd htaken not_taken_self
  · intro x hS hT _
    exact h.kept x hS (fun hx => hT (Or.inl hx)) (fun hx => hT (Or.inr hx))

/-- The block of that allocation is written last. -/
theorem Twins.writeBlock {p : PmmState} (hp : Allocates p₀ p) (h0 : (pmmAllocBlock p).1 ≠ 0)
    (h : Twins (pmmAllocBlock p).2 (fun x => T x ∨ Taken p₀ p x) S m₀ root s₁ s₂) {m₁ m₂ : Memory}
    (hnode : ¬ Node (next s₁.mem) root 3 (pmmAllocBlock p).1)
    (hout₁ : ∀ x, x < (pmmAllocBlock p).1 ∨ (pmmAllocBlock p).1 + pageSize ≤ x → m₁ x = s₁.mem x)
    (hout₂ : ∀ x, x < (pmmAllocBlock p).1 ∨ (pmmAllocBlock p).1 + pageSize ≤ x → m₂ x = s₂.mem x)
    (hin : ∀ x, (pmmAllocBlock p).1 ≤ x → x < (pmmAllocBlock p).1 + pageSize → m₂ x = m₁ x) :
    Twins p₀ T S m₀ root { s₁ with mem := m₁ } { s₂ with mem := m₂ } := by
  have hone := hp.trans (allocates_alloc p)
  have hentry : ∀ t k, Node (next s₁.mem) root 3 t → entry m₁ t k = entry s₁.mem t k := fun t k ht =>
    h.ok.entry_of_block (pmmAllocBlock_aligned _) hnode hout₁ ht k
  have hknown : ∀ x, (T x ∨ Taken p₀ p x) ∨ Taken (pmmAllocBlock p).2 s₁.pmm x →
      T x ∨ Taken p₀ s₁.pmm x := by
    rintro x ((hT | htaken) | htaken)
    · exact Or.inl hT
    · exact Or.inr (htaken.mono (Allocates.refl _) ((allocates_alloc p).trans h.allocates))
    · exact Or.inr (htaken.mono hone (Allocates.refl _))
  refine ⟨hone.trans h.allocates, h.pmm, h.kernelPml4, h.ok.transfer (Later.refl _) hentry, ?_, ?_, ?_⟩
  · rintro t x ⟨r, q, hr, hq, ht⟩ hx hx'
    rw [reach_of_nodes (fun y k hy => next_congr (hentry y k hy)) hr hq] at ht
    exact hknown x (h.tables t x ⟨r, q, hr, hq, ht⟩ hx hx')
  · intro x hx
    show m₂ x = m₁ x
    by_cases hblock : (pmmAllocBlock p).1 ≤ x ∧ x < (pmmAllocBlock p).1 + pageSize
    · exact hin x hblock.1 hblock.2
    · have hout : x < (pmmAllocBlock p).1 ∨ (pmmAllocBlock p).1 + pageSize ≤ x := by omega
      rw [hout₁ x hout, hout₂ x hout]
      apply h.same
      rcases hx with hT | hS | htaken
      · exact Or.inl (Or.inl hT)
      · exact Or.inr (Or.inl hS)
      · cases htaken.split hone with
        | inr hlate => exact Or.inr (Or.inr hlate)
        | inl hearly =>
          cases hearly.split hp with
          | inl hbefore => exact Or.inl (Or.inr hbefore)
          | inr hnow => exact absurd ((taken_alloc h0 x).mp hnow) hblock
  · intro x hS hT htaken
    have hblock : ¬ ((pmmAllocBlock p).1 ≤ x ∧ x < (pmmAllocBlock p).1 + pageSize) :=
      fun hblock => htaken (((taken_alloc h0 x).mpr hblock).mono hp h.allocates)
    show m₁ x = m₀ x
    rw [hout₁ x (by omega)]
    apply h.kept x hS
    · intro hx
      exact (hknown x (Or.inl hx)).elim hT htaken
    · intro hx
      exact (hknown x (Or.inr hx)).elim hT htaken

/-- The bytes of the file that a page of a segment is made of. -/
def SourceIn (S : ℕ → Prop) (fileBuffer : ℕ) (seg : Segment) (vaddr : ℕ) : Prop :=
  (copyRange seg vaddr).1 < (copyRange seg vaddr).2 →
    ∀ x, (fileBuffer + seg.fileOffset + ((copyRange seg vaddr).1 - seg.vaddrStart)) % 2 ^ 64 ≤ x →
      x < (fileBuffer + seg.fileOffset + ((copyRange seg vaddr).1 - seg.vaddrStart)) % 2 ^ 64 +
        ((copyRange seg vaddr).2 - (copyRange seg vaddr).1) → S x

/-- The same bytes are copied from memories that agree on them. -/
theorem copySegment_congr {m m' : Memory} {fileBuffer vaddr paddr x : ℕ} {seg : Segment}
    (hsrc : SourceIn (fun y => m' y = m y) fileBuffer seg vaddr) (hx : m' x = m x) :
    copySegment m' fileBuffer seg vaddr paddr x = copySegment m fileBuffer seg vaddr paddr x := by
  simp only [copySegment]
  split
  · rename_i hlt
    exact copy_congr (hsrc hlt) (Or.inr hx)
  · exact hx

/-- **A page of a segment** on both sides. -/
theorem Twins.elfPage (h : Twins p₀ T S m₀ root s₁ s₂) {P fileBuffer vaddr : ℕ} (hP : root P)
    {seg : Segment} (hS : SourceIn S fileBuffer seg vaddr) :
    (elfPage s₂ P fileBuffer seg vaddr).1 = (elfPage s₁ P fileBuffer seg vaddr).1 ∧
      Twins p₀ T S m₀ root (elfPage s₁ P fileBuffer seg vaddr).2
        (elfPage s₂ P fileBuffer seg vaddr).2 := by
  simp only [Exec.elfPage, h.pmm]
  by_cases h0 : (pmmAllocBlock s₁.pmm).1 = 0
  · rw [if_pos h0, if_pos h0]
    exact ⟨rfl, h.alloc_zero h0⟩
  · rw [if_neg h0, if_neg h0]
    have hmapped := h.rebase.mapPage hP vaddr (pmmAllocBlock s₁.pmm).1 pagingFlagsAll
    refine ⟨rfl, ?_⟩
    apply hmapped.writeBlock h.allocates h0
    · exact h.ok.not_node_mapPage h0 hP vaddr _ _
    · intro x hx
      rw [copySegment_of_notMem hx, fill_of_notMem hx]
    · intro x hx
      rw [copySegment_of_notMem hx, fill_of_notMem hx]
    · intro x hx hx'
      apply copySegment_congr
      · intro hlt y hy hy'
        apply fill_congr
        right
        exact hmapped.same y (Or.inr (Or.inl (hS hlt y hy hy')))
      · exact fill_congr (Or.inl ⟨hx, hx'⟩)

end Twins

end OsEojin.Vmm
