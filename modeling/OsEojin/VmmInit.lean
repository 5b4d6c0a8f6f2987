import OsEojin.PageMap

/-!
# The identity map

`vmm_init` maps the pages below 512 MB one after another to themselves.  The first page needs a PDPT, a PD
and a page table, and after that every 512 pages one more page table: 259 blocks with the PML4.

* `IdentityTree`, `identityLoop_tree`: the loop, by induction on the number of pages done;
* `Boots`: a memory manager with enough blocks;
* `vmmInit_spec`: the tables `vmm_init` leaves, and what they translate.
-/

namespace OsEojin.Vmm

open OsEojin.Lib.ByteMemory OsEojin.Lib.Forests OsEojin.Pmm

/-! ### Indices -/

theorem dirs_page {n : ℕ} (hn : n < 131072) : dirs (n * 4096) = [0, 0, Fin.ofNat 512 (n / 512)] := by
  simp only [dirs, pml4Index, pdptIndex, pdIndex, Nat.shiftRight_eq_div_pow]
  rw [show n * 4096 / 2 ^ 39 = 0 from by omega, show n * 4096 / 2 ^ 30 = 0 from by omega,
    show n * 4096 / 2 ^ 21 = n / 512 from by omega]
  rfl

/-- The indices do not see the offset in the page. -/
theorem indices_base (u : ℕ) :
    dirs u = dirs (u / 4096 * 4096) ∧ ptIndex u = ptIndex (u / 4096 * 4096) := by
  simp only [dirs, pml4Index, pdptIndex, pdIndex, ptIndex, Nat.shiftRight_eq_div_pow]
  rw [show u / 4096 * 4096 / 2 ^ 39 = u / 2 ^ 39 from by omega,
    show u / 4096 * 4096 / 2 ^ 30 = u / 2 ^ 30 from by omega,
    show u / 4096 * 4096 / 2 ^ 21 = u / 2 ^ 21 from by omega,
    show u / 4096 * 4096 / 2 ^ 12 = u / 2 ^ 12 from by omega]
  exact ⟨rfl, rfl⟩

theorem leafEntry_page {n : ℕ} (hn : n < 2 ^ 40) :
    leafEntry (n * 4096) pagingFlagsAll = n * 4096 + 7 := by
  have hmask : n * 4096 &&& 0xFFFFFFFFFF000 = n * 4096 := by
    show tableOf (n * 4096) = n * 4096
    rw [tableOf_eq]
    omega
  rw [leafEntry, hmask, show pagingFlagsAll = 7 from by decide, or_flags (by omega) (by decide)]
  omega

/-! ### The root -/

/-- A memory manager from which `vmm_init` gets all its tables: physical addresses of 52 bits, the null
address reserved, and 259 free blocks besides `spare` ones. -/
structure Boots (s : VmState) (spare : ℕ) : Prop where
  total : s.pmm.totalBlocks ≤ 2 ^ 40
  zero : testBit s.pmm.bitmap 0 = true
  blocks : 259 + spare ≤ (freeBlocks s.pmm).card

section Init

variable {s : VmState} {spare : ℕ}

theorem kernelRoot_eq (s : VmState) :
    kernelRoot s = { s with mem := fill s.mem (pmmAllocBlock s.pmm).1 pageSize 0
                            pmm := (pmmAllocBlock s.pmm).2
                            kernelPml4 := (pmmAllocBlock s.pmm).1 } := rfl

theorem kernelRoot_pmm (s : VmState) : (kernelRoot s).pmm = (pmmAllocBlock s.pmm).2 := rfl

theorem kernelRoot_kernelPml4 (s : VmState) : (kernelRoot s).kernelPml4 = (pmmAllocBlock s.pmm).1 := rfl

/-- The kernel's PML4 before the loop: a table without entries. -/
theorem kernelRoot_empty (s : VmState) (k : Fin 512) :
    present (entry (kernelRoot s).mem (kernelRoot s).kernelPml4 k) = false := by
  have halign := pmmAllocBlock_aligned s.pmm
  have hzero : entry (fill s.mem (pmmAllocBlock s.pmm).1 pageSize 0) (pmmAllocBlock s.pmm).1 k = 0 := by
    rw [entry_fill _ halign halign, if_pos rfl]
  rw [kernelRoot_eq, hzero]
  rfl

theorem kernelRoot_aligned (s : VmState) : (kernelRoot s).kernelPml4 % 4096 = 0 :=
  pmmAllocBlock_aligned s.pmm

theorem kernelRoot_spec (h : Boots s spare) :
    TablesOk (kernelRoot s) (fun r => r = (kernelRoot s).kernelPml4) ∧
      258 + spare ≤ (freeBlocks (kernelRoot s).pmm).card := by
  have hblocks := h.blocks
  have h0 := pmmAllocBlock_ne_zero h.zero (show 0 < (freeBlocks s.pmm).card from by omega)
  have hcard := freeBlocks_card_alloc h0
  obtain ⟨i, haddr, -, -, -, hstate⟩ := pmmAllocBlock_fresh s.pmm h0
  have hused : testBit (kernelRoot s).pmm.bitmap ((kernelRoot s).kernelPml4 / 4096) = true := by
    rw [kernelRoot_eq, hstate, haddr, blockSize, Nat.mul_div_cancel _ (by decide)]
    simp [testBit_setBit]
  have hforest := forest_empty (kernelRoot_empty s) (kernelRoot_aligned s) hused
  have htotal : (kernelRoot s).pmm.totalBlocks ≤ 2 ^ 40 := by
    rw [kernelRoot_eq, pmmAllocBlock_totalBlocks]
    exact h.total
  refine ⟨hforest.tablesOk htotal (used_mono _ h.zero) (flagged_empty (kernelRoot_empty s)), ?_⟩
  show 258 + spare ≤ (freeBlocks (pmmAllocBlock s.pmm).2).card
  omega

/-! ### The loop -/

theorem identityLoop_succ (pml4 n addr : ℕ) (s : VmState) :
    identityLoop pml4 (n + 1) addr s =
      vmmMapPage (identityLoop pml4 n addr s) pml4 (addr + n * 4096) (addr + n * 4096) pagingFlagsAll := by
  induction n generalizing addr s with
  | zero =>
    rw [Nat.zero_mul, Nat.add_zero]
    rfl
  | succ n ih =>
    rw [identityLoop, ih, identityLoop, pageSize,
      show addr + 4096 + n * 4096 = addr + (n + 1) * 4096 from by omega]

/-- The tables below the PML4 after `n` pages: a PDPT, a PD and a page table for every 512 pages. -/
def tablesFor (n : ℕ) : ℕ := if n = 0 then 0 else 2 + (n + 511) / 512

/-- **The identity map of the pages below `n`**, with the calls of `pmm_alloc_block` since `p₀`. -/
structure IdentityTree (s : VmState) (pml4 n : ℕ) (p₀ : PmmState) : Prop where
  forest : Forest s (fun r => r = pml4)
  plain : Flagged (· = 7) s.mem (fun r => r = pml4)
  kernelPml4 : s.kernelPml4 = pml4
  pages : ∀ u, u < 2 ^ 48 →
    pageEntry s.mem pml4 u = if u / 4096 < n then some (u / 4096 * 4096 + 7) else none
  calls : ∃ k, k ≤ tablesFor n ∧ s.pmm = pmmAfter k p₀
  /-- a table is the root or was a free block -/
  tables : ∀ t, Node (next s.mem) (fun r => r = pml4) 3 t → t = pml4 ∨ testBit p₀.bitmap (t / 4096) = false

/-- The blocks for the page are there, with 52-bit addresses. -/
def Supplied (s : VmState) (pml4 vaddr : ℕ) : Prop :=
  LowBlocks s pml4 vaddr ∧ (descend s pml4 (dirs vaddr)).1 ≠ none

section Tree

variable {pml4 n : ℕ} {p₀ : PmmState}

/-- The tables on the way to the next page that are still missing. -/
theorem IdentityTree.missing (h : IdentityTree s pml4 n p₀) (hn : n < 131072) :
    ∃ p rest t, dirs (n * 4096) = p ++ rest ∧ reach (next s.mem) pml4 p = some t ∧
      tablesFor n + rest.length ≤ tablesFor (n + 1) := by
  -- a page that is mapped has a page table
  have htable : ∀ k, k < n → ∃ pt, reach (next s.mem) pml4 (dirs (k * 4096)) = some pt := by
    intro k hk
    have hpage := h.pages (k * 4096) (by omega)
    rw [if_pos (by omega)] at hpage
    obtain ⟨pt, hpt, -⟩ := Option.bind_eq_some_iff.mp hpage
    exact ⟨pt, hpt⟩
  rw [tablesFor, tablesFor, if_neg (Nat.succ_ne_zero n)]
  by_cases h0 : n = 0
  · refine ⟨[], dirs (n * 4096), pml4, rfl, rfl, ?_⟩
    rw [if_pos h0, dirs_length]
    omega
  · rw [if_neg h0]
    by_cases hnew : n % 512 = 0
    · -- a new page table in the PD that page 0 made
      obtain ⟨pt, hpt⟩ := htable 0 (by omega)
      rw [dirs_page (by decide), show ([0, 0, Fin.ofNat 512 (0 / 512)] : List (Fin 512)) =
        [0, 0] ++ [Fin.ofNat 512 (0 / 512)] from rfl, reach_append] at hpt
      obtain ⟨pd, hpd, -⟩ := Option.bind_eq_some_iff.mp hpt
      refine ⟨[0, 0], [Fin.ofNat 512 (n / 512)], pd, dirs_page hn, hpd, ?_⟩
      rw [List.length_singleton]
      omega
    · -- the page before uses the same page table
      obtain ⟨pt, hpt⟩ := htable (n - 1) (by omega)
      have hsame : dirs ((n - 1) * 4096) = dirs (n * 4096) := by
        rw [dirs_page hn, dirs_page (by omega), show (n - 1) / 512 = n / 512 from by omega]
      rw [hsame] at hpt
      refine ⟨dirs (n * 4096), [], pt, (List.append_nil _).symm, hpt, ?_⟩
      rw [List.length_nil]
      omega

/-- One more page. -/
theorem IdentityTree.step (h : IdentityTree s pml4 n p₀) (hn : n < 131072)
    (hsupplied : Supplied s pml4 (n * 4096)) :
    IdentityTree (vmmMapPage s pml4 (n * 4096) (n * 4096) pagingFlagsAll) pml4 (n + 1) p₀ := by
  obtain ⟨hlow, hok⟩ := hsupplied
  obtain ⟨pt, hpt⟩ := Option.ne_none_iff_exists'.mp hok
  have hd := descends_root h.forest hlow
  refine ⟨forest_vmmMapPage h.forest hlow _ _, flagged_vmmMapPage h.forest hlow _ _ rfl h.plain, ?_, ?_,
    ?_, ?_⟩
  · rw [vmmMapPage_of_some hpt]
    exact hd.kernelPml4.trans h.kernelPml4
  · intro u hu
    rw [pageEntry_vmmMapPage h.forest hlow _ _ hok, leafEntry_page (by omega), h.pages u hu]
    by_cases hpage : indices u = indices (n * 4096)
    · have hun := (indices_eq_iff u (n * 4096)).mp hpage
      rw [SamePage] at hun
      have hn' : u / 4096 = n := by omega
      rw [if_pos hpage, if_pos (by rw [present_iff]; omega), if_pos (by omega), hn']
    · have hun : u / 4096 ≠ n := by
        intro heq
        apply hpage
        rw [indices_eq_iff, SamePage]
        omega
      rw [if_neg hpage]
      by_cases hlt : u / 4096 < n
      · rw [if_pos hlt, if_pos (by omega)]
      · rw [if_neg hlt, if_neg (by omega)]
  · obtain ⟨p, rest, t, hway, ht, hcount⟩ := h.missing hn
    obtain ⟨k, hk, hpmm⟩ := h.calls
    obtain ⟨k', hk', hpmm'⟩ := descend_calls s t rest
    refine ⟨k' + k, by omega, ?_⟩
    rw [vmmMapPage_pmm, hway, descend_append ht, hpmm', hpmm, pmmAfter_add]
  · intro x hx
    cases node_vmmMapPage h.forest hlow _ _ hx with
    | inl hold => exact h.tables x hold
    | inr hreturned =>
      right
      have hfree := hreturned.free
      obtain ⟨k, -, hpmm⟩ := h.calls
      rw [← Bool.not_eq_true] at hfree ⊢
      intro hused
      apply hfree
      rw [hpmm]
      exact (allocates_pmmAfter k p₀).later.used _ hused

/-- **The loop**, by induction on the number of pages done. -/
theorem identityLoop_tree (h : IdentityTree s pml4 0 p₀)
    (hsupplied : ∀ n, n < 131072 → IdentityTree (identityLoop pml4 n 0 s) pml4 n p₀ →
      Supplied (identityLoop pml4 n 0 s) pml4 (n * 4096)) (hn : n ≤ 131072) :
    IdentityTree (identityLoop pml4 n 0 s) pml4 n p₀ := by
  induction n with
  | zero => exact h
  | succ n ih =>
    have hdone := ih (by omega)
    have hstep := hdone.step (by omega) (hsupplied n (by omega) hdone)
    rw [identityLoop_succ, Nat.zero_add]
    exact hstep

/-- Enough blocks at the start are enough for every page. -/
theorem IdentityTree.supplied (h : IdentityTree s pml4 n p₀) (hn : n < 131072)
    (hblocks : ∀ k, k < 258 → (pmmAllocBlock (pmmAfter k p₀)).1 ≠ 0 ∧
      (pmmAllocBlock (pmmAfter k p₀)).1 < 2 ^ 52) : Supplied s pml4 (n * 4096) := by
  obtain ⟨p, rest, t, hway, ht, hcount⟩ := h.missing hn
  obtain ⟨k, hk, hpmm⟩ := h.calls
  have hlast : tablesFor (n + 1) ≤ 258 := by
    rw [tablesFor, if_neg (Nat.succ_ne_zero n)]
    omega
  rw [Supplied, LowBlocks, hway, descend_append ht]
  refine ⟨?_, ?_⟩
  · intro a ha
    obtain ⟨k', hk', hpmm'⟩ := descend_calls s t rest
    rw [hpmm'] at ha
    obtain ⟨j, hj, haddr⟩ := returned_pmmAfter ha
    rw [hpmm, ← pmmAfter_add] at haddr
    rw [← haddr]
    exact (hblocks (j + k) (by omega)).2
  · intro hnone
    obtain ⟨k', hk', h0, -⟩ := descend_stops hnone
    rw [hpmm, ← pmmAfter_add] at h0
    exact (hblocks (k' + k) (by omega)).1 h0

/-- The empty PML4 is the identity map of no page. -/
theorem kernelRoot_tree (s : VmState)
    (hused : testBit (kernelRoot s).pmm.bitmap ((kernelRoot s).kernelPml4 / 4096) = true) :
    IdentityTree (kernelRoot s) (kernelRoot s).kernelPml4 0 (kernelRoot s).pmm := by
  have hempty := kernelRoot_empty s
  refine ⟨forest_empty hempty (kernelRoot_aligned s) hused, flagged_empty hempty, rfl, ?_,
    ⟨0, Nat.zero_le _, rfl⟩, ?_⟩
  · intro u _
    rw [pageEntry_empty hempty, if_neg (Nat.not_lt_zero _)]
  · rintro t ⟨r, q, rfl, -, ht⟩
    exact Or.inl (reach_empty hempty ht).2

theorem IdentityTree.switch (h : IdentityTree s pml4 n p₀) (pml4' : ℕ) :
    IdentityTree (vmmSwitchPml4 s pml4') pml4 n p₀ :=
  ⟨Forest.transfer (s := s) (fun _ _ _ => rfl) h.forest (fun _ hi => hi), h.plain, h.kernelPml4, h.pages,
    h.calls, h.tables⟩

end Tree

theorem vmmInit_eq (s : VmState) :
    vmmInit s = vmmSwitchPml4 (identityLoop (kernelRoot s).kernelPml4 131072 0 (kernelRoot s))
      (kernelRoot s).kernelPml4 := by
  rw [vmmInit, show identityMapEnd / pageSize = 131072 from by decide]

theorem vmmSwitchPml4_kernelPml4 (s : VmState) (pml4 : ℕ) :
    (vmmSwitchPml4 s pml4).kernelPml4 = s.kernelPml4 := rfl

theorem nextTable_kernelPml4 (s : VmState) (t : ℕ) (i : Fin 512) :
    (nextTable s t i).2.kernelPml4 = s.kernelPml4 := by
  cases hpresent : present (entry s.mem t i) with
  | true => rw [nextTable_of_next (next_eq_some hpresent)]
  | false =>
    rw [nextTable_absent hpresent]
    split
    · rfl
    · rfl

theorem descend_kernelPml4 (s : VmState) (t : ℕ) (rest : List (Fin 512)) :
    (descend s t rest).2.kernelPml4 = s.kernelPml4 := by
  induction rest generalizing s t with
  | nil => rfl
  | cons i rest ih =>
    have hone := nextTable_kernelPml4 s t i
    rw [descend]
    generalize nextTable s t i = r at hone
    obtain ⟨o, s₁⟩ := r
    cases o with
    | none => exact hone
    | some y => exact (ih s₁ y).trans hone

theorem identityLoop_kernelPml4 (pml4 n addr : ℕ) (s : VmState) :
    (identityLoop pml4 n addr s).kernelPml4 = s.kernelPml4 := by
  induction n with
  | zero => rfl
  | succ n ih =>
    rw [identityLoop_succ]
    generalize identityLoop pml4 n addr s = s₁ at ih
    rw [← ih, ← descend_kernelPml4 s₁ pml4 (dirs (addr + n * 4096))]
    cases hdown : (descend s₁ pml4 (dirs (addr + n * 4096))).1 with
    | none => rw [vmmMapPage_of_none hdown]
    | some pt => rw [vmmMapPage_of_some hdown]

/-- The PML4 is the first block. -/
theorem vmmInit_kernelPml4 (s : VmState) : (vmmInit s).kernelPml4 = (pmmAllocBlock s.pmm).1 := by
  rw [vmmInit_eq, vmmSwitchPml4_kernelPml4, identityLoop_kernelPml4, kernelRoot_kernelPml4]

/-- **`vmm_init`**, when every page gets its blocks. -/
theorem vmmInit_tree (hused : testBit (kernelRoot s).pmm.bitmap ((kernelRoot s).kernelPml4 / 4096) = true)
    (hsupplied : ∀ n, n < 131072 →
      IdentityTree (identityLoop (kernelRoot s).kernelPml4 n 0 (kernelRoot s)) (kernelRoot s).kernelPml4 n
        (kernelRoot s).pmm →
      Supplied (identityLoop (kernelRoot s).kernelPml4 n 0 (kernelRoot s)) (kernelRoot s).kernelPml4
        (n * 4096)) :
    IdentityTree (vmmInit s) (vmmInit s).kernelPml4 131072 (kernelRoot s).pmm := by
  have hloop := (identityLoop_tree (kernelRoot_tree s hused) hsupplied (Nat.le_refl 131072)).switch
    (kernelRoot s).kernelPml4
  rw [← vmmInit_eq] at hloop
  rw [hloop.kernelPml4]
  exact hloop

/-! ### A machine with room to spare -/

/-- The pages below `n` are mapped to themselves, and the blocks for the rest are left. -/
structure IdentityUpTo (s : VmState) (pml4 n spare : ℕ) (p₀ : PmmState) : Prop where
  ok : TablesOk s (fun r => r = pml4)
  kernelPml4 : s.kernelPml4 = pml4
  pages : ∀ k, k < n → Mapped s pml4 (k * 4096) (k * 4096 + 7)
  blocks : (if n = 0 then 258 else 256 - (n + 511) / 512) + spare ≤ (freeBlocks s.pmm).card
  pmm : Later p₀ s.pmm

/-- **`vmm_init`**: one address space, in which the pages below 512 MB are mapped to themselves. -/
theorem vmmInit_spec (h : Boots s spare) :
    IdentityUpTo (vmmInit s) (vmmInit s).kernelPml4 131072 spare s.pmm := by
  obtain ⟨hok, hblocks⟩ := kernelRoot_spec h
  have hcalls : ∀ k, k < 258 → (pmmAllocBlock (pmmAfter k (kernelRoot s).pmm)).1 ≠ 0 ∧
      (pmmAllocBlock (pmmAfter k (kernelRoot s).pmm)).1 < 2 ^ 52 := by
    intro k hk
    have hlater := (allocates_pmmAfter k (kernelRoot s).pmm).later
    have hcard := card_pmmAfter (kernelRoot s).pmm k
    have h0 := pmmAllocBlock_ne_zero (hlater.used 0 hok.zero) (by omega)
    obtain ⟨i, haddr, hi, -⟩ := pmmAllocBlock_fresh _ h0
    refine ⟨h0, ?_⟩
    have htotal := hok.total
    rw [hlater.total] at hi
    rw [haddr, blockSize]
    omega
  have htree := vmmInit_tree (s := s) (hok.used _ ⟨_, [], rfl, Nat.zero_le 3, rfl⟩)
    (fun n hn hdone => hdone.supplied hn hcalls)
  obtain ⟨k, hk, hpmm⟩ := htree.calls
  have hlater : Later (kernelRoot s).pmm (vmmInit s).pmm := by
    rw [hpmm]
    exact (allocates_pmmAfter k _).later
  refine ⟨htree.forest.tablesOk ?_ (hlater.used 0 hok.zero) htree.plain, rfl, ?_, ?_,
    (later_alloc s.pmm).trans hlater⟩
  · rw [hlater.total]
    exact hok.total
  · intro n hn
    have hpage := htree.pages (n * 4096) (by omega)
    rw [if_pos (by omega), Nat.mul_div_cancel _ (by decide)] at hpage
    obtain ⟨pt, hpt, hentry⟩ := Option.bind_eq_some_iff.mp hpage
    refine ⟨pt, hpt, ?_⟩
    split at hentry
    · exact Option.some.inj hentry
    · cases hentry
  · have hcard := card_pmmAfter (kernelRoot s).pmm k
    rw [← hpmm] at hcard
    rw [tablesFor, if_neg (by decide)] at hk
    rw [if_neg (by decide)]
    omega

/-- A page mapped to itself translates to itself, byte by byte. -/
theorem translate_identity {root : ℕ → Prop} {Q u : ℕ} (h : TablesOk s root) (hQ : root Q)
    (hu : u < identityMapEnd) (hm : Mapped s Q (u / 4096 * 4096) (u / 4096 * 4096 + 7)) :
    translate s.mem Q u = some u := by
  rw [identityMapEnd] at hu
  have hmapped : Mapped s Q u (u / 4096 * 4096 + 7) := by
    rw [Mapped, (indices_base u).1, (indices_base u).2]
    exact hm
  rw [translate_of_mapped h hQ hmapped (by rw [present_iff]; omega), tableOf_pointer (by omega) (by omega)]
  congr 1
  omega

end Init

end OsEojin.Vmm
