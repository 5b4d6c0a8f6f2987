import OsEojin.Vmm
import OsEojin.PmmInit
import OsEojin.Lib.Forests

/-!
# The tables as a forest

The present entries of the upper three levels make the tables of all address spaces a forest, whose roots
are the PML4s.  `vmm_map_page` walks down from its root, hangs an empty table into every empty slot it
meets, and sets one entry of the table it arrives at.

* `next`: the table behind an entry;
* `Forest`: the tables are different used blocks, shared at most through entry 0 of the roots;
* `TablesOk`: the same on a machine whose blocks have 52-bit addresses, with the flags of the entries;
* `Forest.transfer`: what leaves them alone;
* `pageEntry`: the entry for an address, which new tables do not change;
* `Descends`, `descend_forest`: what the way down does;
* `forest_putLeaf`: setting the entry of a page.
-/

namespace OsEojin.Vmm

open OsEojin.Lib.ByteMemory OsEojin.Lib.Forests OsEojin.Pmm

/-- The table behind entry `i`. -/
def next (m : Memory) (table : ℕ) (i : Fin 512) : Option ℕ :=
  if present (entry m table i) then some (tableOf (entry m table i)) else none

/-- **The shape of the tables** of the address spaces with the given roots. -/
structure Forest (s : VmState) (root : ℕ → Prop) : Prop where
  aligned : ∀ r, root r → r % 4096 = 0
  used : ∀ t, Node (next s.mem) root 3 t → testBit s.pmm.bitmap (t / 4096) = true
  separated : Separated (next s.mem) root (fun i => i = 0) 3

/-- What the low bits of the entries for tables are like. -/
def Flagged (φ : ℕ → Prop) (m : Memory) (root : ℕ → Prop) : Prop :=
  ∀ t k, Node (next m) root 2 t → present (entry m t k) = true → φ (entry m t k % 4096)

/-- **The tables of the address spaces with the given roots.** -/
structure TablesOk (s : VmState) (root : ℕ → Prop) : Prop where
  /-- physical addresses have 52 bits -/
  total : s.pmm.totalBlocks ≤ 2 ^ 40
  /-- the null address is not a block -/
  zero : testBit s.pmm.bitmap 0 = true
  aligned : ∀ r, root r → r % 4096 = 0
  used : ∀ t, Node (next s.mem) root 3 t → testBit s.pmm.bitmap (t / 4096) = true
  separated : Separated (next s.mem) root (fun i => i = 0) 3
  /-- an entry for a table carries the three flags and no other -/
  plain : ∀ t k, Node (next s.mem) root 2 t → present (entry s.mem t k) = true →
    entry s.mem t k % 4096 = 7

/-- The byte at `x` is in no table. -/
def OffTables (m : Memory) (root : ℕ → Prop) (x : ℕ) : Prop :=
  ∀ t, Node (next m) root 3 t → ¬ (t ≤ x ∧ x < t + pageSize)

/-- The entry that the tables of `r` hold for the address, when it is present. -/
def pageEntry (m : Memory) (r vaddr : ℕ) : Option ℕ :=
  (reach (next m) r (dirs vaddr)).bind fun pt =>
    if present (entry m pt (ptIndex vaddr)) then some (entry m pt (ptIndex vaddr)) else none

theorem dirs_length (vaddr : ℕ) : (dirs vaddr).length = 3 := rfl

section Tables

variable {s : VmState} {m m' : Memory} {root : ℕ → Prop} {φ : ℕ → Prop} {t x : ℕ} {i k : Fin 512}

theorem next_eq_none (h : present (entry m t i) = false) : next m t i = none := by
  rw [next, h]
  rfl

theorem next_eq_some (h : present (entry m t i) = true) : next m t i = some (tableOf (entry m t i)) := by
  rw [next, h]
  rfl

theorem present_of_next_eq_none (h : next m t i = none) : present (entry m t i) = false := by
  rw [← Bool.not_eq_true]
  intro hpresent
  rw [next_eq_some hpresent] at h
  cases h

theorem next_congr (h : entry m' t i = entry m t i) : next m' t i = next m t i := by
  rw [next, next, h]

theorem node_mono {d d' : ℕ} (hd : d ≤ d') (h : Node (next m) root d t) : Node (next m) root d' t := by
  obtain ⟨r, p, hr, hp, ht⟩ := h
  exact ⟨r, p, hr, le_trans hp hd, ht⟩

/-- Tables are page-aligned. -/
theorem node_aligned (haligned : ∀ r, root r → r % 4096 = 0) {d : ℕ} (h : Node (next m) root d t) :
    t % 4096 = 0 := by
  obtain ⟨r, p, hr, -, ht⟩ := h
  induction p using List.reverseRecOn with
  | nil =>
    obtain rfl := Option.some.inj ht
    exact haligned r hr
  | append_singleton q j _ =>
    rw [reach_concat] at ht
    obtain ⟨y, -, hy⟩ := Option.bind_eq_some_iff.mp ht
    rw [next] at hy
    split at hy
    · obtain rfl := Option.some.inj hy
      exact tableOf_aligned _
    · cases hy

theorem Forest.aligned_of_node (h : Forest s root) {d : ℕ} (ht : Node (next s.mem) root d t) :
    t % 4096 = 0 :=
  node_aligned h.aligned ht

theorem TablesOk.forest (h : TablesOk s root) : Forest s root := ⟨h.aligned, h.used, h.separated⟩

theorem TablesOk.flagged (h : TablesOk s root) : Flagged (· = 7) s.mem root := h.plain

theorem Forest.tablesOk (h : Forest s root) (htotal : s.pmm.totalBlocks ≤ 2 ^ 40)
    (hzero : testBit s.pmm.bitmap 0 = true) (hflags : Flagged (· = 7) s.mem root) : TablesOk s root :=
  ⟨htotal, hzero, h.aligned, h.used, h.separated, hflags⟩

theorem TablesOk.aligned_of_node (h : TablesOk s root) {d : ℕ} (ht : Node (next s.mem) root d t) :
    t % 4096 = 0 :=
  h.forest.aligned_of_node ht

/-- A block that was free is not a table. -/
theorem Forest.fresh (h : Forest s root) (h0 : (pmmAllocBlock s.pmm).1 ≠ 0) :
    ¬ Node (next s.mem) root 3 (pmmAllocBlock s.pmm).1 := by
  intro hnode
  obtain ⟨i, haddr, -, hfree, -, -⟩ := pmmAllocBlock_fresh s.pmm h0
  have hused := h.used _ hnode
  rw [haddr, blockSize, Nat.mul_div_cancel _ (by decide), hfree] at hused
  cases hused

theorem TablesOk.fresh (h : TablesOk s root) (h0 : (pmmAllocBlock s.pmm).1 ≠ 0) :
    ¬ Node (next s.mem) root 3 (pmmAllocBlock s.pmm).1 :=
  h.forest.fresh h0

theorem TablesOk.block_lt (h : TablesOk s root) (h0 : (pmmAllocBlock s.pmm).1 ≠ 0) :
    (pmmAllocBlock s.pmm).1 < 2 ^ 52 := by
  obtain ⟨i, haddr, hlt, -, -, -⟩ := pmmAllocBlock_fresh s.pmm h0
  have htotal := h.total
  rw [haddr, blockSize]
  omega

/-- Entries lie in their table's page. -/
theorem entry_of_page {m m' : Memory} {t : ℕ} (h : ∀ x, t ≤ x → x < t + pageSize → m' x = m x)
    (k : Fin 512) : entry m' t k = entry m t k := by
  have hk := k.isLt
  apply readLe_congr
  intro x hx hx'
  exact h x (by omega) (by rw [pageSize]; omega)

/-- Writing a block that is not a table changes no table. -/
theorem Forest.entry_of_block (h : Forest s root) {a : ℕ} {mem : Memory} (ha : a % 4096 = 0)
    (hnode : ¬ Node (next s.mem) root 3 a) (hmem : ∀ x, x < a ∨ a + pageSize ≤ x → mem x = s.mem x)
    (ht : Node (next s.mem) root 3 t) (k : Fin 512) : entry mem t k = entry s.mem t k := by
  have halign := h.aligned_of_node ht
  have hne : t ≠ a := by
    rintro rfl
    exact hnode ht
  apply entry_of_page
  intro x hx hx'
  rw [pageSize] at hx'
  apply hmem
  rw [pageSize]
  omega

/-- A failed allocation changes nothing. -/
theorem TablesOk.alloc_zero (h : TablesOk s root) (h0 : (pmmAllocBlock s.pmm).1 = 0) :
    (pmmAllocBlock s.pmm).2 = s.pmm := by
  cases pmmAllocBlock_cases s.pmm with
  | inl hsome =>
    obtain ⟨i, -, hi, -, heq⟩ := hsome
    rw [heq] at h0
    have hi0 : i = 0 := by
      simp only [blockSize] at h0
      omega
    rw [hi0, h.zero] at hi
    cases hi
  | inr hnone => rw [hnone.2]

section Transfer

variable {s' : VmState} (hentry : ∀ t k, Node (next s.mem) root 3 t → entry s'.mem t k = entry s.mem t k)
include hentry

/-- Stores that miss every table leave the ways to them alone. -/
theorem reach_transfer {r : ℕ} {q : List (Fin 512)} (hr : root r) (hq : q.length ≤ 3) :
    reach (next s'.mem) r q = reach (next s.mem) r q :=
  reach_of_nodes (fun x k hx => next_congr (hentry x k hx)) hr hq

/-- **What leaves the tables alone**: allocations, and stores that miss every table. -/
theorem Forest.transfer (h : Forest s root)
    (hused : ∀ i, testBit s.pmm.bitmap i = true → testBit s'.pmm.bitmap i = true) : Forest s' root := by
  refine ⟨h.aligned, ?_, ?_⟩
  · rintro t ⟨r, q, hr, hq, ht⟩
    rw [reach_transfer hentry hr hq] at ht
    exact hused _ (h.used t ⟨r, q, hr, hq, ht⟩)
  · intro r r' q q' t hr hr' hq hq' ht ht'
    rw [reach_transfer hentry hr hq] at ht
    rw [reach_transfer hentry hr' hq'] at ht'
    exact h.separated r r' q q' t hr hr' hq hq' ht ht'

theorem Flagged.transfer (h : Flagged φ s.mem root) : Flagged φ s'.mem root := by
  rintro t k ⟨r, q, hr, hq, ht⟩ hpresent
  rw [reach_transfer hentry hr (by omega)] at ht
  have hnode : Node (next s.mem) root 2 t := ⟨r, q, hr, hq, ht⟩
  rw [hentry t k (node_mono (by decide) hnode)] at hpresent ⊢
  exact h t k hnode hpresent

theorem pageEntry_transfer {r : ℕ} (hr : root r) (u : ℕ) : pageEntry s'.mem r u = pageEntry s.mem r u := by
  have hlen := le_of_eq (dirs_length u)
  rw [pageEntry, pageEntry, reach_transfer hentry hr hlen]
  cases hpt : reach (next s.mem) r (dirs u) with
  | none => rw [Option.bind_none, Option.bind_none]
  | some pt => rw [Option.bind_some, Option.bind_some, hentry pt _ ⟨r, dirs u, hr, hlen, hpt⟩]

end Transfer

theorem TablesOk.transfer {s' : VmState} (h : TablesOk s root) (hpmm : Later s.pmm s'.pmm)
    (hentry : ∀ t k, Node (next s.mem) root 3 t → entry s'.mem t k = entry s.mem t k) :
    TablesOk s' root :=
  (h.forest.transfer hentry hpmm.used).tablesOk (by rw [hpmm.total]; exact h.total)
    (hpmm.used _ h.zero) (h.flagged.transfer hentry)

/-! ### An empty table -/

section Empty

variable (hempty : ∀ k, present (entry s.mem t k) = false)
include hempty

/-- From a table without entries no way leads on. -/
theorem reach_empty {p : List (Fin 512)} (hx : reach (next s.mem) t p = some x) : p = [] ∧ x = t := by
  cases p with
  | nil => exact ⟨rfl, (Option.some.inj hx).symm⟩
  | cons k p =>
    rw [reach_cons, next_eq_none (hempty k)] at hx
    cases hx

theorem forest_empty (halign : t % 4096 = 0) (hused : testBit s.pmm.bitmap (t / 4096) = true) :
    Forest s (fun r => r = t) := by
  refine ⟨?_, ?_, ?_⟩
  · rintro r rfl
    exact halign
  · rintro x ⟨r, p, rfl, -, hx⟩
    rw [(reach_empty hempty hx).2]
    exact hused
  · rintro r r' p p' x rfl rfl - - hx hx'
    exact ⟨(reach_empty hempty hx).1.trans (reach_empty hempty hx').1.symm, Or.inl rfl⟩

theorem flagged_empty : Flagged φ s.mem (fun r => r = t) := by
  rintro x k ⟨r, p, rfl, -, hx⟩ hpresent
  rw [(reach_empty hempty hx).2, hempty] at hpresent
  cases hpresent

theorem pageEntry_empty (u : ℕ) : pageEntry s.mem t u = none := by
  rw [pageEntry, dirs, reach_cons, next_eq_none (hempty _)]
  rfl

end Empty

/-! ### One level -/

/-- The memory with a new table for entry `i` of `table`. -/
def hang (s : VmState) (table : ℕ) (i : Fin 512) : VmState :=
  { s with
    mem := putEntry (fill s.mem (pmmAllocBlock s.pmm).1 pageSize 0) table i ((pmmAllocBlock s.pmm).1 + 7)
    pmm := (pmmAllocBlock s.pmm).2 }

theorem hang_pmm (s : VmState) (table : ℕ) (i : Fin 512) : (hang s table i).pmm = (pmmAllocBlock s.pmm).2 := rfl

section Hang

variable (h : Forest s root) (ht : Node (next s.mem) root 2 t) (h0 : (pmmAllocBlock s.pmm).1 ≠ 0)
  (hlt : (pmmAllocBlock s.pmm).1 < 2 ^ 52)
include h ht h0 hlt

omit h0 in
/-- The entries after a table was hung in. -/
theorem entry_hang (hx : x % 4096 = 0) :
    entry (hang s t i).mem x k = if x = t ∧ k = i then (pmmAllocBlock s.pmm).1 + 7 else
      if x = (pmmAllocBlock s.pmm).1 then 0 else entry s.mem x k := by
  have halign := pmmAllocBlock_aligned s.pmm
  rw [hang, entry_putEntry _ (h.aligned_of_node ht) hx, entry_fill _ halign hx]
  congr 1
  omega

/-- Hanging in a table, in the terms of the forest. -/
theorem grows_hang (hnone : next s.mem t i = none) :
    Grows (next s.mem) (next (hang s t i).mem) (Node (next s.mem) root 3) t i
      (pmmAllocBlock s.pmm).1 := by
  have hfresh := h.fresh h0
  have halign := pmmAllocBlock_aligned s.pmm
  have htalign := h.aligned_of_node ht
  have hat : (pmmAllocBlock s.pmm).1 ≠ t := by
    intro heq
    exact hfresh (heq ▸ node_mono (by decide) ht)
  refine ⟨hnone, ?_, ?_, hfresh, ?_⟩
  · have hentry : entry (hang s t i).mem t i = (pmmAllocBlock s.pmm).1 + 7 := by
      rw [entry_hang h ht hlt htalign, if_pos ⟨rfl, rfl⟩]
    rw [next_eq_some, hentry, tableOf_pointer halign hlt]
    rw [hentry, present_iff]
    rw [blockSize] at halign
    omega
  · intro y j hy hne
    apply next_congr
    rw [entry_hang h ht hlt (h.aligned_of_node hy), if_neg (not_and_or.mpr hne), if_neg]
    rintro rfl
    exact hfresh hy
  · intro j
    apply next_eq_none
    rw [entry_hang h ht hlt halign, if_neg (fun hb => hat hb.1), if_pos rfl]
    rfl

/-- Hanging in a table keeps the forest in order. -/
theorem forest_hang (hnone : next s.mem t i = none) : Forest (hang s t i) root := by
  have hgrows := grows_hang h ht h0 hlt hnone
  obtain ⟨j, haddr, -, -, -, hstate⟩ := pmmAllocBlock_fresh s.pmm h0
  refine ⟨h.aligned, ?_, h.separated.grows hgrows⟩
  rintro y ⟨r, p, hr, hp, hy⟩
  cases hgrows.reach_cases hr hp hy with
  | inl hold => exact used_mono _ (h.used y ⟨r, p, hr, hp, hold⟩)
  | inr hnew =>
    rw [hang, hnew.1, hstate, haddr, blockSize, Nat.mul_div_cancel _ (by decide)]
    simp [testBit_setBit]

theorem flagged_hang (hφ : φ 7) (hflags : Flagged φ s.mem root) (hnone : next s.mem t i = none) :
    Flagged φ (hang s t i).mem root := by
  have hgrows := grows_hang h ht h0 hlt hnone
  rintro y j ⟨r, p, hr, hp, hy⟩ hpresent
  have halign : y % 4096 = 0 := node_aligned h.aligned ⟨r, p, hr, hp, hy⟩
  rw [entry_hang h ht hlt halign] at hpresent ⊢
  by_cases hslot : y = t ∧ j = i
  · have hblock := pmmAllocBlock_aligned s.pmm
    rw [blockSize] at hblock
    rw [if_pos hslot, show ((pmmAllocBlock s.pmm).1 + 7) % 4096 = 7 from by omega]
    exact hφ
  · rw [if_neg hslot] at hpresent ⊢
    by_cases hnew : y = (pmmAllocBlock s.pmm).1
    · rw [if_pos hnew] at hpresent
      exact absurd hpresent (by decide)
    · rw [if_neg hnew] at hpresent ⊢
      cases hgrows.reach_cases hr (by omega) hy with
      | inl hold => exact hflags y j ⟨r, p, hr, hp, hold⟩ hpresent
      | inr hcase => exact absurd hcase.1 hnew

/-- A new table holds no page, so every address keeps its entry. -/
theorem pageEntry_hang (hnone : next s.mem t i = none) {r : ℕ} (hr : root r) (u : ℕ) :
    pageEntry (hang s t i).mem r u = pageEntry s.mem r u := by
  have hgrows := grows_hang h ht h0 hlt hnone
  have hlen := le_of_eq (dirs_length u)
  rw [pageEntry, pageEntry]
  cases hold : reach (next s.mem) r (dirs u) with
  | some pt =>
    have hnode : Node (next s.mem) root 3 pt := ⟨r, dirs u, hr, hlen, hold⟩
    have hpt : pt ≠ t := by
      rintro rfl
      -- `t` is above the last level
      obtain ⟨P, p, hP, hp, hreach⟩ := ht
      obtain ⟨heq, -⟩ := h.separated P r p (dirs u) pt hP hr (by omega) hlen hreach hold
      rw [heq, dirs_length] at hp
      omega
    have hsame : entry (hang s t i).mem pt (ptIndex u) = entry s.mem pt (ptIndex u) := by
      rw [entry_hang h ht hlt (h.aligned_of_node hnode), if_neg (fun hb => hpt hb.1), if_neg]
      rintro rfl
      exact h.fresh h0 hnode
    rw [hgrows.reach_old hr hlen hold, Option.bind_some, Option.bind_some, hsame]
  | none =>
    cases hnew : reach (next (hang s t i).mem) r (dirs u) with
    | none => rw [Option.bind_none, Option.bind_none]
    | some y =>
      cases hgrows.reach_cases hr hlen hnew with
      | inl hthere =>
        rw [hold] at hthere
        cases hthere
      | inr hblock =>
        rw [Option.bind_some, hblock.1, present_of_next_eq_none (hgrows.empty (ptIndex u))]
        rfl

end Hang

theorem TablesOk.hang (h : TablesOk s root) (ht : Node (next s.mem) root 2 t)
    (h0 : (pmmAllocBlock s.pmm).1 ≠ 0) (hnone : next s.mem t i = none) : TablesOk (hang s t i) root := by
  have hlt := h.block_lt h0
  refine (forest_hang h.forest ht h0 hlt hnone).tablesOk ?_ (used_mono _ h.zero)
    (flagged_hang h.forest ht h0 hlt rfl h.flagged hnone)
  rw [Vmm.hang, pmmAllocBlock_totalBlocks]
  exact h.total

theorem nextTable_of_next {y : ℕ} (h : next s.mem t i = some y) : nextTable s t i = (some y, s) := by
  rw [next] at h
  split at h
  · rename_i hpresent
    rw [nextTable, if_pos hpresent, h]
  · cases h

theorem nextTable_absent (habsent : present (entry s.mem t i) = false) :
    nextTable s t i = if (pmmAllocBlock s.pmm).1 = 0 then (none, { s with pmm := (pmmAllocBlock s.pmm).2 })
      else (some (tableOf (entry (hang s t i).mem t i)), hang s t i) := by
  rw [nextTable, if_neg (by rw [habsent]; decide), hang, ← pointer_eq (pmmAllocBlock_aligned s.pmm)]

/-- **One level** finds its table, hangs in a new one, or fails for want of a block. -/
theorem nextTable_forest (h : Forest s root) (ht : Node (next s.mem) root 2 t) (i : Fin 512)
    (hlt : (nextTable s t i).2.pmm = (pmmAllocBlock s.pmm).2 → (pmmAllocBlock s.pmm).1 ≠ 0 →
      (pmmAllocBlock s.pmm).1 < 2 ^ 52) :
    (∃ y, next s.mem t i = some y ∧ nextTable s t i = (some y, s)) ∨
      (next s.mem t i = none ∧ (pmmAllocBlock s.pmm).1 = 0 ∧
        nextTable s t i = (none, { s with pmm := (pmmAllocBlock s.pmm).2 })) ∨
      (next s.mem t i = none ∧ (pmmAllocBlock s.pmm).1 ≠ 0 ∧ (pmmAllocBlock s.pmm).1 < 2 ^ 52 ∧
        nextTable s t i = (some (pmmAllocBlock s.pmm).1, hang s t i)) := by
  cases hpresent : present (entry s.mem t i) with
  | true => exact Or.inl ⟨_, next_eq_some hpresent, nextTable_of_next (next_eq_some hpresent)⟩
  | false =>
    right
    have hnone := next_eq_none hpresent
    have heq := nextTable_absent hpresent
    by_cases h0 : (pmmAllocBlock s.pmm).1 = 0
    · rw [if_pos h0] at heq
      exact Or.inl ⟨hnone, h0, heq⟩
    · rw [if_neg h0] at heq
      have hlow := hlt (by rw [heq]; rfl) h0
      refine Or.inr ⟨hnone, h0, hlow, ?_⟩
      have hgrown := (grows_hang h ht h0 hlow hnone).slot
      rw [next] at hgrown
      split at hgrown
      · rw [heq]
        exact Prod.ext hgrown rfl
      · cases hgrown

theorem nextTable_cases (h : TablesOk s root) (ht : Node (next s.mem) root 2 t) (i : Fin 512) :
    (∃ y, next s.mem t i = some y ∧ nextTable s t i = (some y, s)) ∨
      (next s.mem t i = none ∧ (pmmAllocBlock s.pmm).1 = 0 ∧ nextTable s t i = (none, s)) ∨
      (next s.mem t i = none ∧ (pmmAllocBlock s.pmm).1 ≠ 0 ∧
        nextTable s t i = (some (pmmAllocBlock s.pmm).1, hang s t i)) := by
  rcases nextTable_forest h.forest ht i (fun _ h0 => h.block_lt h0) with hfound | ⟨hnone, h0, heq⟩ |
    ⟨hnone, h0, -, heq⟩
  · exact Or.inl hfound
  · rw [h.alloc_zero h0] at heq
    exact Or.inr (Or.inl ⟨hnone, h0, heq⟩)
  · exact Or.inr (Or.inr ⟨hnone, h0, heq⟩)

end Tables

/-! ### The way down -/

/-- The levels of `vmm_map_page` as one recursion over the indices. -/
def descend (s : VmState) (table : ℕ) : List (Fin 512) → Option ℕ × VmState
  | [] => (some table, s)
  | i :: rest =>
    match nextTable s table i with
    | (none, s) => (none, s)
    | (some table, s) => descend s table rest

theorem descend_cons {s s' : VmState} {t y : ℕ} {i : Fin 512} (h : nextTable s t i = (some y, s'))
    (rest : List (Fin 512)) : descend s t (i :: rest) = descend s' y rest := by
  rw [descend, h]

/-- `vmm_map_page` goes down three levels and sets an entry of the table it arrives at. -/
theorem vmmMapPage_eq (s : VmState) (pml4 vaddr paddr flags : ℕ) :
    vmmMapPage s pml4 vaddr paddr flags =
      match descend s pml4 (dirs vaddr) with
      | (none, s) => s
      | (some pt, s) =>
        { s with mem := putEntry s.mem pt (ptIndex vaddr) (paddr &&& 0xFFFFFFFFFF000 ||| flags) } := by
  rw [vmmMapPage, dirs, descend]
  rcases nextTable s pml4 (pml4Index vaddr) with ⟨_ | pdpt, s₁⟩
  · rfl
  simp only [descend]
  rcases nextTable s₁ pdpt (pdptIndex vaddr) with ⟨_ | pd, s₂⟩
  · rfl
  simp only
  rcases nextTable s₂ pd (pdIndex vaddr) with ⟨_ | pt, s₃⟩
  · rfl
  · rfl

/-! ### The calls of `pmm_alloc_block` -/

section Calls

variable {s : VmState} {t : ℕ}

/-- One level asks for at most one block. -/
theorem nextTable_calls (s : VmState) (t : ℕ) (i : Fin 512) :
    (nextTable s t i = (some (tableOf (entry s.mem t i)), s)) ∨
      (nextTable s t i).2.pmm = (pmmAllocBlock s.pmm).2 ∧
        ((nextTable s t i).1 = none → (pmmAllocBlock s.pmm).1 = 0) := by
  cases hpresent : present (entry s.mem t i) with
  | true =>
    left
    rw [nextTable, if_pos hpresent]
  | false =>
    right
    rw [nextTable_absent hpresent]
    split
    · rename_i h0
      exact ⟨rfl, fun _ => h0⟩
    · exact ⟨rfl, fun h => by cases h⟩

/-- The way down asks for at most one block at each level. -/
theorem descend_calls (s : VmState) (t : ℕ) (rest : List (Fin 512)) :
    ∃ k, k ≤ rest.length ∧ (descend s t rest).2.pmm = pmmAfter k s.pmm := by
  induction rest generalizing s t with
  | nil => exact ⟨0, Nat.le_refl 0, rfl⟩
  | cons i rest ih =>
    rw [descend]
    cases nextTable_calls s t i with
    | inl hfound =>
      rw [hfound]
      obtain ⟨k, hk, heq⟩ := ih s (tableOf (entry s.mem t i))
      exact ⟨k, Nat.le_succ_of_le hk, heq⟩
    | inr hasked =>
      generalize nextTable s t i = r at hasked
      obtain ⟨o, s₁⟩ := r
      cases o with
      | none => exact ⟨1, by simp, hasked.1⟩
      | some y =>
        obtain ⟨k, hk, heq⟩ := ih s₁ y
        refine ⟨k + 1, Nat.succ_le_succ hk, ?_⟩
        rw [pmmAfter_succ, ← hasked.1]
        exact heq

theorem allocates_descend (s : VmState) (t : ℕ) (rest : List (Fin 512)) :
    Allocates s.pmm (descend s t rest).2.pmm := by
  obtain ⟨k, -, heq⟩ := descend_calls s t rest
  rw [heq]
  exact allocates_pmmAfter k s.pmm

theorem allocates_descend_next (s : VmState) (t : ℕ) (i : Fin 512) (rest : List (Fin 512)) :
    Allocates (nextTable s t i).2.pmm (descend s t (i :: rest)).2.pmm := by
  rw [descend]
  generalize nextTable s t i = r
  obtain ⟨o, s₁⟩ := r
  cases o with
  | none => exact Allocates.refl _
  | some y => exact allocates_descend s₁ y rest

/-- It stops when a block is refused. -/
theorem descend_stops {rest : List (Fin 512)} (h : (descend s t rest).1 = none) :
    ∃ k, k < rest.length ∧ (pmmAllocBlock (pmmAfter k s.pmm)).1 = 0 ∧
      (descend s t rest).2.pmm = pmmAfter (k + 1) s.pmm := by
  induction rest generalizing s t with
  | nil => cases h
  | cons i rest ih =>
    rw [descend] at h ⊢
    cases nextTable_calls s t i with
    | inl hfound =>
      rw [hfound] at h ⊢
      obtain ⟨k, hk, h0, heq⟩ := ih h
      exact ⟨k, Nat.lt_succ_of_lt hk, h0, heq⟩
    | inr hasked =>
      generalize nextTable s t i = r at hasked h
      obtain ⟨o, s₁⟩ := r
      cases o with
      | none => exact ⟨0, Nat.succ_pos _, hasked.2 rfl, hasked.1⟩
      | some y =>
        obtain ⟨k, hk, h0, heq⟩ := ih h
        have hpmm : s₁.pmm = (pmmAllocBlock s.pmm).2 := hasked.1
        rw [hpmm, ← pmmAfter_succ] at h0 heq
        exact ⟨k + 1, Nat.succ_lt_succ hk, h0, heq⟩

end Calls

/-! ### What the way down does -/

/-- **What the way down from the table at `(P, p)` along `rest` does.** -/
structure Descends (root : ℕ → Prop) (P : ℕ) (p rest : List (Fin 512)) (s s' : VmState)
    (o : Option ℕ) : Prop where
  forest : Forest s' root
  kernelPml4 : s'.kernelPml4 = s.kernelPml4
  flags : ∀ φ : ℕ → Prop, φ 7 → Flagged φ s.mem root → Flagged φ s'.mem root
  pages : ∀ r u, root r → pageEntry s'.mem r u = pageEntry s.mem r u
  /-- what was there is still there -/
  old : ∀ r q x, root r → q.length ≤ 3 → reach (next s.mem) r q = some x →
    reach (next s'.mem) r q = some x
  /-- what is new was handed out -/
  only : ∀ r q x, root r → q.length ≤ 3 → reach (next s'.mem) r q = some x →
    reach (next s.mem) r q = some x ∨ Returned s.pmm s'.pmm x
  /-- an entry changes only when it is on the way and was not present -/
  entries : ∀ r q x k, root r → q.length ≤ 3 → reach (next s.mem) r q = some x →
    entry s'.mem x k = entry s.mem x k ∨ present (entry s.mem x k) = false ∧
      ∃ q', q' ++ [k] <+: p ++ rest ∧ reach (next s.mem) P q' = some x
  target : ∀ x, o = some x → reach (next s'.mem) P (p ++ rest) = some x
  /-- bytes outside the tables and the new blocks stay -/
  kept : ∀ x, OffTables s.mem root x → ¬ Taken s.pmm s'.pmm x → s'.mem x = s.mem x

/-- The way down among tables that are in order, with the blocks that are left. -/
structure Descent (root : ℕ → Prop) (P : ℕ) (p rest : List (Fin 512)) (s s' : VmState)
    (o : Option ℕ) : Prop where
  ok : TablesOk s' root
  kernelPml4 : s'.kernelPml4 = s.kernelPml4
  pmm : Later s.pmm s'.pmm
  /-- what was there is still there -/
  old : ∀ r q x, root r → q.length ≤ 3 → reach (next s.mem) r q = some x →
    reach (next s'.mem) r q = some x
  /-- what is new was a free block -/
  only : ∀ r q x, root r → q.length ≤ 3 → reach (next s'.mem) r q = some x →
    reach (next s.mem) r q = some x ∨ testBit s.pmm.bitmap (x / 4096) = false
  /-- an entry changes only when it is on the way and was not present -/
  entries : ∀ r q x k, root r → q.length ≤ 3 → reach (next s.mem) r q = some x →
    entry s'.mem x k = entry s.mem x k ∨ present (entry s.mem x k) = false ∧
      ∃ q', q' ++ [k] <+: p ++ rest ∧ reach (next s.mem) P q' = some x
  target : ∀ x, o = some x → reach (next s'.mem) P (p ++ rest) = some x
  budget : (freeBlocks s.pmm).card ≤ (freeBlocks s'.pmm).card + rest.length
  arrives : rest.length ≤ (freeBlocks s.pmm).card → o ≠ none

section Descents

variable {s : VmState} {root : ℕ → Prop} {P t : ℕ}

/-- The part of the way that exists is found, and nothing changes. -/
theorem descend_append {p q : List (Fin 512)} {x : ℕ} (hp : reach (next s.mem) t p = some x) :
    descend s t (p ++ q) = descend s x q := by
  induction p generalizing t with
  | nil =>
    obtain rfl := Option.some.inj hp
    rfl
  | cons i p ih =>
    rw [reach_cons] at hp
    obtain ⟨y, hy, hrest⟩ := Option.bind_eq_some_iff.mp hp
    rw [next] at hy
    split at hy
    · rename_i hpresent
      rw [List.cons_append, descend, nextTable, if_pos hpresent]
      obtain rfl := Option.some.inj hy
      exact ih hrest
    · cases hy

/-- **The way down**, by induction on what is left of it, when its blocks have 52-bit addresses. -/
theorem descend_forest (h : Forest s root) (hP : root P) (p rest : List (Fin 512))
    (hlen : p.length + rest.length ≤ 3) (ht : reach (next s.mem) P p = some t)
    (hlow : ∀ a, Returned s.pmm (descend s t rest).2.pmm a → a < 2 ^ 52) :
    Descends root P p rest s (descend s t rest).2 (descend s t rest).1 := by
  induction rest generalizing s t p with
  | nil =>
    refine ⟨h, rfl, fun _ _ hflags => hflags, fun _ _ _ => rfl, fun r q x _ _ hx => hx,
      fun r q x _ _ hx => Or.inl hx, fun r q x k _ _ _ => Or.inl rfl, ?_, fun _ _ _ => rfl⟩
    intro x hx
    rw [List.append_nil]
    exact ht.trans hx
  | cons i rest ih =>
    simp only [List.length_cons] at hlen
    have hnode : Node (next s.mem) root 2 t := ⟨P, p, hP, by omega, ht⟩
    have hlen' : (p ++ [i]).length + rest.length ≤ 3 := by
      simp only [List.length_append, List.length_singleton]
      omega
    have happend : p ++ i :: rest = (p ++ [i]) ++ rest := by simp
    have honway : p ++ [i] <+: p ++ i :: rest := ⟨rest, happend.symm⟩
    have hblock : (nextTable s t i).2.pmm = (pmmAllocBlock s.pmm).2 → (pmmAllocBlock s.pmm).1 ≠ 0 →
        (pmmAllocBlock s.pmm).1 < 2 ^ 52 := by
      intro hpmm h0
      refine hlow _ ⟨s.pmm, Allocates.refl _, ?_, rfl, h0⟩
      rw [← hpmm]
      exact allocates_descend_next s t i rest
    rcases nextTable_forest h hnode i hblock with ⟨y, hy, heq⟩ | ⟨hnone, h0, heq⟩ |
      ⟨hnone, h0, hlt, heq⟩
    · -- the table is there
      have hreach : reach (next s.mem) P (p ++ [i]) = some y := by
        rw [reach_concat, ht, Option.bind_some, hy]
      rw [descend, heq] at hlow ⊢
      have hd := ih h (p ++ [i]) hlen' hreach hlow
      refine ⟨hd.forest, hd.kernelPml4, hd.flags, hd.pages, hd.old, hd.only, ?_, ?_, hd.kept⟩
      · rw [happend]
        exact hd.entries
      · rw [happend]
        exact hd.target
    · -- there is no block for it
      have hsame : Forest { s with pmm := (pmmAllocBlock s.pmm).2 } root :=
        Forest.transfer (s := s) (fun _ _ _ => rfl) h (fun _ hj => used_mono _ hj)
      rw [descend, heq]
      exact ⟨hsame, rfl, fun _ _ hflags => hflags,
        fun _ _ _ => rfl, fun r q x _ _ hx => hx, fun r q x _ _ hx => Or.inl hx,
        fun r q x k _ _ _ => Or.inl rfl, fun x hx => (by cases hx), fun _ _ _ => rfl⟩
    · -- it is hung in
      have hgrows := grows_hang h hnode h0 hlt hnone
      have hreach : reach (next (hang s t i).mem) P (p ++ [i]) = some (pmmAllocBlock s.pmm).1 := by
        rw [reach_concat, hgrows.reach_old hP (by omega) ht, Option.bind_some, hgrows.slot]
      rw [descend, heq] at hlow ⊢
      have hd := ih (forest_hang h hnode h0 hlt hnone) (p ++ [i]) hlen' hreach
        (fun a ha => hlow a (ha.mono (allocates_alloc s.pmm) (Allocates.refl _)))
      have hnew : Returned s.pmm (descend (hang s t i) (pmmAllocBlock s.pmm).1 rest).2.pmm
          (pmmAllocBlock s.pmm).1 :=
        ⟨s.pmm, Allocates.refl _, allocates_descend (hang s t i) _ rest, rfl, h0⟩
      refine ⟨hd.forest, hd.kernelPml4, ?_, ?_, ?_, ?_, ?_, ?_, ?_⟩
      · exact fun φ hφ hflags => hd.flags φ hφ (flagged_hang h hnode h0 hlt hφ hflags hnone)
      · exact fun r u hr => (hd.pages r u hr).trans (pageEntry_hang h hnode h0 hlt hnone hr u)
      · intro r q x hr hq hx
        exact hd.old r q x hr hq (hgrows.reach_old hr hq hx)
      · intro r q x hr hq hx
        cases hd.only r q x hr hq hx with
        | inl hthere =>
          refine (hgrows.reach_cases hr hq hthere).imp_right ?_
          rintro ⟨rfl, -⟩
          exact hnew
        | inr hreturned => exact Or.inr (hreturned.mono (allocates_alloc s.pmm) (Allocates.refl _))
      · intro r q x k hr hq hx
        have hxnode : Node (next s.mem) root 3 x := ⟨r, q, hr, hq, hx⟩
        by_cases hslot : x = t ∧ k = i
        · obtain ⟨rfl, rfl⟩ := hslot
          exact Or.inr ⟨present_of_next_eq_none hnone, p, honway, ht⟩
        · have hsame : entry (hang s t i).mem x k = entry s.mem x k := by
            rw [entry_hang h hnode hlt (h.aligned_of_node hxnode), if_neg hslot, if_neg]
            rintro rfl
            exact hgrows.fresh hxnode
          rw [happend, ← hsame]
          refine (hd.entries r q x k hr hq (hgrows.reach_old hr hq hx)).imp_right ?_
          rintro ⟨habsent, q', hq', hx'⟩
          refine ⟨habsent, q', hq', ?_⟩
          -- the table is an old one, so the way to it is an old one
          have hq'len : q'.length ≤ 3 := by
            have := hq'.length_le
            simp only [List.length_append, List.length_singleton] at this hlen'
            omega
          cases hgrows.reach_cases hP hq'len hx' with
          | inl hold => exact hold
          | inr hnew => exact absurd (hnew.1 ▸ hxnode) hgrows.fresh
      · rw [happend]
        exact hd.target
      · intro x hoff htaken
        have hout : ¬ ((pmmAllocBlock s.pmm).1 ≤ x ∧ x < (pmmAllocBlock s.pmm).1 + pageSize) :=
          fun hin => htaken ⟨_, hnew, hin⟩
        have hthere : ¬ (t ≤ x ∧ x < t + pageSize) := hoff t (node_mono (by decide) hnode)
        have hi := i.isLt
        rw [hd.kept x ?_ fun hlater => htaken (hlater.mono (allocates_alloc s.pmm) (Allocates.refl _))]
        · show putEntry (fill s.mem (pmmAllocBlock s.pmm).1 pageSize 0) t i _ x = s.mem x
          rw [putEntry, writeLe, if_neg (by rw [pageSize] at hthere; omega), fill, if_neg hout]
        · rintro t' ⟨r, q, hr, hq, ht'⟩
          cases hgrows.reach_cases hr hq ht' with
          | inl hold => exact hoff t' ⟨r, q, hr, hq, hold⟩
          | inr hblock =>
            rw [hblock.1]
            exact hout

/-- On a machine whose blocks all have 52-bit addresses. -/
theorem TablesOk.low (h : TablesOk s root) {p' : PmmState} {a : ℕ} (ha : Returned s.pmm p' a) :
    a < 2 ^ 52 := by
  obtain ⟨i, rfl, hi, -, -⟩ := ha.block
  have htotal := h.total
  rw [blockSize]
  omega

/-- The same with the blocks that are left. -/
theorem descend_spec (h : TablesOk s root) (hP : root P) (p rest : List (Fin 512))
    (hlen : p.length + rest.length ≤ 3) (ht : reach (next s.mem) P p = some t) :
    Descent root P p rest s (descend s t rest).2 (descend s t rest).1 := by
  have hd := descend_forest h.forest hP p rest hlen ht (fun a ha => h.low ha)
  have hlater := (allocates_descend s t rest).later
  refine ⟨hd.forest.tablesOk ?_ (hlater.used _ h.zero) (hd.flags _ rfl h.flagged), hd.kernelPml4,
    hlater, hd.old, fun r q x hr hq hx => (hd.only r q x hr hq hx).imp_right Returned.free, hd.entries,
    hd.target, ?_, ?_⟩
  · rw [hlater.total]
    exact h.total
  · obtain ⟨k, hk, heq⟩ := descend_calls s t rest
    have hcard := card_pmmAfter s.pmm k
    rw [heq]
    omega
  · intro hfree hnone
    obtain ⟨k, hk, h0, -⟩ := descend_stops hnone
    have hcard := card_pmmAfter s.pmm k
    exact pmmAllocBlock_ne_zero ((allocates_pmmAfter k s.pmm).later.used _ h.zero) (by omega) h0

end Descents

/-! ### Setting an entry of the last level -/

section Leaf

variable {s : VmState} {root : ℕ → Prop} {φ : ℕ → Prop} {P pt : ℕ} {p : List (Fin 512)}
  (h : Forest s root) (hP : root P) (hp : p.length = 3) (hpt : reach (next s.mem) P p = some pt)
include h hP hp hpt

/-- A table of the last level is not a table of another level. -/
theorem leaf_ne {r x : ℕ} {q : List (Fin 512)} (hr : root r) (hq : q.length ≤ 2)
    (hx : reach (next s.mem) r q = some x) : x ≠ pt := by
  rintro rfl
  obtain ⟨rfl, -⟩ := h.separated r P q p x hr hP (by omega) (by omega) hx hpt
  omega

theorem entry_putLeaf (i : Fin 512) (v : ℕ) {x : ℕ} (hx : x % 4096 = 0) (k : Fin 512) :
    entry (putEntry s.mem pt i v) x k = if x = pt ∧ k = i then v % 2 ^ 64 else entry s.mem x k :=
  entry_putEntry _ (h.aligned_of_node ⟨P, p, hP, le_of_eq hp, hpt⟩) hx i k v

/-- The way to the tables does not pass through the last level. -/
theorem reach_putLeaf (i : Fin 512) (v : ℕ) {r : ℕ} {q : List (Fin 512)} (hr : root r)
    (hq : q.length ≤ 3) : reach (next (putEntry s.mem pt i v)) r q = reach (next s.mem) r q := by
  apply reach_congr
  rintro q' k x ⟨rest, rfl⟩ hx
  simp only [List.length_append, List.length_singleton] at hq
  apply next_congr
  rw [entry_putLeaf h hP hp hpt i v (h.aligned_of_node ⟨r, q', hr, Nat.le_refl _, hx⟩), if_neg]
  rintro ⟨hxpt, -⟩
  exact leaf_ne h hP hp hpt hr (by omega) hx hxpt

theorem forest_putLeaf (i : Fin 512) (v : ℕ) : Forest { s with mem := putEntry s.mem pt i v } root := by
  have hreach := fun {r : ℕ} {q : List (Fin 512)} => reach_putLeaf h hP hp hpt i v (r := r) (q := q)
  refine ⟨h.aligned, ?_, ?_⟩
  · rintro x ⟨r, q, hr, hq, hx⟩
    exact h.used x ⟨r, q, hr, hq, (hreach hr hq).symm.trans hx⟩
  · intro r r' q q' x hr hr' hq hq' hx hx'
    exact h.separated r r' q q' x hr hr' hq hq' ((hreach hr hq).symm.trans hx)
      ((hreach hr' hq').symm.trans hx')

theorem flagged_putLeaf (i : Fin 512) (v : ℕ) (hflags : Flagged φ s.mem root) :
    Flagged φ (putEntry s.mem pt i v) root := by
  rintro x k ⟨r, q, hr, hq, hx⟩ hpresent
  have hx' : reach (next s.mem) r q = some x := (reach_putLeaf h hP hp hpt i v hr (by omega)).symm.trans hx
  have hentry : entry (putEntry s.mem pt i v) x k = entry s.mem x k := by
    rw [entry_putLeaf h hP hp hpt i v (h.aligned_of_node ⟨r, q, hr, Nat.le_refl _, hx'⟩), if_neg]
    rintro ⟨hxpt, -⟩
    exact leaf_ne h hP hp hpt hr hq hx' hxpt
  rw [hentry] at hpresent ⊢
  exact hflags x k ⟨r, q, hr, hq, hx'⟩ hpresent

end Leaf

theorem TablesOk.putLeaf {s : VmState} {root : ℕ → Prop} {P pt : ℕ} {p : List (Fin 512)}
    (h : TablesOk s root) (hP : root P) (hp : p.length = 3) (hpt : reach (next s.mem) P p = some pt)
    (i : Fin 512) (v : ℕ) : TablesOk { s with mem := putEntry s.mem pt i v } root :=
  (forest_putLeaf h.forest hP hp hpt i v).tablesOk h.total h.zero
    (flagged_putLeaf h.forest hP hp hpt i v h.flagged)

end OsEojin.Vmm
