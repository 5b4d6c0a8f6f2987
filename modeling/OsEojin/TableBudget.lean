import OsEojin.PageMap

/-!
# The blocks that mapping a page takes

`vmm_map_page` (`src/kernel/vmm.c`) takes one block for every table that is missing on the way to its page.
Counted over a set of ways that the calls are on, the missing tables and the free blocks go down together,
one by one.

* `absentTables`: the ways of a set at whose end there is no table;
* `absentTables_hang`: a new table is one of them;
* `descend_budget`: free blocks and missing tables over one way down;
* `vmmMapPage_budget`, `vmmMapPage_refused`: the same for `vmm_map_page`.
-/

namespace OsEojin.Vmm

open OsEojin.Lib.ByteMemory OsEojin.Lib.Forests OsEojin.Pmm

/-- The ways of `X` from `P` at whose end there is no table. -/
def absentTables (m : Memory) (P : ℕ) (X : Finset (List (Fin 512))) : Finset (List (Fin 512)) :=
  X.filter fun q => reach (next m) P q = none

theorem mem_absentTables {m : Memory} {P : ℕ} {X : Finset (List (Fin 512))} {q : List (Fin 512)} :
    q ∈ absentTables m P X ↔ q ∈ X ∧ reach (next m) P q = none := Finset.mem_filter

/-- Only the ways to tables count. -/
theorem absentTables_congr {m m' : Memory} {P : ℕ} {X : Finset (List (Fin 512))}
    (h : ∀ q ∈ X, reach (next m') P q = reach (next m) P q) : absentTables m' P X = absentTables m P X := by
  apply Finset.filter_congr
  intro q hq
  rw [h q hq]

/-- When the null block is not free, a refused call found no block and changed nothing. -/
theorem alloc_refused {p : PmmState} (hzero : testBit p.bitmap 0 = true) (h0 : (pmmAllocBlock p).1 = 0) :
    freeBlocks p = ∅ ∧ (pmmAllocBlock p).2 = p := by
  have hnone : freeBlocks p = ∅ := by
    by_contra hsome
    exact pmmAllocBlock_ne_zero hzero (Finset.card_pos.mpr (Finset.nonempty_iff_ne_empty.mpr hsome)) h0
  cases pmmAllocBlock_cases p with
  | inl hsome =>
    obtain ⟨i, hi, hfree, -⟩ := hsome
    have hmem : i ∈ freeBlocks p := Finset.mem_filter.mpr ⟨Finset.mem_range.mpr hi, hfree⟩
    rw [hnone] at hmem
    cases hmem
  | inr hsame => exact ⟨hnone, by rw [hsame.2]⟩

section Budget

variable {s : VmState} {root : ℕ → Prop} {P t : ℕ} {i : Fin 512} {X : Finset (List (Fin 512))}

/-- **A new table** was one of the missing ones. -/
theorem absentTables_hang (h : Forest s root) (hP : root P) {p : List (Fin 512)} (hp : p.length ≤ 2)
    (ht : reach (next s.mem) P p = some t) (h0 : (pmmAllocBlock s.pmm).1 ≠ 0)
    (hlt : (pmmAllocBlock s.pmm).1 < 2 ^ 52) (hnone : next s.mem t i = none)
    (hX : ∀ q ∈ X, q.length ≤ 3) (hmem : p ++ [i] ∈ X) :
    (absentTables s.mem P X).card = (absentTables (hang s t i).mem P X).card + 1 := by
  have hgrows := grows_hang h ⟨P, p, hP, hp, ht⟩ h0 hlt hnone
  have habsent : p ++ [i] ∈ absentTables s.mem P X := by
    rw [mem_absentTables, reach_concat, ht, Option.bind_some]
    exact ⟨hmem, hnone⟩
  have herase : absentTables (hang s t i).mem P X = (absentTables s.mem P X).erase (p ++ [i]) := by
    ext q
    rw [Finset.mem_erase, mem_absentTables, mem_absentTables]
    constructor
    · rintro ⟨hq, hreach⟩
      obtain ⟨hold, hne⟩ := (hgrows.reach_eq_none_iff h.separated hP (by omega) ht (hX q hq)).mp hreach
      exact ⟨hne, hq, hold⟩
    · rintro ⟨hne, hq, hold⟩
      exact ⟨hq, (hgrows.reach_eq_none_iff h.separated hP (by omega) ht (hX q hq)).mpr ⟨hold, hne⟩⟩
  have hpos := Finset.card_pos.mpr ⟨_, habsent⟩
  rw [herase, Finset.card_erase_of_mem habsent]
  omega

/-- **The way down**: it takes a block for every table it adds.  When it is refused one, there is none left,
and there is no table at its end. -/
theorem descend_budget (h : Forest s root) (hP : root P) (p rest : List (Fin 512))
    (hlen : p.length + rest.length ≤ 3) (ht : reach (next s.mem) P p = some t)
    (hlow : ∀ a, Returned s.pmm (descend s t rest).2.pmm a → a < 2 ^ 52)
    (hzero : testBit s.pmm.bitmap 0 = true) (hX : ∀ q ∈ X, q.length ≤ 3)
    (hway : ∀ q, q ≠ [] → q <+: rest → p ++ q ∈ X) :
    (freeBlocks s.pmm).card + (absentTables (descend s t rest).2.mem P X).card =
        (freeBlocks (descend s t rest).2.pmm).card + (absentTables s.mem P X).card ∧
      ((descend s t rest).1 = none → freeBlocks (descend s t rest).2.pmm = ∅ ∧
        reach (next (descend s t rest).2.mem) P (p ++ rest) = none) := by
  induction rest generalizing s t p with
  | nil => exact ⟨rfl, fun hnone => by cases hnone⟩
  | cons i rest ih =>
    simp only [List.length_cons] at hlen
    have hnode : Node (next s.mem) root 2 t := ⟨P, p, hP, by omega, ht⟩
    have hlen' : (p ++ [i]).length + rest.length ≤ 3 := by
      simp only [List.length_append, List.length_singleton]
      omega
    have happend : p ++ i :: rest = (p ++ [i]) ++ rest := by simp
    have hway' : ∀ q, q ≠ [] → q <+: rest → (p ++ [i]) ++ q ∈ X := by
      intro q hq hprefix
      rw [List.append_assoc]
      exact hway (i :: q) (List.cons_ne_nil i q) ((List.cons_prefix_cons).mpr ⟨rfl, hprefix⟩)
    have hblock : (nextTable s t i).2.pmm = (pmmAllocBlock s.pmm).2 → (pmmAllocBlock s.pmm).1 ≠ 0 →
        (pmmAllocBlock s.pmm).1 < 2 ^ 52 := by
      intro hpmm h0
      refine hlow _ ⟨s.pmm, Allocates.refl _, ?_, rfl, h0⟩
      rw [← hpmm]
      exact allocates_descend_next s t i rest
    rw [happend]
    rcases nextTable_forest h hnode i hblock with ⟨y, hy, heq⟩ | ⟨hnone, h0, heq⟩ |
      ⟨hnone, h0, hlt, heq⟩
    · -- the table is there
      have hreach : reach (next s.mem) P (p ++ [i]) = some y := by
        rw [reach_concat, ht, Option.bind_some, hy]
      rw [descend_cons heq] at hlow ⊢
      exact ih h (p ++ [i]) hlen' hreach hlow hzero hway'
    · -- there is no block for it
      obtain ⟨hempty, hsame⟩ := alloc_refused hzero h0
      rw [descend, heq]
      dsimp only
      rw [hsame]
      refine ⟨rfl, fun _ => ⟨hempty, ?_⟩⟩
      rw [reach_append, reach_concat, ht, Option.bind_some, hnone, Option.bind_none]
    · -- it is hung in
      have hgrows := grows_hang h hnode h0 hlt hnone
      have hreach : reach (next (hang s t i).mem) P (p ++ [i]) = some (pmmAllocBlock s.pmm).1 := by
        rw [reach_concat, hgrows.reach_old hP (by omega) ht, Option.bind_some, hgrows.slot]
      rw [descend_cons heq] at hlow ⊢
      obtain ⟨hcount, hstop⟩ := ih (forest_hang h hnode h0 hlt hnone) (p ++ [i]) hlen' hreach
        (fun a ha => hlow a (ha.mono (allocates_alloc s.pmm) (Allocates.refl _))) (used_mono _ hzero) hway'
      have hblocks := freeBlocks_card_alloc h0
      have htables := absentTables_hang h hP (by omega) ht h0 hlt hnone hX
        (hway [i] (List.cons_ne_nil i []) ⟨rest, rfl⟩)
      rw [hang_pmm] at hcount
      exact ⟨by omega, hstop⟩

end Budget

/-! ### `vmm_map_page` -/

/-- The ways to the tables of a page. -/
def ways (vaddr : ℕ) : Finset (List (Fin 512)) :=
  {[pml4Index vaddr], [pml4Index vaddr, pdptIndex vaddr], [pml4Index vaddr, pdptIndex vaddr, pdIndex vaddr]}

theorem mem_ways {vaddr : ℕ} {q : List (Fin 512)} : q ∈ ways vaddr ↔ q ≠ [] ∧ q <+: dirs vaddr := by
  simp only [ways, dirs, Finset.mem_insert, Finset.mem_singleton]
  constructor
  · rintro (rfl | rfl | rfl)
    · exact ⟨by simp, by simp⟩
    · exact ⟨by simp, by simp⟩
    · exact ⟨by simp, by simp⟩
  · rintro ⟨hne, hprefix⟩
    rcases q with _ | ⟨a, _ | ⟨b, _ | ⟨c, _ | ⟨d, q⟩⟩⟩⟩
    · exact absurd rfl hne
    · simp_all
    · simp_all
    · simp_all
    · simp at hprefix

theorem length_of_mem_ways {vaddr : ℕ} {q : List (Fin 512)} (h : q ∈ ways vaddr) : q.length ≤ 3 :=
  (mem_ways.mp h).2.length_le

/-- Where there is a table for the page, there are all above it. -/
theorem reach_of_mem_ways {m : Memory} {P vaddr : ℕ} {q : List (Fin 512)} (h : q ∈ ways vaddr)
    (hreach : reach (next m) P (dirs vaddr) ≠ none) : reach (next m) P q ≠ none := by
  obtain ⟨-, rest, hrest⟩ := mem_ways.mp h
  intro hnone
  rw [← hrest, reach_append, hnone] at hreach
  exact hreach rfl

section Map

variable {s : VmState} {pml4 vaddr : ℕ} {X : Finset (List (Fin 512))}
  (h : Forest s (fun r => r = pml4)) (hlow : LowBlocks s pml4 vaddr) (paddr flags : ℕ)
include h hlow

/-- The ways to tables after `vmm_map_page` are those after the way down. -/
theorem reach_vmmMapPage {q : List (Fin 512)} (hq : q.length ≤ 3) :
    reach (next (vmmMapPage s pml4 vaddr paddr flags).mem) pml4 q =
      reach (next (descend s pml4 (dirs vaddr)).2.mem) pml4 q := by
  have hd := descends_root h hlow
  cases hdown : (descend s pml4 (dirs vaddr)).1 with
  | none => rw [vmmMapPage_of_none hdown]
  | some pt =>
    rw [vmmMapPage_of_some hdown]
    exact reach_putLeaf hd.forest rfl (dirs_length vaddr) (hd.target pt hdown) _ _ rfl hq

/-- What was there is still there. -/
theorem reach_vmmMapPage_old {q : List (Fin 512)} (hq : q.length ≤ 3) (hold : reach (next s.mem) pml4 q ≠ none) :
    reach (next (vmmMapPage s pml4 vaddr paddr flags).mem) pml4 q ≠ none := by
  obtain ⟨x, hx⟩ := Option.ne_none_iff_exists'.mp hold
  rw [reach_vmmMapPage h hlow paddr flags hq, (descends_root h hlow).old pml4 q x rfl hq hx]
  exact Option.some_ne_none x

/-- **A mapped page has its tables.** -/
theorem reach_vmmMapPage_mapped (hok : ¬ AllocFails s pml4 vaddr) :
    reach (next (vmmMapPage s pml4 vaddr paddr flags).mem) pml4 (dirs vaddr) ≠ none := by
  rw [allocFails_iff] at hok
  obtain ⟨pt, hpt⟩ := Option.ne_none_iff_exists'.mp hok
  rw [reach_vmmMapPage h hlow paddr flags (le_of_eq (dirs_length vaddr))]
  have htarget := (descends_root h hlow).target pt hpt
  rw [List.nil_append] at htarget
  rw [htarget]
  exact Option.some_ne_none pt

section Count

variable (hzero : testBit s.pmm.bitmap 0 = true) (hX : ∀ q ∈ X, q.length ≤ 3) (hways : ways vaddr ⊆ X)
include hzero hX hways

theorem descend_dirs_budget :
    (freeBlocks s.pmm).card + (absentTables (descend s pml4 (dirs vaddr)).2.mem pml4 X).card =
        (freeBlocks (descend s pml4 (dirs vaddr)).2.pmm).card + (absentTables s.mem pml4 X).card ∧
      ((descend s pml4 (dirs vaddr)).1 = none → freeBlocks (descend s pml4 (dirs vaddr)).2.pmm = ∅ ∧
        reach (next (descend s pml4 (dirs vaddr)).2.mem) pml4 (dirs vaddr) = none) :=
  descend_budget h rfl [] (dirs vaddr) (Nat.le_refl 3) rfl hlow hzero hX
    fun _ hq hprefix => hways (mem_ways.mpr ⟨hq, hprefix⟩)

/-- **The blocks of `vmm_map_page`** are those of its new tables. -/
theorem vmmMapPage_budget :
    (freeBlocks s.pmm).card + (absentTables (vmmMapPage s pml4 vaddr paddr flags).mem pml4 X).card =
      (freeBlocks (vmmMapPage s pml4 vaddr paddr flags).pmm).card + (absentTables s.mem pml4 X).card := by
  rw [vmmMapPage_pmm, absentTables_congr fun q hq => reach_vmmMapPage h hlow paddr flags (hX q hq)]
  exact (descend_dirs_budget h hlow hzero hX hways).1

end Count

/-- **A refused page**: no block is left, and there is no table for the page. -/
theorem vmmMapPage_refused (hzero : testBit s.pmm.bitmap 0 = true) (hfails : AllocFails s pml4 vaddr) :
    freeBlocks (vmmMapPage s pml4 vaddr paddr flags).pmm = ∅ ∧
      reach (next (vmmMapPage s pml4 vaddr paddr flags).mem) pml4 (dirs vaddr) = none := by
  have hstop := (descend_dirs_budget h hlow hzero (fun _ => length_of_mem_ways) (Finset.Subset.refl _)).2
    ((allocFails_iff s pml4 vaddr).mp hfails)
  rw [vmmMapPage_pmm, reach_vmmMapPage h hlow paddr flags (le_of_eq (dirs_length vaddr))]
  exact hstop

end Map

end OsEojin.Vmm
