import OsEojin.VmmMap
import OsEojin.PmmSet

/-!
# `vmm_map_page` as an update of the address map

What the tables below one PML4 are for is a partial function from pages to frames with flags.  Hanging in
new tables does not change it, and `vmm_map_page` of `src/kernel/vmm.c` changes it at one page, when
`pmm_alloc_block` gives it its tables.

The entry for a table keeps 40 bits of its block number (`0xFFFFFFFFFF000`): physical addresses have 52 bits
at most, and so have the addresses of the blocks here (`Addressable`).

* `addressMap`: what the page walk yields for an address;
* `TreeOk`: the tables below a PML4 are different used blocks, and none is a large page;
* `pageEntry_vmmMapPage`: the entries after `vmm_map_page`;
* `map_page_updates`: the update, and what a refused block leaves.
-/

namespace OsEojin.Vmm

open OsEojin.Lib.ByteMemory OsEojin.Lib.Forests OsEojin.Pmm

/-! ### The address map -/

/-- The bits of an entry that are not the address. -/
def flagsOf (e : ℕ) : ℕ := e &&& 0xFFF0000000000FFF

/-- **The address map**: the frame and the flags that the four-level walk of an address yields. -/
def addressMap (m : Memory) (pml4 vaddr : ℕ) : Option (ℕ × ℕ) :=
  match pageWalk m pml4 vaddr with
  | [_, _, _, e] => if present e then some (tableOf e, flagsOf e) else none
  | _ => none

/-- The addresses agree in bits 12 to 47. -/
def SamePage (u v : ℕ) : Prop := u / 2 ^ 12 % 2 ^ 36 = v / 2 ^ 12 % 2 ^ 36

/-- These bits are the indices of the four levels. -/
theorem indices_eq_iff (u v : ℕ) : indices u = indices v ↔ SamePage u v := by
  simp only [indices, dirs, pml4Index, pdptIndex, pdIndex, ptIndex, Nat.shiftRight_eq_div_pow,
    List.cons_append, List.nil_append, List.cons.injEq, and_true, Fin.ext_iff, Fin.val_ofNat, SamePage]
  omega

theorem indices_eq_iff_dirs (u v : ℕ) :
    indices u = indices v ↔ dirs u = dirs v ∧ ptIndex u = ptIndex v := by
  rw [indices, indices]
  constructor
  · intro h
    obtain ⟨hdirs, hlast⟩ := List.append_inj h rfl
    exact ⟨hdirs, List.singleton_inj.mp hlast⟩
  · rintro ⟨hdirs, hlast⟩
    rw [hdirs, hlast]

/-- Addresses of one page have the same entry. -/
theorem pageEntry_samePage {u v : ℕ} (h : SamePage u v) (m : Memory) (r : ℕ) :
    pageEntry m r u = pageEntry m r v := by
  obtain ⟨hdirs, hindex⟩ := (indices_eq_iff_dirs u v).mp ((indices_eq_iff u v).mpr h)
  rw [pageEntry, pageEntry, hdirs, hindex]

/-! ### The tables below one PML4 -/

/-- **The tables below a PML4**: they are different used blocks, and no entry for one is a large page. -/
structure TreeOk (s : VmState) (pml4 : ℕ) : Prop where
  aligned : pml4 % 4096 = 0
  used : ∀ t, Node (next s.mem) (fun r => r = pml4) 3 t → testBit s.pmm.bitmap (t / 4096) = true
  distinct : ∀ q q' t, q.length ≤ 3 → q'.length ≤ 3 → reach (next s.mem) pml4 q = some t →
    reach (next s.mem) pml4 q' = some t → q = q'
  small : ∀ t k, Node (next s.mem) (fun r => r = pml4) 2 t → present (entry s.mem t k) = true →
    NoHuge (entry s.mem t k)

section Tree

variable {s : VmState} {m : Memory} {pml4 : ℕ}

theorem TreeOk.forest (h : TreeOk s pml4) : Forest s (fun r => r = pml4) := by
  refine ⟨?_, h.used, ?_⟩
  · rintro r rfl
    exact h.aligned
  · rintro r r' q q' t rfl rfl hq hq' ht ht'
    exact ⟨h.distinct q q' t hq hq' ht ht', Or.inl rfl⟩

/-- The tables of one of several address spaces. -/
theorem treeOk_of_tablesOk {root : ℕ → Prop} (h : TablesOk s root) (hr : root pml4) : TreeOk s pml4 := by
  have hnode : ∀ {d t}, Node (next s.mem) (fun r => r = pml4) d t → Node (next s.mem) root d t := by
    rintro d t ⟨r, q, rfl, hq, ht⟩
    exact ⟨r, q, hr, hq, ht⟩
  refine ⟨h.aligned pml4 hr, fun t ht => h.used t (hnode ht), ?_, ?_⟩
  · exact fun q q' t hq hq' ht ht' => (h.separated pml4 pml4 q q' t hr hr hq hq' ht ht').1
  · intro t k ht hpresent
    rw [← noHuge_mod, h.plain t k (hnode ht) hpresent]
    rfl

theorem TreeOk.flagged (h : TreeOk s pml4) : Flagged NoHuge s.mem (fun r => r = pml4) :=
  fun t k ht hpresent => (noHuge_mod _).mpr (h.small t k ht hpresent)

theorem Forest.treeOk (h : Forest s (fun r => r = pml4))
    (hflags : Flagged NoHuge s.mem (fun r => r = pml4)) : TreeOk s pml4 where
  aligned := h.aligned pml4 rfl
  used := h.used
  distinct := fun q q' t hq hq' ht ht' => (h.separated pml4 pml4 q q' t rfl rfl hq hq' ht ht').1
  small := fun t k ht hpresent => (noHuge_mod _).mp (hflags t k ht hpresent)

/-- Without large pages the walk yields the entry that the tables hold. -/
theorem addressMap_eq (h : Flagged NoHuge m (fun r => r = pml4)) (u : ℕ) :
    addressMap m pml4 u = (pageEntry m pml4 u).map fun e => (tableOf e, flagsOf e) := by
  rw [addressMap]
  rcases pageWalk_last h rfl u with ⟨e₁, e₂, e₃, e, hwalk, he, hentry⟩ | ⟨hentry, es, e, hwalk, hes, he⟩
  · rw [hwalk, hentry]
    simp [he]
  · rw [hwalk, hentry]
    rcases es with _ | ⟨e₁, _ | ⟨e₂, _ | ⟨e₃, _ | ⟨e₄, es⟩⟩⟩⟩
    · rfl
    · rfl
    · rfl
    · simp [he]
    · simp only [List.length_cons] at hes
      omega

/-! ### The update -/

/-- `pmm_alloc_block` returns `0` at one of the levels. -/
def AllocFails (s : VmState) (pml4 vaddr : ℕ) : Prop :=
  ∃ p i rest t s', dirs vaddr = p ++ i :: rest ∧ descend s pml4 p = (some t, s') ∧
    present (entry s'.mem t i) = false ∧ (pmmAllocBlock s'.pmm).1 = 0

/-- The way down ends without a table when a block is refused on it. -/
theorem descend_eq_none_iff (s : VmState) (t : ℕ) (path : List (Fin 512)) :
    (descend s t path).1 = none ↔
      ∃ p i rest t' s', path = p ++ i :: rest ∧ descend s t p = (some t', s') ∧
        present (entry s'.mem t' i) = false ∧ (pmmAllocBlock s'.pmm).1 = 0 := by
  induction path generalizing s t with
  | nil =>
    constructor
    · intro h
      cases h
    · rintro ⟨p, i, rest, t', s', hpath, -⟩
      cases p <;> cases hpath
  | cons j path ih =>
    -- either this level is refused, or the first part of the way goes through it
    have hlater : ∀ y s₁, nextTable s t j = (some y, s₁) →
        ((descend s t (j :: path)).1 = none ↔
          ∃ p i rest t' s', j :: path = p ++ i :: rest ∧ descend s t p = (some t', s') ∧
            present (entry s'.mem t' i) = false ∧ (pmmAllocBlock s'.pmm).1 = 0) := by
      intro y s₁ heq
      rw [descend, heq]
      refine (ih s₁ y).trans ⟨?_, ?_⟩
      · rintro ⟨p, i, rest, t', s', rfl, hp, hrest⟩
        refine ⟨j :: p, i, rest, t', s', rfl, ?_, hrest⟩
        rw [descend, heq]
        exact hp
      · rintro ⟨p, i, rest, t', s', hpath, hp, hrest⟩
        cases p with
        | nil =>
          -- the level itself was not refused
          obtain ⟨rfl, rfl⟩ := List.cons_eq_cons.mp hpath
          obtain ⟨hsome, rfl⟩ := Prod.mk.inj hp
          obtain rfl := Option.some.inj hsome
          rw [nextTable_absent hrest.1, if_pos hrest.2] at heq
          cases heq
        | cons k p =>
          obtain ⟨rfl, rfl⟩ := List.cons_eq_cons.mp hpath
          rw [descend, heq] at hp
          exact ⟨p, i, rest, t', s', rfl, hp, hrest⟩
    cases hpresent : present (entry s.mem t j) with
    | true => exact hlater _ s (nextTable_of_next (next_eq_some hpresent))
    | false =>
      have heq := nextTable_absent hpresent
      by_cases h0 : (pmmAllocBlock s.pmm).1 = 0
      · rw [if_pos h0] at heq
        rw [descend, heq]
        exact iff_of_true rfl ⟨[], j, path, t, s, rfl, rfl, hpresent, h0⟩
      · rw [if_neg h0] at heq
        exact hlater _ _ heq

theorem allocFails_iff (s : VmState) (pml4 vaddr : ℕ) :
    AllocFails s pml4 vaddr ↔ (descend s pml4 (dirs vaddr)).1 = none :=
  (descend_eq_none_iff s pml4 (dirs vaddr)).symm

theorem vmmMapPage_of_none {vaddr : ℕ} (h : (descend s pml4 (dirs vaddr)).1 = none) (paddr flags : ℕ) :
    vmmMapPage s pml4 vaddr paddr flags = (descend s pml4 (dirs vaddr)).2 := by
  rw [vmmMapPage_eq]
  generalize descend s pml4 (dirs vaddr) = d at h
  obtain ⟨o, s₁⟩ := d
  obtain rfl : o = none := h
  rfl

theorem vmmMapPage_of_some {vaddr pt : ℕ} (h : (descend s pml4 (dirs vaddr)).1 = some pt)
    (paddr flags : ℕ) :
    vmmMapPage s pml4 vaddr paddr flags =
      { (descend s pml4 (dirs vaddr)).2 with
        mem := putEntry (descend s pml4 (dirs vaddr)).2.mem pt (ptIndex vaddr)
          (paddr &&& 0xFFFFFFFFFF000 ||| flags) } := by
  rw [vmmMapPage_eq]
  generalize descend s pml4 (dirs vaddr) = d at h
  obtain ⟨o, s₁⟩ := d
  obtain rfl : o = some pt := h
  rfl

theorem vmmMapPage_pmm (s : VmState) (pml4 vaddr paddr flags : ℕ) :
    (vmmMapPage s pml4 vaddr paddr flags).pmm = (descend s pml4 (dirs vaddr)).2.pmm := by
  cases hdown : (descend s pml4 (dirs vaddr)).1 with
  | none => rw [vmmMapPage_of_none hdown]
  | some pt => rw [vmmMapPage_of_some hdown]

/-- **Setting the entry of a page** leaves the other pages alone, in every address space. -/
theorem pageEntry_putLeaf_of_ne {root : ℕ → Prop} {P r vaddr pt u : ℕ} (h : Forest s root) (hP : root P)
    (hr : root r) (hpt : reach (next s.mem) P (dirs vaddr) = some pt) (hne : indices u ≠ indices vaddr) (v : ℕ) :
    pageEntry (putEntry s.mem pt (ptIndex vaddr) v) r u = pageEntry s.mem r u := by
  have hlen := dirs_length vaddr
  have hu := le_of_eq (dirs_length u)
  rw [pageEntry, reach_putLeaf h hP hlen hpt _ _ hr hu, pageEntry]
  cases hx : reach (next s.mem) r (dirs u) with
  | none => rw [Option.bind_none, Option.bind_none]
  | some x =>
    have hentry : entry (putEntry s.mem pt (ptIndex vaddr) v) x (ptIndex u) = entry s.mem x (ptIndex u) := by
      rw [entry_putLeaf h hP hlen hpt _ _ (h.aligned_of_node ⟨r, _, hr, hu, hx⟩), if_neg]
      rintro ⟨rfl, hindex⟩
      -- the same table has the same way to it
      obtain ⟨hdirs, -⟩ := h.separated r P _ _ x hr hP hu (le_of_eq hlen) hx hpt
      exact hne ((indices_eq_iff_dirs u vaddr).mpr ⟨hdirs, hindex⟩)
    rw [Option.bind_some, Option.bind_some, hentry]

/-- **The entry of a page is set**: the entry of one address changes. -/
theorem pageEntry_putLeaf (h : Forest s (fun r => r = pml4)) {vaddr pt : ℕ}
    (hpt : reach (next s.mem) pml4 (dirs vaddr) = some pt) (v u : ℕ) :
    pageEntry (putEntry s.mem pt (ptIndex vaddr) v) pml4 u =
      if indices u = indices vaddr then if present (v % 2 ^ 64) then some (v % 2 ^ 64) else none
      else pageEntry s.mem pml4 u := by
  have hlen := dirs_length vaddr
  by_cases hu : indices u = indices vaddr
  · obtain ⟨hdirs, hindex⟩ := (indices_eq_iff_dirs u vaddr).mp hu
    have halign := h.aligned_of_node ⟨pml4, _, rfl, le_of_eq hlen, hpt⟩
    have hentry : entry (putEntry s.mem pt (ptIndex vaddr) v) pt (ptIndex vaddr) = v % 2 ^ 64 := by
      rw [entry_putLeaf h rfl hlen hpt _ _ halign, if_pos ⟨rfl, rfl⟩]
    rw [if_pos hu, pageEntry, reach_putLeaf h rfl hlen hpt _ _ rfl (le_of_eq (dirs_length u)), hdirs, hpt,
      Option.bind_some, hindex, hentry]
  · rw [if_neg hu]
    exact pageEntry_putLeaf_of_ne h rfl rfl hpt hu v

/-- **`vmm_map_page` leaves the other pages alone**, in every address space. -/
theorem pageEntry_vmmMapPage_of_ne {root : ℕ → Prop} (h : TablesOk s root) {P r vaddr u : ℕ} (hP : root P)
    (hr : root r) (hne : indices u ≠ indices vaddr) (paddr flags : ℕ) :
    pageEntry (vmmMapPage s P vaddr paddr flags).mem r u = pageEntry s.mem r u := by
  have hd := descend_forest h.forest hP [] (dirs vaddr) (Nat.le_refl 3) rfl fun a ha => h.low ha
  cases hdown : (descend s P (dirs vaddr)).1 with
  | none =>
    rw [vmmMapPage_of_none hdown]
    exact hd.pages r u hr
  | some pt =>
    rw [vmmMapPage_of_some hdown, pageEntry_putLeaf_of_ne hd.forest hP hr (hd.target pt hdown) hne]
    exact hd.pages r u hr

/-- The blocks that the call takes have 52-bit addresses. -/
def LowBlocks (s : VmState) (pml4 vaddr : ℕ) : Prop :=
  ∀ a, Returned s.pmm (descend s pml4 (dirs vaddr)).2.pmm a → a < 2 ^ 52

section Update

variable (h : Forest s (fun r => r = pml4)) {vaddr : ℕ} (hlow : LowBlocks s pml4 vaddr)
  (paddr flags : ℕ)
include h hlow

theorem descends_root : Descends (fun r => r = pml4) pml4 [] (dirs vaddr) s
    (descend s pml4 (dirs vaddr)).2 (descend s pml4 (dirs vaddr)).1 :=
  descend_forest h rfl [] (dirs vaddr) (Nat.le_refl 3) rfl hlow

/-- **The entries after `vmm_map_page`.** -/
theorem pageEntry_vmmMapPage (hok : (descend s pml4 (dirs vaddr)).1 ≠ none) (u : ℕ) :
    pageEntry (vmmMapPage s pml4 vaddr paddr flags).mem pml4 u =
      if indices u = indices vaddr then
        if present (leafEntry paddr flags) then some (leafEntry paddr flags) else none
      else pageEntry s.mem pml4 u := by
  have hd := descends_root h hlow
  obtain ⟨pt, hpt⟩ := Option.ne_none_iff_exists'.mp hok
  rw [vmmMapPage_of_some hpt, pageEntry_putLeaf hd.forest (hd.target pt hpt), hd.pages pml4 u rfl]
  rfl

/-- When a block is refused every address keeps its entry. -/
theorem pageEntry_vmmMapPage_fails (hfails : (descend s pml4 (dirs vaddr)).1 = none) (u : ℕ) :
    pageEntry (vmmMapPage s pml4 vaddr paddr flags).mem pml4 u = pageEntry s.mem pml4 u := by
  rw [vmmMapPage_of_none hfails]
  exact (descends_root h hlow).pages pml4 u rfl

theorem forest_vmmMapPage : Forest (vmmMapPage s pml4 vaddr paddr flags) (fun r => r = pml4) := by
  have hd := descends_root h hlow
  cases hdown : (descend s pml4 (dirs vaddr)).1 with
  | none =>
    rw [vmmMapPage_of_none hdown]
    exact hd.forest
  | some pt =>
    rw [vmmMapPage_of_some hdown]
    exact forest_putLeaf hd.forest rfl (dirs_length vaddr) (hd.target pt hdown) _ _

/-- A table is an old one or a new block. -/
theorem node_vmmMapPage {x : ℕ}
    (hx : Node (next (vmmMapPage s pml4 vaddr paddr flags).mem) (fun r => r = pml4) 3 x) :
    Node (next s.mem) (fun r => r = pml4) 3 x ∨
      Returned s.pmm (vmmMapPage s pml4 vaddr paddr flags).pmm x := by
  have hd := descends_root h hlow
  obtain ⟨r, q, rfl, hq, hx⟩ := hx
  rw [vmmMapPage_pmm]
  have hreach : reach (next (descend s r (dirs vaddr)).2.mem) r q = some x := by
    cases hdown : (descend s r (dirs vaddr)).1 with
    | none =>
      rw [vmmMapPage_of_none hdown] at hx
      exact hx
    | some pt =>
      rw [vmmMapPage_of_some hdown] at hx
      exact (reach_putLeaf hd.forest rfl (dirs_length _) (hd.target pt hdown) _ _ rfl hq).symm.trans hx
  exact (hd.only r q x rfl hq hreach).imp_left fun hold => ⟨r, q, rfl, hq, hold⟩

/-- **What stays**: the bytes outside the tables and the new blocks. -/
theorem vmmMapPage_kept {x : ℕ} (hoff : OffTables s.mem (fun r => r = pml4) x)
    (htaken : ¬ Taken s.pmm (vmmMapPage s pml4 vaddr paddr flags).pmm x) :
    (vmmMapPage s pml4 vaddr paddr flags).mem x = s.mem x := by
  have hd := descends_root h hlow
  rw [vmmMapPage_pmm] at htaken
  rw [← hd.kept x hoff htaken]
  cases hdown : (descend s pml4 (dirs vaddr)).1 with
  | none => rw [vmmMapPage_of_none hdown]
  | some pt =>
    have hpt := hd.target pt hdown
    have hi := (ptIndex vaddr).isLt
    have hout : ¬ (pt ≤ x ∧ x < pt + pageSize) := by
      cases hd.only pml4 _ pt rfl (le_of_eq (dirs_length vaddr)) hpt with
      | inl hold => exact hoff pt ⟨pml4, _, rfl, le_of_eq (dirs_length vaddr), hold⟩
      | inr hreturned => exact fun hin => htaken ⟨pt, hreturned, hin⟩
    rw [vmmMapPage_of_some hdown]
    show putEntry _ pt _ _ x = _
    rw [putEntry, writeLe, if_neg (by rw [pageSize] at hout; omega)]

theorem flagged_vmmMapPage {φ : ℕ → Prop} (hφ : φ 7) (hflags : Flagged φ s.mem (fun r => r = pml4)) :
    Flagged φ (vmmMapPage s pml4 vaddr paddr flags).mem (fun r => r = pml4) := by
  have hd := descends_root h hlow
  cases hdown : (descend s pml4 (dirs vaddr)).1 with
  | none =>
    rw [vmmMapPage_of_none hdown]
    exact hd.flags φ hφ hflags
  | some pt =>
    rw [vmmMapPage_of_some hdown]
    exact flagged_putLeaf hd.forest rfl (dirs_length vaddr) (hd.target pt hdown) _ _ (hd.flags φ hφ hflags)

end Update

end Tree

/-! ### Entries from frames and flags -/

section Leaf

variable {paddr flags : ℕ} (hflags : flags < 2 ^ 64) (hclear : flags &&& 0xFFFFFFFFFF000 = 0)
include hflags

theorem leafEntry_eq : leafEntry paddr flags = paddr &&& 0xFFFFFFFFFF000 ||| flags := by
  have hframe : paddr &&& 0xFFFFFFFFFF000 < 2 ^ 64 :=
    lt_of_le_of_lt Nat.and_le_right (by decide)
  rw [leafEntry, Nat.mod_eq_of_lt (Nat.or_lt_two_pow hframe hflags)]

include hclear

/-- The address bits of the entry are those of the frame. -/
theorem tableOf_leafEntry : tableOf (leafEntry paddr flags) = paddr &&& 0xFFFFFFFFFF000 := by
  rw [leafEntry_eq hflags, tableOf, Nat.and_or_distrib_right, hclear, Nat.or_zero, Nat.and_assoc,
    Nat.and_self]

/-- The other bits are the flags. -/
theorem flagsOf_leafEntry : flagsOf (leafEntry paddr flags) = flags := by
  have hsplit : flags &&& 0xFFF0000000000FFF = flags := by
    have hall : flags &&& (2 ^ 64 - 1) = flags := by
      rw [Nat.and_two_pow_sub_one_eq_mod, Nat.mod_eq_of_lt hflags]
    rw [show (2 ^ 64 - 1 : ℕ) = 0xFFFFFFFFFF000 ||| 0xFFF0000000000FFF from by decide,
      Nat.and_or_distrib_left, hclear, Nat.zero_or] at hall
    exact hall
  rw [leafEntry_eq hflags, flagsOf, Nat.and_or_distrib_right, hsplit, Nat.and_assoc,
    show (0xFFFFFFFFFF000 &&& 0xFFF0000000000FFF : ℕ) = 0 from by decide, Nat.and_zero, Nat.zero_or]

omit hclear in
theorem present_leafEntry (hpresent : present flags = true) : present (leafEntry paddr flags) = true := by
  have hbit : ∀ e, present e = e.testBit 0 := by
    intro e
    rw [Nat.testBit_zero, Bool.eq_iff_iff, present_iff, decide_eq_true_eq]
  rw [leafEntry_eq hflags, hbit, Nat.testBit_or, ← hbit flags, hpresent, Bool.or_true]

end Leaf

/-- The bound of the machine: physical addresses, and so those of the free blocks, have 52 bits. -/
def Addressable (p : PmmState) : Prop :=
  ∀ i, i < p.totalBlocks → testBit p.bitmap i = false → i < 2 ^ 40

theorem Addressable.low {s : VmState} (h : Addressable s.pmm) (pml4 vaddr : ℕ) :
    LowBlocks s pml4 vaddr := by
  intro a ha
  obtain ⟨i, rfl, hi, hfree, -⟩ := ha.block
  have hlt := h i hi hfree
  rw [blockSize]
  omega

/-- **`vmm_map_page` updates the address map** at one page; when a block is refused the map stays. -/
theorem map_page_updates (s : VmState) (pml4 vaddr paddr flags : ℕ) (h : TreeOk s pml4)
    (hblocks : Addressable s.pmm) (hflags : flags < 2 ^ 64) (hpresent : present flags = true)
    (hclear : flags &&& 0xFFFFFFFFFF000 = 0) :
    (¬ AllocFails s pml4 vaddr →
        (∀ u, SamePage u vaddr → addressMap (vmmMapPage s pml4 vaddr paddr flags).mem pml4 u =
          some (paddr &&& 0xFFFFFFFFFF000, flags)) ∧
        (∀ u, ¬ SamePage u vaddr → addressMap (vmmMapPage s pml4 vaddr paddr flags).mem pml4 u =
          addressMap s.mem pml4 u) ∧
        TreeOk (vmmMapPage s pml4 vaddr paddr flags) pml4) ∧
      (AllocFails s pml4 vaddr → ∀ u,
        addressMap (vmmMapPage s pml4 vaddr paddr flags).mem pml4 u = addressMap s.mem pml4 u) := by
  have hlow := hblocks.low pml4 vaddr
  have hforest := forest_vmmMapPage h.forest hlow paddr flags
  have hsmall := flagged_vmmMapPage h.forest hlow paddr flags (show NoHuge 7 from rfl) h.flagged
  rw [allocFails_iff]
  refine ⟨fun hok => ⟨?_, ?_, hforest.treeOk hsmall⟩, ?_⟩
  · intro u hu
    rw [addressMap_eq hsmall, pageEntry_vmmMapPage h.forest hlow paddr flags hok,
      if_pos ((indices_eq_iff u vaddr).mpr hu), if_pos (present_leafEntry hflags hpresent),
      Option.map_some, tableOf_leafEntry hflags hclear, flagsOf_leafEntry hflags hclear]
  · intro u hu
    rw [addressMap_eq hsmall, pageEntry_vmmMapPage h.forest hlow paddr flags hok,
      if_neg (fun hsame => hu ((indices_eq_iff u vaddr).mp hsame)), addressMap_eq h.flagged]
  · intro hfails u
    rw [addressMap_eq hsmall, pageEntry_vmmMapPage_fails h.forest hlow paddr flags hfails,
      addressMap_eq h.flagged]

/-! ### An empty machine -/

/-- A machine of 64 blocks with an empty PML4 in block 1. -/
def emptyVm : VmState := ⟨fun _ => 0, { smallPmm with bitmap := fun _ => 3#32 }, 0x1000, 0x1000⟩

theorem treeOk_emptyVm : TreeOk emptyVm 0x1000 := by
  have hempty : ∀ k, present (entry emptyVm.mem 0x1000 k) = false := by
    intro k
    have hzero : entry emptyVm.mem 0x1000 k = 0 := entry_of_zeros (fun _ _ _ => rfl) k
    rw [hzero]
    rfl
  exact (forest_empty hempty (by decide) (by decide)).treeOk (flagged_empty hempty)

theorem map_page_updates_emptyVm :
    TreeOk emptyVm 0x1000 ∧ ¬ AllocFails emptyVm 0x1000 0x400000 ∧
      addressMap (vmmMapPage emptyVm 0x1000 0x400000 0x5000 7).mem 0x1000 0x400123 = some (0x5000, 7) := by
  have hblocks : Addressable emptyVm.pmm := fun i hi _ => lt_trans hi (by decide)
  have hok : ¬ AllocFails emptyVm 0x1000 0x400000 := by
    rw [allocFails_iff]
    decide
  exact ⟨treeOk_emptyVm, hok, ((map_page_updates emptyVm 0x1000 0x400000 0x5000 7 treeOk_emptyVm hblocks
    (by decide) (by decide) (by decide)).1 hok).1 0x400123
    (by rw [SamePage]; decide)⟩

end OsEojin.Vmm
