import OsEojin.VmmTables

/-!
# Mapping a page

`vmm_map_page` sets the entry of one page, and apart from the tables on the way there it changes no entry
of any table.  So the walk of an address can only change when it shares an entry with the mapped one.

* `Mapped`: the tables lead to an entry for the address;
* `MapSpec`, `vmmMapPage_spec`: everything `vmm_map_page` does to the tables;
* `vmmMapPage_shared`: through a shared page table it maps for everybody;
* `MapSpec.pageWalk_of_ne_root`: the walks it leaves alone;
* `translate_of_mapped`: what the processor makes of a mapped address.
-/

namespace OsEojin.Vmm

open OsEojin.Lib.ByteMemory OsEojin.Lib.Forests OsEojin.Pmm

/-- The tables of `r` lead to an entry for the address, and its value is `e`. -/
def Mapped (s : VmState) (r vaddr e : ℕ) : Prop :=
  ∃ pt, reach (next s.mem) r (dirs vaddr) = some pt ∧ entry s.mem pt (ptIndex vaddr) = e

/-- Two address spaces have the same page table for the address. -/
def SharesTable (s : VmState) (P Q vaddr : ℕ) : Prop :=
  ∃ pt, reach (next s.mem) P (dirs vaddr) = some pt ∧ reach (next s.mem) Q (dirs vaddr) = some pt

/-- The entry `vmm_map_page` sets. -/
def leafEntry (paddr flags : ℕ) : ℕ := (paddr &&& 0xFFFFFFFFFF000 ||| flags) % 2 ^ 64

/-- **What `vmm_map_page` does**, when `missing` of the tables on the way are not there yet. -/
structure MapSpec (root : ℕ → Prop) (P vaddr paddr flags missing : ℕ) (s s' : VmState) : Prop where
  ok : TablesOk s' root
  kernelPml4 : s'.kernelPml4 = s.kernelPml4
  pmm : Later s.pmm s'.pmm
  old : ∀ r q x, root r → q.length ≤ 3 → reach (next s.mem) r q = some x →
    reach (next s'.mem) r q = some x
  /-- a new table was a free block -/
  only : ∀ r q x, root r → q.length ≤ 3 → reach (next s'.mem) r q = some x →
    reach (next s.mem) r q = some x ∨ testBit s.pmm.bitmap (x / 4096) = false
  /-- an entry changes only when it is on the way -/
  entries : ∀ r q x k, root r → q.length ≤ 3 → reach (next s.mem) r q = some x →
    entry s'.mem x k = entry s.mem x k ∨
      ∃ q', q' ++ [k] <+: indices vaddr ∧ reach (next s.mem) P q' = some x
  budget : (freeBlocks s.pmm).card ≤ (freeBlocks s'.pmm).card + missing
  mapped : missing ≤ (freeBlocks s.pmm).card → Mapped s' P vaddr (leafEntry paddr flags)

section Map

variable {s : VmState} {root : ℕ → Prop} {P t : ℕ}

theorem dirs_isPrefix (vaddr : ℕ) : dirs vaddr <+: indices vaddr := ⟨[ptIndex vaddr], rfl⟩

theorem length_of_isPrefix {q : List (Fin 512)} {k : Fin 512} {u : ℕ} (h : q ++ [k] <+: indices u) :
    q.length ≤ 3 := by
  have hle := h.length_le
  simp only [List.length_append, List.length_singleton, indices, dirs_length] at hle
  omega

section Transfer

variable {s' : VmState} (hentry : ∀ t k, Node (next s.mem) root 3 t → entry s'.mem t k = entry s.mem t k)
include hentry

/-- What leaves the tables alone leaves the way to them alone. -/
theorem reach_dirs_transfer {r : ℕ} (hr : root r) (vaddr : ℕ) :
    reach (next s'.mem) r (dirs vaddr) = reach (next s.mem) r (dirs vaddr) :=
  reach_of_nodes (fun x k hx => next_congr (hentry x k hx)) hr (le_of_eq (dirs_length vaddr))

theorem Mapped.transfer {r vaddr e : ℕ} (hm : Mapped s r vaddr e) (hr : root r) :
    Mapped s' r vaddr e := by
  obtain ⟨pt, hpt, rfl⟩ := hm
  refine ⟨pt, ?_, hentry pt _ ⟨r, dirs vaddr, hr, le_of_eq (dirs_length vaddr), hpt⟩⟩
  rw [reach_dirs_transfer hentry hr]
  exact hpt

theorem SharesTable.transfer {Q vaddr : ℕ} (hs : SharesTable s P Q vaddr) (hP : root P) (hQ : root Q) :
    SharesTable s' P Q vaddr := by
  obtain ⟨pt, hPpt, hQpt⟩ := hs
  refine ⟨pt, ?_, ?_⟩
  · rw [reach_dirs_transfer hentry hP]
    exact hPpt
  · rw [reach_dirs_transfer hentry hQ]
    exact hQpt

end Transfer

/-- **`vmm_map_page`**, from the last table on its way that is there already. -/
theorem vmmMapPage_spec (h : TablesOk s root) (hP : root P) {vaddr : ℕ} (paddr flags : ℕ)
    {p rest : List (Fin 512)} (hway : dirs vaddr = p ++ rest)
    (ht : reach (next s.mem) P p = some t) :
    MapSpec root P vaddr paddr flags rest.length s (vmmMapPage s P vaddr paddr flags) := by
  have hlen : p.length + rest.length ≤ 3 := by
    rw [← List.length_append, ← hway, dirs_length]
  have hd := descend_spec h hP p rest hlen ht
  rw [vmmMapPage_eq, hway, descend_append ht]
  generalize descend s t rest = d at hd
  obtain ⟨o, s₁⟩ := d
  have hentries : ∀ r q x k, root r → q.length ≤ 3 → reach (next s.mem) r q = some x →
      entry s₁.mem x k = entry s.mem x k ∨
        ∃ q', q' ++ [k] <+: indices vaddr ∧ reach (next s.mem) P q' = some x := by
    intro r q x k hr hq hx
    refine (hd.entries r q x k hr hq hx).imp_right ?_
    rintro ⟨-, q', hq', hx'⟩
    rw [← hway] at hq'
    exact ⟨q', hq'.trans (dirs_isPrefix vaddr), hx'⟩
  cases o with
  | none =>
    refine ⟨hd.ok, hd.kernelPml4, hd.pmm, hd.old, hd.only, hentries, hd.budget, ?_⟩
    intro hfree
    exact absurd rfl (hd.arrives hfree)
  | some pt =>
    have hpt : reach (next s₁.mem) P (dirs vaddr) = some pt := by
      rw [hway]
      exact hd.target pt rfl
    have hreach := fun {r : ℕ} {q : List (Fin 512)} => reach_putLeaf hd.ok.forest hP (dirs_length vaddr) hpt
      (ptIndex vaddr) (paddr &&& 0xFFFFFFFFFF000 ||| flags) (r := r) (q := q)
    have hput := fun {x : ℕ} => entry_putLeaf hd.ok.forest hP (dirs_length vaddr) hpt
      (ptIndex vaddr) (paddr &&& 0xFFFFFFFFFF000 ||| flags) (x := x)
    refine ⟨hd.ok.putLeaf hP (dirs_length vaddr) hpt _ _, hd.kernelPml4, hd.pmm,
      ?_, ?_, ?_, hd.budget, ?_⟩
    · intro r q x hr hq hx
      exact (hreach hr hq).trans (hd.old r q x hr hq hx)
    · intro r q x hr hq hx
      exact hd.only r q x hr hq ((hreach hr hq).symm.trans hx)
    · intro r q x k hr hq hx
      have hold := hd.old r q x hr hq hx
      have hnode : Node (next s.mem) root 3 x := ⟨r, q, hr, hq, hx⟩
      by_cases hleaf : x = pt ∧ k = ptIndex vaddr
      · -- the table of the page was there, so the way to it was
        obtain ⟨rfl, rfl⟩ := hleaf
        right
        refine ⟨dirs vaddr, List.prefix_rfl, ?_⟩
        refine (hd.only P (dirs vaddr) x hP (le_of_eq (dirs_length vaddr)) hpt).resolve_right ?_
        rw [h.used x hnode]
        decide
      · have hsame : entry (putEntry s₁.mem pt (ptIndex vaddr) (paddr &&& 0xFFFFFFFFFF000 ||| flags)) x k =
            entry s₁.mem x k := by
          rw [hput (h.aligned_of_node hnode), if_neg hleaf]
        rw [hsame]
        exact hentries r q x k hr hq hx
    · intro _
      refine ⟨pt, (hreach hP (le_of_eq (dirs_length vaddr))).trans hpt, ?_⟩
      have halign := hd.ok.aligned_of_node ⟨P, _, hP, Nat.le_refl _, hpt⟩
      rw [hput halign, if_pos ⟨rfl, rfl⟩, leafEntry]

/-- The same from the root: three tables may be missing. -/
theorem vmmMapPage_root (h : TablesOk s root) (hP : root P) (vaddr paddr flags : ℕ) :
    MapSpec root P vaddr paddr flags 3 s (vmmMapPage s P vaddr paddr flags) :=
  vmmMapPage_spec h hP paddr flags (show dirs vaddr = [] ++ dirs vaddr from rfl) rfl

/-- An entry on the way to two addresses, seen from two roots: the ways agree so far. -/
theorem way_eq (h : TablesOk s root) (hP : root P) {r x vaddr : ℕ} {q q' : List (Fin 512)}
    {k : Fin 512} (hr : root r) (hq : q.length ≤ 3) (hx : reach (next s.mem) r q = some x)
    (hq' : q' ++ [k] <+: indices vaddr) (hx' : reach (next s.mem) P q' = some x) :
    q = q' ∧ (r = P ∨ q.head? = some 0) := by
  obtain ⟨heq, hroots⟩ := h.separated r P q q' x hr hP hq (length_of_isPrefix hq') hx hx'
  refine ⟨heq, hroots.imp_right ?_⟩
  rintro ⟨i, hi, rfl⟩
  exact hi

/-- Through a shared page table, a page mapped in one address space is mapped in the other. -/
theorem vmmMapPage_shared (h : TablesOk s root) (hP : root P) {Q vaddr : ℕ} (hQ : root Q)
    (paddr flags : ℕ) (hshares : SharesTable s P Q vaddr) :
    Mapped (vmmMapPage s P vaddr paddr flags) Q vaddr (leafEntry paddr flags) := by
  obtain ⟨pt, hPpt, hQpt⟩ := hshares
  have hspec := vmmMapPage_spec h hP paddr flags (List.append_nil (dirs vaddr)).symm hPpt
  have hlen := le_of_eq (dirs_length vaddr)
  obtain ⟨pt', hpt', hentry⟩ := hspec.mapped (Nat.zero_le _)
  rw [hspec.old P _ pt hP hlen hPpt] at hpt'
  obtain rfl := Option.some.inj hpt'
  exact ⟨pt, hspec.old Q _ pt hQ hlen hQpt, hentry⟩

end Map

/-! ### Walks -/

section Walks

variable {s s' : VmState} {root : ℕ → Prop} {P Q : ℕ}

/-- **The walk reads the entries along the indices**, and nothing else. -/
theorem walkFrom_congr {m m' : Memory} {t : ℕ} {path : List (Fin 512)}
    (h : ∀ q i x, q ++ [i] <+: path → reach (next m) t q = some x → entry m' x i = entry m x i) :
    walkFrom m' t path = walkFrom m t path := by
  induction path generalizing t with
  | nil => rfl
  | cons i rest ih =>
    have hfirst : entry m' t i = entry m t i := h [] i t ⟨rest, rfl⟩ rfl
    rw [walkFrom, walkFrom, hfirst]
    split
    · rfl
    · rename_i hgoes
      have hpresent : present (entry m t i) = true := by
        simp only [endsWalk, Bool.or_eq_true, Bool.not_eq_true', not_or] at hgoes
        simpa using hgoes.1
      rw [ih]
      intro q k x hq hx
      apply h (i :: q) k x
      · exact List.cons_prefix_cons.mpr ⟨rfl, hq⟩
      · rw [reach_cons, next_eq_some hpresent]
        exact hx

/-- The walk stays when no entry on it is on the way of the mapped address. -/
theorem MapSpec.pageWalk_eq {vaddr paddr flags missing : ℕ}
    (hspec : MapSpec root P vaddr paddr flags missing s s') (hQ : root Q) {u : ℕ}
    (hoff : ∀ q k x q', q ++ [k] <+: indices u → reach (next s.mem) Q q = some x →
      q' ++ [k] <+: indices vaddr → reach (next s.mem) P q' = some x → False) :
    pageWalk s'.mem Q u = pageWalk s.mem Q u := by
  apply walkFrom_congr
  intro q k x hq hx
  cases hspec.entries Q q x k hQ (length_of_isPrefix hq) hx with
  | inl hsame => exact hsame
  | inr hway =>
    obtain ⟨q', hq', hx'⟩ := hway
    exact (hoff q k x q' hq hx hq' hx').elim

theorem head?_of_isPrefix {q : List (Fin 512)} {k : Fin 512} {u : ℕ} (h : q ++ [k] <+: indices u) :
    (q ++ [k]).head? = some (pml4Index u) := by
  obtain ⟨rest, hrest⟩ := h
  cases q with
  | nil =>
    have hhead := congrArg List.head? hrest
    simpa [indices, dirs] using hhead
  | cons i q =>
    have hhead := congrArg List.head? hrest
    simpa [indices, dirs] using hhead

/-- **Another address space**: when the mapped address is not behind the shared entry, every walk is the
same. -/
theorem MapSpec.pageWalk_of_ne_root {vaddr paddr flags missing : ℕ}
    (hspec : MapSpec root P vaddr paddr flags missing s s') (h : TablesOk s root) (hP : root P)
    (hQ : root Q) (hPQ : P ≠ Q) (hne : pml4Index vaddr ≠ 0) (u : ℕ) :
    pageWalk s'.mem Q u = pageWalk s.mem Q u := by
  apply hspec.pageWalk_eq hQ
  intro q k x q' hq hx hq' hx'
  obtain ⟨rfl, hroots⟩ := way_eq h hP hQ (length_of_isPrefix hq) hx hq' hx'
  have hzero := hroots.resolve_left (Ne.symm hPQ)
  have hhead := head?_of_isPrefix hq'
  rw [head?_concat hzero] at hhead
  exact hne (Option.some.inj hhead).symm

/-- The bit for a large page is clear. -/
def NoHuge (f : ℕ) : Prop := f &&& pagingFlagHugePage = 0

/-- The low twelve bits of an entry hold its flags. -/
theorem and_flag_mod (e : ℕ) {k : ℕ} (hk : k < 12) : e % 4096 &&& 2 ^ k = e &&& 2 ^ k := by
  apply Nat.eq_of_testBit_eq
  intro i
  rw [show (4096 : ℕ) = 2 ^ 12 from rfl, Nat.testBit_and, Nat.testBit_and, Nat.testBit_two_pow,
    Nat.testBit_mod_two_pow]
  by_cases hi : k = i
  · simp [← hi, hk]
  · simp [hi]

theorem noHuge_mod (e : ℕ) : NoHuge (e % 4096) ↔ NoHuge e := by
  have hsame : e % 4096 &&& pagingFlagHugePage = e &&& pagingFlagHugePage :=
    and_flag_mod e (show 7 < 12 from by decide)
  rw [NoHuge, NoHuge, hsame]

/-- Without that bit the walk ends where an entry is not present. -/
theorem endsWalk_noHuge {e : ℕ} (he : NoHuge (e % 4096)) (left : ℕ) : endsWalk e left = !present e := by
  rw [noHuge_mod] at he
  rw [endsWalk, show e &&& pagingFlagHugePage = 0 from he]
  simp

theorem Flagged.mono {φ ψ : ℕ → Prop} {m : Memory} (h : Flagged φ m root) (hφ : ∀ f, φ f → ψ f) :
    Flagged ψ m root :=
  fun t k ht hpresent => hφ _ (h t k ht hpresent)

theorem TablesOk.noHuge (h : TablesOk s root) : Flagged NoHuge s.mem root :=
  h.flagged.mono fun f hf => by rw [hf]; rfl

/-- Along entries for tables the walk goes on. -/
theorem walkFrom_cons {m : Memory} (h : Flagged NoHuge m root) {t x : ℕ} (ht : Node (next m) root 2 t)
    {i : Fin 512} (hx : next m t i = some x) (rest : List (Fin 512)) :
    walkFrom m t (i :: rest) = entry m t i :: walkFrom m x rest := by
  rw [next] at hx
  split at hx
  · rename_i hpresent
    obtain rfl := Option.some.inj hx
    rw [walkFrom, endsWalk_noHuge (h t i ht hpresent), hpresent]
    rfl
  · cases hx

/-- It ends where there is no table. -/
theorem walkFrom_absent {m : Memory} {t : ℕ} {i : Fin 512} (hx : next m t i = none)
    (rest : List (Fin 512)) : walkFrom m t (i :: rest) = [entry m t i] := by
  rw [walkFrom, endsWalk, present_of_next_eq_none hx]
  rfl

theorem walkFrom_last (m : Memory) (t : ℕ) (i : Fin 512) : walkFrom m t [i] = [entry m t i] := by
  rw [walkFrom]
  split
  · rfl
  · rfl

/-- **The walk follows the tables** to the entry of the page, or ends at an entry that is not present. -/
theorem pageWalk_cases {m : Memory} (h : Flagged NoHuge m root) (hQ : root Q) (u : ℕ) :
    (∃ pdpt pd pt, next m Q (pml4Index u) = some pdpt ∧ next m pdpt (pdptIndex u) = some pd ∧
        next m pd (pdIndex u) = some pt ∧
        pageWalk m Q u = [entry m Q (pml4Index u), entry m pdpt (pdptIndex u), entry m pd (pdIndex u),
          entry m pt (ptIndex u)]) ∨
      (reach (next m) Q (dirs u) = none ∧
        ∃ es e, pageWalk m Q u = es ++ [e] ∧ es.length ≤ 2 ∧ present e = false) := by
  have hroot : Node (next m) root 2 Q := ⟨Q, [], hQ, by decide, rfl⟩
  rw [pageWalk, dirs, show indices u = [pml4Index u, pdptIndex u, pdIndex u, ptIndex u] from rfl]
  cases hpdpt : next m Q (pml4Index u) with
  | none =>
    right
    rw [walkFrom_absent hpdpt, reach_cons, hpdpt]
    exact ⟨rfl, [], _, rfl, by decide, present_of_next_eq_none hpdpt⟩
  | some pdpt =>
    have hnode₁ : Node (next m) root 2 pdpt := ⟨Q, [pml4Index u], hQ, by simp, by simp [hpdpt]⟩
    rw [walkFrom_cons h hroot hpdpt, reach_cons, hpdpt, Option.bind_some]
    cases hpd : next m pdpt (pdptIndex u) with
    | none =>
      right
      rw [walkFrom_absent hpd, reach_cons, hpd]
      exact ⟨rfl, [_], _, rfl, by simp, present_of_next_eq_none hpd⟩
    | some pd =>
      have hnode₂ : Node (next m) root 2 pd :=
        ⟨Q, [pml4Index u, pdptIndex u], hQ, by simp, by simp [hpdpt, hpd]⟩
      rw [walkFrom_cons h hnode₁ hpd, reach_cons, hpd, Option.bind_some]
      cases hpt : next m pd (pdIndex u) with
      | none =>
        right
        rw [walkFrom_absent hpt, reach_cons, hpt]
        exact ⟨rfl, [_, _], _, rfl, by simp, present_of_next_eq_none hpt⟩
      | some pt =>
        left
        rw [walkFrom_cons h hnode₂ hpt, walkFrom_last]
        exact ⟨pdpt, pd, pt, rfl, hpd, hpt, rfl⟩

theorem reach_dirs {m : Memory} {u pdpt pd pt : ℕ} (hpdpt : next m Q (pml4Index u) = some pdpt)
    (hpd : next m pdpt (pdptIndex u) = some pd) (hpt : next m pd (pdIndex u) = some pt) :
    reach (next m) Q (dirs u) = some pt := by
  simp [dirs, hpdpt, hpd, hpt]

/-- The last entry of a walk is the page's, or it is not present. -/
theorem pageWalk_last {m : Memory} (h : Flagged NoHuge m root) (hQ : root Q) (u : ℕ) :
    (∃ e₁ e₂ e₃ e, pageWalk m Q u = [e₁, e₂, e₃, e] ∧ present e = true ∧ pageEntry m Q u = some e) ∨
      (pageEntry m Q u = none ∧ ∃ es e, pageWalk m Q u = es ++ [e] ∧ es.length ≤ 3 ∧ present e = false) := by
  rcases pageWalk_cases h hQ u with ⟨pdpt, pd, pt, hpdpt, hpd, hpt, hwalk⟩ | ⟨hnone, es, e, hwalk, hes, he⟩
  · rw [pageEntry, reach_dirs hpdpt hpd hpt, Option.bind_some]
    cases hpresent : present (entry m pt (ptIndex u)) with
    | true => exact Or.inl ⟨_, _, _, _, hwalk, hpresent, if_pos rfl⟩
    | false => exact Or.inr ⟨if_neg Bool.false_ne_true, [_, _, _], _, hwalk, le_rfl, hpresent⟩
  · rw [pageEntry, hnone]
    exact Or.inr ⟨Option.bind_none _, es, e, hwalk, by omega, he⟩

/-- What the walk yields is what the tables hold. -/
theorem translate_eq {m : Memory} (h : Flagged NoHuge m root) (hQ : root Q) (u : ℕ) :
    translate m Q u = (pageEntry m Q u).map fun e => tableOf e + u % 2 ^ 12 := by
  rw [translate]
  rcases pageWalk_last h hQ u with ⟨e₁, e₂, e₃, e, hwalk, he, hentry⟩ | ⟨hentry, es, e, hwalk, hes, he⟩
  · rw [hwalk, hentry]
    simp [he]
  · rw [hwalk, hentry]
    rcases es with _ | ⟨e₁, _ | ⟨e₂, _ | ⟨e₃, _ | ⟨e₄, es⟩⟩⟩⟩
    · rfl
    · simp [he]
    · simp [he]
    · simp [he]
    · simp only [List.length_cons] at hes
      omega

/-- **The processor follows the tables to a mapped address.** -/
theorem translate_of_mapped (h : TablesOk s root) (hQ : root Q) {u e : ℕ} (hm : Mapped s Q u e)
    (he : present e = true) : translate s.mem Q u = some (tableOf e + u % 4096) := by
  obtain ⟨pt, hpt, rfl⟩ := hm
  rw [translate_eq h.noHuge hQ, pageEntry, hpt, Option.bind_some, if_pos he]
  rfl

end Walks

end OsEojin.Vmm
