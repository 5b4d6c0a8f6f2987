import Mathlib.Data.List.Induction
import Mathlib.Tactic.Common

/-!
# Forests of tables

Radix trees in a memory: a node has slots, `next t i` is the node that slot `i` of `t` points to, if any.
Several roots may lead into one tree, but only through slots that are meant to be shared.

* `reach`: the node at the end of a path; `reach_congr`: it depends on the slots of the path only;
* `Node`: the nodes within a given depth of the roots;
* `Separated`: a node has one path, and two roots lead to it only through a shared slot;
* `Grows`, `Separated.grows`: an empty slot gets a fresh empty node;
* `Separated.addRoot`: a fresh root takes over the shared slots of an old one.
-/

namespace OsEojin.Lib.Forests

variable {T I : Type*}

/-! ### Paths -/

/-- The node at the end of the path `p` from `t`. -/
def reach (next : T → I → Option T) : T → List I → Option T
  | t, [] => some t
  | t, i :: p => (next t i).bind fun x => reach next x p

section Paths

variable {next next' : T → I → Option T}

@[simp] theorem reach_nil (t : T) : reach next t [] = some t := rfl

@[simp] theorem reach_cons (t : T) (i : I) (p : List I) :
    reach next t (i :: p) = (next t i).bind fun x => reach next x p := rfl

theorem reach_append (t : T) (p q : List I) :
    reach next t (p ++ q) = (reach next t p).bind fun x => reach next x q := by
  induction p generalizing t with
  | nil => rfl
  | cons i p ih => simp only [List.cons_append, reach_cons, ih, Option.bind_assoc]

theorem reach_concat (t : T) (p : List I) (i : I) :
    reach next t (p ++ [i]) = (reach next t p).bind fun x => next x i := by
  rw [reach_append]
  congr 1
  funext x
  simp

/-- What is reached depends on the slots along the path only. -/
theorem reach_congr {t : T} {p : List I}
    (h : ∀ q i x, q ++ [i] <+: p → reach next t q = some x → next' x i = next x i) :
    reach next' t p = reach next t p := by
  induction p generalizing t with
  | nil => rfl
  | cons i p ih =>
    have hfirst : next' t i = next t i := h [] i t ⟨p, rfl⟩ rfl
    rw [reach_cons, reach_cons, hfirst]
    cases hnext : next t i with
    | none => rfl
    | some y =>
      apply ih
      intro q k x hq hx
      apply h (i :: q) k x
      · exact (List.cons_prefix_cons).mpr ⟨rfl, hq⟩
      · rw [reach_cons, hnext]
        exact hx

end Paths

/-! ### Nodes and sharing -/

/-- The nodes at most `depth` slots below a root. -/
def Node (next : T → I → Option T) (root : T → Prop) (depth : ℕ) (t : T) : Prop :=
  ∃ r p, root r ∧ p.length ≤ depth ∧ reach next r p = some t

/-- **A node has one path**, and different roots lead to it only through a shared slot. -/
def Separated (next : T → I → Option T) (root : T → Prop) (shared : I → Prop) (depth : ℕ) : Prop :=
  ∀ r r' p p' t, root r → root r' → p.length ≤ depth → p'.length ≤ depth →
    reach next r p = some t → reach next r' p' = some t →
    p = p' ∧ (r = r' ∨ ∃ i, p.head? = some i ∧ shared i)

/-- Slot `i` of `t`, empty before, now leads to the fresh node `a`, all of whose slots are empty; no slot
of another node changes. -/
structure Grows (next next' : T → I → Option T) (node : T → Prop) (t : T) (i : I) (a : T) : Prop where
  was : next t i = none
  slot : next' t i = some a
  same : ∀ x k, node x → (x ≠ t ∨ k ≠ i) → next' x k = next x k
  fresh : ¬ node a
  empty : ∀ k, next' a k = none

section Growth

variable {next next' : T → I → Option T} {root : T → Prop} {shared : I → Prop} {depth : ℕ}
  {t a : T} {i : I}

/-- What could be reached is still reached. -/
theorem Grows.reach_old (h : Grows next next' (Node next root depth) t i a) {r x : T} {p : List I}
    (hr : root r) (hp : p.length ≤ depth) (hx : reach next r p = some x) :
    reach next' r p = some x := by
  rw [← hx]
  apply reach_congr
  rintro q k y ⟨rest, rfl⟩ hy
  simp only [List.length_append, List.length_singleton] at hp
  apply h.same y k ⟨r, q, hr, by omega, hy⟩
  -- the slot is on a path that exists, so it is not the empty one
  by_contra hboth
  push Not at hboth
  obtain ⟨rfl, rfl⟩ := hboth
  rw [List.append_assoc, reach_append, hy] at hx
  simp [h.was] at hx

/-- What is reached now was reached before, or is the new node. -/
theorem Grows.reach_cases (h : Grows next next' (Node next root depth) t i a) {r x : T} {p : List I}
    (hr : root r) (hp : p.length ≤ depth) (hx : reach next' r p = some x) :
    reach next r p = some x ∨ x = a ∧ ∃ q, p = q ++ [i] ∧ reach next r q = some t := by
  induction p using List.reverseRecOn generalizing x with
  | nil => exact Or.inl hx
  | append_singleton q k ih =>
    simp only [List.length_append, List.length_singleton] at hp
    rw [reach_concat] at hx
    obtain ⟨y, hy, hxy⟩ := Option.bind_eq_some_iff.mp hx
    cases ih (by omega) hy with
    | inr hnew =>
      rw [hnew.1, h.empty] at hxy
      cases hxy
    | inl hold =>
      by_cases hslot : y = t ∧ k = i
      · obtain ⟨rfl, rfl⟩ := hslot
        rw [h.slot] at hxy
        exact Or.inr ⟨(Option.some.inj hxy).symm, q, rfl, hold⟩
      · left
        rw [reach_concat, hold, Option.bind_some, ← hxy]
        exact (h.same y k ⟨r, q, hr, by omega, hold⟩ (not_and_or.mp hslot)).symm

theorem head?_concat {p : List I} {k j : I} (h : p.head? = some k) : (p ++ [j]).head? = some k := by
  cases p with
  | nil => cases h
  | cons _ _ => exact h

/-- **Growing keeps the forest separated.** -/
theorem Separated.grows (hsep : Separated next root shared depth)
    (h : Grows next next' (Node next root depth) t i a) : Separated next' root shared depth := by
  intro r r' p p' x hr hr' hp hp' hx hx'
  cases h.reach_cases hr hp hx with
  | inl hold =>
    cases h.reach_cases hr' hp' hx' with
    | inl hold' => exact hsep r r' p p' x hr hr' hp hp' hold hold'
    | inr hnew' => exact absurd ⟨r, p, hr, hp, hnew'.1 ▸ hold⟩ h.fresh
  | inr hnew =>
    cases h.reach_cases hr' hp' hx' with
    | inl hold' => exact absurd ⟨r', p', hr', hp', hnew.1 ▸ hold'⟩ h.fresh
    | inr hnew' =>
      obtain ⟨-, q, rfl, hq⟩ := hnew
      obtain ⟨-, q', rfl, hq'⟩ := hnew'
      simp only [List.length_append, List.length_singleton] at hp hp'
      obtain ⟨rfl, hroots⟩ := hsep r r' q q' t hr hr' (by omega) (by omega) hq hq'
      refine ⟨rfl, hroots.imp_right ?_⟩
      rintro ⟨k, hk, hshared⟩
      exact ⟨k, head?_concat hk, hshared⟩

/-- **One node more**: of the paths that led nowhere, only the one to the new node leads somewhere now. -/
theorem Grows.reach_eq_none_iff (h : Grows next next' (Node next root depth) t i a)
    (hsep : Separated next root shared depth) {r : T} {p q : List I} (hr : root r) (hp : p.length < depth)
    (ht : reach next r p = some t) (hq : q.length ≤ depth) :
    reach next' r q = none ↔ reach next r q = none ∧ q ≠ p ++ [i] := by
  constructor
  · intro hnone
    constructor
    · cases hold : reach next r q with
      | none => rfl
      | some x =>
        rw [h.reach_old hr hq hold] at hnone
        cases hnone
    · rintro rfl
      rw [reach_concat, h.reach_old hr (by omega) ht, Option.bind_some, h.slot] at hnone
      cases hnone
  · rintro ⟨hnone, hne⟩
    cases hnew : reach next' r q with
    | none => rfl
    | some x =>
      cases h.reach_cases hr hq hnew with
      | inl hold =>
        rw [hnone] at hold
        cases hold
      | inr hpath =>
        obtain ⟨-, q', rfl, ht'⟩ := hpath
        simp only [List.length_append, List.length_singleton] at hq
        obtain ⟨rfl, -⟩ := hsep r r p q' t hr hr (by omega) (by omega) ht ht'
        exact absurd rfl hne

end Growth

/-! ### A new root -/

section Roots

variable {next next' : T → I → Option T} {root : T → Prop} {shared : I → Prop} {depth : ℕ}
  {K R : T}

/-- The slots of the old nodes are untouched, so every old path leads where it led. -/
theorem reach_of_nodes (hsame : ∀ x k, Node next root depth x → next' x k = next x k) {r : T}
    (hr : root r) {p : List I} (hp : p.length ≤ depth) : reach next' r p = reach next r p := by
  apply reach_congr
  rintro q k x ⟨rest, rfl⟩ hx
  simp only [List.length_append, List.length_singleton] at hp
  exact hsame x k ⟨r, q, hr, by omega, hx⟩

/-- From the new root, the shared slots lead where those of `K` lead. -/
theorem reach_addRoot (hsame : ∀ x k, Node next root depth x → next' x k = next x k) (hK : root K)
    {j : I} (hslot : next' R j = next K j) {p : List I} (hp : (j :: p).length ≤ depth) :
    reach next' R (j :: p) = reach next K (j :: p) := by
  rw [← reach_of_nodes hsame hK hp, reach_cons, reach_cons, hslot,
    hsame K j ⟨K, [], hK, Nat.zero_le _, rfl⟩]

/-- **A fresh root that takes over the shared slots of an old one** keeps the forest separated. -/
theorem Separated.addRoot (hsep : Separated next root shared depth)
    (hsame : ∀ x k, Node next root depth x → next' x k = next x k) (hK : root K)
    (hfresh : ¬ Node next root depth R) (hshared : ∀ j, shared j → next' R j = next K j)
    (hempty : ∀ j, ¬ shared j → next' R j = none) :
    Separated next' (fun r => root r ∨ r = R) shared depth := by
  -- every path from the new root is empty or a shared path of `K`
  have hnew : ∀ p t, p.length ≤ depth → reach next' R p = some t →
      p = [] ∧ t = R ∨ (∃ j, p.head? = some j ∧ shared j) ∧ reach next K p = some t := by
    intro p t hp ht
    cases p with
    | nil => exact Or.inl ⟨rfl, (Option.some.inj ht).symm⟩
    | cons j p =>
      by_cases hj : shared j
      · rw [reach_addRoot hsame hK (hshared j hj) hp] at ht
        exact Or.inr ⟨⟨j, rfl, hj⟩, ht⟩
      · rw [reach_cons, hempty j hj] at ht
        cases ht
  have hold : ∀ r p t, root r → p.length ≤ depth → reach next' r p = some t →
      reach next r p = some t := by
    intro r p t hr hp ht
    rwa [reach_of_nodes hsame hr hp] at ht
  intro r r' p p' t hr hr' hp hp' ht ht'
  cases hr with
  | inl hr =>
    have hnode := hold r p t hr hp ht
    cases hr' with
    | inl hr' => exact hsep r r' p p' t hr hr' hp hp' hnode (hold r' p' t hr' hp' ht')
    | inr hr' =>
      subst hr'
      cases hnew p' t hp' ht' with
      | inl hroot => exact absurd ⟨r, p, hr, hp, hroot.2 ▸ hnode⟩ hfresh
      | inr hpath =>
        obtain ⟨rfl, -⟩ := hsep r K p p' t hr hK hp hp' hnode hpath.2
        exact ⟨rfl, Or.inr hpath.1⟩
  | inr hr =>
    subst hr
    cases hnew p t hp ht with
    | inl hroot =>
      cases hr' with
      | inl hr' => exact absurd ⟨r', p', hr', hp', hroot.2 ▸ hold r' p' t hr' hp' ht'⟩ hfresh
      | inr hr' =>
        subst hr'
        cases hnew p' t hp' ht' with
        | inl hroot' => exact ⟨hroot.1.trans hroot'.1.symm, Or.inl rfl⟩
        | inr hpath' => exact absurd ⟨K, p', hK, hp', hroot.2 ▸ hpath'.2⟩ hfresh
    | inr hpath =>
      cases hr' with
      | inl hr' =>
        obtain ⟨rfl, -⟩ := hsep K r' p p' t hK hr' hp hp' hpath.2 (hold r' p' t hr' hp' ht')
        exact ⟨rfl, Or.inr hpath.1⟩
      | inr hr' =>
        subst hr'
        cases hnew p' t hp' ht' with
        | inl hroot' => exact absurd ⟨K, p, hK, hp, hroot'.2 ▸ hpath.2⟩ hfresh
        | inr hpath' =>
          obtain ⟨rfl, -⟩ := hsep K K p p' t hK hK hp hp' hpath.2 hpath'.2
          exact ⟨rfl, Or.inl rfl⟩

end Roots

end OsEojin.Lib.Forests
