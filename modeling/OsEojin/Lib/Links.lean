import Mathlib.Data.Fintype.Card
import Mathlib.Data.Fintype.EquivFin
import Mathlib.Logic.Function.Basic

/-!
# Links in an array, and a walk that erases them

Singly linked lists that share one array: the cell of `x` holds the next place `f x`, and some places are
marks at which a list ends.  A walk that erases its links writes the value `z` into every cell it leaves, so
a cell it comes to a second time sends it to `z`.

* `Ends`: the links from a place lead to a mark; `EndsIn`: in so many steps;
* `Reaches`: they lead to a place, through places of one kind;
* `erase`: the walk that erases its links;
* `erase_returns_iff`: it comes to a mark exactly if the links from its start lead to one, or the links from
  `z` do.
-/

namespace OsEojin.Lib.Links

variable {α : Type*} {mark : α → Prop} {f : α → α} {x y z : α}

/-! ### Links that lead to a mark -/

/-- From `x` the links lead to a mark in `n` steps. -/
def EndsIn (mark : α → Prop) (f : α → α) : ℕ → α → Prop
  | 0, x => mark x
  | n + 1, x => ¬ mark x ∧ EndsIn mark f n (f x)

/-- From `x` the links lead to a mark. -/
def Ends (mark : α → Prop) (f : α → α) (x : α) : Prop := ∃ n, EndsIn mark f n x

theorem ends_of_mark (h : mark x) : Ends mark f x := ⟨0, h⟩

/-- Away from the marks, a place and the next one end together. -/
theorem ends_link_iff (h : ¬ mark x) : Ends mark f x ↔ Ends mark f (f x) := by
  constructor
  · rintro ⟨n, hn⟩
    cases n with
    | zero => exact absurd hn h
    | succ n => exact ⟨n, hn.2⟩
  · rintro ⟨n, hn⟩
    exact ⟨n + 1, h, hn⟩

/-- The number of steps is determined. -/
theorem EndsIn.unique {m n : ℕ} (hm : EndsIn mark f m x) (hn : EndsIn mark f n x) : m = n := by
  induction m generalizing n x with
  | zero =>
    cases n with
    | zero => rfl
    | succ n => exact absurd hm hn.1
  | succ m ih =>
    cases n with
    | zero => exact absurd hn hm.1
    | succ n => rw [ih hm.2 hn.2]

/-! ### Links through places of one kind -/

/-- From `x` the links lead to `y` in `n` steps, and all places on the way satisfy `p`, the two ends too. -/
def Reaches (p : α → Prop) (f : α → α) : ℕ → α → α → Prop
  | 0, x, y => p x ∧ y = x
  | n + 1, x, y => p x ∧ Reaches p f n (f x) y

theorem Reaches.last {p : α → Prop} {n : ℕ} (h : Reaches p f n x y) : p y := by
  induction n generalizing x with
  | zero =>
    obtain ⟨hx, rfl⟩ := h
    exact hx
  | succ n ih => exact ih h.2

/-- The links lead to one place, whatever is asked of the way. -/
theorem Reaches.unique {p q : α → Prop} {n : ℕ} {y' : α} (h : Reaches p f n x y) (h' : Reaches q f n x y') :
    y = y' := by
  induction n generalizing x with
  | zero => rw [h.2, h'.2]
  | succ n ih => exact ih h.2 h'.2

/-- A way all of whose beginnings end at places that satisfy `q`. -/
theorem Reaches.of_places {p q : α → Prop} {n : ℕ} (h : Reaches p f n x y)
    (hq : ∀ m z, Reaches p f m x z → q z) : Reaches q f n x y := by
  induction n generalizing x with
  | zero => exact ⟨hq 0 x ⟨h.1, rfl⟩, h.2⟩
  | succ n ih => exact ⟨hq 0 x ⟨h.1, rfl⟩, ih h.2 fun m z hz => hq (m + 1) z ⟨h.1, hz⟩⟩

variable [DecidableEq α]

/-- A cell whose place has more steps to go is not on the way. -/
theorem EndsIn.update {m n : ℕ} (hm : EndsIn mark f m y) (hn : EndsIn mark f n x) (hlt : m < n) (v : α) :
    EndsIn mark (Function.update f x v) m y := by
  induction m generalizing y with
  | zero => exact hm
  | succ m ih =>
    have hne : y ≠ x := by
      rintro rfl
      have := hm.unique hn
      omega
    refine ⟨hm.1, ?_⟩
    rw [Function.update_of_ne hne]
    exact ih hm.2 (by omega)

/-- Nor is a cell whose links lead to no mark. -/
theorem Ends.update (hy : Ends mark f y) (hx : ¬ Ends mark f x) (v : α) :
    Ends mark (Function.update f x v) y := by
  obtain ⟨n, hn⟩ := hy
  induction n generalizing y with
  | zero => exact ends_of_mark hn
  | succ n ih =>
    have hne : y ≠ x := by
      rintro rfl
      exact hx ⟨n + 1, hn⟩
    rw [ends_link_iff hn.1, Function.update_of_ne hne]
    exact ih hn.2

/-- With the cell of `x` erased, what ends did so before, or `z` did. -/
theorem Ends.of_update (h : Ends mark (Function.update f x z) y) : Ends mark f y ∨ Ends mark f z := by
  obtain ⟨n, hn⟩ := h
  induction n generalizing y with
  | zero => exact Or.inl (ends_of_mark hn)
  | succ n ih =>
    obtain ⟨hmark, hrest⟩ := hn
    by_cases hyx : y = x
    · rw [hyx, Function.update_self] at hrest
      exact (ih hrest).elim Or.inr Or.inr
    · rw [Function.update_of_ne hyx] at hrest
      exact (ih hrest).imp_left (ends_link_iff hmark).mpr

/-! ### The walk -/

variable [DecidablePred mark]

/-- The walk from `x`: read the cell, erase it, go on with what was read; `none` when the fuel is used up. -/
def erase (mark : α → Prop) [DecidablePred mark] (z : α) : ℕ → (α → α) → α → Option (α → α)
  | 0, _, _ => none
  | n + 1, f, x => if mark x then some f else erase mark z n (Function.update f x z) (f x)

/-- The walk comes back. -/
def Returns (mark : α → Prop) [DecidablePred mark] (z : α) (f : α → α) (x : α) : Prop :=
  ∃ n, (erase mark z n f x).isSome = true

theorem returns_of_mark (h : mark x) : Returns mark z f x := ⟨1, by simp [erase, h]⟩

theorem returns_of_step (h : ¬ mark x) (hnext : Returns mark z (Function.update f x z) (f x)) :
    Returns mark z f x := by
  obtain ⟨n, hn⟩ := hnext
  refine ⟨n + 1, ?_⟩
  rw [erase, if_neg h]
  exact hn

/-- Links that lead to a mark are followed to it: no cell of the way is erased before it is read. -/
theorem returns_of_endsIn {n : ℕ} (h : EndsIn mark f n x) : Returns mark z f x := by
  induction n generalizing f x with
  | zero => exact returns_of_mark h
  | succ n ih => exact returns_of_step h.1 (ih (h.2.update (n := n + 1) h (Nat.lt_succ_self n) z))

/-- When the links from `z` lead to a mark, every walk comes to one: each cell on a way that leads nowhere is
erased once, and leads to `z` from then on. -/
theorem returns_of_ends [Finite α] (hz : Ends mark f z) : Returns mark z f x := by
  classical
  have := Fintype.ofFinite α
  induction hcard : (Finset.univ.filter fun y => ¬ Ends mark f y).card using Nat.strong_induction_on
    generalizing f x with
  | _ k ih =>
    by_cases hx : Ends mark f x
    · obtain ⟨n, hn⟩ := hx
      exact returns_of_endsIn hn
    · have hmark : ¬ mark x := fun h => hx (ends_of_mark h)
      have hz' : Ends mark (Function.update f x z) z := hz.update hx z
      have hx' : Ends mark (Function.update f x z) x := by
        rw [ends_link_iff hmark, Function.update_self]
        exact hz'
      refine returns_of_step hmark (ih _ ?_ hz' rfl)
      -- fewer cells lead nowhere: `x` is one of them no longer
      rw [← hcard]
      apply Finset.card_lt_card
      rw [Finset.ssubset_iff_of_subset]
      · exact ⟨x, by simp [hx], by simp [hx']⟩
      · intro y hy
        simp only [Finset.mem_filter, Finset.mem_univ, true_and] at hy ⊢
        exact fun hend => hy (hend.update hx z)

/-- A walk that comes back was led to a mark, by the links from its start or by those from `z`. -/
theorem ends_of_returns (h : Returns mark z f x) : Ends mark f x ∨ Ends mark f z := by
  obtain ⟨n, hn⟩ := h
  induction n generalizing f x with
  | zero => cases hn
  | succ n ih =>
    by_cases hmark : mark x
    · exact Or.inl (ends_of_mark hmark)
    · rw [erase, if_neg hmark] at hn
      cases ih hn with
      | inl hnext => exact hnext.of_update.imp_left (ends_link_iff hmark).mpr
      | inr hz => exact Or.inr (hz.of_update.elim id id)

/-- **When the erasing walk comes back.** -/
theorem erase_returns_iff [Finite α] :
    Returns mark z f x ↔ Ends mark f x ∨ Ends mark f z := by
  refine ⟨ends_of_returns, ?_⟩
  rintro (⟨n, hn⟩ | hz)
  · exact returns_of_endsIn hn
  · exact returns_of_ends hz

end OsEojin.Lib.Links
