import Mathlib.Logic.Function.Basic
import Mathlib.Tactic.Common

/-!
# Places that hold a dictionary

Items stand in places; each item has a key and a value.  When no key stands in two places, the items are a
partial map from keys to values, and filling a place or clearing one is an update of that map.

* `Dictionary`: the items and the map that they are;
* `Dictionary.insert`, `Dictionary.remove`, `Dictionary.congr`: the updates.
-/

namespace OsEojin.Lib.Dictionaries

variable {I A K W : Type*} {item item' : I → A → Prop} {key : A → K} {value : A → W} {m : K → Option W}

/-- The items have different keys, and the map gives the value of each key that is there. -/
structure Dictionary (item : I → A → Prop) (key : A → K) (value : A → W) (m : K → Option W) : Prop where
  unique : ∀ i x j y, item i x → item j y → key x = key y → i = j ∧ x = y
  lookup : ∀ k v, m k = some v ↔ ∃ i x, item i x ∧ key x = k ∧ value x = v

namespace Dictionary

/-- A key that no item has is not in the map. -/
theorem none_iff (h : Dictionary item key value m) (k : K) :
    m k = none ↔ ∀ i x, item i x → key x ≠ k := by
  rw [Option.eq_none_iff_forall_ne_some]
  constructor
  · intro hnone i x hx hk
    exact hnone (value x) ((h.lookup k _).mpr ⟨i, x, hx, hk, rfl⟩)
  · intro hno v hv
    obtain ⟨i, x, hx, hk, -⟩ := (h.lookup k v).mp hv
    exact hno i x hx hk

/-- An item that is there gives its value. -/
theorem get (h : Dictionary item key value m) {i : I} {x : A} (hx : item i x) : m (key x) = some (value x) :=
  (h.lookup _ _).mpr ⟨i, x, hx, rfl, rfl⟩

theorem congr (h : Dictionary item key value m) (hitem : ∀ i x, item' i x ↔ item i x) :
    Dictionary item' key value m := by
  constructor
  · intro i x j y hx hy
    exact h.unique i x j y ((hitem i x).mp hx) ((hitem j y).mp hy)
  · intro k v
    simp only [hitem]
    exact h.lookup k v

variable [DecidableEq K]

/-- **A place is filled** under a key that was not there. -/
theorem insert (h : Dictionary item key value m) {i : I} {x : A}
    (hitem : ∀ j y, item' j y ↔ item j y ∨ j = i ∧ y = x) (hfresh : ∀ j y, item j y → key y ≠ key x) :
    Dictionary item' key value (Function.update m (key x) (some (value x))) := by
  constructor
  · intro j y k z hy hz hkey
    cases (hitem j y).mp hy with
    | inl hold =>
      cases (hitem k z).mp hz with
      | inl hold' => exact h.unique j y k z hold hold' hkey
      | inr hnew' =>
        rw [hnew'.2] at hkey
        exact absurd hkey (hfresh j y hold)
    | inr hnew =>
      cases (hitem k z).mp hz with
      | inl hold' =>
        rw [hnew.2] at hkey
        exact absurd hkey.symm (hfresh k z hold')
      | inr hnew' => exact ⟨hnew.1.trans hnew'.1.symm, hnew.2.trans hnew'.2.symm⟩
  · intro k v
    by_cases hk : k = key x
    · rw [hk, Function.update_self, Option.some.injEq]
      constructor
      · intro hv
        exact ⟨i, x, (hitem i x).mpr (Or.inr ⟨rfl, rfl⟩), rfl, hv⟩
      · intro hv
        obtain ⟨j, y, hy, hkey, hval⟩ := hv
        cases (hitem j y).mp hy with
        | inl hold => exact absurd hkey (hfresh j y hold)
        | inr hnew => rw [← hval, hnew.2]
    · rw [Function.update_of_ne hk, h.lookup]
      constructor
      · intro hv
        obtain ⟨j, y, hy, hkey, hval⟩ := hv
        exact ⟨j, y, (hitem j y).mpr (Or.inl hy), hkey, hval⟩
      · intro hv
        obtain ⟨j, y, hy, hkey, hval⟩ := hv
        cases (hitem j y).mp hy with
        | inl hold => exact ⟨j, y, hold, hkey, hval⟩
        | inr hnew =>
          rw [hnew.2] at hkey
          exact absurd hkey.symm hk

/-- **A place is cleared.** -/
theorem remove (h : Dictionary item key value m) {i : I} {x : A} (hx : item i x) (hone : ∀ y, item i y → y = x)
    (hitem : ∀ j y, item' j y ↔ item j y ∧ j ≠ i) :
    Dictionary item' key value (Function.update m (key x) none) := by
  constructor
  · intro j y k z hy hz
    exact h.unique j y k z ((hitem j y).mp hy).1 ((hitem k z).mp hz).1
  · intro k v
    by_cases hk : k = key x
    · rw [hk, Function.update_self]
      constructor
      · intro hv
        cases hv
      · intro hv
        obtain ⟨j, y, hy, hkey, -⟩ := hv
        obtain ⟨hold, hne⟩ := (hitem j y).mp hy
        exact absurd (h.unique j y i x hold hx hkey).1 hne
    · rw [Function.update_of_ne hk, h.lookup]
      constructor
      · intro hv
        obtain ⟨j, y, hy, hkey, hval⟩ := hv
        refine ⟨j, y, (hitem j y).mpr ⟨hy, ?_⟩, hkey, hval⟩
        intro hji
        rw [hji] at hy
        rw [hone y hy] at hkey
        exact hk hkey.symm
      · intro hv
        obtain ⟨j, y, hy, hkey, hval⟩ := hv
        exact ⟨j, y, ((hitem j y).mp hy).1, hkey, hval⟩

end Dictionary

end OsEojin.Lib.Dictionaries
