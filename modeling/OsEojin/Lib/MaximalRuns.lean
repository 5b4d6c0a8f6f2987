import Mathlib.Data.List.Basic
import Mathlib.Data.Nat.Basic

/-!
# Maximal runs

The positions `0 … n - 1` of a word, and a predicate on positions.  A maximal run is an interval of positions that
all satisfy it, and that cannot be made longer on either side.

* `MaximalRun`: the half-open interval `[a, b)` is one;
* `RunsFrom`: a list of all maximal runs from a position on, in their order;
* `RunsFrom.cons`: a scan that skips a gap and then reads as far as it can finds the first of them.
-/

namespace OsEojin.Lib.MaximalRuns

variable {P : ℕ → Prop} {n : ℕ}

/-- `[a, b)` is a maximal run of `P` below `n`. -/
structure MaximalRun (P : ℕ → Prop) (n a b : ℕ) : Prop where
  nonempty : a < b
  inside : b ≤ n
  all : ∀ i, a ≤ i → i < b → P i
  left : a = 0 ∨ ¬ P (a - 1)
  right : b = n ∨ ¬ P b

/-- Two maximal runs are the same or apart. -/
theorem MaximalRun.apart {a b c d : ℕ} (h : MaximalRun P n a b) (h' : MaximalRun P n c d) (hle : a ≤ c) :
    c = a ∧ d = b ∨ b < c := by
  have hright : ∀ {a b c d : ℕ}, MaximalRun P n a b → MaximalRun P n c d → c ≤ b → d ≤ b := by
    intro a b c d h h' hcb
    by_contra hbd
    cases h.right with
    | inl hend => exact hbd (hend ▸ h'.inside)
    | inr hstop => exact hstop (h'.all b hcb (Nat.lt_of_not_le hbd))
  rcases Nat.lt_or_ge b c with hbc | hcb
  · exact Or.inr hbc
  have hdb := hright h h' hcb
  have hcd := h'.nonempty
  have hac : c = a := by
    by_contra hne
    cases h'.left with
    | inl hzero => omega
    | inr hstart => exact hstart (h.all (c - 1) (by omega) (by omega))
  have hbd := hright h' h (by omega)
  exact Or.inl ⟨hac, by omega⟩

/-- **All maximal runs** that start at `o` or behind it, from left to right. -/
structure RunsFrom (P : ℕ → Prop) (n o : ℕ) (spans : List (ℕ × ℕ)) : Prop where
  sorted : spans.Pairwise fun x y => x.2 < y.1
  mem : ∀ a b, (a, b) ∈ spans ↔ o ≤ a ∧ MaximalRun P n a b

/-- Nothing but a gap. -/
theorem runsFrom_nil {o : ℕ} (hgap : ∀ i, o ≤ i → i < n → ¬ P i) : RunsFrom P n o [] where
  sorted := List.Pairwise.nil
  mem := by
    intro a b
    refine iff_of_false List.not_mem_nil ?_
    rintro ⟨hoa, hrun⟩
    have hab := hrun.nonempty
    have hbn := hrun.inside
    exact hgap a hoa (by omega) (hrun.all a le_rfl hab)

/-- A gap, and then as many positions as possible: a maximal run, if the scan did not start within one. -/
theorem maximalRun_of_gap {o a b : ℕ} (ho : o = 0 ∨ o = n ∨ ¬ P o) (hoa : o ≤ a) (hab : a < b) (hbn : b ≤ n)
    (hgap : ∀ i, o ≤ i → i < a → ¬ P i) (hall : ∀ i, a ≤ i → i < b → P i) (hright : b = n ∨ ¬ P b) :
    MaximalRun P n a b where
  nonempty := hab
  inside := hbn
  all := hall
  left := by
    rcases Nat.eq_or_lt_of_le hoa with rfl | hlt
    · rcases ho with hzero | hend | hstop
      · exact Or.inl hzero
      · omega
      · exact absurd (hall o le_rfl hab) hstop
    · exact Or.inr (hgap (a - 1) (by omega) (by omega))
  right := hright

/-- **The next run**, and those behind it. -/
theorem RunsFrom.cons {o a b : ℕ} {spans : List (ℕ × ℕ)} (hrun : MaximalRun P n a b) (hoa : o ≤ a)
    (hgap : ∀ i, o ≤ i → i < a → ¬ P i) (hrest : RunsFrom P n b spans) :
    RunsFrom P n o ((a, b) :: spans) where
  sorted := by
    refine List.pairwise_cons.mpr ⟨?_, hrest.sorted⟩
    rintro ⟨c, d⟩ hmem
    obtain ⟨hbc, hrun'⟩ := (hrest.mem c d).mp hmem
    have hab := hrun.nonempty
    rcases hrun.apart hrun' (by omega) with ⟨rfl, -⟩ | hlt
    · omega
    · exact hlt
  mem := by
    intro c d
    have hab := hrun.nonempty
    rw [List.mem_cons, hrest.mem, Prod.mk.injEq]
    constructor
    · rintro (⟨rfl, rfl⟩ | ⟨hbc, hrun'⟩)
      · exact ⟨hoa, hrun⟩
      · exact ⟨by omega, hrun'⟩
    · rintro ⟨hoc, hrun'⟩
      have hac : a ≤ c := by
        by_contra hlt
        exact hgap c hoc (Nat.lt_of_not_le hlt) (hrun'.all c le_rfl hrun'.nonempty)
      exact (hrun.apart hrun' hac).imp_right fun hbc => ⟨Nat.le_of_lt hbc, hrun'⟩

end OsEojin.Lib.MaximalRuns
