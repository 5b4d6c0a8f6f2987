import OsEojin.Lib.Runs
import Mathlib.Data.List.Rotate

/-!
# Taking turns

`N` participants are numbered from `0` on, and some of them are live.  Starting behind participant `c`, the
turns go upwards, wrap around, and come to `c` last.

* `turns`: the live participants in that order;
* `turns_next`: once the first one had its turn, it waits behind all others;
* `visits_eq_turns`: a system that always moves to the first of the turns visits them one by one.
-/

namespace OsEojin.Lib.Rotation

open OsEojin.Lib.Runs

variable {N c n : ℕ} {live : ℕ → Bool}

/-- Everybody, from the one behind `c` on. -/
def order (N c : ℕ) : List ℕ := (List.range N).rotate (c + 1)

/-- The live ones in this order. -/
def turns (N c : ℕ) (live : ℕ → Bool) : List ℕ := (order N c).filter live

theorem mem_order {x : ℕ} : x ∈ order N c ↔ x < N := by
  rw [order, List.mem_rotate, List.mem_range]

theorem order_length (N c : ℕ) : (order N c).length = N := by
  rw [order, List.length_rotate, List.length_range]

theorem mem_turns {x : ℕ} : x ∈ turns N c live ↔ x < N ∧ live x = true := by
  rw [turns, List.mem_filter, mem_order]

theorem turns_nodup (N c : ℕ) (live : ℕ → Bool) : (turns N c live).Nodup :=
  ((List.nodup_rotate.mpr List.nodup_range).filter _)

theorem turns_perm (N c : ℕ) (live : ℕ → Bool) : (turns N c live).Perm ((List.range N).filter live) :=
  (List.rotate_perm (List.range N) (c + 1)).filter _

/-- The participant at place `k` of the order. -/
theorem order_getElem {k : ℕ} (hk : k < (order N c).length) : (order N c)[k] = (k + (c + 1)) % N := by
  simp only [order, List.getElem_rotate, List.getElem_range, List.length_range]

/-- The order behind `n` is the one behind `c`, with everything up to `n` at the end. -/
theorem order_split {pre post : List ℕ} (h : order N c = pre ++ n :: post) :
    order N n = post ++ (pre ++ [n]) := by
  have hk : pre.length < (order N c).length := by
    rw [h, List.length_append, List.length_cons]
    omega
  have hn : n = (pre.length + (c + 1)) % N := by
    rw [← order_getElem hk]
    simp [h]
  have hmod : (c + 1 + (pre.length + 1)) % N = (n + 1) % N := by
    rw [hn, Nat.mod_add_mod]
    congr 1
    omega
  have hrotate : order N n = (order N c).rotate (pre.length + 1) := by
    rw [order, order, List.rotate_rotate, ← List.rotate_mod, ← List.rotate_mod _ (c + 1 + _),
      List.length_range, hmod]
  have hlength : (pre ++ [n]).length = pre.length + 1 := by simp
  rw [hrotate, h, show pre ++ n :: post = (pre ++ [n]) ++ post from by simp, ← hlength,
    List.rotate_append_length_eq]

/-- **The next round**: the one who had its turn waits behind all others. -/
theorem turns_next {rest : List ℕ} (h : turns N c live = n :: rest) : turns N n live = rest ++ [n] := by
  obtain ⟨pre, post, hsplit, hpre, hn, hpost⟩ := List.filter_eq_cons_iff.mp h
  have hnone : pre.filter live = [] := List.filter_eq_nil_iff.mpr hpre
  rw [turns, order_split hsplit, List.filter_append, List.filter_append, hnone, hpost,
    List.filter_cons_of_pos hn]
  rfl

/-- The one behind whom the order starts comes last. -/
theorem turns_last (hc : c < N) (hlive : live c = true) : (turns N c live).getLast? = some c := by
  have hlast : (order N c).getLast? = some c := by
    have hpos : N - 1 < (order N c).length := by
      rw [order_length]
      omega
    rw [List.getLast?_eq_getElem?, order_length, List.getElem?_eq_getElem hpos, order_getElem hpos,
      show N - 1 + (c + 1) = c + N from by omega, Nat.add_mod_right, Nat.mod_eq_of_lt hc]
  obtain ⟨pre, hpre⟩ := List.getLast?_eq_some_iff.mp hlast
  rw [turns, hpre, List.filter_append, List.filter_cons_of_pos hlive]
  simp

/-- The participants a run comes to, one for each step. -/
def visits {σ ε : Type*} (step : σ → ε → σ) (cur : σ → ℕ) : σ → List ε → List ℕ
  | _, [] => []
  | s, e :: es => cur (step s e) :: visits step cur (step s e) es

/-- **Round robin.**  A system that always moves to the first of the turns comes to all of them in their order,
and is back where it started. -/
theorem visits_eq_turns {σ ε : Type*} {step : σ → ε → σ} {cur : σ → ℕ} {I : σ → Prop}
    (hstep : ∀ s e, I s → I (step s e) ∧ (turns N (cur s) live).head? = some (cur (step s e))) :
    ∀ (es : List ε) (s : σ), I s → es.length ≤ (turns N (cur s) live).length →
      visits step cur s es = (turns N (cur s) live).take es.length ∧
        turns N (cur (run step s es)) live = (turns N (cur s) live).rotate es.length := by
  intro es
  induction es with
  | nil =>
    intro s _ _
    exact ⟨rfl, (List.rotate_zero _).symm⟩
  | cons e es ih =>
    intro s hI hlength
    obtain ⟨hnext, hhead⟩ := hstep s e hI
    obtain ⟨rest, hturns⟩ := List.head?_eq_some_iff.mp hhead
    have hround := turns_next hturns
    rw [hturns, List.length_cons, List.length_cons] at hlength
    obtain ⟨hvisits, hrun⟩ := ih (step s e) hnext (by rw [hround, List.length_append, List.length_singleton]; omega)
    rw [visits, hvisits, run_cons, hrun, hround, hturns, List.length_cons]
    constructor
    · rw [List.take_succ_cons, List.take_append_of_le_length (by omega)]
    · rw [List.rotate_cons_succ]

end OsEojin.Lib.Rotation
