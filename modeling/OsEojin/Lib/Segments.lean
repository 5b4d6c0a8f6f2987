import Mathlib.Data.List.Basic
import Mathlib.Tactic.Common

/-!
# List segments of a linked structure

A state keeps nodes at addresses; `next` follows a node's link and `holds` says that a node is kept at its
address as it should be.  A segment from `p` to `q` is the list of nodes passed on the way.

* `segment_append`: a segment splits at any node;
* `Segment.congr`: a segment only reads its own nodes;
* `Segment.holds_of_mem`: every node of a segment is held.
-/

namespace OsEojin.Lib.Segments

variable {σ ι α : Type*} {addr : α → ι} {next : σ → ι → ι} {holds : σ → α → Prop}

/-- From `p` the links lead past the nodes of the list, in order, to `q`. -/
def Segment (addr : α → ι) (next : σ → ι → ι) (holds : σ → α → Prop) (m : σ) : ι → List α → ι → Prop
  | p, [], q => p = q
  | p, a :: as, q => p = addr a ∧ holds m a ∧ Segment addr next holds m (next m (addr a)) as q

variable {m m' : σ} {p q r : ι}

theorem segment_append {as bs : List α} : Segment addr next holds m p (as ++ bs) r ↔
    ∃ q, Segment addr next holds m p as q ∧ Segment addr next holds m q bs r := by
  induction as generalizing p with
  | nil => simp [Segment]
  | cons a as ih =>
    simp only [List.cons_append, Segment, ih]
    constructor
    · intro h
      obtain ⟨hp, ha, q, h1, h2⟩ := h
      exact ⟨q, ⟨hp, ha, h1⟩, h2⟩
    · intro h
      obtain ⟨q, ⟨hp, ha, h1⟩, h2⟩ := h
      exact ⟨hp, ha, q, h1, h2⟩

/-- A state that keeps the nodes of a segment and their links keeps the segment. -/
theorem Segment.congr {as : List α} (h : Segment addr next holds m p as q)
    (hsame : ∀ a ∈ as, (holds m a → holds m' a) ∧ next m' (addr a) = next m (addr a)) :
    Segment addr next holds m' p as q := by
  induction as generalizing p with
  | nil => exact h
  | cons a as ih =>
    obtain ⟨hp, ha, hrest⟩ := h
    obtain ⟨hkeep, hnext⟩ := hsame a List.mem_cons_self
    refine ⟨hp, hkeep ha, ?_⟩
    rw [hnext]
    exact ih hrest fun b hb => hsame b (List.mem_cons_of_mem a hb)

/-- Every node of a segment is held. -/
theorem Segment.holds_of_mem {as : List α} (h : Segment addr next holds m p as q) {a : α} (ha : a ∈ as) :
    holds m a := by
  induction as generalizing p with
  | nil => cases ha
  | cons b as ih =>
    obtain ⟨-, hb, hrest⟩ := h
    cases List.mem_cons.mp ha with
    | inl heq => rw [heq]; exact hb
    | inr hmem => exact ih hrest hmem

end OsEojin.Lib.Segments
