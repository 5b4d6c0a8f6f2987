import Mathlib.Data.List.Basic
import Mathlib.Tactic.Common

/-!
# Lists of intervals laid out in order

Items with a `start` and a `stop` are *laid* when each stops no later than every later one starts.  The
one operation an allocator performs on such a list is to splice a segment: to replace consecutive items
by others that stay inside the span of the old ones.  Splitting, merging and relabelling are instances.

* `laid_splice`: a splice inside the span keeps the list laid;
* `laid_snoc`: so does an item appended past every stop;
* `laid_disjoint`: two items at different places of a laid list occupy disjoint intervals.
-/

namespace OsEojin.Lib.Layout

variable {α : Type*} (start stop : α → ℕ)

/-- Each item stops no later than every later one starts. -/
def Laid (l : List α) : Prop := l.Pairwise fun a b => stop a ≤ start b

/-- The items of `new` stay inside the span of the items of `old`. -/
def Within (new old : List α) : Prop :=
  ∀ a ∈ new, (∃ b ∈ old, start b ≤ start a) ∧ ∃ b ∈ old, stop a ≤ stop b

variable {start stop}

/-- **Splicing.**  Replacing a segment by items inside its span keeps the list laid. -/
theorem laid_splice {pre old new post : List α} (h : Laid start stop (pre ++ (old ++ post)))
    (hnew : Laid start stop new) (hin : Within start stop new old) :
    Laid start stop (pre ++ (new ++ post)) := by
  rw [Laid, List.pairwise_append] at h
  obtain ⟨hpre, hrest, hcross⟩ := h
  rw [List.pairwise_append] at hrest
  obtain ⟨-, hpost, hcross'⟩ := hrest
  rw [Laid, List.pairwise_append, List.pairwise_append]
  refine ⟨hpre, ⟨hnew, hpost, ?_⟩, ?_⟩
  · intro a ha c hc
    obtain ⟨-, b, hb, hab⟩ := hin a ha
    exact Nat.le_trans hab (hcross' b hb c hc)
  · intro p hp a ha
    cases List.mem_append.mp ha with
    | inl hnew =>
      obtain ⟨⟨b, hb, hba⟩, -⟩ := hin a hnew
      exact Nat.le_trans (hcross p hp b (List.mem_append_left _ hb)) hba
    | inr hpost => exact hcross p hp a (List.mem_append_right _ hpost)

theorem laid_snoc {l : List α} {a : α} (h : Laid start stop l) (ha : ∀ b ∈ l, stop b ≤ start a) :
    Laid start stop (l ++ [a]) := by
  rw [Laid, List.pairwise_append]
  refine ⟨h, List.pairwise_singleton _ _, ?_⟩
  intro b hb c hc
  rw [List.mem_singleton.mp hc]
  exact ha b hb

/-- Relabelling items without moving them keeps the list laid. -/
theorem laid_map {l : List α} (f : α → α) (hs : ∀ a, start (f a) = start a)
    (ht : ∀ a, stop (f a) = stop a) (h : Laid start stop l) : Laid start stop (l.map f) := by
  rw [Laid, List.pairwise_map]
  exact h.imp fun hab => by rw [hs, ht]; exact hab

/-- Two items of a laid list are equal or occupy disjoint intervals. -/
theorem laid_disjoint {l : List α} (h : Laid start stop l) {a b : α} (ha : a ∈ l) (hb : b ∈ l) :
    a = b ∨ stop a ≤ start b ∨ stop b ≤ start a := by
  induction l with
  | nil => cases ha
  | cons c l ih =>
    obtain ⟨hc, hl⟩ := List.pairwise_cons.mp h
    cases List.mem_cons.mp ha with
    | inl hac =>
      cases List.mem_cons.mp hb with
      | inl hbc => exact Or.inl (hac.trans hbc.symm)
      | inr hbl => rw [hac]; exact Or.inr (Or.inl (hc b hbl))
    | inr hal =>
      cases List.mem_cons.mp hb with
      | inl hbc => rw [hbc]; exact Or.inr (Or.inr (hc a hal))
      | inr hbl => exact ih hl hal hbl

end OsEojin.Lib.Layout
