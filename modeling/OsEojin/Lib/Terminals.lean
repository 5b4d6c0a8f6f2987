import Mathlib.Data.List.OfFn
import Mathlib.Logic.Equiv.Fin.Basic

/-!
# Terminals

A grid of `R` rows and `C` columns with a cursor.  A character goes to the cursor, which then moves on, at the end
of a row to the next one; below the last row the grid scrolls.

* `put`, `newline`, `backspace`, `clear`: what can be done with a terminal;
* `index`: the cells in one row, counted from left to right and from top to bottom;
* `grid_set`, `cursor_back`, `newline_of_lt`, `put_of_lt`, …: the operations in terms of cell numbers;
* `text`, `before`: the cells in their order, and those in front of the cursor; `before_put` and
  `before_backspace`: what typing and erasing do to them.
-/

namespace OsEojin.Lib.Terminals

/-- A terminal that shows an `α` in each cell. -/
structure Terminal (α : Type*) (R C : ℕ) where
  grid : Fin R → Fin C → α
  row : Fin R
  col : Fin C

/-- The number of the cell in row `r` and column `c`. -/
def index {R C : ℕ} (r : Fin R) (c : Fin C) : Fin (R * C) := finProdFinEquiv (r, c)

theorem index_val {R C : ℕ} (r : Fin R) (c : Fin C) : (index r c).val = c.val + C * r.val :=
  finProdFinEquiv_apply_val (r, c)

theorem index_inj {R C : ℕ} {r r' : Fin R} {c c' : Fin C} :
    index r c = index r' c' ↔ r = r' ∧ c = c' := by
  rw [index, index, EmbeddingLike.apply_eq_iff_eq, Prod.mk.injEq]

namespace Terminal

variable {α : Type*} {R C : ℕ} (blank : α) (t : Terminal α R C)

/-- The cell of the cursor. -/
def cursor : Fin (R * C) := index t.row t.col

/-- `a` in the cell of the cursor. -/
def set (a : α) : Terminal α R C :=
  { t with grid := fun r c => if r = t.row ∧ c = t.col then a else t.grid r c }

/-- Everything one row up, and a blank row below. -/
def scroll : Terminal α R C :=
  { t with grid := fun r c => if h : r.val + 1 < R then t.grid ⟨r.val + 1, h⟩ c else blank }

/-- To the start of the next row; after the last row, a new one is scrolled in. -/
def newline : Terminal α R C :=
  if h : t.row.val + 1 < R then { t with row := ⟨t.row.val + 1, h⟩, col := ⟨0, t.col.pos⟩ }
  else { t.scroll blank with col := ⟨0, t.col.pos⟩ }

/-- `a` to the cursor, and the cursor one cell on. -/
def put (a : α) : Terminal α R C :=
  if h : t.col.val + 1 < C then { t.set a with col := ⟨t.col.val + 1, h⟩ }
  else (t.set a).newline blank

/-- The cursor one cell back, but not out of the grid. -/
def back : Terminal α R C :=
  if 0 < t.col.val then { t with col := ⟨t.col.val - 1, by have := t.col.isLt; omega⟩ }
  else if 0 < t.row.val then
    { t with
      row := ⟨t.row.val - 1, by have := t.row.isLt; omega⟩
      col := ⟨C - 1, by have := t.col.isLt; omega⟩ }
  else t

/-- One cell back, and a blank there. -/
def backspace : Terminal α R C := t.back.set blank

/-- Blanks everywhere, and the cursor in the first cell. -/
def clear : Terminal α R C where
  grid := fun _ _ => blank
  row := ⟨0, t.row.pos⟩
  col := ⟨0, t.col.pos⟩

theorem cursor_val : t.cursor.val = t.col.val + C * t.row.val := index_val t.row t.col

/-- `set` changes the cell of the cursor, and no other. -/
theorem grid_set (a : α) (r : Fin R) (c : Fin C) :
    (t.set a).grid r c = if index r c = t.cursor then a else t.grid r c := by
  simp only [set, cursor, index_inj]

/-- Going back only moves the cursor. -/
theorem grid_back : t.back.grid = t.grid := by
  rw [back]
  split_ifs <;> rfl

/-- Back by one cell, or not at all from the first one. -/
theorem cursor_back : t.back.cursor.val = t.cursor.val - 1 := by
  rw [back]
  split_ifs with hcol hrow
  · rw [cursor_val, cursor_val]
    show t.col.val - 1 + C * t.row.val = t.col.val + C * t.row.val - 1
    omega
  · rw [cursor_val, cursor_val]
    show C - 1 + C * (t.row.val - 1) = t.col.val + C * t.row.val - 1
    have hpos := t.col.pos
    have hprev : C * t.row.val = C * (t.row.val - 1) + C := by
      rw [← Nat.mul_succ, Nat.succ_eq_add_one, Nat.sub_add_cancel hrow]
    omega
  · have hzero : t.cursor.val = 0 := by
      rw [cursor_val, Nat.eq_zero_of_not_pos hcol, Nat.eq_zero_of_not_pos hrow, Nat.mul_zero]
    rw [hzero]

theorem cursor_clear : (t.clear blank).cursor.val = 0 := by
  rw [cursor_val, clear, Nat.mul_zero]

/-- The next row. -/
theorem newline_of_lt (h : t.row.val + 1 < R) :
    (t.newline blank).grid = t.grid ∧ (t.newline blank).cursor.val = C * (t.row.val + 1) := by
  rw [newline, dif_pos h]
  exact ⟨rfl, by rw [cursor_val, Nat.zero_add]⟩

/-- From the last row. -/
theorem newline_of_last (h : t.row.val + 1 = R) :
    (t.newline blank).grid = (t.scroll blank).grid ∧ (t.newline blank).cursor.val = C * (R - 1) := by
  rw [newline, dif_neg (by omega)]
  refine ⟨rfl, ?_⟩
  rw [cursor_val, Nat.zero_add]
  show C * t.row.val = C * (R - 1)
  rw [Nat.eq_sub_of_add_eq h]

/-- Within the row. -/
theorem put_of_lt (a : α) (h : t.col.val + 1 < C) :
    (t.put blank a).grid = (t.set a).grid ∧ (t.put blank a).cursor.val = t.cursor.val + 1 := by
  rw [put, dif_pos h]
  refine ⟨rfl, ?_⟩
  rw [cursor_val, cursor_val]
  exact Nat.add_right_comm _ _ _

/-- From the last column. -/
theorem put_of_last (a : α) (h : t.col.val + 1 = C) : t.put blank a = (t.set a).newline blank := by
  rw [put, dif_neg (by omega)]

/-! ### The text -/

/-- The cells in their order. -/
def text : List α := List.ofFn fun n : Fin (R * C) => t.grid n.divNat n.modNat

/-- The cells in front of the cursor. -/
def before : List α := t.text.take t.cursor

@[simp] theorem text_length : t.text.length = R * C := List.length_ofFn

theorem text_getElem (n : ℕ) (hn : n < t.text.length) :
    t.text[n] = t.grid (Fin.divNat ⟨n, by simpa using hn⟩) (Fin.modNat ⟨n, by simpa using hn⟩) :=
  List.getElem_ofFn hn

theorem index_divNat_modNat (n : Fin (R * C)) : index n.divNat n.modNat = n :=
  finProdFinEquiv.apply_symm_apply n

theorem before_length : t.before.length = t.cursor := by
  rw [before, List.length_take, text_length]
  exact Nat.min_eq_left t.cursor.isLt.le

/-- `set` in the text. -/
theorem text_set (a : α) : (t.set a).text = t.text.set t.cursor a := by
  apply List.ext_getElem
  · simp
  · intro n hn hn'
    rw [text_getElem, grid_set, index_divNat_modNat, List.getElem_set, text_getElem]
    simp only [Fin.ext_iff, eq_comm]

/-- Scrolling takes the first row away. -/
theorem text_scroll : (t.scroll blank).text = t.text.drop C ++ List.replicate C blank := by
  have hC := t.col.pos
  have hsize : C ≤ R * C := Nat.le_mul_of_pos_left C t.row.pos
  apply List.ext_getElem
  · rw [text_length, List.length_append, List.length_drop, text_length, List.length_replicate]
    omega
  · intro n hn hn'
    rw [text_length] at hn
    have hrow : n / C + 1 < R ↔ n < R * C - C := by
      rw [← Nat.sub_one_mul, ← Nat.div_lt_iff_lt_mul hC]
      exact Nat.lt_sub_iff_add_lt.symm
    rw [text_getElem]
    show (if h : n / C + 1 < R then t.grid ⟨n / C + 1, h⟩ (Fin.modNat ⟨n, hn⟩) else blank) = _
    by_cases hlast : n / C + 1 < R
    · have hdrop : n < (t.text.drop C).length := by
        rw [List.length_drop, text_length]
        exact hrow.mp hlast
      rw [dif_pos hlast, List.getElem_append_left hdrop, List.getElem_drop, text_getElem]
      congr 1
      · exact Fin.ext (Nat.add_div_left n hC).symm
      · exact Fin.ext (Nat.add_mod_left C n).symm
    · have hdrop : (t.text.drop C).length ≤ n := by
        rw [List.length_drop, text_length]
        exact Nat.le_of_not_lt fun hlt => hlast (hrow.mpr hlt)
      rw [dif_neg hlast, List.getElem_append_right hdrop, List.getElem_replicate]

/-- What was in front of the cursor stays there when its cell changes. -/
theorem take_set_cursor (a : α) {n : ℕ} (hn : n ≤ t.cursor) : (t.set a).text.take n = t.text.take n := by
  rw [text_set, List.take_set_of_le hn]

theorem take_set_succ (a : α) : (t.set a).text.take (t.cursor + 1) = t.before ++ [a] := by
  rw [text_set, before, List.take_add_one, List.take_set_of_le le_rfl,
    List.getElem?_set_self (by rw [text_length]; exact t.cursor.isLt)]
  rfl

/-- **Typing** appends to the text in front of the cursor, or also takes its first row away. -/
theorem before_put (a : α) : (t.put blank a).before
    = if t.cursor.val + 1 = R * C then (t.before ++ [a]).drop C else t.before ++ [a] := by
  have hcursor := t.cursor_val
  have hcol := t.col.isLt
  by_cases hlt : t.col.val + 1 < C
  · obtain ⟨hgrid, hnext⟩ := t.put_of_lt blank a hlt
    have hrow : t.cursor.val + 1 ≠ R * C := by
      have hle := Nat.mul_le_mul_left C (Nat.succ_le_of_lt t.row.isLt)
      rw [Nat.mul_succ, Nat.mul_comm C R] at hle
      omega
    have htext : (t.put blank a).text = (t.set a).text := by rw [text, text, hgrid]
    rw [if_neg hrow, before, hnext, htext, take_set_succ]
  · have hlast : t.col.val + 1 = C := by omega
    rw [t.put_of_last blank a hlast]
    by_cases hrow : t.row.val + 1 < R
    · obtain ⟨hgrid, hnext⟩ := (t.set a).newline_of_lt blank hrow
      have hne : t.cursor.val + 1 ≠ R * C := by
        have hle := Nat.mul_le_mul_left C (Nat.succ_le_of_lt hrow)
        rw [Nat.mul_succ, Nat.mul_succ, Nat.mul_comm C R] at hle
        omega
      have htext : ((t.set a).newline blank).text = (t.set a).text := by rw [text, text, hgrid]
      have hsucc : C * (t.row.val + 1) = t.cursor.val + 1 := by
        rw [Nat.mul_succ]
        omega
      rw [if_neg hne, before, hnext, htext]
      show (t.set a).text.take (C * (t.row.val + 1)) = _
      rw [hsucc, take_set_succ]
    · have hfull : t.row.val + 1 = R := by
        have hR := t.row.isLt
        omega
      obtain ⟨hgrid, hnext⟩ := (t.set a).newline_of_last blank hfull
      have heq : t.cursor.val + 1 = R * C := by
        have hmul : (t.row.val + 1) * C = R * C := congrArg (· * C) hfull
        rw [Nat.mul_comm, Nat.mul_succ] at hmul
        omega
      have htext : ((t.set a).newline blank).text = ((t.set a).scroll blank).text := by rw [text, text, hgrid]
      have hlength : ((t.set a).text.drop C).length = C * (R - 1) := by
        rw [List.length_drop, text_length, Nat.mul_sub_one, Nat.mul_comm]
      rw [if_pos heq, before, hnext, htext, text_scroll, ← take_set_succ, List.take_append_of_le_length hlength.ge,
        List.drop_take, heq, List.take_of_length_le hlength.le, List.take_of_length_le]
      rw [hlength, Nat.mul_sub_one, Nat.mul_comm]

/-- **Erasing** takes the last cell in front of the cursor away. -/
theorem before_backspace : (t.backspace blank).before = t.before.dropLast := by
  have hback := t.cursor_back
  have hgrid := t.grid_back
  have hcursor : (t.backspace blank).cursor.val = t.cursor.val - 1 := hback
  have htext : t.back.text = t.text := by rw [text, text, hgrid]
  rw [before, hcursor, backspace, take_set_cursor _ _ (by rw [hback]), htext, before, List.dropLast_take]
  rw [text_length]
  exact t.cursor.isLt

end Terminal

end OsEojin.Lib.Terminals
