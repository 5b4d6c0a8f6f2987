import Mathlib.Data.Option.Basic
import Mathlib.Tactic.Ring

/-!
# Arithmetic that may not leave its type

The value of an expression of a machine integer type, worked out in the integers, with every operation's
result checked against the range of the type: `none` as soon as one overflows or wraps.

* `IntType`, `IntType.fits`: a range, and the check;
* `fits_eq_some`, `fits_natCast`: values that pass it.
-/

namespace OsEojin.Lib.Checked

/-- An integer type, as the range of its values. -/
structure IntType where
  lo : ℤ
  hi : ℤ

/-- `int` on a machine with 32-bit integers. -/
def IntType.int : IntType := ⟨-2 ^ 31, 2 ^ 31 - 1⟩

/-- `uint32_t`. -/
def IntType.uint32 : IntType := ⟨0, 2 ^ 32 - 1⟩

/-- The result of an operation, when the type can hold it. -/
def IntType.fits (t : IntType) (z : ℤ) : Option ℤ := if t.lo ≤ z ∧ z ≤ t.hi then some z else none

variable {t : IntType} {z : ℤ}

theorem fits_eq_some (hlo : t.lo ≤ z) (hhi : z ≤ t.hi) : t.fits z = some z := if_pos ⟨hlo, hhi⟩

/-- Natural numbers up to the bound pass. -/
theorem fits_natCast {n : ℕ} (hlo : t.lo ≤ 0) (hhi : (n : ℤ) ≤ t.hi) : t.fits n = some (n : ℤ) :=
  fits_eq_some (Int.le_trans hlo (Int.natCast_nonneg n)) hhi

end OsEojin.Lib.Checked
