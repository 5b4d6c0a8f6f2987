import Mathlib.Data.Nat.Basic
import Mathlib.Logic.Function.Basic
import Mathlib.Tactic.Ring

/-!
# Byte-addressed memory with little-endian words

A memory is a function from addresses to bytes.  `readLe`/`writeLe` move `n`-byte little-endian words,
`fill`, `copy` and `store` are the block operations.  The lemmas are the usual load/store laws: a load sees the
store at its own address, and a store is invisible to every load of other bytes.
-/

namespace OsEojin.Lib.ByteMemory

/-- A byte-addressed memory. -/
abbrev Memory := ℕ → UInt8

/-- The `n`-byte little-endian word at `a`. -/
def readLe (m : Memory) : ℕ → ℕ → ℕ
  | _, 0 => 0
  | a, n + 1 => (m a).toNat + 256 * readLe m (a + 1) n

/-- Store the low `n` bytes of `v` at `a`, little end first. -/
def writeLe (m : Memory) (a n v : ℕ) : Memory :=
  fun x => if a ≤ x ∧ x < a + n then UInt8.ofNat (v / 256 ^ (x - a)) else m x

/-- Set `n` bytes from `a` on to `b`. -/
def fill (m : Memory) (a n : ℕ) (b : UInt8) : Memory :=
  fun x => if a ≤ x ∧ x < a + n then b else m x

/-- Copy `n` bytes from `src` to `dst`, first byte first. -/
def copy (m : Memory) (dst src : ℕ) : ℕ → Memory
  | 0 => m
  | n + 1 => Function.update (copy m dst src n) (dst + n) (copy m dst src n (src + n))

/-- Store the bytes of a list from `a` on. -/
def store (m : Memory) (a : ℕ) (bytes : List UInt8) : Memory :=
  fun x => if a ≤ x ∧ x < a + bytes.length then bytes.getD (x - a) 0 else m x

/-- A load only sees the bytes of its own range. -/
theorem readLe_congr {m m' : Memory} {a n : ℕ} (h : ∀ x, a ≤ x → x < a + n → m x = m' x) :
    readLe m a n = readLe m' a n := by
  induction n generalizing a with
  | zero => rfl
  | succ n ih =>
    rw [readLe, readLe, h a le_rfl (by omega),
      ih (fun x hx hx' => h x (by omega) (by omega))]

theorem readLe_lt (m : Memory) (a n : ℕ) : readLe m a n < 256 ^ n := by
  induction n generalizing a with
  | zero => simp [readLe]
  | succ n ih =>
    have hb : (m a).toNat < 256 := UInt8.toNat_lt (m a)
    have hr := ih (a + 1)
    have hp : (256 : ℕ) ^ (n + 1) = 256 * 256 ^ n := by ring
    rw [readLe, hp]
    omega

/-- A store is invisible to a load of other bytes. -/
theorem readLe_writeLe_of_disjoint {m : Memory} {a b n k v : ℕ} (h : b + k ≤ a ∨ a + n ≤ b) :
    readLe (writeLe m a n v) b k = readLe m b k := by
  apply readLe_congr
  intro x hx hx'
  rw [writeLe, if_neg (by omega)]

theorem readLe_fill_of_disjoint {m : Memory} {a b n k : ℕ} {v : UInt8} (h : b + k ≤ a ∨ a + n ≤ b) :
    readLe (fill m a n v) b k = readLe m b k := by
  apply readLe_congr
  intro x hx hx'
  rw [fill, if_neg (by omega)]

theorem fill_of_notMem {m : Memory} {a n x : ℕ} {b : UInt8} (h : x < a ∨ a + n ≤ x) :
    fill m a n b x = m x := by
  rw [fill, if_neg (by omega)]

/-- One byte more. -/
theorem fill_succ (m : Memory) (a n : ℕ) (b : UInt8) :
    Function.update (fill m a n b) (a + n) b = fill m a (n + 1) b := by
  funext x
  by_cases hx : x = a + n
  · rw [hx, Function.update_self, fill, if_pos (by omega)]
  · rw [Function.update_of_ne hx, fill, fill]
    congr 1
    rw [eq_iff_iff]
    omega

theorem copy_of_notMem {m : Memory} {dst src n x : ℕ} (h : x < dst ∨ dst + n ≤ x) :
    copy m dst src n x = m x := by
  induction n with
  | zero => rfl
  | succ n ih => rw [copy, Function.update_of_ne (by omega), ih (by omega)]

/-- A byte that is not written over before it is read arrives. -/
theorem copy_of_mem {m : Memory} {dst src n j : ℕ} (hj : j < n)
    (hsrc : src + j < dst ∨ dst + n ≤ src + j) : copy m dst src n (dst + j) = m (src + j) := by
  induction n with
  | zero => omega
  | succ n ih =>
    rw [copy]
    by_cases heq : j = n
    · rw [heq, Function.update_self, copy_of_notMem (by omega)]
    · rw [Function.update_of_ne (by omega), ih (by omega) (by omega)]

theorem store_of_notMem {m : Memory} {a x : ℕ} {bytes : List UInt8} (h : x < a ∨ a + bytes.length ≤ x) :
    store m a bytes x = m x := by
  rw [store, if_neg (by omega)]

/-- Where all bytes are zero, so is every word. -/
theorem readLe_of_zeros {m : Memory} {a n : ℕ} (h : ∀ x, a ≤ x → x < a + n → m x = 0) : readLe m a n = 0 := by
  induction n generalizing a with
  | zero => rfl
  | succ n ih =>
    rw [readLe, h a le_rfl (by omega), ih (fun x hx hx' => h x (by omega) (by omega))]
    rfl

theorem readLe_fill_zero {m : Memory} {a b n k : ℕ} (h : a ≤ b) (h' : b + k ≤ a + n) :
    readLe (fill m a n 0) b k = 0 := by
  apply readLe_of_zeros
  intro x hx hx'
  rw [fill, if_pos (by omega)]

/-- A load of the stored word gives the word back. -/
theorem readLe_writeLe_same (m : Memory) (a n v : ℕ) :
    readLe (writeLe m a n v) a n = v % 256 ^ n := by
  -- peel the low byte: what is left of the store is the store of `v / 256` one byte up
  induction n generalizing m a v with
  | zero => simp [readLe, Nat.mod_one]
  | succ n ih =>
    have hlow : writeLe m a (n + 1) v a = UInt8.ofNat v := by
      rw [writeLe, if_pos (by omega)]
      simp
    have htail : readLe (writeLe m a (n + 1) v) (a + 1) n
        = readLe (writeLe m (a + 1) n (v / 256)) (a + 1) n := by
      apply readLe_congr
      intro x hx hx'
      rw [writeLe, writeLe, if_pos (by omega), if_pos (by omega), Nat.div_div_eq_div_mul,
        show x - a = (x - (a + 1)) + 1 from by omega, pow_succ, Nat.mul_comm]
    have hbyte : (UInt8.ofNat v).toNat = v % 256 := UInt8.toNat_ofNat'
    have hp : (256 : ℕ) ^ (n + 1) = 256 * 256 ^ n := by ring
    rw [readLe, hlow, htail, ih, hbyte, hp, Nat.mod_mul]

/-- A word in two parts. -/
theorem readLe_add (m : Memory) (a n k : ℕ) : readLe m a (n + k) = readLe m a n + 256 ^ n * readLe m (a + n) k := by
  induction n generalizing a with
  | zero => simp [readLe]
  | succ n ih =>
    have hadd : n + 1 + k = n + k + 1 := by omega
    have hnext : a + 1 + n = a + (n + 1) := by omega
    rw [hadd, readLe, ih, readLe, hnext, pow_succ]
    ring

/-! ### Two memories side by side

Where two memories agree they still agree after the same operation on both, and they agree on what it
wrote. -/

section Agreement

variable {m m' : Memory} {x : ℕ}

theorem fill_congr {a n : ℕ} {b : UInt8} (h : a ≤ x ∧ x < a + n ∨ m' x = m x) :
    fill m' a n b x = fill m a n b x := by
  by_cases hx : a ≤ x ∧ x < a + n
  · rw [fill, if_pos hx, fill, if_pos hx]
  · rw [fill, if_neg hx, fill, if_neg hx]
    exact h.resolve_left hx

theorem writeLe_congr {a n v : ℕ} (h : a ≤ x ∧ x < a + n ∨ m' x = m x) :
    writeLe m' a n v x = writeLe m a n v x := by
  by_cases hx : a ≤ x ∧ x < a + n
  · rw [writeLe, if_pos hx, writeLe, if_pos hx]
  · rw [writeLe, if_neg hx, writeLe, if_neg hx]
    exact h.resolve_left hx

theorem store_congr {a : ℕ} {bytes : List UInt8} (h : a ≤ x ∧ x < a + bytes.length ∨ m' x = m x) :
    store m' a bytes x = store m a bytes x := by
  by_cases hx : a ≤ x ∧ x < a + bytes.length
  · rw [store, if_pos hx, store, if_pos hx]
  · rw [store, if_neg hx, store, if_neg hx]
    exact h.resolve_left hx

/-- The source may overlap the target: a byte read late is one that was written, or an old one. -/
theorem copy_congr {dst src n : ℕ} (hsrc : ∀ y, src ≤ y → y < src + n → m' y = m y)
    (h : dst ≤ x ∧ x < dst + n ∨ m' x = m x) : copy m' dst src n x = copy m dst src n x := by
  induction n generalizing x with
  | zero => exact h.resolve_left (by omega)
  | succ n ih =>
    have hbefore : ∀ y, src ≤ y → y < src + n → m' y = m y := fun y hy hy' => hsrc y hy (by omega)
    rw [copy, copy]
    by_cases hx : x = dst + n
    · rw [hx, Function.update_self, Function.update_self]
      exact ih hbefore (Or.inr (hsrc (src + n) (by omega) (by omega)))
    · rw [Function.update_of_ne hx, Function.update_of_ne hx]
      apply ih hbefore
      refine h.imp_left ?_
      intro hin
      omega

end Agreement

end OsEojin.Lib.ByteMemory
