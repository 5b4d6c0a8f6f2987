import OsEojin.Lib.ByteMemory

/-!
# A stack of 64-bit words in memory

The stack grows downwards in a byte-addressed memory and its pointer is a machine word: it wraps.  What a
stretch of it holds is a list of words, the top one first.

* `wordAt`, `pushWord`: one word;
* `Holds`: the words from an address on; `holds_push`: a push puts one in front;
* `holds_pushes`: a sequence of pushes;
* `holds_congr`: only their bytes matter; `holds_getElem`: the words by their offsets; `holds_unique`: the memory determines them.
-/

namespace OsEojin.Lib.WordStack

open OsEojin.Lib.ByteMemory

/-- The word at `a`. -/
def wordAt (m : Memory) (a : UInt64) : UInt64 := UInt64.ofNat (readLe m a.toNat 8)

/-- Decrement the pointer and store. -/
def pushWord (f : UInt64 × Memory) (v : UInt64) : UInt64 × Memory :=
  (f.1 - 8, writeLe f.2 (f.1 - 8).toNat 8 v.toNat)

/-- The words from `a` on are `ws`. -/
def Holds (m : Memory) : UInt64 → List UInt64 → Prop
  | _, [] => True
  | a, w :: ws => wordAt m a = w ∧ Holds m (a + 8) ws

/-- A multiple of the word size. -/
def Aligned (a : UInt64) : Prop := a.toNat % 8 = 0

variable {m m' : Memory} {a b v : UInt64} {ws : List UInt64}

theorem aligned_sub (h : Aligned a) : Aligned (a - 8) := by
  have hsub : (a - 8).toNat = (2 ^ 64 - 8 + a.toNat) % 2 ^ 64 := UInt64.toNat_sub a 8
  rw [Aligned] at h ⊢
  omega

theorem aligned_add (h : Aligned a) : Aligned (a + 8) := by
  have hadd : (a + 8).toNat = (a.toNat + 8) % 2 ^ 64 := UInt64.toNat_add a 8
  rw [Aligned] at h ⊢
  omega

theorem sub_add_word (a : UInt64) : a - 8 + 8 = a := UInt64.sub_add_cancel a 8

/-! ### Load and store -/

theorem wordAt_write_same (m : Memory) (a v : UInt64) : wordAt (writeLe m a.toNat 8 v.toNat) a = v := by
  have hv : v.toNat < 256 ^ 8 := UInt64.toNat_lt v
  rw [wordAt, readLe_writeLe_same, Nat.mod_eq_of_lt hv, UInt64.ofNat_toNat]

/-- Two aligned words at different addresses do not overlap. -/
theorem wordAt_write_of_ne (ha : Aligned a) (hb : Aligned b) (hne : a ≠ b) :
    wordAt (writeLe m b.toNat 8 v.toNat) a = wordAt m a := by
  have hnat : a.toNat ≠ b.toNat := fun h => hne (UInt64.toNat_inj.mp h)
  rw [Aligned] at ha hb
  rw [wordAt, readLe_writeLe_of_disjoint (by omega), wordAt]

theorem add_word_zero (a : UInt64) : a + UInt64.ofNat (8 * 0) = a := UInt64.add_zero a

/-- The address of the next word's `i`-th neighbour. -/
theorem add_word_add (a : UInt64) (i : ℕ) :
    a + 8 + UInt64.ofNat (8 * i) = a + UInt64.ofNat (8 * (i + 1)) := by
  rw [Nat.mul_add, Nat.add_comm (8 * i), UInt64.ofNat_add, UInt64.add_assoc]
  rfl

theorem holds_write (hb : Aligned b) (hw : Holds m a ws) (ha : Aligned a)
    (hne : ∀ i < ws.length, a + UInt64.ofNat (8 * i) ≠ b) : Holds (writeLe m b.toNat 8 v.toNat) a ws := by
  induction ws generalizing a with
  | nil => trivial
  | cons w ws ih =>
    refine ⟨?_, ih hw.2 (aligned_add ha) ?_⟩
    · have hab : a ≠ b := by
        have h0 := hne 0 (by simp)
        rw [add_word_zero] at h0
        exact h0
      rw [wordAt_write_of_ne ha hb hab]
      exact hw.1
    · intro i hi
      rw [add_word_add]
      exact hne (i + 1) (by simpa using hi)

/-- **A push puts a word in front**, as long as the stack does not bite its own tail. -/
theorem holds_push (ha : Aligned a) (hlen : ws.length < 2 ^ 61) (hw : Holds m a ws) (v : UInt64) :
    Holds (pushWord (a, m) v).2 (pushWord (a, m) v).1 (v :: ws) := by
  refine ⟨wordAt_write_same m (a - 8) v, ?_⟩
  show Holds (writeLe m (a - 8).toNat 8 v.toNat) (a - 8 + 8) ws
  rw [sub_add_word]
  refine holds_write (aligned_sub ha) hw ha ?_
  intro i hi heq
  have hnat := congrArg UInt64.toNat heq
  have hsub : (a - 8).toNat = (2 ^ 64 - 8 + a.toNat) % 2 ^ 64 := UInt64.toNat_sub a 8
  rw [UInt64.toNat_add, UInt64.toNat_ofNat', hsub] at hnat
  omega

/-! ### Sequences -/

/-- **What a sequence of pushes leaves**: the last word pushed comes first. -/
theorem holds_pushes (vs : List UInt64) : ∀ (f : UInt64 × Memory) (ws : List UInt64), Aligned f.1 →
    vs.length + ws.length < 2 ^ 61 → Holds f.2 f.1 ws →
    Holds (vs.foldl pushWord f).2 (vs.foldl pushWord f).1 (vs.reverse ++ ws) := by
  induction vs with
  | nil =>
    intro f ws _ _ hw
    exact hw
  | cons v vs ih =>
    intro f ws hf hlen hw
    rw [List.length_cons] at hlen
    rw [List.foldl_cons, List.reverse_cons, List.append_assoc]
    exact ih (pushWord f v) (v :: ws) (aligned_sub hf) (by rw [List.length_cons]; omega)
      (holds_push hf (by omega) hw v)

/-- The words by their offsets. -/
theorem holds_getElem (hw : Holds m a ws) {i : ℕ} {w : UInt64} (hi : ws[i]? = some w) :
    wordAt m (a + UInt64.ofNat (8 * i)) = w := by
  induction ws generalizing a i with
  | nil => simp at hi
  | cons x ws ih =>
    cases i with
    | zero =>
      rw [add_word_zero, hw.1]
      simpa using hi
    | succ i =>
      rw [← add_word_add]
      exact ih hw.2 (by simpa using hi)

/-- The words are determined by the memory. -/
theorem holds_unique {ws' : List UInt64} (hw : Holds m a ws) (hw' : Holds m a ws')
    (hlen : ws.length = ws'.length) : ws = ws' := by
  induction ws generalizing a ws' with
  | nil => exact (List.length_eq_zero_iff.mp hlen.symm).symm
  | cons w ws ih =>
    cases ws' with
    | nil => cases hlen
    | cons w' ws' => rw [← hw.1, ← hw'.1, ih hw.2 hw'.2 (Nat.succ.inj hlen)]

/-- Only the bytes of the words matter. -/
theorem holds_congr (hw : Holds m a ws) (hlen : a.toNat + 8 * ws.length ≤ 2 ^ 64)
    (hsame : ∀ x, a.toNat ≤ x → x < a.toNat + 8 * ws.length → m' x = m x) : Holds m' a ws := by
  induction ws generalizing a with
  | nil => trivial
  | cons w ws ih =>
    rw [List.length_cons] at hlen hsame
    have hword : wordAt m' a = wordAt m a := by
      rw [wordAt, wordAt, readLe_congr fun x hx hx' => hsame x hx (by omega)]
    refine ⟨hword.trans hw.1, ?_⟩
    cases ws with
    | nil => trivial
    | cons w' ws =>
      rw [List.length_cons] at hlen hsame
      have hnext : (a + 8).toNat = a.toNat + 8 := by
        have hadd : (a + 8).toNat = (a.toNat + 8) % 2 ^ 64 := UInt64.toNat_add a 8
        omega
      refine ih hw.2 ?_ ?_
      · rw [hnext, List.length_cons]
        omega
      · intro x hx hx'
        rw [hnext, List.length_cons] at hx'
        rw [hnext] at hx
        exact hsame x (by omega) (by omega)

end OsEojin.Lib.WordStack
