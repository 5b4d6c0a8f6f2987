import OsEojin.Lib.Runs
import Mathlib.Logic.Function.Basic
import Mathlib.Data.BitVec
import Mathlib.Order.Interval.Finset.Nat
import Mathlib.Tactic.Common

/-!
# The physical memory manager: a bitmap of 4 KB blocks

`src/kernel/pmm.c` keeps one bit per block in 32-bit words (`1` = used) and hands out the first block
whose bit is clear.

* `setBit` / `clearBit` / `testBit`: the three bit macros, word by word;
* `pmmAllocBlock` / `pmmFreeBlock`: the allocator, with the address `0` as its failure value;
* `pmmAllocBlock_cases`: everything one allocation can do;
* `used_mono`, `pmmAllocBlock_fresh`: an allocation takes a block that was free and clears no bit;
* `Later`: what any number of allocations does;
* `freeBlocks`: how many allocations can still succeed.
-/

namespace OsEojin.Pmm

/-- `BLOCK_SIZE` of `pmm.h`. -/
def blockSize : ℕ := 4096

/-! ### The bitmap -/

/-- The bitmap: one bit per block, 32 blocks to a word. -/
abbrev Bitmap := ℕ → BitVec 32

/-- The mask `1 << (idx % 32)`. -/
def bitMask (idx : ℕ) : BitVec 32 := 1#32 <<< (idx % 32)

/-- `SET_BIT(idx)`. -/
def setBit (bitmap : Bitmap) (idx : ℕ) : Bitmap :=
  Function.update bitmap (idx / 32) (bitmap (idx / 32) ||| bitMask idx)

/-- `CLEAR_BIT(idx)`. -/
def clearBit (bitmap : Bitmap) (idx : ℕ) : Bitmap :=
  Function.update bitmap (idx / 32) (bitmap (idx / 32) &&& ~~~ bitMask idx)

/-- `TEST_BIT(idx)`, as a truth value. -/
def testBit (bitmap : Bitmap) (idx : ℕ) : Bool :=
  decide (bitmap (idx / 32) &&& bitMask idx ≠ 0#32)

theorem getLsbD_bitMask (idx k : ℕ) : (bitMask idx).getLsbD k = decide (k = idx % 32) := by
  have hk : idx % 32 < 32 := Nat.mod_lt _ (by decide)
  have hone : bitMask idx = BitVec.twoPow 32 (idx % 32) := by
    rw [bitMask, BitVec.twoPow_eq]
  rw [hone, BitVec.getLsbD_twoPow]
  by_cases h : k = idx % 32
  · simp [h, hk]
  · simp [h, Ne.symm h]

/-- The masked word is non-zero exactly when the bit itself is set. -/
theorem testBit_eq_getLsbD (bitmap : Bitmap) (idx : ℕ) :
    testBit bitmap idx = (bitmap (idx / 32)).getLsbD (idx % 32) := by
  have hk : idx % 32 < 32 := Nat.mod_lt _ (by decide)
  cases hbit : (bitmap (idx / 32)).getLsbD (idx % 32) with
  | true =>
    rw [testBit, decide_eq_true_eq]
    intro h0
    have := congrArg (fun w => w.getLsbD (idx % 32)) h0
    simp [getLsbD_bitMask, hbit] at this
  | false =>
    rw [testBit, decide_eq_false_iff_not, not_not]
    apply BitVec.eq_of_getLsbD_eq
    intro i _
    rw [BitVec.getLsbD_and, getLsbD_bitMask]
    by_cases h : i = idx % 32
    · simp [h, hbit]
    · simp [h]

/-- Two indices share word and bit only when they are equal. -/
theorem same_bit_iff (i j : ℕ) : i / 32 = j / 32 ∧ i % 32 = j % 32 ↔ i = j := by
  constructor
  · intro h
    omega
  · rintro rfl
    exact ⟨rfl, rfl⟩

/-- Setting a bit sets that bit and no other. -/
theorem testBit_setBit (bitmap : Bitmap) (i j : ℕ) :
    testBit (setBit bitmap i) j = (decide (j = i) || testBit bitmap j) := by
  simp only [testBit_eq_getLsbD, setBit]
  by_cases hw : j / 32 = i / 32
  · rw [hw, Function.update_self, BitVec.getLsbD_or, getLsbD_bitMask, Bool.or_comm]
    congr 1
    by_cases hb : j % 32 = i % 32
    · simp [(same_bit_iff j i).mp ⟨hw, hb⟩]
    · simp only [hb, decide_false]
      rw [eq_comm, decide_eq_false_iff_not]
      rintro rfl
      exact hb rfl
  · rw [Function.update_of_ne hw]
    have : j ≠ i := by
      rintro rfl
      exact hw rfl
    simp [this]

/-- Clearing a bit clears that bit and no other. -/
theorem testBit_clearBit (bitmap : Bitmap) (i j : ℕ) :
    testBit (clearBit bitmap i) j = (!decide (j = i) && testBit bitmap j) := by
  have hj : j % 32 < 32 := Nat.mod_lt _ (by decide)
  simp only [testBit_eq_getLsbD, clearBit]
  by_cases hw : j / 32 = i / 32
  · rw [hw, Function.update_self, BitVec.getLsbD_and, BitVec.getLsbD_not, getLsbD_bitMask,
      Bool.and_comm]
    congr 1
    by_cases hb : j % 32 = i % 32
    · simp [(same_bit_iff j i).mp ⟨hw, hb⟩]
    · have : j ≠ i := by
        rintro rfl
        exact hb rfl
      simp [hb, this, hj]
  · rw [Function.update_of_ne hw]
    have : j ≠ i := by
      rintro rfl
      exact hw rfl
    simp [this]

/-! ### The allocator -/

/-- The allocator's globals.  `total_blocks` is a 64-bit byte count divided by 4096, so it stays
below `2 ^ 52` and no block address wraps. -/
structure PmmState where
  bitmap : Bitmap
  totalBlocks : ℕ
  total_lt : totalBlocks < 2 ^ 52

/-- The scan of `pmm_alloc_block`: the first clear bit among `n` blocks from `i` on. -/
def allocScan (bitmap : Bitmap) : ℕ → ℕ → Option ℕ
  | 0, _ => none
  | n + 1, i => if testBit bitmap i then allocScan bitmap n (i + 1) else some i

/-- `pmm_alloc_block`: the block's address, `0` when there is none. -/
def pmmAllocBlock (p : PmmState) : ℕ × PmmState :=
  match allocScan p.bitmap p.totalBlocks 0 with
  | some i => (i * blockSize, { p with bitmap := setBit p.bitmap i })
  | none => (0, p)

/-- `pmm_free_block`. -/
def pmmFreeBlock (p : PmmState) (addr : ℕ) : PmmState :=
  { p with bitmap := clearBit p.bitmap (addr / blockSize) }

theorem allocScan_some {bitmap : Bitmap} {n i k : ℕ} (h : allocScan bitmap n i = some k) :
    i ≤ k ∧ k < i + n ∧ testBit bitmap k = false ∧
      ∀ j, i ≤ j → j < k → testBit bitmap j = true := by
  induction n generalizing i with
  | zero => simp [allocScan] at h
  | succ n ih =>
    rw [allocScan] at h
    split at h
    · rename_i hset
      obtain ⟨h1, h2, h3, h4⟩ := ih h
      refine ⟨by omega, by omega, h3, ?_⟩
      intro j hij hjk
      rcases Nat.eq_or_lt_of_le hij with rfl | hlt
      · exact hset
      · exact h4 j hlt hjk
    · rename_i hclear
      obtain rfl := Option.some.inj h
      refine ⟨le_rfl, by omega, by simpa using hclear, ?_⟩
      intro j hij hji
      omega

theorem allocScan_none {bitmap : Bitmap} {n i : ℕ} (h : allocScan bitmap n i = none) :
    ∀ j, i ≤ j → j < i + n → testBit bitmap j = true := by
  induction n generalizing i with
  | zero =>
    intro j hij hj
    omega
  | succ n ih =>
    rw [allocScan] at h
    split at h
    · rename_i hset
      intro j hij hj
      rcases Nat.eq_or_lt_of_le hij with rfl | hlt
      · exact hset
      · exact ih h j hlt (by omega)
    · simp at h

/-- **What one allocation can do**: take the least free block, or fail with every block used. -/
theorem pmmAllocBlock_cases (p : PmmState) :
    (∃ i, i < p.totalBlocks ∧ testBit p.bitmap i = false ∧
        (∀ j, j < i → testBit p.bitmap j = true) ∧
        pmmAllocBlock p = (i * blockSize, { p with bitmap := setBit p.bitmap i })) ∨
      ((∀ j, j < p.totalBlocks → testBit p.bitmap j = true) ∧ pmmAllocBlock p = (0, p)) := by
  cases hscan : allocScan p.bitmap p.totalBlocks 0 with
  | some i =>
    obtain ⟨-, hlt, hfree, hbelow⟩ := allocScan_some hscan
    left
    refine ⟨i, by omega, hfree, fun j hj => hbelow j (Nat.zero_le j) hj, ?_⟩
    simp only [pmmAllocBlock, hscan]
  | none =>
    right
    refine ⟨fun j hj => allocScan_none hscan j (Nat.zero_le j) (by omega), ?_⟩
    simp only [pmmAllocBlock, hscan]

@[simp] theorem pmmAllocBlock_totalBlocks (p : PmmState) :
    (pmmAllocBlock p).2.totalBlocks = p.totalBlocks := by
  rcases pmmAllocBlock_cases p with ⟨i, -, -, -, h⟩ | ⟨-, h⟩ <;> rw [h]

theorem pmmAllocBlock_aligned (p : PmmState) : (pmmAllocBlock p).1 % blockSize = 0 := by
  rcases pmmAllocBlock_cases p with ⟨i, -, -, -, h⟩ | ⟨-, h⟩
  · rw [h]
    simp
  · rw [h]
    simp

/-- An allocation never clears a bit. -/
theorem used_mono (p : PmmState) {j : ℕ} (hj : testBit p.bitmap j = true) :
    testBit (pmmAllocBlock p).2.bitmap j = true := by
  rcases pmmAllocBlock_cases p with ⟨i, -, -, -, h⟩ | ⟨-, h⟩
  · rw [h]
    simp [testBit_setBit, hj]
  · rw [h]
    exact hj

/-- A non-null result was free before and is used after, and every smaller block is used. -/
theorem pmmAllocBlock_fresh (p : PmmState) (h0 : (pmmAllocBlock p).1 ≠ 0) :
    ∃ i, (pmmAllocBlock p).1 = i * blockSize ∧ i < p.totalBlocks ∧ testBit p.bitmap i = false ∧
      (∀ j, j < i → testBit p.bitmap j = true) ∧
      (pmmAllocBlock p).2 = { p with bitmap := setBit p.bitmap i } := by
  rcases pmmAllocBlock_cases p with ⟨i, hi, hfree, hbelow, h⟩ | ⟨-, h⟩
  · rw [h]
    exact ⟨i, rfl, hi, hfree, hbelow, rfl⟩
  · rw [h] at h0
    exact absurd rfl h0

/-! ### Many allocations -/

/-- **What any number of allocations does**: blocks are taken from the front, and none is given back. -/
structure Later (p p' : PmmState) : Prop where
  total : p'.totalBlocks = p.totalBlocks
  used : ∀ i, testBit p.bitmap i = true → testBit p'.bitmap i = true
  front : ∀ i j, testBit p.bitmap i = false → testBit p'.bitmap i = true → j < i →
    testBit p'.bitmap j = true

theorem Later.refl (p : PmmState) : Later p p := by
  refine ⟨rfl, fun _ hi => hi, ?_⟩
  intro i j hfree hused
  rw [hfree] at hused
  cases hused

theorem Later.trans {p p' p'' : PmmState} (h : Later p p') (h' : Later p' p'') : Later p p'' := by
  refine ⟨h'.total.trans h.total, fun i hi => h'.used i (h.used i hi), ?_⟩
  intro i j hfree hused hj
  cases hmid : testBit p'.bitmap i with
  | true => exact h'.used j (h.front i j hfree hmid hj)
  | false => exact h'.front i j hmid hused hj

theorem later_alloc (p : PmmState) : Later p (pmmAllocBlock p).2 := by
  refine ⟨pmmAllocBlock_totalBlocks p, fun _ hi => used_mono p hi, ?_⟩
  intro i j hfree hused hj
  cases pmmAllocBlock_cases p with
  | inl hsome =>
    obtain ⟨k, -, -, hbelow, heq⟩ := hsome
    rw [heq] at hused ⊢
    -- the block taken is `i` itself
    simp only [testBit_setBit, hfree, Bool.or_false, decide_eq_true_eq] at hused
    simp [testBit_setBit, hbelow j (hused ▸ hj)]
  | inr hnone =>
    rw [hnone.2, hfree] at hused
    cases hused

/-- The blocks that can still be handed out. -/
def freeBlocks (p : PmmState) : Finset ℕ :=
  (Finset.range p.totalBlocks).filter fun i => testBit p.bitmap i = false

/-- A successful allocation takes one of them. -/
theorem freeBlocks_card_alloc {p : PmmState} (h0 : (pmmAllocBlock p).1 ≠ 0) :
    (freeBlocks p).card = (freeBlocks (pmmAllocBlock p).2).card + 1 := by
  obtain ⟨i, -, hlt, hfree, -, hstate⟩ := pmmAllocBlock_fresh p h0
  have hmem : i ∈ freeBlocks p := Finset.mem_filter.mpr ⟨Finset.mem_range.mpr hlt, hfree⟩
  have herase : freeBlocks (pmmAllocBlock p).2 = (freeBlocks p).erase i := by
    ext j
    rw [hstate]
    simp only [freeBlocks, Finset.mem_filter, Finset.mem_range, Finset.mem_erase, testBit_setBit,
      Bool.or_eq_false_iff, decide_eq_false_iff_not]
    tauto
  rw [herase, Finset.card_erase_of_mem hmem]
  have := Finset.card_pos.mpr ⟨i, hmem⟩
  omega

/-- With enough blocks left, the allocations have not come as far as block `i`. -/
theorem Later.free_of_card {p p' : PmmState} (h : Later p p') {i : ℕ}
    (hfree : testBit p.bitmap i = false) (hcard : p.totalBlocks - (i + 1) < (freeBlocks p').card) :
    testBit p'.bitmap i = false := by
  by_contra hused
  rw [Bool.not_eq_false] at hused
  have hsub : freeBlocks p' ⊆ Finset.Ico (i + 1) p.totalBlocks := by
    intro j hj
    obtain ⟨hlt, hclear⟩ := Finset.mem_filter.mp hj
    rw [Finset.mem_range, h.total] at hlt
    refine Finset.mem_Ico.mpr ⟨?_, hlt⟩
    by_contra hle
    have hset : testBit p'.bitmap j = true := by
      rcases Nat.lt_or_eq_of_le (show j ≤ i from by omega) with hji | hji
      · exact h.front i j hfree hused hji
      · rw [hji]
        exact hused
    rw [hset] at hclear
    cases hclear
  have hle := Finset.card_le_card hsub
  rw [Nat.card_Ico] at hle
  omega

/-- While one is left, and the null address is not one of them, an allocation succeeds. -/
theorem pmmAllocBlock_ne_zero {p : PmmState} (hzero : testBit p.bitmap 0 = true)
    (hfree : 0 < (freeBlocks p).card) : (pmmAllocBlock p).1 ≠ 0 := by
  cases pmmAllocBlock_cases p with
  | inl hsome =>
    obtain ⟨i, -, hi, -, h⟩ := hsome
    rw [h]
    intro h0
    have hi0 : i = 0 := by
      simp only [blockSize] at h0
      omega
    rw [hi0, hzero] at hi
    cases hi
  | inr hnone =>
    obtain ⟨i, hi⟩ := Finset.card_pos.mp hfree
    obtain ⟨hlt, hclear⟩ := Finset.mem_filter.mp hi
    rw [hnone.1 i (Finset.mem_range.mp hlt)] at hclear
    cases hclear

/-- A machine of 64 blocks, the first of every 32 reserved. -/
def smallPmm : PmmState := ⟨fun _ => 1#32, 64, by decide⟩

end OsEojin.Pmm
