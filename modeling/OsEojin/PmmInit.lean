import OsEojin.Pmm
import Mathlib.Logic.Relation

/-!
# The allocator from boot on

`init_pmm` of `src/kernel/pmm.c` builds the bitmap from the memory map of the BIOS: everything used, then
the usable regions free, then the first 32 MB used again.  From there on the kernel only takes blocks:
nothing calls `pmm_free_block`.

* `initPmm`, `testBit_initPmm`: the bitmap after `init_pmm`, bit by bit;
* `Allocates`: any number of calls of `pmm_alloc_block`;
* `Returned`, `Taken`: the blocks that such calls handed out, and their bytes.
-/

namespace OsEojin.Pmm

/-! ### `init_pmm` -/

/-- `memory_map_entry_t`. -/
structure MemoryMapEntry where
  baseAddr : UInt64
  length : UInt64
  type : UInt32

/-- The loop for `max_addr`: the end of the last usable region, in 64 bits. -/
def maxAddr (entries : List MemoryMapEntry) : UInt64 :=
  entries.foldl (fun top e =>
    if e.type = 1 then
      if top < e.baseAddr + e.length then e.baseAddr + e.length else top
    else top) 0

/-- `memset(bitmap, 0xff, bitmap_size)` over what the memory held before. -/
def memsetUsed (ram : Bitmap) (bitmapSize : ℕ) : Bitmap :=
  fun word => ram word ||| BitVec.allOnes 32 >>> (32 - 8 * (bitmapSize - 4 * word))

/-- The loop that frees `n` blocks from `start` on. -/
def clearLoop (start : ℕ) : ℕ → Bitmap → Bitmap
  | 0, bitmap => bitmap
  | n + 1, bitmap => clearBit (clearLoop start n bitmap) (start + n)

/-- One entry of the map: usable regions are freed. -/
def clearEntry (bitmap : Bitmap) (e : MemoryMapEntry) : Bitmap :=
  if e.type = 1 then clearLoop (e.baseAddr.toNat / blockSize) (e.length.toNat / blockSize) bitmap
  else bitmap

/-- The loop that takes the first `n` blocks. -/
def reserveLoop : ℕ → Bitmap → Bitmap
  | 0, bitmap => bitmap
  | n + 1, bitmap => setBit (reserveLoop n bitmap) n

/-- `reserved_blocks`: 32 MB. -/
def reservedBlocks : ℕ := 0x2000000 / blockSize

theorem maxAddr_div_lt (entries : List MemoryMapEntry) :
    (maxAddr entries).toNat / blockSize < 2 ^ 52 := by
  have h := (maxAddr entries).toNat_lt
  rw [blockSize]
  omega

/-- `init_pmm`, for the entries the BIOS left at `0x5004` and what was in the bitmap's memory. -/
def initPmm (ram : Bitmap) (entries : List MemoryMapEntry) : PmmState where
  bitmap := reserveLoop reservedBlocks
    (entries.foldl clearEntry (memsetUsed ram ((maxAddr entries).toNat / blockSize / 8)))
  totalBlocks := (maxAddr entries).toNat / blockSize
  total_lt := maxAddr_div_lt entries

/-- The block is in a usable region. -/
def Usable (entries : List MemoryMapEntry) (i : ℕ) : Prop :=
  ∃ e ∈ entries, e.type = 1 ∧ e.baseAddr.toNat / blockSize ≤ i ∧
    i < e.baseAddr.toNat / blockSize + e.length.toNat / blockSize

theorem testBit_memsetUsed (ram : Bitmap) (size i : ℕ) :
    testBit (memsetUsed ram size) i = (decide (i < 8 * size) || testBit ram i) := by
  have hmod : i % 32 < 32 := Nat.mod_lt _ (by decide)
  rw [testBit_eq_getLsbD, testBit_eq_getLsbD, memsetUsed, BitVec.getLsbD_or, BitVec.getLsbD_ushiftRight,
    BitVec.getLsbD_allOnes, Bool.or_comm]
  congr 1
  rw [decide_eq_decide]
  omega

theorem testBit_clearLoop (start n : ℕ) (bitmap : Bitmap) (i : ℕ) :
    testBit (clearLoop start n bitmap) i = (!decide (start ≤ i ∧ i < start + n) && testBit bitmap i) := by
  induction n with
  | zero =>
    have hout : ¬ (start ≤ i ∧ i < start + 0) := by omega
    rw [clearLoop, decide_eq_false hout]
    rfl
  | succ n ih =>
    rw [clearLoop, testBit_clearBit, ih, ← Bool.and_assoc, ← Bool.not_or, ← Bool.decide_or]
    congr 2
    rw [decide_eq_decide]
    omega

theorem testBit_reserveLoop (n : ℕ) (bitmap : Bitmap) (i : ℕ) :
    testBit (reserveLoop n bitmap) i = (decide (i < n) || testBit bitmap i) := by
  induction n with
  | zero => rfl
  | succ n ih =>
    rw [reserveLoop, testBit_setBit, ih, ← Bool.or_assoc, ← Bool.decide_or]
    congr 1
    rw [decide_eq_decide]
    omega

/-- After all entries a block is used when it was before and no usable region has it. -/
theorem testBit_clearEntries (entries : List MemoryMapEntry) (bitmap : Bitmap) (i : ℕ) :
    testBit (entries.foldl clearEntry bitmap) i = true ↔
      ¬ Usable entries i ∧ testBit bitmap i = true := by
  induction entries generalizing bitmap with
  | nil => simp [Usable]
  | cons e rest ih =>
    rw [List.foldl_cons, ih]
    simp only [Usable, List.exists_mem_cons_iff, not_or, clearEntry]
    by_cases htype : e.type = 1
    · rw [if_pos htype, testBit_clearLoop]
      simp only [htype, true_and, Bool.and_eq_true, Bool.not_eq_true', decide_eq_false_iff_not]
      tauto
    · rw [if_neg htype]
      simp only [htype, false_and, not_false_eq_true, true_and]

/-- **The bitmap after `init_pmm`**: the first 32 MB are used, the other usable blocks are free, and the
rest is used as far as the bitmap was filled. -/
theorem testBit_initPmm (ram : Bitmap) (entries : List MemoryMapEntry) (i : ℕ) :
    testBit (initPmm ram entries).bitmap i = true ↔
      i < reservedBlocks ∨
        ¬ Usable entries i ∧
          (i < 8 * ((maxAddr entries).toNat / blockSize / 8) ∨ testBit ram i = true) := by
  rw [initPmm, testBit_reserveLoop, Bool.or_eq_true, decide_eq_true_eq, testBit_clearEntries,
    testBit_memsetUsed, Bool.or_eq_true, decide_eq_true_eq]

/-! ### Runs of the allocator -/

/-- One call of `pmm_alloc_block`. -/
def AllocatesOne (p p' : PmmState) : Prop := p' = (pmmAllocBlock p).2

/-- Any number of calls. -/
def Allocates : PmmState → PmmState → Prop := Relation.ReflTransGen AllocatesOne

theorem Allocates.refl (p : PmmState) : Allocates p p := Relation.ReflTransGen.refl

theorem Allocates.trans {p q r : PmmState} (h : Allocates p q) (h' : Allocates q r) : Allocates p r :=
  Relation.ReflTransGen.trans h h'

theorem allocates_alloc (p : PmmState) : Allocates p (pmmAllocBlock p).2 :=
  Relation.ReflTransGen.single rfl

theorem Allocates.later {p q : PmmState} (h : Allocates p q) : Later p q := by
  induction h with
  | refl => exact Later.refl p
  | tail _ hone ih =>
    rw [hone]
    exact ih.trans (later_alloc _)

/-- The calls that come after the first one. -/
theorem Allocates.eq_or_tail {p q : PmmState} (h : Allocates p q) :
    p = q ∨ Allocates (pmmAllocBlock p).2 q := by
  cases Relation.ReflTransGen.cases_head h with
  | inl heq => exact Or.inl heq
  | inr hstep =>
    obtain ⟨r, hone, hrest⟩ := hstep
    rw [hone] at hrest
    exact Or.inr hrest

/-- No block becomes free. -/
theorem freeBlocks_subset {p q : PmmState} (h : Allocates p q) : freeBlocks q ⊆ freeBlocks p := by
  intro i hi
  obtain ⟨hlt, hfree⟩ := Finset.mem_filter.mp hi
  refine Finset.mem_filter.mpr ⟨?_, ?_⟩
  · rw [← h.later.total]
    exact hlt
  · by_contra hused
    rw [Bool.not_eq_false] at hused
    exact absurd ((h.later.used i hused).symm.trans hfree) (by decide)

/-- The block of one call is missing ever after. -/
theorem freeBlocks_ne_of_alloc {p q : PmmState} (hfree : freeBlocks p ≠ ∅)
    (h : Allocates (pmmAllocBlock p).2 q) : freeBlocks q ≠ freeBlocks p := by
  intro heq
  cases pmmAllocBlock_cases p with
  | inl hsome =>
    obtain ⟨i, hi, hclear, -, hstate⟩ := hsome
    have hmem : i ∈ freeBlocks q := by
      rw [heq]
      exact Finset.mem_filter.mpr ⟨Finset.mem_range.mpr hi, hclear⟩
    have hused := h.later.used i (by rw [hstate]; simp [testBit_setBit])
    exact absurd (hused.symm.trans (Finset.mem_filter.mp hmem).2) (by decide)
  | inr hnone =>
    obtain ⟨i, hi⟩ := Finset.nonempty_iff_ne_empty.mpr hfree
    obtain ⟨hlt, hclear⟩ := Finset.mem_filter.mp hi
    exact absurd ((hnone.1 i (Finset.mem_range.mp hlt)).symm.trans hclear) (by decide)

/-- The block at `a` was handed out on the way from `p` to `p'`. -/
def Returned (p p' : PmmState) (a : ℕ) : Prop :=
  ∃ q, Allocates p q ∧ Allocates (pmmAllocBlock q).2 p' ∧ (pmmAllocBlock q).1 = a ∧ a ≠ 0

theorem Returned.mono {p p' q r : PmmState} {a : ℕ} (h : Returned q r a) (hbefore : Allocates p q)
    (hafter : Allocates r p') : Returned p p' a := by
  obtain ⟨q₁, h₁, h₂, haddr⟩ := h
  exact ⟨q₁, hbefore.trans h₁, h₂.trans hafter, haddr⟩

/-- A block handed out from `p` to `p'` was handed out before `q` or from `q` on. -/
theorem Returned.split {p p' q : PmmState} {a : ℕ} (h : Returned p p' a) (hq : Allocates p q) :
    Returned p q a ∨ Returned q p' a := by
  obtain ⟨q₁, h₁, h₂, haddr⟩ := h
  have hunique : Relator.RightUnique AllocatesOne := fun _ _ _ hb hc => hb.trans hc.symm
  -- the calls form one chain, so `q` is before or after this one
  cases Relation.ReflTransGen.total_of_right_unique hunique h₁ hq with
  | inr hle => exact Or.inr ⟨q₁, hle, h₂, haddr⟩
  | inl hle =>
    cases Allocates.eq_or_tail hle with
    | inl heq => exact Or.inr ⟨q₁, heq ▸ Allocates.refl _, h₂, haddr⟩
    | inr hrest => exact Or.inl ⟨q₁, h₁, hrest, haddr⟩

/-- The block that one call takes is the one it returns. -/
theorem alloc_eq_of_used {p : PmmState} {i : ℕ} (hfree : testBit p.bitmap i = false)
    (hused : testBit (pmmAllocBlock p).2.bitmap i = true) : (pmmAllocBlock p).1 = i * blockSize := by
  cases pmmAllocBlock_cases p with
  | inl hsome =>
    obtain ⟨k, -, -, -, heq⟩ := hsome
    rw [heq] at hused ⊢
    simp only [testBit_setBit, hfree, Bool.or_false, decide_eq_true_eq] at hused
    rw [hused]
  | inr hnone =>
    rw [hnone.2, hfree] at hused
    cases hused

/-- A block that is used now and was free was taken by one of the calls. -/
theorem taken_of_used {p p' : PmmState} (h : Allocates p p') {i : ℕ}
    (hfree : testBit p.bitmap i = false) (hused : testBit p'.bitmap i = true) :
    ∃ q, Allocates p q ∧ Allocates (pmmAllocBlock q).2 p' ∧ (pmmAllocBlock q).1 = i * blockSize ∧
      testBit q.bitmap i = false := by
  induction h with
  | refl => exact absurd (hfree.symm.trans hused) (by decide)
  | tail hpq hone ih =>
    rename_i q r
    rw [hone] at hused ⊢
    cases hq : testBit q.bitmap i with
    | true =>
      obtain ⟨q₁, h₁, h₂, haddr⟩ := ih hq
      exact ⟨q₁, h₁, h₂.trans (allocates_alloc q), haddr⟩
    | false => exact ⟨q, hpq, Allocates.refl _, alloc_eq_of_used hq hused, hq⟩

/-- It was handed out, unless it is the one at the null address. -/
theorem returned_of_used {p p' : PmmState} (h : Allocates p p') {i : ℕ} (hi : i ≠ 0)
    (hfree : testBit p.bitmap i = false) (hused : testBit p'.bitmap i = true) :
    Returned p p' (i * blockSize) := by
  obtain ⟨q, h₁, h₂, haddr, -⟩ := taken_of_used h hfree hused
  refine ⟨q, h₁, h₂, haddr, ?_⟩
  rw [blockSize]
  omega

/-- The block was free at first and is used at the end. -/
theorem Returned.block {p p' : PmmState} {a : ℕ} (h : Returned p p' a) :
    ∃ i, a = i * blockSize ∧ i < p.totalBlocks ∧ testBit p.bitmap i = false ∧
      testBit p'.bitmap i = true := by
  obtain ⟨q, hpq, hrest, haddr, h0⟩ := h
  obtain ⟨i, hblock, hi, hfree, -, hstate⟩ := pmmAllocBlock_fresh q (by rw [haddr]; exact h0)
  refine ⟨i, by rw [← haddr, hblock], by rw [← hpq.later.total]; exact hi, ?_, ?_⟩
  · by_contra hused
    rw [Bool.not_eq_false] at hused
    exact absurd ((hpq.later.used i hused).symm.trans hfree) (by decide)
  · exact hrest.later.used i (by rw [hstate]; simp [testBit_setBit])

theorem Returned.free {p p' : PmmState} {a : ℕ} (h : Returned p p' a) :
    testBit p.bitmap (a / 4096) = false := by
  obtain ⟨i, rfl, -, hfree, -⟩ := h.block
  rw [blockSize, Nat.mul_div_cancel _ (by decide)]
  exact hfree

theorem not_returned_self {p : PmmState} {a : ℕ} : ¬ Returned p p a := by
  intro h
  obtain ⟨i, -, -, hfree, hused⟩ := h.block
  exact absurd (hused.symm.trans hfree) (by decide)

/-- One call hands out one block. -/
theorem Returned.eq_alloc {p : PmmState} {a : ℕ} (h : Returned p (pmmAllocBlock p).2 a) :
    a = (pmmAllocBlock p).1 := by
  obtain ⟨i, rfl, -, hfree, hused⟩ := h.block
  exact (alloc_eq_of_used hfree hused).symm

/-- The byte is in a block that was handed out on the way. -/
def Taken (p p' : PmmState) (x : ℕ) : Prop :=
  ∃ a, Returned p p' a ∧ a ≤ x ∧ x < a + blockSize

theorem not_taken_self {p : PmmState} {x : ℕ} : ¬ Taken p p x := by
  rintro ⟨a, hreturned, -⟩
  exact not_returned_self hreturned

theorem Taken.mono {p p' q r : PmmState} {x : ℕ} (h : Taken q r x) (hbefore : Allocates p q)
    (hafter : Allocates r p') : Taken p p' x := by
  obtain ⟨a, hreturned, hin⟩ := h
  exact ⟨a, hreturned.mono hbefore hafter, hin⟩

theorem Taken.split {p p' q : PmmState} {x : ℕ} (h : Taken p p' x) (hq : Allocates p q) :
    Taken p q x ∨ Taken q p' x := by
  obtain ⟨a, hreturned, hin⟩ := h
  exact (hreturned.split hq).imp (fun hr => ⟨a, hr, hin⟩) (fun hr => ⟨a, hr, hin⟩)

/-- One call takes the bytes of its block. -/
theorem taken_alloc {p : PmmState} (h0 : (pmmAllocBlock p).1 ≠ 0) (x : ℕ) :
    Taken p (pmmAllocBlock p).2 x ↔
      (pmmAllocBlock p).1 ≤ x ∧ x < (pmmAllocBlock p).1 + blockSize := by
  constructor
  · rintro ⟨a, hreturned, hin⟩
    rw [← hreturned.eq_alloc]
    exact hin
  · intro hin
    exact ⟨_, ⟨p, Allocates.refl p, Allocates.refl _, rfl, h0⟩, hin⟩

/-- The blocks are taken from the front, one for each call, as long as there are any. -/
theorem used_iterate {p : PmmState} {n : ℕ}
    (hn : ∀ i, i < n → i < p.totalBlocks → testBit p.bitmap i = true) (k : ℕ) {i : ℕ} (hi : i < n + k) (htotal : i < p.totalBlocks) :
    testBit ((fun q => (pmmAllocBlock q).2)^[k] p).bitmap i = true := by
  induction k generalizing p n with
  | zero => exact hn i hi htotal
  | succ k ih =>
    rw [Function.iterate_succ_apply]
    apply ih (n := n + 1) _ (by omega) (by rw [pmmAllocBlock_totalBlocks]; exact htotal)
    intro j hj hjt
    rw [pmmAllocBlock_totalBlocks] at hjt
    cases pmmAllocBlock_cases p with
    | inl hsome =>
      obtain ⟨b, -, hfree, hbelow, heq⟩ := hsome
      rw [heq, testBit_setBit]
      -- the block taken is the first free one, so not before `n`
      rcases Nat.lt_trichotomy j b with hlt | heqb | hgt
      · simp [hbelow j hlt]
      · simp [heqb]
      · have hused := hn b (by omega) (by omega)
        exact absurd (hfree.symm.trans hused) (by decide)
    | inr hnone =>
      rw [hnone.2]
      exact hnone.1 j hjt

/-! ### Counted calls -/

/-- The allocator after `k` calls of `pmm_alloc_block`. -/
def pmmAfter (k : ℕ) (p : PmmState) : PmmState := (fun q => (pmmAllocBlock q).2)^[k] p

theorem pmmAfter_succ (k : ℕ) (p : PmmState) : pmmAfter (k + 1) p = pmmAfter k (pmmAllocBlock p).2 :=
  Function.iterate_succ_apply _ _ _

theorem pmmAfter_succ_last (k : ℕ) (p : PmmState) :
    pmmAfter (k + 1) p = (pmmAllocBlock (pmmAfter k p)).2 :=
  Function.iterate_succ_apply' _ _ _

theorem pmmAfter_add (k n : ℕ) (p : PmmState) : pmmAfter (k + n) p = pmmAfter k (pmmAfter n p) :=
  Function.iterate_add_apply _ _ _ _

theorem allocates_pmmAfter (k : ℕ) (p : PmmState) : Allocates p (pmmAfter k p) := by
  induction k with
  | zero => exact Allocates.refl p
  | succ k ih =>
    rw [pmmAfter_succ_last]
    exact ih.trans (allocates_alloc _)

/-- The blocks that `k` calls hand out. -/
theorem returned_pmmAfter {k : ℕ} {p : PmmState} {a : ℕ} (h : Returned p (pmmAfter k p) a) :
    ∃ j, j < k ∧ (pmmAllocBlock (pmmAfter j p)).1 = a := by
  induction k with
  | zero => exact absurd h not_returned_self
  | succ k ih =>
    rw [pmmAfter_succ_last] at h
    cases h.split (allocates_pmmAfter k p) with
    | inl hbefore =>
      obtain ⟨j, hj, haddr⟩ := ih hbefore
      exact ⟨j, by omega, haddr⟩
    | inr hlast => exact ⟨k, by omega, hlast.eq_alloc.symm⟩

/-- The free blocks below `bound`. -/
def freeBelow (p : PmmState) (bound : ℕ) : Finset ℕ := (freeBlocks p).filter (· < bound)

/-- While one is left below the bound, the next call takes one of these. -/
theorem alloc_of_freeBelow {p : PmmState} {bound : ℕ} (h : 0 < (freeBelow p bound).card) :
    ∃ i, i < bound ∧ testBit p.bitmap i = false ∧
      pmmAllocBlock p = (i * blockSize, { p with bitmap := setBit p.bitmap i }) ∧
      (freeBelow p bound).card = (freeBelow (pmmAllocBlock p).2 bound).card + 1 := by
  obtain ⟨j, hj⟩ := Finset.card_pos.mp h
  obtain ⟨hjfree, hjlt⟩ := Finset.mem_filter.mp hj
  obtain ⟨hjtotal, hjclear⟩ := Finset.mem_filter.mp hjfree
  cases pmmAllocBlock_cases p with
  | inr hnone =>
    have hused := hnone.1 j (Finset.mem_range.mp hjtotal)
    rw [hjclear] at hused
    cases hused
  | inl hsome =>
    obtain ⟨i, hi, hfree, hbelow, heq⟩ := hsome
    have hij : i ≤ j := by
      by_contra hgt
      have hused := hbelow j (by omega)
      rw [hjclear] at hused
      cases hused
    refine ⟨i, by omega, hfree, heq, ?_⟩
    have hmem : i ∈ freeBelow p bound :=
      Finset.mem_filter.mpr ⟨Finset.mem_filter.mpr ⟨Finset.mem_range.mpr hi, hfree⟩, by omega⟩
    have herase : freeBelow (pmmAllocBlock p).2 bound = (freeBelow p bound).erase i := by
      ext k
      rw [heq]
      simp only [freeBelow, freeBlocks, Finset.mem_filter, Finset.mem_range, Finset.mem_erase,
        testBit_setBit, Bool.or_eq_false_iff, decide_eq_false_iff_not]
      tauto
    rw [herase, Finset.card_erase_of_mem hmem]
    have := Finset.card_pos.mpr ⟨i, hmem⟩
    omega

theorem freeBelow_pmmAfter {p : PmmState} {bound n k : ℕ} (h : n ≤ (freeBelow p bound).card)
    (hk : k ≤ n) : n - k ≤ (freeBelow (pmmAfter k p) bound).card := by
  induction k with
  | zero => exact h
  | succ k ih =>
    have hleft := ih (by omega)
    obtain ⟨i, -, -, -, hcard⟩ := alloc_of_freeBelow (show 0 < (freeBelow (pmmAfter k p) bound).card from by omega)
    rw [pmmAfter_succ_last]
    omega

theorem freeBlocks_eq_freeBelow (p : PmmState) : freeBlocks p = freeBelow p p.totalBlocks := by
  rw [freeBelow, Finset.filter_true_of_mem]
  intro i hi
  exact Finset.mem_range.mp (Finset.mem_filter.mp hi).1

/-- A call takes at most one block. -/
theorem card_alloc_le (p : PmmState) :
    (freeBlocks p).card ≤ (freeBlocks (pmmAllocBlock p).2).card + 1 := by
  cases Nat.eq_zero_or_pos (freeBlocks p).card with
  | inl hnone => omega
  | inr hsome =>
    rw [freeBlocks_eq_freeBelow] at hsome
    obtain ⟨i, -, -, -, hcard⟩ := alloc_of_freeBelow hsome
    rw [freeBlocks_eq_freeBelow, freeBlocks_eq_freeBelow, pmmAllocBlock_totalBlocks]
    exact le_of_eq hcard

theorem card_pmmAfter (p : PmmState) (k : ℕ) :
    (freeBlocks p).card ≤ (freeBlocks (pmmAfter k p)).card + k := by
  induction k with
  | zero => exact Nat.le_refl _
  | succ k ih =>
    have hone := card_alloc_le (pmmAfter k p)
    rw [pmmAfter_succ_last]
    omega

/-- While there are free blocks, each call takes one. -/
theorem card_pmmAfter_eq {p : PmmState} (hzero : testBit p.bitmap 0 = true) {k : ℕ}
    (hk : k ≤ (freeBlocks p).card) : (freeBlocks (pmmAfter k p)).card + k = (freeBlocks p).card := by
  induction k with
  | zero => rfl
  | succ k ih =>
    have hleft := ih (by omega)
    have hused := (allocates_pmmAfter k p).later.used 0 hzero
    have hone := freeBlocks_card_alloc
      (pmmAllocBlock_ne_zero hused (show 0 < (freeBlocks (pmmAfter k p)).card from by omega))
    rw [pmmAfter_succ_last]
    omega

end OsEojin.Pmm
