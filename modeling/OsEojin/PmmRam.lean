import OsEojin.PmmInit

/-!
# What `init_pmm` leaves free

`init_pmm` of `src/kernel/pmm.c` rounds the base and the length of a usable region down to blocks, looks at
no other region, and fills the bitmap by whole bytes.  So the first block of a region may begin before the
region, a block may lie in a reserved region that overlaps a usable one, and the last blocks of the machine
keep the bits that were in memory.

* `free_initPmm`: the blocks that are free after `init_pmm`;
* `real_ram_iff`: when they are all RAM;
* `init_forgets_iff`: when they do not depend on what was in memory.
-/

namespace OsEojin.Pmm

variable {ram ram' : Bitmap} {entries : List MemoryMapEntry} {i : ℕ}

/-! ### Regions -/

/-- The byte at `x` is in the region. -/
def Covers (e : MemoryMapEntry) (x : ℕ) : Prop :=
  e.baseAddr.toNat ≤ x ∧ x < e.baseAddr.toNat + e.length.toNat

/-- The map calls the byte usable. -/
def CoveredByUsable (entries : List MemoryMapEntry) (x : ℕ) : Prop :=
  ∃ e ∈ entries, e.type = 1 ∧ Covers e x

/-- The map calls the byte something else. -/
def CoveredByOther (entries : List MemoryMapEntry) (x : ℕ) : Prop :=
  ∃ e ∈ entries, e.type ≠ 1 ∧ Covers e x

/-- Every byte of the block is usable, and nothing else. -/
def RealRam (entries : List MemoryMapEntry) (i : ℕ) : Prop :=
  ∀ x, blockSize * i ≤ x → x < blockSize * (i + 1) →
    CoveredByUsable entries x ∧ ¬ CoveredByOther entries x

/-- No region ends past the 64-bit addresses. -/
def NoWrap (entries : List MemoryMapEntry) : Prop :=
  ∀ e ∈ entries, e.baseAddr.toNat + e.length.toNat < 2 ^ 64

/-- The blocks the bitmap's fill does not reach: it goes by whole bytes. -/
def InTail (entries : List MemoryMapEntry) (i : ℕ) : Prop :=
  8 * ((maxAddr entries).toNat / blockSize / 8) ≤ i ∧ i < (maxAddr entries).toNat / blockSize

theorem totalBlocks_initPmm : (initPmm ram entries).totalBlocks = (maxAddr entries).toNat / blockSize := rfl

/-- **The blocks that are free after `init_pmm`.** -/
theorem free_initPmm (hi : i < (initPmm ram entries).totalBlocks) :
    testBit (initPmm ram entries).bitmap i = false ↔
      reservedBlocks ≤ i ∧ (Usable entries i ∨ InTail entries i ∧ testBit ram i = false) := by
  rw [totalBlocks_initPmm] at hi
  rw [← Bool.not_eq_true, testBit_initPmm, not_or, not_lt, not_and_or, not_not, not_or, not_lt,
    Bool.not_eq_true, InTail]
  tauto

theorem maxAddr_le_foldl (top : UInt64) (entries : List MemoryMapEntry) :
    top ≤ entries.foldl (fun top e =>
      if e.type = 1 then
        if top < e.baseAddr + e.length then e.baseAddr + e.length else top
      else top) top := by
  induction entries generalizing top with
  | nil => exact UInt64.le_refl top
  | cons e entries ih =>
    refine UInt64.le_trans ?_ (ih _)
    dsimp only
    split
    · split
      · rename_i hlt
        exact UInt64.le_of_lt hlt
      · exact UInt64.le_refl top
    · exact UInt64.le_refl top

/-- No usable region ends past `max_addr`. -/
theorem le_maxAddr {e : MemoryMapEntry} (he : e ∈ entries) (htype : e.type = 1) :
    e.baseAddr + e.length ≤ maxAddr entries := by
  rw [maxAddr]
  generalize (0 : UInt64) = top
  induction entries generalizing top with
  | nil => cases he
  | cons e' entries ih =>
    cases List.mem_cons.mp he with
    | inl heq =>
      subst heq
      refine UInt64.le_trans ?_ (maxAddr_le_foldl _ entries)
      dsimp only
      rw [if_pos htype]
      split
      · exact UInt64.le_refl _
      · rename_i hge
        exact UInt64.not_lt.mp hge
    | inr hrest => exact ih hrest _

theorem end_le_maxAddr (hwrap : NoWrap entries) {e : MemoryMapEntry} (he : e ∈ entries)
    (htype : e.type = 1) : e.baseAddr.toNat + e.length.toNat ≤ (maxAddr entries).toNat := by
  have hle := UInt64.le_iff_toNat_le.mp (le_maxAddr he htype)
  rw [UInt64.toNat_add, Nat.mod_eq_of_lt (hwrap e he)] at hle
  exact hle

/-- The blocks of the usable regions are in the machine. -/
theorem Usable.lt_total (hwrap : NoWrap entries) (h : Usable entries i) :
    i < (maxAddr entries).toNat / blockSize := by
  obtain ⟨e, he, htype, -, hlt⟩ := h
  have hend := end_le_maxAddr hwrap he htype
  rw [blockSize] at hlt ⊢
  omega

/-! ### Only RAM -/

/-- What is free after `init_pmm` is RAM above 32 MB. -/
def OnlyRam (ram : Bitmap) (entries : List MemoryMapEntry) : Prop :=
  ∀ i, i < (initPmm ram entries).totalBlocks → testBit (initPmm ram entries).bitmap i = false →
    0x2000000 ≤ blockSize * i ∧ RealRam entries i

/-- **The maps that `init_pmm` reads right.** -/
structure CleanMap (ram : Bitmap) (entries : List MemoryMapEntry) : Prop where
  /-- a usable region that does not begin with a block is preceded by usable bytes -/
  begins : ∀ e ∈ entries, e.type = 1 → blockSize ≤ e.length.toNat →
    reservedBlocks ≤ e.baseAddr.toNat / blockSize →
    ∀ x, blockSize * (e.baseAddr.toNat / blockSize) ≤ x → x < e.baseAddr.toNat → CoveredByUsable entries x
  /-- no other region reaches into the blocks of a usable one -/
  apart : ∀ e ∈ entries, e.type = 1 →
    ∀ x, blockSize * (e.baseAddr.toNat / blockSize) ≤ x → 0x2000000 ≤ x →
      x < blockSize * (e.baseAddr.toNat / blockSize + e.length.toNat / blockSize) →
      ¬ CoveredByOther entries x
  /-- the last blocks were marked in memory, or are usable -/
  tail : ∀ i, InTail entries i → reservedBlocks ≤ i → ¬ Usable entries i →
    testBit ram i = true ∨ RealRam entries i

theorem reservedBlocks_le_iff : reservedBlocks ≤ i ↔ 0x2000000 ≤ blockSize * i := by
  rw [show reservedBlocks = 8192 from rfl, blockSize]
  omega

/-- The blocks of the usable regions of a clean map are RAM. -/
theorem CleanMap.realRam (h : CleanMap ram entries) (hi : reservedBlocks ≤ i)
    (husable : Usable entries i) : RealRam entries i := by
  obtain ⟨e, he, htype, hstart, hend⟩ := husable
  rw [reservedBlocks_le_iff] at hi
  rw [blockSize] at hstart hend hi
  intro x hx hx'
  rw [blockSize] at hx hx'
  constructor
  · by_cases hbase : e.baseAddr.toNat ≤ x
    · refine ⟨e, he, htype, hbase, ?_⟩
      omega
    · -- the block is the first one of the region
      apply h.begins e he htype
      · unfold blockSize
        omega
      · rw [reservedBlocks_le_iff]
        unfold blockSize
        omega
      · unfold blockSize
        omega
      · omega
  · apply h.apart e he htype x
    · unfold blockSize
      omega
    · omega
    · unfold blockSize
      omega

/-- **When only RAM is handed out.** -/
theorem real_ram_iff (ram : Bitmap) (entries : List MemoryMapEntry) (hwrap : NoWrap entries) :
    OnlyRam ram entries ↔ CleanMap ram entries := by
  constructor
  · intro h
    have husable : ∀ i, reservedBlocks ≤ i → Usable entries i → RealRam entries i := by
      intro i hi hu
      have hlt := hu.lt_total hwrap
      exact (h i hlt ((free_initPmm hlt).mpr ⟨hi, Or.inl hu⟩)).2
    refine ⟨?_, ?_, ?_⟩
    · intro e he htype hlength hbase x hx hx'
      have hfirst : Usable entries (e.baseAddr.toNat / blockSize) := by
        refine ⟨e, he, htype, le_rfl, ?_⟩
        rw [blockSize] at hlength ⊢
        omega
      refine (husable _ hbase hfirst x hx ?_).1
      rw [blockSize] at hx ⊢
      omega
    · intro e he htype x hx hlow hx'
      rw [blockSize] at hx hx'
      have hblock : Usable entries (x / blockSize) := by
        refine ⟨e, he, htype, ?_, ?_⟩
        · unfold blockSize
          omega
        · unfold blockSize
          omega
      refine (husable _ ?_ hblock x ?_ ?_).2
      · rw [reservedBlocks_le_iff]
        unfold blockSize
        omega
      · unfold blockSize
        omega
      · unfold blockSize
        omega
    · intro i htail hi hu
      cases hbit : testBit ram i with
      | true => exact Or.inl rfl
      | false => exact Or.inr (h i htail.2 ((free_initPmm htail.2).mpr ⟨hi, Or.inr ⟨htail, hbit⟩⟩)).2
  · intro h i hlt hfree
    obtain ⟨hi, hcases⟩ := (free_initPmm hlt).mp hfree
    refine ⟨reservedBlocks_le_iff.mp hi, ?_⟩
    by_cases hu : Usable entries i
    · exact h.realRam hi hu
    · obtain ⟨htail, hbit⟩ := hcases.resolve_left hu
      refine (h.tail i htail hi hu).resolve_left ?_
      rw [hbit]
      decide

/-- One usable region of 128 MB. -/
def wholeRegion : MemoryMapEntry := ⟨0, 0x8000000, 1⟩

theorem real_ram_wholeRegion :
    NoWrap [wholeRegion] ∧ OnlyRam (fun _ => 0#32) [wholeRegion] := by
  have hwrap : NoWrap [wholeRegion] := by
    intro e he
    rw [List.mem_singleton.mp he]
    decide
  refine ⟨hwrap, (real_ram_iff _ _ hwrap).mpr ⟨?_, ?_, ?_⟩⟩
  · intro e he _ _ _ x _ hx
    rw [List.mem_singleton.mp he] at hx
    exact absurd hx (Nat.not_lt_zero x)
  · rintro e - - x - - - ⟨e', he', htype', -⟩
    rw [List.mem_singleton.mp he'] at htype'
    exact htype' rfl
  · rintro i ⟨hfilled, hlt⟩
    have htotal : (maxAddr [wholeRegion]).toNat / blockSize = 32768 := by decide
    rw [htotal] at hfilled hlt
    omega

/-- A usable region that begins in the middle of the block at 32 MB. -/
def shiftedRegion : MemoryMapEntry := ⟨0x2000800, 0x100000, 1⟩

theorem shifted_region_not_ram :
    NoWrap [shiftedRegion] ∧ ¬ OnlyRam (fun _ => BitVec.allOnes 32) [shiftedRegion] := by
  refine ⟨?_, fun honly => ?_⟩
  · intro e he
    rw [List.mem_singleton.mp he]
    decide
  · have hlt : 8192 < (initPmm (fun _ => BitVec.allOnes 32) [shiftedRegion]).totalBlocks := by
      rw [totalBlocks_initPmm]
      decide
    have hfree := (free_initPmm hlt).mpr
      ⟨by decide, Or.inl ⟨shiftedRegion, List.mem_singleton_self _, by decide, by decide, by decide⟩⟩
    -- the first byte of the block is in no region
    obtain ⟨⟨e, he, -, hbase, -⟩, -⟩ := (honly 8192 hlt hfree).2 0x2000000 (by decide) (by decide)
    rw [List.mem_singleton.mp he] at hbase
    exact absurd hbase (by decide)

/-! ### Forgetting the past -/

/-- The status of every block is the same whichever of the two contents the bitmap's memory had. -/
def SameStatus (ram ram' : Bitmap) (entries : List MemoryMapEntry) : Prop :=
  ∀ i, i < (maxAddr entries).toNat / blockSize →
    testBit (initPmm ram entries).bitmap i = testBit (initPmm ram' entries).bitmap i

/-- The block keeps the bit that was in memory. -/
def KeepsBit (entries : List MemoryMapEntry) (i : ℕ) : Prop :=
  InTail entries i ∧ reservedBlocks ≤ i ∧ ¬ Usable entries i

theorem testBit_initPmm_of_keepsBit (h : KeepsBit entries i) :
    testBit (initPmm ram entries).bitmap i = testBit ram i := by
  obtain ⟨⟨htail, -⟩, hreserved, husable⟩ := h
  rw [Bool.eq_iff_iff, testBit_initPmm]
  constructor
  · rintro (hlt | ⟨-, hlt | hbit⟩)
    · omega
    · omega
    · exact hbit
  · exact fun hbit => Or.inr ⟨husable, Or.inr hbit⟩

theorem testBit_initPmm_of_not_keepsBit (hi : i < (maxAddr entries).toNat / blockSize)
    (h : ¬ KeepsBit entries i) :
    testBit (initPmm ram entries).bitmap i = testBit (initPmm ram' entries).bitmap i := by
  rw [Bool.eq_iff_iff, testBit_initPmm, testBit_initPmm]
  by_cases hfilled : i < 8 * ((maxAddr entries).toNat / blockSize / 8)
  · simp only [hfilled, true_or]
  · have hcases : i < reservedBlocks ∨ Usable entries i := by
      by_contra hneither
      push Not at hneither
      exact h ⟨⟨not_lt.mp hfilled, hi⟩, hneither.1, hneither.2⟩
    tauto

/-- Two contents make no difference when they agree on the bits that are kept. -/
theorem sameStatus_iff (ram ram' : Bitmap) (entries : List MemoryMapEntry) :
    SameStatus ram ram' entries ↔ ∀ i, KeepsBit entries i → testBit ram i = testBit ram' i := by
  constructor
  · intro h i hi
    have hsame := h i hi.1.2
    rwa [testBit_initPmm_of_keepsBit hi, testBit_initPmm_of_keepsBit hi] at hsame
  · intro h i hlt
    by_cases hi : KeepsBit entries i
    · rw [testBit_initPmm_of_keepsBit hi, testBit_initPmm_of_keepsBit hi]
      exact h i hi
    · exact testBit_initPmm_of_not_keepsBit hlt hi

/-- A memory of zeros and one of ones tell a kept bit. -/
theorem not_sameStatus_of_keepsBit (h : KeepsBit entries i) :
    ¬ SameStatus (fun _ => 0#32) (fun _ => BitVec.allOnes 32) entries := by
  rw [sameStatus_iff]
  intro hsame
  have hbit := hsame i h
  rw [testBit_eq_getLsbD, testBit_eq_getLsbD, BitVec.getLsbD_zero, BitVec.getLsbD_allOnes,
    decide_eq_true (Nat.mod_lt i (by decide))] at hbit
  cases hbit

/-- **When `init_pmm` forgets the past**: for two contents, and for any two. -/
theorem init_forgets_iff (entries : List MemoryMapEntry) :
    (∀ ram ram', SameStatus ram ram' entries ↔
        ∀ i, KeepsBit entries i → testBit ram i = testBit ram' i) ∧
      ((∀ ram ram', SameStatus ram ram' entries) ↔
        ∀ i, InTail entries i → i < reservedBlocks ∨ Usable entries i) := by
  refine ⟨fun ram ram' => sameStatus_iff ram ram' entries, ?_, ?_⟩
  · intro h i htail
    by_contra hneither
    push Not at hneither
    exact not_sameStatus_of_keepsBit ⟨htail, hneither.1, hneither.2⟩ (h _ _)
  · intro h ram ram'
    rw [sameStatus_iff]
    rintro i ⟨htail, hreserved, husable⟩
    cases h i htail with
    | inl hlt => omega
    | inr hu => exact absurd hu husable

/-- A usable region that ends with a block but does not begin with one. -/
def unevenRegion : MemoryMapEntry := ⟨0x2000800, 0x4800, 1⟩

theorem uneven_region_remembers :
    ¬ SameStatus (fun _ => 0#32) (fun _ => BitVec.allOnes 32) [unevenRegion] := by
  apply not_sameStatus_of_keepsBit (i := 8196)
  refine ⟨⟨by decide, by decide⟩, by decide, ?_⟩
  rintro ⟨e, he, -, -, hend⟩
  rw [List.mem_singleton.mp he] at hend
  exact absurd hend (by decide)

end OsEojin.Pmm
