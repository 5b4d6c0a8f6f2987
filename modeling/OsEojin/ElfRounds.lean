import OsEojin.ElfImage
import OsEojin.TableBudget

/-!
# The rounds of the loader

The two loops of `elf_load_file` (`src/kernel/elf.c`) as one: over the pages of the segments, in the order of
the program headers.  Each round takes a block for its page and one for every table that is missing.

* `segmentsRead`: the headers the loader finds; `loadSegments`: those in the file;
* `elfRounds`, `elfHeaders_eq`: the loader as a run over rounds;
* `RoundsSucceed`: no round is refused a block;
* `roundsSucceed_iff`: this is a matter of the number of free blocks;
* `segmentsLoaded_eq`: while no block lies over the file, the headers are those in the file.
-/

namespace OsEojin.Exec

open OsEojin.Lib.ByteMemory OsEojin.Lib.Forests OsEojin.Pmm OsEojin.Vmm

/-- A round of the loader: a page of a segment. -/
structure Round where
  seg : Segment
  vaddr : ℕ

/-- The rounds of the loop over `n` pages from `vaddr` on. -/
def pageRounds (seg : Segment) : ℕ → ℕ → List Round
  | 0, _ => []
  | n + 1, vaddr => ⟨seg, vaddr⟩ :: pageRounds seg n (vaddr + pageSize)

/-- The rounds of a segment. -/
def Segment.rounds (seg : Segment) : List Round := pageRounds seg seg.pageCount seg.firstPage

/-- The rounds of several segments, one after the other. -/
def rounds (segs : List Segment) : List Round := segs.flatMap Segment.rounds

/-- The loader over a list of rounds. -/
def elfRounds (pml4 fileBuffer : ℕ) : List Round → VmState → Bool × VmState
  | [], s => (true, s)
  | r :: rest, s =>
    match elfPage s pml4 fileBuffer r.seg r.vaddr with
    | (false, s) => (false, s)
    | (true, s) => elfRounds pml4 fileBuffer rest s

/-- The segments that the loop over the headers loads, as it finds them in memory. -/
def segmentsRead (pml4 fileBuffer phdr : ℕ) : ℕ → ℕ → VmState → List Segment
  | 0, _, _ => []
  | fuel + 1, i, s =>
    if i < readLe s.mem (fileBuffer + 56) 2 then
      if readLe s.mem (phdrAddr phdr i) 4 = 1 then
        match elfSegment s pml4 fileBuffer (segmentAt s.mem (phdrAddr phdr i)) with
        | (false, _) => [segmentAt s.mem (phdrAddr phdr i)]
        | (true, s') => segmentAt s.mem (phdrAddr phdr i) :: segmentsRead pml4 fileBuffer phdr fuel (i + 1) s'
      else segmentsRead pml4 fileBuffer phdr fuel (i + 1) s
    else []

/-- The segments that `elf_load_file` loads. -/
def segmentsLoaded (s : VmState) (pml4 fileBuffer : ℕ) : List Segment :=
  segmentsRead pml4 fileBuffer (programHeaders s.mem fileBuffer) 65536 0 s

/-- The segments of the headers from `i` on, `n` of them. -/
def segmentsFrom (m : Memory) (phdr : ℕ) : ℕ → ℕ → List Segment
  | 0, _ => []
  | n + 1, i =>
    if readLe m (phdrAddr phdr i) 4 = 1 then segmentAt m (phdrAddr phdr i) :: segmentsFrom m phdr n (i + 1)
    else segmentsFrom m phdr n (i + 1)

/-- **The segments in the file.** -/
def loadSegments (m : Memory) (fileBuffer : ℕ) : List Segment :=
  segmentsFrom m (programHeaders m fileBuffer) (readLe m (fileBuffer + 56) 2) 0

/-! ### The loops -/

section Runs

variable {pml4 fileBuffer : ℕ}

theorem mem_pageRounds {seg : Segment} {n : ℕ} : ∀ {vaddr : ℕ} {r : Round},
    r ∈ pageRounds seg n vaddr ↔ r.seg = seg ∧ ∃ k, k < n ∧ r.vaddr = vaddr + 4096 * k := by
  induction n with
  | zero => simp [pageRounds]
  | succ n ih =>
    intro vaddr r
    rw [pageRounds, List.mem_cons, ih]
    constructor
    · rintro (rfl | ⟨hseg, k, hk, hr⟩)
      · exact ⟨rfl, 0, Nat.succ_pos n, rfl⟩
      · exact ⟨hseg, k + 1, Nat.succ_lt_succ hk, by rw [hr, pageSize]; omega⟩
    · rintro ⟨hseg, k, hk, hr⟩
      cases k with
      | zero =>
        left
        obtain ⟨seg', v⟩ := r
        obtain rfl : seg' = seg := hseg
        obtain rfl : v = vaddr := hr
        rfl
      | succ k => exact Or.inr ⟨hseg, k, Nat.lt_of_succ_lt_succ hk, by rw [hr, pageSize]; omega⟩

theorem mem_rounds {segs : List Segment} {r : Round} :
    r ∈ rounds segs ↔ r.seg ∈ segs ∧ ∃ k, k < r.seg.pageCount ∧ r.vaddr = r.seg.firstPage + 4096 * k := by
  rw [rounds, List.mem_flatMap]
  constructor
  · rintro ⟨seg, hseg, hr⟩
    obtain ⟨rfl, hk⟩ := mem_pageRounds.mp hr
    exact ⟨hseg, hk⟩
  · rintro ⟨hseg, hk⟩
    exact ⟨r.seg, hseg, mem_pageRounds.mpr ⟨rfl, hk⟩⟩

theorem rounds_cons (seg : Segment) (segs : List Segment) :
    rounds (seg :: segs) = seg.rounds ++ rounds segs := List.flatMap_cons

theorem elfRounds_cons {r : Round} {s : VmState} (rest : List Round)
    (hok : (elfPage s pml4 fileBuffer r.seg r.vaddr).1 = true) :
    elfRounds pml4 fileBuffer (r :: rest) s =
      elfRounds pml4 fileBuffer rest (elfPage s pml4 fileBuffer r.seg r.vaddr).2 := by
  rw [elfRounds]
  generalize elfPage s pml4 fileBuffer r.seg r.vaddr = d at hok ⊢
  obtain ⟨ok, s'⟩ := d
  obtain rfl : ok = true := hok
  rfl

theorem elfPage_of_elfRounds {r : Round} {rest : List Round} {s : VmState}
    (hok : (elfRounds pml4 fileBuffer (r :: rest) s).1 = true) :
    (elfPage s pml4 fileBuffer r.seg r.vaddr).1 = true := by
  rw [elfRounds] at hok
  generalize elfPage s pml4 fileBuffer r.seg r.vaddr = d at hok ⊢
  obtain ⟨ok, s'⟩ := d
  cases ok with
  | true => rfl
  | false => exact hok

theorem elfRounds_append (a b : List Round) (s : VmState) :
    elfRounds pml4 fileBuffer (a ++ b) s =
      if (elfRounds pml4 fileBuffer a s).1 then elfRounds pml4 fileBuffer b (elfRounds pml4 fileBuffer a s).2
      else (false, (elfRounds pml4 fileBuffer a s).2) := by
  induction a generalizing s with
  | nil => rfl
  | cons r a ih =>
    rw [List.cons_append, elfRounds, elfRounds]
    generalize elfPage s pml4 fileBuffer r.seg r.vaddr = d
    obtain ⟨ok, s'⟩ := d
    cases ok with
    | true => exact ih s'
    | false => rfl

theorem elfPages_eq (seg : Segment) (n vaddr : ℕ) (s : VmState) :
    elfPages pml4 fileBuffer seg n vaddr s = elfRounds pml4 fileBuffer (pageRounds seg n vaddr) s := by
  induction n generalizing vaddr s with
  | zero => rfl
  | succ n ih =>
    rw [elfPages, pageRounds, elfRounds]
    generalize elfPage s pml4 fileBuffer seg vaddr = d
    obtain ⟨ok, s'⟩ := d
    cases ok with
    | true => exact ih (vaddr + pageSize) s'
    | false => rfl

theorem elfSegment_eq_rounds (pml4 fileBuffer : ℕ) (seg : Segment) (s : VmState) :
    elfSegment s pml4 fileBuffer seg = elfRounds pml4 fileBuffer seg.rounds s :=
  elfPages_eq seg seg.pageCount seg.firstPage s

/-- **The loop over the headers is one over rounds.** -/
theorem elfHeaders_eq (phdr fuel i : ℕ) (s : VmState) :
    elfHeaders pml4 fileBuffer phdr fuel i s =
      elfRounds pml4 fileBuffer (rounds (segmentsRead pml4 fileBuffer phdr fuel i s)) s := by
  induction fuel generalizing i s with
  | zero => rfl
  | succ fuel ih =>
    rw [elfHeaders, segmentsRead]
    split_ifs with hcount hload
    · have hloaded := elfSegment_eq_rounds pml4 fileBuffer (segmentAt s.mem (phdrAddr phdr i)) s
      generalize elfSegment s pml4 fileBuffer (segmentAt s.mem (phdrAddr phdr i)) = d at hloaded
      obtain ⟨ok, s'⟩ := d
      cases ok with
      | true =>
        dsimp only
        rw [rounds_cons, elfRounds_append, ← hloaded]
        exact ih (i + 1) s'
      | false =>
        dsimp only
        rw [rounds_cons, elfRounds_append, ← hloaded]
        rfl
    · exact ih (i + 1) s
    · rfl

/-- **A loaded file**: all the rounds of its segments were made. -/
theorem elfLoadFile_eq (s : VmState) (hok : (elfLoadFile s pml4 fileBuffer).1 ≠ 0) :
    elfRounds pml4 fileBuffer (rounds (segmentsLoaded s pml4 fileBuffer)) s =
      (true, (elfLoadFile s pml4 fileBuffer).2) := by
  rw [segmentsLoaded, ← elfHeaders_eq, programHeaders]
  rw [elfLoadFile] at hok ⊢
  split_ifs at hok ⊢ with hsupported
  · generalize elfHeaders pml4 fileBuffer _ 65536 0 s = d at hok
    obtain ⟨ok, s'⟩ := d
    cases ok with
    | true => rfl
    | false => exact absurd rfl hok
  · exact absurd rfl hok

end Runs

/-! ### Rounds that are refused no block -/

/-- No round is refused a block, neither for its page nor for a table. -/
def RoundsSucceed (pml4 fileBuffer : ℕ) : List Round → VmState → Prop
  | [], _ => True
  | r :: rest, s =>
    (pmmAllocBlock s.pmm).1 ≠ 0 ∧ ¬ AllocFails { s with pmm := (pmmAllocBlock s.pmm).2 } pml4 r.vaddr ∧
      RoundsSucceed pml4 fileBuffer rest (elfPage s pml4 fileBuffer r.seg r.vaddr).2

/-- The ways to the tables of the pages. -/
def roundWays : List Round → Finset (List (Fin 512))
  | [] => ∅
  | r :: rest => ways r.vaddr ∪ roundWays rest

/-- **The blocks that the rounds take**: one for each page, and one for each table that is missing. -/
def blocksNeeded (s : VmState) (pml4 : ℕ) (rs : List Round) : ℕ :=
  rs.length + (absentTables s.mem pml4 (roundWays rs)).card

/-- A page takes at most three tables. -/
theorem blocksNeeded_le (s : VmState) (pml4 : ℕ) (rs : List Round) : blocksNeeded s pml4 rs ≤ 4 * rs.length := by
  have hways : ∀ rs : List Round, (roundWays rs).card ≤ 3 * rs.length := by
    intro rs
    induction rs with
    | nil => exact Nat.le_refl 0
    | cons r rs ih =>
      have hone : (ways r.vaddr).card ≤ 3 := Finset.card_le_three
      have hunion := Finset.card_union_le (ways r.vaddr) (roundWays rs)
      rw [roundWays, List.length_cons]
      omega
  have habsent : (absentTables s.mem pml4 (roundWays rs)).card ≤ (roundWays rs).card :=
    Finset.card_le_card (Finset.filter_subset _ _)
  have := hways rs
  rw [blocksNeeded]
  omega

theorem mem_roundWays {rs : List Round} {q : List (Fin 512)} :
    q ∈ roundWays rs ↔ ∃ r ∈ rs, q ∈ ways r.vaddr := by
  induction rs with
  | nil => simp [roundWays]
  | cons r rs ih => simp [roundWays, ih]

theorem length_of_mem_roundWays {rs : List Round} {q : List (Fin 512)} (h : q ∈ roundWays rs) : q.length ≤ 3 := by
  obtain ⟨r, -, hq⟩ := mem_roundWays.mp h
  exact length_of_mem_ways hq

/-- The block of a page is never the null block, which then is not free. -/
theorem zero_used {p : PmmState} (h0 : (pmmAllocBlock p).1 ≠ 0) : testBit p.bitmap 0 = true := by
  obtain ⟨i, haddr, -, -, hbelow, -⟩ := pmmAllocBlock_fresh p h0
  apply hbelow
  apply Nat.pos_of_ne_zero
  rintro rfl
  exact h0 (by rw [haddr, Nat.zero_mul])

theorem RoundsSucceed.ok {pml4 fileBuffer : ℕ} {rs : List Round} : ∀ {s : VmState},
    RoundsSucceed pml4 fileBuffer rs s → (elfRounds pml4 fileBuffer rs s).1 = true := by
  induction rs with
  | nil => exact fun _ => rfl
  | cons r rs ih =>
    rintro s ⟨h0, -, hrest⟩
    rw [elfRounds_cons rs (by rw [elfPage_eq h0])]
    exact ih hrest

section Rounds

variable {pml4 fileBuffer : ℕ} {image : List UInt8} {s₀ s : VmState}
  (hclear : ∀ p, Clear pml4 fileBuffer image s₀ p)
include hclear

section Page

variable {seg : Segment} {vaddr : ℕ} (h : Loading pml4 fileBuffer image s₀ s) (h0 : (pmmAllocBlock s.pmm).1 ≠ 0)
include h h0

/-- Filling the block leaves the ways to the tables alone. -/
theorem reach_elfPage {q : List (Fin 512)} (hq : q.length ≤ 3) :
    reach (next (elfPage s pml4 fileBuffer seg vaddr).2.mem) pml4 q =
      reach (next (mapBlock s pml4 vaddr).mem) pml4 q :=
  reach_transfer (s := mapBlock s pml4 vaddr) (fun _ _ ht => h.entry_fillBlock h0 (hclear _) ht)
    (show (fun r => r = pml4) pml4 from rfl) hq

/-- A table stays. -/
theorem reach_elfPage_old {q : List (Fin 512)} (hq : q.length ≤ 3) (hold : reach (next s.mem) pml4 q ≠ none) :
    reach (next (elfPage s pml4 fileBuffer seg vaddr).2.mem) pml4 q ≠ none := by
  rw [reach_elfPage hclear h h0 hq]
  exact reach_vmmMapPage_old h.forest_alloc (h.lowBlocks (hclear _)) _ _ hq hold

theorem reach_elfPage_mapped
    (htables : ¬ AllocFails { s with pmm := (pmmAllocBlock s.pmm).2 } pml4 vaddr) :
    reach (next (elfPage s pml4 fileBuffer seg vaddr).2.mem) pml4 (dirs vaddr) ≠ none := by
  rw [reach_elfPage hclear h h0 (le_of_eq (dirs_length vaddr))]
  exact reach_vmmMapPage_mapped h.forest_alloc (h.lowBlocks (hclear _)) _ _ htables

variable (seg)

/-- **One round**: its page and its new tables take a block each. -/
theorem elfPage_budget {X : Finset (List (Fin 512))} (hX : ∀ q ∈ X, q.length ≤ 3) (hways : ways vaddr ⊆ X) :
    (freeBlocks s.pmm).card + (absentTables (elfPage s pml4 fileBuffer seg vaddr).2.mem pml4 X).card =
      (freeBlocks (elfPage s pml4 fileBuffer seg vaddr).2.pmm).card + (absentTables s.mem pml4 X).card + 1 := by
  have hblock := freeBlocks_card_alloc h0
  have hmap := vmmMapPage_budget h.forest_alloc (h.lowBlocks (hclear _)) (pmmAllocBlock s.pmm).1 pagingFlagsAll
    (used_mono _ (zero_used h0)) hX hways
  rw [elfPage_pmm h0, absentTables_congr fun q hq => reach_elfPage hclear h h0 (hX q hq)]
  rw [mapBlock]
  dsimp only at hmap
  omega

/-- **A refused round** finds no block left, and leaves no table for its page. -/
theorem elfPage_refused (hfails : AllocFails { s with pmm := (pmmAllocBlock s.pmm).2 } pml4 vaddr) :
    freeBlocks (elfPage s pml4 fileBuffer seg vaddr).2.pmm = ∅ ∧
      reach (next (elfPage s pml4 fileBuffer seg vaddr).2.mem) pml4 (dirs vaddr) = none := by
  rw [elfPage_pmm h0, reach_elfPage hclear h h0 (le_of_eq (dirs_length vaddr))]
  exact vmmMapPage_refused h.forest_alloc (h.lowBlocks (hclear _)) _ _ (used_mono _ (zero_used h0)) hfails

end Page

/-- The state after any rounds. -/
theorem loading_elfRounds {rs : List Round} : ∀ {s : VmState}, Loading pml4 fileBuffer image s₀ s →
    (elfRounds pml4 fileBuffer rs s).1 = true →
    Loading pml4 fileBuffer image s₀ (elfRounds pml4 fileBuffer rs s).2 := by
  induction rs with
  | nil => exact fun h _ => h
  | cons r rs ih =>
    intro s h hok
    have hpage := elfPage_of_elfRounds hok
    rw [elfRounds_cons rs hpage] at hok ⊢
    exact ih (loading_elfPage h hpage (hclear _)) hok

/-- A table stays over any rounds. -/
theorem reach_elfRounds_old {q : List (Fin 512)} (hq : q.length ≤ 3) {rs : List Round} : ∀ {s : VmState},
    Loading pml4 fileBuffer image s₀ s → (elfRounds pml4 fileBuffer rs s).1 = true →
    reach (next s.mem) pml4 q ≠ none →
    reach (next (elfRounds pml4 fileBuffer rs s).2.mem) pml4 q ≠ none := by
  induction rs with
  | nil => exact fun _ _ hold => hold
  | cons r rs ih =>
    intro s h hok hold
    have hpage := elfPage_of_elfRounds hok
    rw [elfRounds_cons rs hpage] at hok ⊢
    exact ih (loading_elfPage h hpage (hclear _)) hok
      (reach_elfPage_old hclear h (block_of_elfPage hpage) hq hold)

/-- **All rounds**: their pages and their new tables take a block each. -/
theorem elfRounds_budget {X : Finset (List (Fin 512))} (hX : ∀ q ∈ X, q.length ≤ 3) {rs : List Round} :
    ∀ {s : VmState}, Loading pml4 fileBuffer image s₀ s → (elfRounds pml4 fileBuffer rs s).1 = true →
    roundWays rs ⊆ X →
    (freeBlocks s.pmm).card + (absentTables (elfRounds pml4 fileBuffer rs s).2.mem pml4 X).card =
      (freeBlocks (elfRounds pml4 fileBuffer rs s).2.pmm).card + (absentTables s.mem pml4 X).card +
        rs.length := by
  induction rs with
  | nil => exact fun _ _ _ => rfl
  | cons r rs ih =>
    intro s h hok hways
    have hpage := elfPage_of_elfRounds hok
    rw [elfRounds_cons rs hpage] at hok ⊢
    have hone := elfPage_budget hclear r.seg h (block_of_elfPage hpage) hX
      (Finset.Subset.trans Finset.subset_union_left hways)
    have hrest := ih (loading_elfPage h hpage (hclear _)) hok
      (Finset.Subset.trans Finset.subset_union_right hways)
    rw [List.length_cons]
    omega

/-- Rounds that succeed leave no table missing. -/
theorem RoundsSucceed.reach {rs : List Round} : ∀ {s : VmState}, RoundsSucceed pml4 fileBuffer rs s →
    Loading pml4 fileBuffer image s₀ s → ∀ q ∈ roundWays rs,
    reach (next (elfRounds pml4 fileBuffer rs s).2.mem) pml4 q ≠ none := by
  induction rs with
  | nil =>
    intro s _ _ q hq
    cases hq
  | cons r rs ih =>
    rintro s ⟨h0, htables, hrest⟩ h q hq
    have hpage : (elfPage s pml4 fileBuffer r.seg r.vaddr).1 = true := by rw [elfPage_eq h0]
    have hnext := loading_elfPage h hpage (hclear _)
    rw [elfRounds_cons rs hpage]
    cases Finset.mem_union.mp hq with
    | inl hfirst =>
      apply reach_elfRounds_old hclear (length_of_mem_ways hfirst) hnext hrest.ok
      exact reach_of_mem_ways hfirst (reach_elfPage_mapped hclear h h0 htables)
    | inr hlater => exact ih hrest hnext q hlater

/-- **With enough blocks no round is refused one.** -/
theorem roundsSucceed_of_free {X : Finset (List (Fin 512))} (hX : ∀ q ∈ X, q.length ≤ 3) {rs : List Round} :
    ∀ {s : VmState}, Loading pml4 fileBuffer image s₀ s → testBit s.pmm.bitmap 0 = true → roundWays rs ⊆ X →
    rs.length + (absentTables s.mem pml4 X).card ≤ (freeBlocks s.pmm).card →
    RoundsSucceed pml4 fileBuffer rs s := by
  induction rs with
  | nil => exact fun _ _ _ _ => trivial
  | cons r rs ih =>
    intro s h hzero hways hfree
    rw [List.length_cons] at hfree
    have h0 : (pmmAllocBlock s.pmm).1 ≠ 0 := pmmAllocBlock_ne_zero hzero (by omega)
    have hpage : (elfPage s pml4 fileBuffer r.seg r.vaddr).1 = true := by rw [elfPage_eq h0]
    have hfirst : ways r.vaddr ⊆ X := Finset.Subset.trans Finset.subset_union_left hways
    have hcount := elfPage_budget hclear r.seg h h0 hX hfirst
    refine ⟨h0, ?_, ?_⟩
    · -- a refused page would be missing its table, with all the blocks gone
      intro hfails
      obtain ⟨hempty, hnone⟩ := elfPage_refused hclear r.seg h h0 hfails
      have hmissing : dirs r.vaddr ∈
          absentTables (elfPage s pml4 fileBuffer r.seg r.vaddr).2.mem pml4 X :=
        mem_absentTables.mpr ⟨hfirst (mem_ways.mpr ⟨List.cons_ne_nil _ _, List.prefix_rfl⟩), hnone⟩
      have hpos := Finset.card_pos.mpr ⟨_, hmissing⟩
      rw [hempty, Finset.card_empty] at hcount
      omega
    · apply ih (loading_elfPage h hpage (hclear _)) ?_ (Finset.Subset.trans Finset.subset_union_right hways)
      · omega
      · exact (allocates_elfPage s pml4 fileBuffer r.seg r.vaddr).later.used 0 hzero

/-- **A matter of free blocks.** -/
theorem roundsSucceed_iff (h : Loading pml4 fileBuffer image s₀ s) (hzero : testBit s.pmm.bitmap 0 = true)
    (rs : List Round) :
    RoundsSucceed pml4 fileBuffer rs s ↔ blocksNeeded s pml4 rs ≤ (freeBlocks s.pmm).card := by
  have hlen : ∀ q ∈ roundWays rs, q.length ≤ 3 := fun _ => length_of_mem_roundWays
  constructor
  · intro hsucceed
    have hcount := elfRounds_budget hclear hlen h hsucceed.ok (Finset.Subset.refl _)
    have hnone : absentTables (elfRounds pml4 fileBuffer rs s).2.mem pml4 (roundWays rs) = ∅ :=
      Finset.filter_eq_empty_iff.mpr fun q hq => hsucceed.reach hclear h q hq
    rw [hnone, Finset.card_empty] at hcount
    rw [blocksNeeded]
    omega
  · exact roundsSucceed_of_free hclear hlen h hzero (Finset.Subset.refl _)

/-- **Only the last round can be refused a table**: the next one would have no block for its page. -/
theorem refused_last {rs : List Round} : ∀ {s : VmState}, Loading pml4 fileBuffer image s₀ s →
    (elfRounds pml4 fileBuffer rs s).1 = true → ¬ RoundsSucceed pml4 fileBuffer rs s →
    ∃ before r, rs = before ++ [r] ∧ RoundsSucceed pml4 fileBuffer before s ∧
      reach (next (elfRounds pml4 fileBuffer rs s).2.mem) pml4 (dirs r.vaddr) = none := by
  induction rs with
  | nil => exact fun _ _ hrefused => absurd trivial hrefused
  | cons r rs ih =>
    intro s h hok hrefused
    have hpage := elfPage_of_elfRounds hok
    have h0 := block_of_elfPage hpage
    have hnext := loading_elfPage h hpage (hclear _)
    rw [elfRounds_cons rs hpage] at hok ⊢
    by_cases hfails : AllocFails { s with pmm := (pmmAllocBlock s.pmm).2 } pml4 r.vaddr
    · obtain ⟨hempty, hnone⟩ := elfPage_refused hclear r.seg h h0 hfails
      cases rs with
      | nil => exact ⟨[], r, rfl, trivial, hnone⟩
      | cons r' rs =>
        have hblock := freeBlocks_card_alloc (block_of_elfPage (elfPage_of_elfRounds hok))
        rw [hempty, Finset.card_empty] at hblock
        omega
    · obtain ⟨before, last, rfl, hsucceed, hnone⟩ := ih hnext hok fun hrest => hrefused ⟨h0, hfails, hrest⟩
      exact ⟨r :: before, last, rfl, ⟨h0, hfails, hsucceed⟩, hnone⟩

end Rounds

/-! ### The headers in the file -/

/-- The ELF header and the program headers are bytes of the file. -/
structure HeadersIn (m : Memory) (fileBuffer : ℕ) (image : List UInt8) : Prop where
  file : 64 ≤ image.length
  table : ∀ i, i < readLe m (fileBuffer + 56) 2 →
    fileBuffer ≤ phdrAddr (programHeaders m fileBuffer) i ∧
      phdrAddr (programHeaders m fileBuffer) i + 56 ≤ fileBuffer + image.length

section File

variable {pml4 fileBuffer : ℕ} {image : List UInt8} {s₀ s : VmState}

/-- A number in the file is read as it was at first. -/
theorem Loading.readLe (h : Loading pml4 fileBuffer image s₀ s) {a n : ℕ} (ha : fileBuffer ≤ a)
    (hn : a + n ≤ fileBuffer + image.length) : readLe s.mem a n = readLe s₀.mem a n :=
  readLe_congr fun x hx hx' => h.file x ⟨by omega, by omega⟩

theorem Loading.segmentAt (h : Loading pml4 fileBuffer image s₀ s) {a : ℕ} (ha : fileBuffer ≤ a)
    (hn : a + 56 ≤ fileBuffer + image.length) : segmentAt s.mem a = segmentAt s₀.mem a := by
  rw [Exec.segmentAt, Exec.segmentAt, h.readLe (by omega) (by omega), h.readLe (by omega) (by omega),
    h.readLe (by omega) (by omega), h.readLe (by omega) (by omega)]

variable (hclear : ∀ p, Clear pml4 fileBuffer image s₀ p) (hheaders : HeadersIn s₀.mem fileBuffer image)
include hclear hheaders

/-- **The loop over the headers finds those in the file.** -/
theorem segmentsRead_eq (n : ℕ) : ∀ {fuel i : ℕ} {s : VmState}, Loading pml4 fileBuffer image s₀ s →
    i + n = Lib.ByteMemory.readLe s₀.mem (fileBuffer + 56) 2 → n ≤ fuel →
    (elfRounds pml4 fileBuffer (rounds (segmentsFrom s₀.mem (programHeaders s₀.mem fileBuffer) n i)) s).1 = true →
    segmentsRead pml4 fileBuffer (programHeaders s₀.mem fileBuffer) fuel i s =
      segmentsFrom s₀.mem (programHeaders s₀.mem fileBuffer) n i := by
  induction n with
  | zero =>
    intro fuel i s h hi _ _
    have hlen := hheaders.file
    cases fuel with
    | zero => rfl
    | succ fuel =>
      rw [segmentsRead, h.readLe (by omega) (by omega), if_neg (by omega)]
      rfl
  | succ n ih =>
    intro fuel i s h hi hfuel hok
    obtain ⟨fuel, rfl⟩ := Nat.exists_eq_succ_of_ne_zero (n := fuel) (by omega)
    have hlen := hheaders.file
    obtain ⟨hfirst, hlast⟩ := hheaders.table i (by omega)
    rw [segmentsFrom] at hok ⊢
    rw [segmentsRead, h.readLe (by omega) (by omega), if_pos (by omega), h.readLe hfirst (by omega),
      h.segmentAt hfirst hlast]
    split_ifs at hok ⊢ with hload
    · rw [rounds_cons, elfRounds_append, ← elfSegment_eq_rounds] at hok
      generalize hloaded : elfSegment s pml4 fileBuffer
        (Exec.segmentAt s₀.mem (phdrAddr (programHeaders s₀.mem fileBuffer) i)) = d at hok
      obtain ⟨ok, s'⟩ := d
      cases ok with
      | false => exact absurd hok Bool.false_ne_true
      | true =>
        have hs' : Loading pml4 fileBuffer image s₀ s' := by
          rw [elfSegment_eq_rounds] at hloaded
          have hafter := loading_elfRounds hclear h (by rw [hloaded])
          rw [hloaded] at hafter
          exact hafter
        dsimp only
        rw [ih hs' (by omega) (by omega) hok]
    · exact ih h (by omega) (by omega) hok

end File

section Loaded

variable {pml4 fileBuffer : ℕ} {image : List UInt8} {s : VmState} (htree : TreeOk s pml4)
  (hclear : ∀ p, Clear pml4 fileBuffer image s p) (hheaders : HeadersIn s.mem fileBuffer image)
  (hok : (elfRounds pml4 fileBuffer (rounds (loadSegments s.mem fileBuffer)) s).1 = true)
include htree hclear hheaders hok

theorem segmentsLoaded_eq : segmentsLoaded s pml4 fileBuffer = loadSegments s.mem fileBuffer := by
  have hcount := readLe_lt s.mem (fileBuffer + 56) 2
  exact segmentsRead_eq hclear hheaders _ (loading_start htree fileBuffer image) (Nat.zero_add _) (by omega) hok

/-- **A file whose rounds are all made is loaded**, and its entry point is returned. -/
theorem elfLoadFile_of_rounds (hsupported : elfCheckSupported s.mem fileBuffer = true) :
    elfLoadFile s pml4 fileBuffer = (readLe s.mem (fileBuffer + 24) 8,
      (elfRounds pml4 fileBuffer (rounds (loadSegments s.mem fileBuffer)) s).2) := by
  have hlen := hheaders.file
  have hstart := loading_start htree fileBuffer image
  have hentry := (loading_elfRounds hclear hstart hok).readLe (a := fileBuffer + 24) (n := 8) (by omega) (by omega)
  have hread : segmentsRead pml4 fileBuffer (programHeaders s.mem fileBuffer) 65536 0 s =
      loadSegments s.mem fileBuffer := segmentsLoaded_eq htree hclear hheaders hok
  rw [elfLoadFile, if_pos hsupported, elfHeaders_eq]
  rw [programHeaders] at hread
  rw [hread]
  generalize elfRounds pml4 fileBuffer (rounds (loadSegments s.mem fileBuffer)) s = d at hok hentry
  obtain ⟨ok, s'⟩ := d
  obtain rfl : ok = true := hok
  dsimp only at hentry ⊢
  rw [hentry]

end Loaded

end OsEojin.Exec
