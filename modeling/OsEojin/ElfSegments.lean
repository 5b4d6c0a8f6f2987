import OsEojin.ElfMapped

/-!
# Segments that share a page

`elf_load_file` (`src/kernel/elf.c`) rounds every segment out to whole pages and takes a new block for each of
them.  Where a page was mapped before, `vmm_map_page` puts the new block in the place of the old one, so a
segment that ends in the page in which the next one starts loses its bytes there: what the program finds is
the page of the later segment, with zeros around it.

* `byteOf`: the byte of a segment; `Seen`: what is found through the PML4;
* `Round.Spares`: a later round that puts the same bytes where an earlier one has put them; `spares_iff`: for
  segments without a common byte these are zeros;
* `seen_last`: the last round at a page decides;
* `rounds_kept_iff`, `segments_kept_iff`: when the bytes of all segments are kept;
* `pairElf`: two segments of one byte, in one page or in two.
-/

namespace OsEojin.Exec

open OsEojin.Lib.ByteMemory OsEojin.Lib.Forests OsEojin.Pmm OsEojin.Vmm

/-- **The byte of a segment at `v`**: the byte of the file, and zero outside the file's part. -/
def byteOf (image : List UInt8) (seg : Segment) (v : ℕ) : UInt8 :=
  if seg.vaddrStart ≤ v ∧ v < seg.vaddrStart + seg.fileSize then
    image.getD (seg.fileOffset + (v - seg.vaddrStart)) 0
  else 0

/-- The byte `b` is found at `v` through the PML4. -/
def Seen (m : Memory) (pml4 v : ℕ) (b : UInt8) : Prop := ∃ x, translate m pml4 v = some x ∧ m x = b

theorem Seen.unique {m : Memory} {pml4 v : ℕ} {b b' : UInt8} (h : Seen m pml4 v b) (h' : Seen m pml4 v b') :
    b = b' := by
  obtain ⟨x, hx, rfl⟩ := h
  obtain ⟨x', hx', rfl⟩ := h'
  rw [hx] at hx'
  rw [Option.some.inj hx']

/-- `v` is an address of the segment. -/
def Segment.Occupies (seg : Segment) (v : ℕ) : Prop := seg.vaddrStart ≤ v ∧ v < seg.vaddrStart + seg.memSize

/-- `v` is an address of the segment in the page of the round. -/
def Round.Holds (r : Round) (v : ℕ) : Prop := (r.vaddr ≤ v ∧ v < r.vaddr + 4096) ∧ r.seg.Occupies v

/-- **The later round spares the earlier one**: where it comes to an address of the earlier one, it puts the
byte that is there already. -/
def Round.Spares (image : List UInt8) (r r' : Round) : Prop :=
  ∀ v, r.Holds v → SamePage v r'.vaddr → byteOf image r'.seg (r'.vaddr + v % 4096) = byteOf image r.seg v

/-- A segment that ends below `2^64`, with a file's part that is in the file. -/
structure Segment.InFile (image : List UInt8) (seg : Segment) : Prop where
  page : ¬ seg.Wraps
  data : seg.vaddrStart + seg.fileSize < 2 ^ 64
  file : seg.fileOffset + seg.fileSize ≤ image.length

/-- A round of such a segment, whose page ends below `2^64`. -/
structure Round.InFile (image : List UInt8) (r : Round) : Prop where
  seg : r.seg.InFile image
  aligned : r.vaddr % 4096 = 0
  page : r.vaddr + pageSize < 2 ^ 64

theorem inFile_of_mem {image : List UInt8} {segs : List Segment} (h : ∀ seg ∈ segs, seg.InFile image) :
    ∀ r ∈ rounds segs, r.InFile image := by
  intro r hr
  obtain ⟨hseg, k, hk, hvaddr⟩ := mem_rounds.mp hr
  have hpage := (h r.seg hseg).page
  rw [Segment.Wraps, Nat.not_le] at hpage
  unfold Segment.pageCount Segment.firstPage pageSize at hk
  unfold Segment.firstPage pageSize at hvaddr
  refine ⟨h r.seg hseg, ?_, ?_⟩
  · omega
  · unfold pageSize
    omega

theorem byteOf_eq {image : List UInt8} {seg : Segment} (h : seg.InFile image) {v : ℕ} {b : UInt8}
    (hb : SegmentByte image seg v b) : b = byteOf image seg v := by
  have hfile := h.file
  rw [byteOf]
  split_ifs with hdata
  · exact hb.1 hdata.1 hdata.2 (by omega)
  · exact hb.2 (by omega)

/-- Outside its file's part a segment puts zeros. -/
theorem byteOf_eq_zero {image : List UInt8} {seg : Segment} (hsize : seg.fileSize ≤ seg.memSize) {v : ℕ}
    (hv : ¬ seg.Occupies v) : byteOf image seg v = 0 := by
  rw [Segment.Occupies] at hv
  rw [byteOf, if_neg (by omega)]

/-- **Segments without a common byte**: the later round spares the earlier one if and only if that has only
zeros in the page of the later one. -/
theorem spares_iff {image : List UInt8} {r r' : Round} (hr : r.InFile image) (hr' : r'.InFile image)
    (hlow : r.vaddr + 4096 ≤ 2 ^ 48) (hlow' : r'.vaddr + 4096 ≤ 2 ^ 48)
    (hdisjoint : ∀ v, r.seg.Occupies v → ¬ r'.seg.Occupies v) (hsize : r'.seg.fileSize ≤ r'.seg.memSize) :
    r.Spares image r' ↔ ∀ v, r.Holds v → r.vaddr = r'.vaddr → byteOf image r.seg v = 0 := by
  have halign := hr.aligned
  have halign' := hr'.aligned
  constructor
  · intro hspares v hv hsame
    have hplace : r'.vaddr + v % 4096 = v := by
      have := hv.1
      omega
    have hbyte := hspares v hv (samePage_of_mem halign' (by omega) (by omega))
    rw [hplace, byteOf_eq_zero hsize (hdisjoint v hv.2)] at hbyte
    exact hbyte.symm
  · intro hzeros v hv hpage
    have hin := hv.1
    rw [SamePage] at hpage
    have hplace : r'.vaddr + v % 4096 = v := by omega
    rw [hplace, byteOf_eq_zero hsize (hdisjoint v hv.2), hzeros v hv (by omega)]

/-! ### The last round at a page -/

/-- Of the elements with a property one is the last. -/
theorem exists_last_mem {α : Type} {p : α → Prop} {l : List α} (h : ∃ x ∈ l, p x) :
    ∃ before x after, l = before ++ x :: after ∧ p x ∧ ∀ y ∈ after, ¬ p y := by
  induction l with
  | nil =>
    obtain ⟨x, hx, -⟩ := h
    cases hx
  | cons a l ih =>
    by_cases hlater : ∃ x ∈ l, p x
    · obtain ⟨before, x, after, rfl, hx, hafter⟩ := ih hlater
      exact ⟨a :: before, x, after, rfl, hx, hafter⟩
    · push Not at hlater
      obtain ⟨x, hmem, hx⟩ := h
      cases List.mem_cons.mp hmem with
      | inl heq => exact ⟨[], a, l, rfl, heq ▸ hx, hlater⟩
      | inr hin => exact absurd hx (hlater x hin)

/-- An address in the page of another one. -/
theorem samePage_offset {v p : ℕ} (halign : p % 4096 = 0) (hv : SamePage v p) : SamePage v (p + v % 4096) := by
  rw [SamePage] at hv ⊢
  omega

/-- Addresses with the same place in the same page are one. -/
theorem translate_samePage {m : Memory} {pml4 v v' : ℕ} (hsmall : Flagged NoHuge m (fun r => r = pml4))
    (hpage : SamePage v v') (hplace : v % 4096 = v' % 4096) : translate m pml4 v = translate m pml4 v' := by
  rw [translate_eq hsmall rfl, translate_eq hsmall rfl, pageEntry_samePage hpage]
  simp only [show (2 ^ 12 : ℕ) = 4096 from rfl, hplace]

theorem roundsSucceed_append {pml4 fileBuffer : ℕ} {a b : List Round} {s : VmState} :
    RoundsSucceed pml4 fileBuffer (a ++ b) s ↔
      RoundsSucceed pml4 fileBuffer a s ∧ RoundsSucceed pml4 fileBuffer b (elfRounds pml4 fileBuffer a s).2 := by
  induction a generalizing s with
  | nil => exact (and_iff_right trivial).symm
  | cons r a ih =>
    rw [List.cons_append, RoundsSucceed, RoundsSucceed, ih, and_assoc, and_assoc]
    refine and_congr_right fun h0 => and_congr_right fun _ => ?_
    rw [elfRounds_cons a (by rw [elfPage_eq h0])]

section Rounds

variable {pml4 fileBuffer : ℕ} {image : List UInt8} {s₀ s : VmState}
  (hclear : ∀ p, Clear pml4 fileBuffer image s₀ p)
include hclear

/-- A page stays in place until a round comes to it. -/
theorem pageIn_elfRounds {seg : Segment} {v : ℕ} {rs : List Round} : ∀ {s : VmState},
    Loading pml4 fileBuffer image s₀ s → RoundsSucceed pml4 fileBuffer rs s →
    (∀ r ∈ rs, ¬ SamePage v r.vaddr) → PageIn pml4 image seg s₀.pmm s.pmm s.mem v →
    PageIn pml4 image seg s₀.pmm (elfRounds pml4 fileBuffer rs s).2.pmm
      (elfRounds pml4 fileBuffer rs s).2.mem v := by
  induction rs with
  | nil => exact fun _ _ _ hpage => hpage
  | cons r rs ih =>
    rintro s h ⟨h0, htables, hrest⟩ hother hpage
    have hok : (elfPage s pml4 fileBuffer r.seg r.vaddr).1 = true := by rw [elfPage_eq h0]
    have hne : indices v ≠ indices r.vaddr :=
      fun hsame => hother r List.mem_cons_self ((indices_eq_iff v r.vaddr).mp hsame)
    rw [elfRounds_cons rs hok]
    exact ih (loading_elfPage h hok (hclear _)) hrest (fun r' hr' => hother r' (List.mem_cons_of_mem r hr'))
      (h.pageIn_old h0 htables (hclear _) hne hpage)

/-- **The last round at a page** is in place in the end. -/
theorem pageIn_last (hstaged : Staged s₀.mem fileBuffer image) (h : Loading pml4 fileBuffer image s₀ s)
    (before : List Round) (r : Round) (after : List Round)
    (hsucceed : RoundsSucceed pml4 fileBuffer (before ++ r :: after) s) (hr : r.InFile image) {v : ℕ}
    (hv : SamePage v r.vaddr) (hafter : ∀ r' ∈ after, ¬ SamePage v r'.vaddr) :
    PageIn pml4 image r.seg s₀.pmm (elfRounds pml4 fileBuffer (before ++ r :: after) s).2.pmm
      (elfRounds pml4 fileBuffer (before ++ r :: after) s).2.mem (r.vaddr + v % 4096) := by
  obtain ⟨hbefore, h0, htables, hrest⟩ := roundsSucceed_append.mp hsucceed
  have hloading := loading_elfRounds hclear h hbefore.ok
  have hpage : (elfPage (elfRounds pml4 fileBuffer before s).2 pml4 fileBuffer r.seg r.vaddr).1 = true := by
    rw [elfPage_eq h0]
  rw [elfRounds_append, if_pos hbefore.ok, elfRounds_cons after hpage]
  -- the page of the round is in place after it, and the others leave it alone
  apply pageIn_elfRounds hclear (loading_elfPage hloading hpage (hclear _)) hrest
  · intro r' hr' hcovers
    exact hafter r' hr' ((samePage_offset hr.aligned hv).trans hcovers)
  · exact hloading.pageIn_new h0 htables (hclear _) hstaged hr.aligned hr.seg.data hr.page (by omega)
      (by unfold pageSize; omega)

/-- **The last round at a page decides** what is found there. -/
theorem seen_last (hstaged : Staged s₀.mem fileBuffer image) (h : Loading pml4 fileBuffer image s₀ s)
    (before : List Round) (r : Round) (after : List Round)
    (hsucceed : RoundsSucceed pml4 fileBuffer (before ++ r :: after) s) (hr : r.InFile image) {v : ℕ}
    (hv : SamePage v r.vaddr) (hafter : ∀ r' ∈ after, ¬ SamePage v r'.vaddr) :
    Seen (elfRounds pml4 fileBuffer (before ++ r :: after) s).2.mem pml4 v
      (byteOf image r.seg (r.vaddr + v % 4096)) := by
  have hfinal := loading_elfRounds hclear h hsucceed.ok
  have hin := pageIn_last hclear hstaged h before r after hsucceed hr hv hafter
  have halign := hr.aligned
  obtain ⟨x, hx, hbyte⟩ := hin.seen hfinal.small (hclear _).low
  have hplace : v % 4096 = (r.vaddr + v % 4096) % 4096 := by omega
  refine ⟨x, ?_, byteOf_eq hr.seg hbyte⟩
  rw [translate_samePage hfinal.small (samePage_offset halign hv) hplace]
  exact hx

omit hclear in
/-- Among rounds that spare each other the last one at an address puts the byte of every other there. -/
theorem exists_last_round {rs : List Round} (hfile : ∀ r ∈ rs, r.InFile image)
    (hspares : rs.Pairwise (Round.Spares image)) {r : Round} (hr : r ∈ rs) {v : ℕ} (hv : r.Holds v) :
    ∃ before last after, rs = before ++ last :: after ∧ SamePage v last.vaddr ∧
      (∀ r' ∈ after, ¬ SamePage v r'.vaddr) ∧
      byteOf image last.seg (last.vaddr + v % 4096) = byteOf image r.seg v := by
  have halign := (hfile r hr).aligned
  have hown := samePage_of_mem halign hv.1.1 hv.1.2
  obtain ⟨before, last, after, rfl, hsame, hafter⟩ :=
    exists_last_mem (p := fun r => SamePage v r.vaddr) ⟨r, hr, hown⟩
  refine ⟨before, last, after, rfl, hsame, hafter, ?_⟩
  cases List.mem_append.mp hr with
  | inl hbefore => exact (List.pairwise_append.mp hspares).2.2 r hbefore last List.mem_cons_self v hv hsame
  | inr hrest =>
    cases List.mem_cons.mp hrest with
    | inl heq =>
      subst heq
      rw [show r.vaddr + v % 4096 = v from by have := hv.1; omega]
    | inr hlater => exact absurd hown (hafter r hlater)

/-- **When the bytes are kept**: after any part of the rounds, those of all its rounds are found if and only if
every round spares the ones before it. -/
theorem rounds_kept_iff (hstaged : Staged s₀.mem fileBuffer image) (h : Loading pml4 fileBuffer image s₀ s)
    (rs : List Round) (hsucceed : RoundsSucceed pml4 fileBuffer rs s) (hfile : ∀ r ∈ rs, r.InFile image) :
    (∀ done, done <+: rs → ∀ r ∈ done, ∀ v, r.Holds v →
        Seen (elfRounds pml4 fileBuffer done s).2.mem pml4 v (byteOf image r.seg v)) ↔
      rs.Pairwise (Round.Spares image) := by
  constructor
  · intro hkept
    induction rs using List.reverseRecOn with
    | nil => exact List.Pairwise.nil
    | append_singleton rs last ih =>
      have hpart := ih (roundsSucceed_append.mp hsucceed).1 (fun r hr => hfile r (List.mem_append_left _ hr))
        (fun done hdone => hkept done (hdone.trans (List.prefix_append rs [last])))
      refine List.pairwise_append.mpr ⟨hpart, List.pairwise_singleton _ _, ?_⟩
      intro r hr r' hr' v hv hsame
      obtain rfl := List.mem_singleton.mp hr'
      have hlast := hfile r' (List.mem_append_right rs (List.mem_singleton_self r'))
      have hnone : ∀ r ∈ ([] : List Round), ¬ SamePage v r.vaddr := fun _ hmem => absurd hmem List.not_mem_nil
      exact (seen_last hclear hstaged h rs r' [] hsucceed hlast hsame hnone).unique
        (hkept _ List.prefix_rfl r (List.mem_append_left _ hr) v hv)
  · intro hspares done hdone r hr v hv
    have hmem : ∀ r ∈ done, r ∈ rs := fun r hr => hdone.subset hr
    obtain ⟨before, last, after, rfl, hsame, hafter, hbyte⟩ :=
      exists_last_round (fun r hr => hfile r (hmem r hr)) (hspares.sublist hdone.sublist) hr hv
    have hlast := hfile last (hmem last (List.mem_append_right before List.mem_cons_self))
    have hpart : RoundsSucceed pml4 fileBuffer (before ++ last :: after) s := by
      obtain ⟨rest, rfl⟩ := hdone
      exact (roundsSucceed_append.mp hsucceed).1
    have hseen := seen_last hclear hstaged h before last after hpart hlast hsame hafter
    rw [hbyte] at hseen
    exact hseen

end Rounds

/-! ### The loaded file -/

/-- The file is in the buffer with all its headers, apart from the tables and the free blocks. -/
structure FileApart (s : VmState) (pml4 fileBuffer : ℕ) (image : List UInt8) : Prop where
  staged : Staged s.mem fileBuffer image
  headers : HeadersIn s.mem fileBuffer image
  tables : ∀ x, InImage fileBuffer image x → OffTables s.mem (fun r => r = pml4) x
  blocks : ∀ x, InImage fileBuffer image x → x / 4096 ∉ freeBlocks s.pmm

theorem FileApart.clear {s : VmState} {pml4 fileBuffer : ℕ} {image : List UInt8}
    (h : FileApart s pml4 fileBuffer image) (hblocks : Addressable s.pmm) (p : PmmState) :
    Clear pml4 fileBuffer image s p where
  low := (clear_of_addressable hblocks pml4 fileBuffer p).low
  tables := h.tables
  blocks := by
    rintro x hx ⟨a, ha, hax, hax'⟩
    obtain ⟨i, rfl, hi, hfree, -⟩ := ha.block
    rw [blockSize] at hax hax'
    apply h.blocks x hx
    rw [show x / 4096 = i from by omega]
    exact Finset.mem_filter.mpr ⟨Finset.mem_range.mpr hi, hfree⟩

/-- There are enough free blocks for the pages and their tables, and the null block is not one of them. -/
structure EnoughMemory (s : VmState) (pml4 fileBuffer : ℕ) : Prop where
  zero : testBit s.pmm.bitmap 0 = true
  free : blocksNeeded s pml4 (rounds (loadSegments s.mem fileBuffer)) ≤ (freeBlocks s.pmm).card

theorem EnoughMemory.succeed {s : VmState} {pml4 fileBuffer : ℕ} {image : List UInt8}
    (h : EnoughMemory s pml4 fileBuffer) (hclear : ∀ p, Clear pml4 fileBuffer image s p)
    (hstart : Loading pml4 fileBuffer image s s) :
    RoundsSucceed pml4 fileBuffer (rounds (loadSegments s.mem fileBuffer)) s :=
  (roundsSucceed_iff hclear hstart h.zero _).mpr h.free

/-- With enough memory a supported file is loaded, and the bytes of `Exec` are those of its segments. -/
theorem rounds_spared_iff {s : VmState} {pml4 fileBuffer : ℕ} {image : List UInt8} (htree : TreeOk s pml4)
    (hblocks : Addressable s.pmm) (hsupported : elfCheckSupported s.mem fileBuffer = true)
    (hfile : FileApart s pml4 fileBuffer image)
    (hsegs : ∀ seg ∈ loadSegments s.mem fileBuffer, seg.InFile image) (henough : EnoughMemory s pml4 fileBuffer) :
    ((∀ done, done <+: rounds (loadSegments s.mem fileBuffer) → ∀ r ∈ done, ∀ v, r.Holds v →
          Seen (elfRounds pml4 fileBuffer done s).2.mem pml4 v (byteOf image r.seg v)) ∧
        ∀ seg ∈ loadSegments s.mem fileBuffer, ∀ k, k < seg.memSize →
          Seen (elfLoadFile s pml4 fileBuffer).2.mem pml4 (seg.vaddrStart + k)
            (byteOf image seg (seg.vaddrStart + k))) ↔
      (rounds (loadSegments s.mem fileBuffer)).Pairwise (Round.Spares image) := by
  have hclear := hfile.clear hblocks
  have hstart := loading_start htree fileBuffer image
  have hsucceed := henough.succeed hclear hstart
  have hloaded := elfLoadFile_of_rounds htree hclear hfile.headers hsucceed.ok hsupported
  have hkept := rounds_kept_iff hclear hfile.staged hstart _ hsucceed (inFile_of_mem hsegs)
  rw [← hkept]
  refine and_iff_left_of_imp ?_
  intro hall seg hseg k hk
  obtain ⟨r, hr, rfl, -, hfirst, hlast⟩ := round_of_address hseg (hsegs seg hseg).page hk
  rw [hloaded]
  exact hall _ List.prefix_rfl r hr _ ⟨⟨hfirst, hlast⟩, by omega, by omega⟩

/-- Any part of the rounds of a load in place is that of `Exec`. -/
theorem elfRounds_inPlace {own : List ℕ} {root : ℕ → Prop} {s : VmState} {pml4 fileBuffer : ℕ}
    {image : List UInt8} (hplace : KernelMap.InPlace own root s pml4 fileBuffer)
    (hclear : ∀ p, Clear pml4 fileBuffer image s p) (hheaders : HeadersIn s.mem fileBuffer image)
    (hsupported : elfCheckSupported s.mem fileBuffer = true)
    (hsucceed : RoundsSucceed pml4 fileBuffer (rounds (loadSegments s.mem fileBuffer)) s)
    {done : List Round} (hdone : done <+: rounds (loadSegments s.mem fileBuffer)) :
    KernelMap.elfRounds own pml4 fileBuffer done s = some (true, (elfRounds pml4 fileBuffer done s).2) := by
  have htree := treeOk_of_tablesOk hplace.ok hplace.space
  have hsame := segmentsLoaded_eq htree hclear hheaders hsucceed.ok
  have hloaded := elfLoadFile_of_rounds htree hclear hheaders hsucceed.ok hsupported
  have hrounds := hplace.roundOk
  rw [hsame] at hrounds
  obtain ⟨rest, hrest⟩ := hdone
  rw [← hrest] at hsucceed hrounds
  have hok := (roundsSucceed_append.mp hsucceed).1.ok
  have hrun := hplace.steady.elfRounds hplace.space (fun _ => KernelMap.Uses.own)
    (fun r hr => hrounds r (List.mem_append_left rest hr)) (fun x hx => KernelMap.Uses.block ?_)
  · rw [hrun.1, ← hok]
  · rw [hloaded, ← hrest, elfRounds_append, if_pos hok]
    exact hx.mono (Allocates.refl _) (KernelMap.allocates_elfRounds pml4 fileBuffer rest _)

/-- **When the segments are kept.**  With enough memory a supported file is loaded in place; the bytes of all its
segments are found at every time from then on when they were put in their page, and all of them in the end, if
and only if no page of a later segment puts another byte at an address of an earlier one. -/
theorem segments_kept_iff {own : List ℕ} {root : ℕ → Prop} {s : VmState} {pml4 fileBuffer : ℕ}
    {image : List UInt8} (hplace : KernelMap.InPlace own root s pml4 fileBuffer)
    (hsupported : elfCheckSupported s.mem fileBuffer = true) (hfile : FileApart s pml4 fileBuffer image)
    (hsegs : ∀ seg ∈ loadSegments s.mem fileBuffer, seg.InFile image) (henough : EnoughMemory s pml4 fileBuffer) :
    ((∀ done, done <+: rounds (loadSegments s.mem fileBuffer) →
          ∃ s', KernelMap.elfRounds own pml4 fileBuffer done s = some (true, s') ∧
            ∀ r ∈ done, ∀ v, r.Holds v → Seen s'.mem pml4 v (byteOf image r.seg v)) ∧
        ∃ e s', KernelMap.elfLoadFile own s pml4 fileBuffer = some (e, s') ∧
          ∀ seg ∈ loadSegments s.mem fileBuffer, ∀ k, k < seg.memSize →
            Seen s'.mem pml4 (seg.vaddrStart + k) (byteOf image seg (seg.vaddrStart + k))) ↔
      (rounds (loadSegments s.mem fileBuffer)).Pairwise (Round.Spares image) := by
  have htree := treeOk_of_tablesOk hplace.ok hplace.space
  have hblocks := addressable_of_tablesOk hplace.ok
  have hclear := hfile.clear hblocks
  have hsucceed := henough.succeed hclear (loading_start htree fileBuffer image)
  rw [← rounds_spared_iff htree hblocks hsupported hfile hsegs henough]
  refine and_congr (forall_congr' fun done => imp_congr_right fun hdone => ?_) ?_
  · rw [elfRounds_inPlace hplace hclear hfile.headers hsupported hsucceed hdone]
    constructor
    · rintro ⟨s', hrun, hseen⟩
      obtain rfl := congrArg Prod.snd (Option.some.inj hrun)
      exact hseen
    · exact fun hseen => ⟨_, rfl, hseen⟩
  · rw [hplace.elfLoadFile]
    constructor
    · rintro ⟨e, s', hload, hseen⟩
      rw [Option.some.inj hload]
      exact hseen
    · exact fun hseen => ⟨_, _, rfl, hseen⟩

/-! ### Two segments of one byte -/

/-- The ELF header of a file with two program headers behind it. -/
def pairHeader : List UInt8 :=
  [0x7F, 69, 76, 70, 2, 1, 1, 0, 0, 0, 0, 0, 0, 0, 0, 0, 2, 0, 62, 0, 1, 0, 0, 0, 0x00, 0x00, 0, 0, 0x80, 0, 0, 0,
    64, 0, 0, 0, 0, 0, 0, 0, 0, 0, 0, 0, 0, 0, 0, 0, 0, 0, 0, 0, 64, 0, 56, 0, 2, 0, 0, 0, 0, 0, 0, 0]

/-- The program headers: one byte at `0x8000000000`, one at `256 * b` behind it. -/
def pairTable (b : UInt8) : List UInt8 :=
  [1, 0, 0, 0, 7, 0, 0, 0, 176, 0, 0, 0, 0, 0, 0, 0, 0x00, 0x00, 0, 0, 0x80, 0, 0, 0, 0, 0, 0, 0, 0, 0, 0, 0,
    1, 0, 0, 0, 0, 0, 0, 0, 1, 0, 0, 0, 0, 0, 0, 0, 0, 16, 0, 0, 0, 0, 0, 0,
    1, 0, 0, 0, 7, 0, 0, 0, 177, 0, 0, 0, 0, 0, 0, 0, 0x00, b, 0, 0, 0x80, 0, 0, 0, 0, 0, 0, 0, 0, 0, 0, 0,
    1, 0, 0, 0, 0, 0, 0, 0, 1, 0, 0, 0, 0, 0, 0, 0, 0, 16, 0, 0, 0, 0, 0, 0]

/-- **An ELF file with two segments of one byte**, in one page (`b = 8`) or in two (`b = 16`). -/
def pairElf (b : UInt8) : List UInt8 := pairHeader ++ pairTable b ++ [0x41, 0x42]

def earlySegment : Segment := ⟨0x8000000000, 1, 1, 176⟩

def lateSegment (b : UInt8) : Segment := ⟨0x8000000000 + 256 * b.toNat, 1, 1, 177⟩

theorem length_pairElf (b : UInt8) : (pairElf b).length = 178 := by
  rw [pairElf, List.length_append, List.length_append]
  rfl

/-- The page of the second segment. -/
def latePage (b : UInt8) : ℕ := 0x8000000000 + b.toNat / 16 * 4096

section Pair

variable {b : UInt8} (hb : b = 8 ∨ b = 16)
include hb

theorem rounds_pairElf :
    rounds [earlySegment, lateSegment b] = [⟨earlySegment, 0x8000000000⟩, ⟨lateSegment b, latePage b⟩] := by
  have hearly : earlySegment.pageCount = 1 ∧ earlySegment.firstPage = 0x8000000000 := ⟨by decide, by decide⟩
  have hlate : (lateSegment b).pageCount = 1 ∧ (lateSegment b).firstPage = latePage b := by
    rcases hb with rfl | rfl
    · decide
    · decide
  rw [rounds_cons, rounds_cons, Segment.rounds, Segment.rounds, hearly.1, hearly.2, hlate.1, hlate.2]
  rfl

theorem inFile_pairElf : ∀ seg ∈ [earlySegment, lateSegment b], seg.InFile (pairElf b) := by
  refine List.forall_mem_cons.mpr ⟨?_, List.forall_mem_singleton.mpr ?_⟩
  · exact ⟨by rw [Segment.Wraps]; decide, by decide, by rw [length_pairElf]; decide⟩
  · rcases hb with rfl | rfl
    · exact ⟨by rw [Segment.Wraps]; decide, by decide, by rw [length_pairElf]; decide⟩
    · exact ⟨by rw [Segment.Wraps]; decide, by decide, by rw [length_pairElf]; decide⟩

section File

variable {m : Memory} (hstaged : Staged m 0x300000 (pairElf b))
include hstaged

omit hb in
/-- Numbers in the file. -/
theorem readLe_pairElf {k n : ℕ} (hk : k + n ≤ 178) :
    readLe m (0x300000 + k) n = readLe (fun x => (pairElf b).getD x 0) k n :=
  hstaged.readLe (by rw [length_pairElf]; exact hk)

theorem phdrAddr_pairElf (i : ℕ) (hi : i < 2) : phdrAddr (programHeaders m 0x300000) i = 0x300040 + 56 * i := by
  have hphoff : programHeaders m 0x300000 = 0x300040 := by
    rw [programHeaders, readLe_pairElf hstaged (by decide)]
    rcases hb with rfl | rfl
    · decide +kernel
    · decide +kernel
  rw [hphoff, phdrAddr]
  omega

theorem phnum_pairElf : readLe m (0x300000 + 56) 2 = 2 := by
  rw [readLe_pairElf hstaged (by decide)]
  rcases hb with rfl | rfl
  · decide +kernel
  · decide +kernel

theorem headersIn_pairElf : HeadersIn m 0x300000 (pairElf b) := by
  have hlen := length_pairElf b
  refine ⟨by omega, ?_⟩
  intro i hi
  rw [phnum_pairElf hb hstaged] at hi
  rw [phdrAddr_pairElf hb hstaged i hi]
  omega

theorem loadSegments_pairElf : loadSegments m 0x300000 = [earlySegment, lateSegment b] := by
  have hfield : ∀ k n, k + n ≤ 114 →
      readLe m (0x300040 + k) n = readLe (fun x => (pairElf b).getD x 0) (0x40 + k) n := by
    intro k n hk
    rw [Nat.add_assoc 0x300000 0x40 k]
    exact readLe_pairElf hstaged (by omega)
  have hload : readLe m 0x300040 4 = 1 ∧ readLe m 0x300078 4 = 1 := by
    rw [hfield 0 4 (by decide), hfield 56 4 (by decide)]
    rcases hb with rfl | rfl
    · exact ⟨by decide +kernel, by decide +kernel⟩
    · exact ⟨by decide +kernel, by decide +kernel⟩
  have hearly : segmentAt m 0x300040 = earlySegment := by
    refine segmentAt_eq ((hfield 16 8 (by decide)).trans ?_) ((hfield 40 8 (by decide)).trans ?_)
      ((hfield 32 8 (by decide)).trans ?_) ((hfield 8 8 (by decide)).trans ?_)
    all_goals rcases hb with rfl | rfl <;> decide +kernel
  have hlate : segmentAt m 0x300078 = lateSegment b := by
    refine segmentAt_eq ((hfield 72 8 (by decide)).trans ?_) ((hfield 96 8 (by decide)).trans ?_)
      ((hfield 88 8 (by decide)).trans ?_) ((hfield 64 8 (by decide)).trans ?_)
    all_goals rcases hb with rfl | rfl <;> decide +kernel
  rw [loadSegments, phnum_pairElf hb hstaged, segmentsFrom, phdrAddr_pairElf hb hstaged 0 (by decide),
    if_pos hload.1, hearly, segmentsFrom, phdrAddr_pairElf hb hstaged 1 (by decide), if_pos hload.2, hlate,
    segmentsFrom]

theorem supported_pairElf : elfCheckSupported m 0x300000 = true := by
  have hbyte : ∀ k, k < 178 → m (0x300000 + k) = (pairElf b).getD k 0 :=
    fun k hk => hstaged.bytes k (by rw [length_pairElf]; exact hk)
  rw [elfCheckSupported, elfCheckFile, hbyte 0 (by decide), hbyte 1 (by decide), hbyte 2 (by decide),
    hbyte 3 (by decide), hbyte 4 (by decide), hbyte 5 (by decide), readLe_pairElf hstaged (by decide),
    readLe_pairElf hstaged (by decide)]
  rcases hb with rfl | rfl
  · decide +kernel
  · decide +kernel

end File

section Machine

open KernelMap

variable {s : VmState} (hs : Started s)
include hs

omit hb in
theorem staged_pairElf : Staged (loaderVm s (pairElf b) 0).mem 0x300000 (pairElf b) :=
  hs.staged (by rw [length_pairElf]; decide) 0

/-- The file is loaded in place. -/
theorem inPlace_pairElf : InPlace [0x8600] (Machine.root ⟨loaderVm s (pairElf b) 0, [newSpace s]⟩)
    (loaderVm s (pairElf b) 0) (newSpace s) 0x300000 := by
  have hstaged := staged_pairElf (b := b) hs
  have hlen := length_pairElf b
  refine hs.inPlace (by rw [hlen]; decide) 0 (headersIn_pairElf hb hstaged) ?_ ?_ ?_
  · rw [loadSegments_pairElf hb hstaged, rounds_pairElf hb]
    refine List.forall_mem_cons.mpr ⟨?_, List.forall_mem_singleton.mpr ?_⟩
    · have hrange : copyRange earlySegment 0x8000000000 = (0x8000000000, 0x8000000001) := by decide
      rintro x ⟨-, hx, hx'⟩
      rw [hrange, earlySegment] at hx hx'
      dsimp only at hx hx'
      omega
    · have hrange : copyRange (lateSegment b) (latePage b) =
          (0x8000000000 + 256 * b.toNat, 0x8000000000 + 256 * b.toNat + 1) := by
        rcases hb with rfl | rfl
        · decide
        · decide
      rintro x ⟨-, hx, hx'⟩
      rw [hrange, lateSegment] at hx hx'
      dsimp only at hx hx'
      omega
  · rw [loadSegments_pairElf hb hstaged, rounds_pairElf hb]
    refine List.forall_mem_cons.mpr ⟨by decide, List.forall_mem_singleton.mpr ?_⟩
    rcases hb with rfl | rfl
    · decide
    · decide
  · intro a ha
    rw [List.mem_singleton.mp ha]
    decide

/-- It keeps away from the tables and the free blocks. -/
theorem fileApart_pairElf : FileApart (loaderVm s (pairElf b) 0) (newSpace s) 0x300000 (pairElf b) where
  staged := staged_pairElf hs
  headers := headersIn_pairElf hb (staged_pairElf hs)
  tables := (hs.clear (show (pairElf b).length ≤ pageSize from by rw [length_pairElf]; decide) 0
    (loaderVm s (pairElf b) 0).pmm).tables
  blocks := by
    rintro x ⟨hx, hx'⟩ hfree
    rw [length_pairElf] at hx'
    have hused := ((allocates_alloc s.pmm).trans (allocates_pmmAfter 0 _)).later.used _
      (hs.used (x / 4096) (by omega))
    have hbit := (Finset.mem_filter.mp hfree).2
    rw [loaderVm_pmm] at hbit
    exact absurd (hused.symm.trans hbit) (by decide)

theorem enoughMemory_pairElf : EnoughMemory (loaderVm s (pairElf b) 0) (newSpace s) 0x300000 := by
  have hfree := hs.free
  have hcount := free_loaderVm hs 0 (pairElf b) (by omega)
  refine ⟨(inPlace_pairElf hb hs).ok.zero, ?_⟩
  rw [loadSegments_pairElf hb (staged_pairElf hs), rounds_pairElf hb]
  refine (blocksNeeded_le _ _ _).trans ?_
  show 4 * 2 ≤ _
  omega

/-- The file is loaded, and where its second segment has its page, that page is seen. -/
theorem loaded_pairElf :
    ∃ e s', KernelMap.elfLoadFile [0x8600] (loaderVm s (pairElf b) 0) (newSpace s) 0x300000 = some (e, s') ∧
      ∀ v, SamePage v (latePage b) →
        Seen s'.mem (newSpace s) v (byteOf (pairElf b) (lateSegment b) (latePage b + v % 4096)) := by
  have hplace := inPlace_pairElf hb hs
  have hfile := fileApart_pairElf hb hs
  have hload := loadSegments_pairElf hb (staged_pairElf hs)
  have htree := treeOk_of_tablesOk hplace.ok hplace.space
  have hclear := hfile.clear (addressable_of_tablesOk hplace.ok)
  have hstart := loading_start htree 0x300000 (pairElf b)
  have hsucceed := (enoughMemory_pairElf hb hs).succeed hclear hstart
  have hloaded := elfLoadFile_of_rounds htree hclear hfile.headers hsucceed.ok
    (supported_pairElf hb (staged_pairElf hs))
  rw [hload, rounds_pairElf hb] at hsucceed hloaded
  refine ⟨_, _, hplace.elfLoadFile.trans (congrArg some hloaded), ?_⟩
  intro v hv
  have hlate := inFile_of_mem (inFile_pairElf hb) ⟨lateSegment b, latePage b⟩
    (by rw [rounds_pairElf hb]; exact List.mem_cons_of_mem _ (List.mem_singleton_self _))
  exact seen_last hclear hfile.staged hstart [⟨earlySegment, 0x8000000000⟩] ⟨lateSegment b, latePage b⟩ []
    hsucceed hlate hv fun _ hmem => absurd hmem List.not_mem_nil

end Machine

end Pair

/-- Segments in two pages are kept. -/
theorem segments_kept_pairElf :
    ∃ e s', KernelMap.elfLoadFile [0x8600] (KernelMap.loaderVm (vmmInit vm128) (pairElf 16) 0)
        (KernelMap.newSpace (vmmInit vm128)) 0x300000 = some (e, s') ∧
      Seen s'.mem (KernelMap.newSpace (vmmInit vm128)) 0x8000000000 0x41 ∧
      Seen s'.mem (KernelMap.newSpace (vmmInit vm128)) 0x8000001000 0x42 := by
  have hs := KernelMap.started_vm128
  generalize vmmInit vm128 = s at hs ⊢
  have hb : (16 : UInt8) = 8 ∨ (16 : UInt8) = 16 := Or.inr rfl
  have hload := loadSegments_pairElf hb (staged_pairElf hs)
  have hkept := segments_kept_iff (inPlace_pairElf hb hs) (supported_pairElf hb (staged_pairElf hs))
    (fileApart_pairElf hb hs) (by rw [hload]; exact inFile_pairElf hb) (enoughMemory_pairElf hb hs)
  rw [hload, rounds_pairElf hb] at hkept
  have hspares : Round.Spares (pairElf 16) ⟨earlySegment, 0x8000000000⟩ ⟨lateSegment 16, latePage 16⟩ := by
    rintro v ⟨⟨hv, hv'⟩, -⟩ hpage
    have hlate : latePage 16 = 0x8000001000 := by decide
    rw [SamePage, hlate] at hpage
    dsimp only at hv hv' hpage
    omega
  obtain ⟨-, e, s', hrun, hseen⟩ := hkept.mpr (List.pairwise_pair.mpr hspares)
  have hearly := hseen earlySegment List.mem_cons_self 0 (by decide)
  have hlate := hseen (lateSegment 16) (List.mem_cons_of_mem _ (List.mem_singleton_self _)) 0 (by decide)
  have hfirst : byteOf (pairElf 16) earlySegment (0x8000000000 + 0) = 0x41 := by decide +kernel
  have hsecond : byteOf (pairElf 16) (lateSegment 16) (0x8000001000 + 0) = 0x42 := by decide +kernel
  rw [show earlySegment.vaddrStart = 0x8000000000 from rfl, hfirst] at hearly
  rw [show (lateSegment 16).vaddrStart = 0x8000001000 from by decide, hsecond] at hlate
  exact ⟨e, s', hrun, hearly, hlate⟩

/-- **Two segments in one page**: the byte of the first is gone. -/
theorem twin_segment_lost :
    ¬ ∀ (own : List ℕ) (root : ℕ → Prop) (s s' : VmState) (pml4 fileBuffer e : ℕ) (image : List UInt8),
      KernelMap.InPlace own root s pml4 fileBuffer → elfCheckSupported s.mem fileBuffer = true →
      FileApart s pml4 fileBuffer image → (∀ seg ∈ loadSegments s.mem fileBuffer, seg.InFile image) →
      EnoughMemory s pml4 fileBuffer →
      (loadSegments s.mem fileBuffer).Pairwise (fun seg seg' => ∀ v, seg.Occupies v → ¬ seg'.Occupies v) →
      KernelMap.elfLoadFile own s pml4 fileBuffer = some (e, s') →
      ∀ seg ∈ loadSegments s.mem fileBuffer, ∀ k, k < seg.memSize →
        Seen s'.mem pml4 (seg.vaddrStart + k) (byteOf image seg (seg.vaddrStart + k)) := by
  intro hall
  have hs := KernelMap.started_vm128
  generalize vmmInit vm128 = s at hs
  have hb : (8 : UInt8) = 8 ∨ (8 : UInt8) = 16 := Or.inl rfl
  have hload := loadSegments_pairElf hb (staged_pairElf hs)
  obtain ⟨e, s', hrun, hlost⟩ := loaded_pairElf hb hs
  have hdisjoint : (loadSegments (KernelMap.loaderVm s (pairElf 8) 0).mem 0x300000).Pairwise
      (fun seg seg' => ∀ v, seg.Occupies v → ¬ seg'.Occupies v) := by
    rw [hload, List.pairwise_pair]
    rintro v ⟨-, hv⟩ ⟨hv', -⟩
    have hstart : (lateSegment 8).vaddrStart = 0x8000000800 := by decide
    rw [hstart] at hv'
    rw [earlySegment] at hv
    dsimp only at hv
    omega
  have hseen := hall _ _ _ _ _ _ _ _ (inPlace_pairElf hb hs) (supported_pairElf hb (staged_pairElf hs))
    (fileApart_pairElf hb hs) (by rw [hload]; exact inFile_pairElf hb) (enoughMemory_pairElf hb hs) hdisjoint hrun
    earlySegment (by rw [hload]; exact List.mem_cons_self) 0 (by decide)
  have hbyte : byteOf (pairElf 8) earlySegment (0x8000000000 + 0) = 0x41 := by decide +kernel
  rw [show earlySegment.vaddrStart = 0x8000000000 from rfl, hbyte] at hseen
  have hpage : latePage 8 = 0x8000000000 := by decide
  have hzero : byteOf (pairElf 8) (lateSegment 8) (0x8000000000 + 0x8000000000 % 4096) = 0 := by decide +kernel
  have hgone := hlost 0x8000000000 (samePage_of_mem (by decide) (by decide) (by decide))
  rw [hpage, hzero] at hgone
  exact absurd (hseen.unique hgone) (by decide)

end OsEojin.Exec
