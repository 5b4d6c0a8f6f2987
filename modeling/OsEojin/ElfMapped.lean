import OsEojin.InPlace

/-!
# What a loaded file has mapped

`elf_load_file` (`src/kernel/elf.c`) gives up when there is no block for a page.  When there is none for a
table, `vmm_map_page` (`src/kernel/vmm.c`) returns without a word, and the loader goes on with a page that is
not mapped.  The next page finds no block either, so this can only be the last one.  And a segment whose end
wraps around has next to no pages.

* `UserMapped`: the walk ends at a page, with the user flag all the way;
* `userMapped_elfRounds`: the rounds map their pages, and no others;
* `loaded_mapped_iff`: when a loaded file is mapped;
* `farElf`: a file with one page, and a machine with one block for it and none for its tables.
-/

namespace OsEojin.Exec

open OsEojin.Lib.ByteMemory OsEojin.Lib.Forests OsEojin.Pmm OsEojin.Vmm

/-! ### The user flag -/

/-- `PAGING_FLAG_USER` is set. -/
def UserFlag (e : ℕ) : Prop := e &&& pagingFlagUser ≠ 0

/-- **The address is mapped for the user**: the walk ends at a page, and all its entries have the flag. -/
def UserMapped (m : Memory) (pml4 vaddr : ℕ) : Prop :=
  (translate m pml4 vaddr).isSome = true ∧ ∀ e ∈ pageWalk m pml4 vaddr, UserFlag e

/-- The tables below a PML4, whose entries have the flag. -/
structure UserTree (s : VmState) (pml4 : ℕ) : Prop extends TreeOk s pml4 where
  user : ∀ t k, Node (next s.mem) (fun r => r = pml4) 2 t → present (entry s.mem t k) = true →
    UserFlag (entry s.mem t k)

/-- The entry of the address is there and has the flag. -/
def UserEntry (m : Memory) (pml4 vaddr : ℕ) : Prop := ∃ e, pageEntry m pml4 vaddr = some e ∧ UserFlag e

theorem userFlag_mod (e : ℕ) : UserFlag (e % 4096) ↔ UserFlag e := by
  have hsame : e % 4096 &&& pagingFlagUser = e &&& pagingFlagUser :=
    and_flag_mod e (show 2 < 12 from by decide)
  rw [UserFlag, UserFlag, hsame]

theorem userFlag_seven : UserFlag 7 := by
  rw [UserFlag]
  decide

theorem UserTree.flagged {s : VmState} {pml4 : ℕ} (h : UserTree s pml4) :
    Flagged UserFlag s.mem (fun r => r = pml4) :=
  fun t k ht hpresent => (userFlag_mod _).mpr (h.user t k ht hpresent)

/-- The address spaces of the kernel have such tables. -/
theorem userTree_of_tablesOk {s : VmState} {root : ℕ → Prop} {pml4 : ℕ} (h : TablesOk s root) (hr : root pml4) :
    UserTree s pml4 where
  toTreeOk := treeOk_of_tablesOk h hr
  user := by
    rintro t k ⟨r, q, rfl, hq, ht⟩ hpresent
    rw [← userFlag_mod, h.plain t k ⟨r, q, hr, hq, ht⟩ hpresent]
    exact userFlag_seven

/-- An entry for a block. -/
theorem userFlag_block {a : ℕ} (ha : a % 4096 = 0) : UserFlag (a + 7) := by
  rw [← userFlag_mod, show (a + 7) % 4096 = 7 from by omega]
  exact userFlag_seven

/-- The entry for a table. -/
theorem userFlag_next {m : Memory} {root : ℕ → Prop} (huser : Flagged UserFlag m root) {t x : ℕ} {i : Fin 512}
    (ht : Node (next m) root 2 t) (hx : next m t i = some x) : UserFlag (entry m t i) := by
  rw [next] at hx
  split at hx
  · rename_i hpresent
    exact (userFlag_mod _).mp (huser t i ht hpresent)
  · cases hx

/-- Among such tables the entry of the page decides. -/
theorem userMapped_iff {m : Memory} {pml4 : ℕ} (hsmall : Flagged NoHuge m (fun r => r = pml4))
    (huser : Flagged UserFlag m (fun r => r = pml4)) (u : ℕ) : UserMapped m pml4 u ↔ UserEntry m pml4 u := by
  have hroot : Node (next m) (fun r => r = pml4) 2 pml4 := ⟨pml4, [], rfl, by decide, rfl⟩
  rw [UserMapped, translate_eq hsmall rfl, Option.isSome_map]
  constructor
  · rintro ⟨hsome, hall⟩
    rcases pageWalk_last hsmall rfl u with ⟨e₁, e₂, e₃, e, hwalk, -, hentry⟩ | ⟨hentry, -⟩
    · exact ⟨e, hentry, hall e (by simp [hwalk])⟩
    · rw [hentry] at hsome
      cases hsome
  · rintro ⟨e, hentry, he⟩
    refine ⟨by rw [hentry]; rfl, ?_⟩
    rw [pageEntry] at hentry
    rcases pageWalk_cases hsmall rfl u with ⟨pdpt, pd, pt, hpdpt, hpd, hpt, hwalk⟩ | ⟨hnone, -⟩
    · rw [reach_dirs hpdpt hpd hpt, Option.bind_some] at hentry
      split at hentry
      · obtain rfl := Option.some.inj hentry
        have hpdptNode : Node (next m) (fun r => r = pml4) 2 pdpt :=
          ⟨pml4, [pml4Index u], rfl, by simp, by simp [hpdpt]⟩
        have hpdNode : Node (next m) (fun r => r = pml4) 2 pd :=
          ⟨pml4, [pml4Index u, pdptIndex u], rfl, by simp, by simp [hpdpt, hpd]⟩
        rw [hwalk]
        simp only [List.forall_mem_cons, List.not_mem_nil, false_imp_iff, implies_true, and_true]
        exact ⟨userFlag_next huser hroot hpdpt, userFlag_next huser hpdptNode hpd,
          userFlag_next huser hpdNode hpt, he⟩
      · cases hentry
    · rw [hnone] at hentry
      cases hentry

/-! ### The rounds -/

section Rounds

variable {pml4 fileBuffer : ℕ} {image : List UInt8} {s₀ s : VmState}
  (hclear : ∀ p, Clear pml4 fileBuffer image s₀ p)
include hclear

section Page

variable {seg : Segment} {vaddr : ℕ} (h : Loading pml4 fileBuffer image s₀ s) (h0 : (pmmAllocBlock s.pmm).1 ≠ 0)
include h h0

theorem flagged_elfPage {φ : ℕ → Prop} (hφ : φ 7) (hflags : Flagged φ s.mem (fun r => r = pml4)) :
    Flagged φ (elfPage s pml4 fileBuffer seg vaddr).2.mem (fun r => r = pml4) :=
  Flagged.transfer (s := mapBlock s pml4 vaddr) (fun _ _ ht => h.entry_fillBlock h0 (hclear _) ht)
    (flagged_vmmMapPage h.forest_alloc (h.lowBlocks (hclear _)) _ _ hφ hflags)

/-- A round that is refused a table changes no entry of a page. -/
theorem pageEntry_elfPage_refused
    (hfails : AllocFails { s with pmm := (pmmAllocBlock s.pmm).2 } pml4 vaddr) (u : ℕ) :
    pageEntry (elfPage s pml4 fileBuffer seg vaddr).2.mem pml4 u = pageEntry s.mem pml4 u := by
  rw [pageEntry_transfer (s := mapBlock s pml4 vaddr) (fun _ _ ht => h.entry_fillBlock h0 (hclear _) ht)
    (show (fun r => r = pml4) pml4 from rfl) u]
  exact pageEntry_vmmMapPage_fails h.forest_alloc (h.lowBlocks (hclear _)) _ _
    ((allocFails_iff _ _ _).mp hfails) u

/-- **One round** maps its page. -/
theorem userEntry_elfPage (htables : ¬ AllocFails { s with pmm := (pmmAllocBlock s.pmm).2 } pml4 vaddr) (u : ℕ) :
    UserEntry (elfPage s pml4 fileBuffer seg vaddr).2.mem pml4 u ↔
      UserEntry s.mem pml4 u ∨ SamePage u vaddr := by
  have halign := pmmAllocBlock_aligned s.pmm
  rw [blockSize] at halign
  rw [UserEntry, UserEntry, h.pageEntry_elfPage h0 htables (hclear _), ← indices_eq_iff]
  by_cases hu : indices u = indices vaddr
  · rw [if_pos hu]
    exact iff_of_true ⟨_, rfl, userFlag_block halign⟩ (Or.inr hu)
  · rw [if_neg hu]
    exact (or_iff_left hu).symm

end Page

theorem flagged_elfRounds {φ : ℕ → Prop} (hφ : φ 7) {rs : List Round} : ∀ {s : VmState},
    Loading pml4 fileBuffer image s₀ s → (elfRounds pml4 fileBuffer rs s).1 = true →
    Flagged φ s.mem (fun r => r = pml4) →
    Flagged φ (elfRounds pml4 fileBuffer rs s).2.mem (fun r => r = pml4) := by
  induction rs with
  | nil => exact fun _ _ hflags => hflags
  | cons r rs ih =>
    intro s h hok hflags
    have hpage := elfPage_of_elfRounds hok
    rw [elfRounds_cons rs hpage] at hok ⊢
    exact ih (loading_elfPage h hpage (hclear _)) hok
      (flagged_elfPage hclear h (block_of_elfPage hpage) hφ hflags)

/-- **Rounds that succeed map their pages**, and no others. -/
theorem userEntry_elfRounds (u : ℕ) {rs : List Round} : ∀ {s : VmState},
    Loading pml4 fileBuffer image s₀ s → RoundsSucceed pml4 fileBuffer rs s →
    (UserEntry (elfRounds pml4 fileBuffer rs s).2.mem pml4 u ↔
      UserEntry s.mem pml4 u ∨ ∃ r ∈ rs, SamePage u r.vaddr) := by
  induction rs with
  | nil =>
    intro s _ _
    simp [elfRounds]
  | cons r rs ih =>
    rintro s h ⟨h0, htables, hrest⟩
    have hpage : (elfPage s pml4 fileBuffer r.seg r.vaddr).1 = true := by rw [elfPage_eq h0]
    rw [elfRounds_cons rs hpage, ih (loading_elfPage h hpage (hclear _)) hrest,
      userEntry_elfPage hclear h h0 htables, or_assoc]
    simp only [List.mem_cons, exists_eq_or_imp]

/-- When the last round is refused a table, it maps nothing. -/
theorem userEntry_refused (u : ℕ) (h : Loading pml4 fileBuffer image s₀ s) {before : List Round} {r : Round}
    (hsucceed : RoundsSucceed pml4 fileBuffer before s)
    (hok : (elfRounds pml4 fileBuffer (before ++ [r]) s).1 = true)
    (hnone : reach (next (elfRounds pml4 fileBuffer (before ++ [r]) s).2.mem) pml4 (dirs r.vaddr) = none) :
    UserEntry (elfRounds pml4 fileBuffer (before ++ [r]) s).2.mem pml4 u ↔
      (UserEntry s.mem pml4 u ∨ ∃ r' ∈ before, SamePage u r'.vaddr) := by
  have hbefore := loading_elfRounds hclear h hsucceed.ok
  rw [← userEntry_elfRounds hclear u h hsucceed]
  rw [elfRounds_append, if_pos hsucceed.ok] at hok hnone ⊢
  have hpage := elfPage_of_elfRounds hok
  have h0 := block_of_elfPage hpage
  rw [elfRounds_cons [] hpage, elfRounds] at hnone ⊢
  have hfails : AllocFails { (elfRounds pml4 fileBuffer before s).2 with
      pmm := (pmmAllocBlock (elfRounds pml4 fileBuffer before s).2.pmm).2 } pml4 r.vaddr := by
    by_contra htables
    exact reach_elfPage_mapped hclear hbefore h0 htables hnone
  rw [UserEntry, UserEntry, pageEntry_elfPage_refused hclear hbefore h0 hfails u]

end Rounds

/-! ### The loaded file -/

/-- `u` is an address of one of the segments, with 48 bits. -/
def SegmentAddress (segs : List Segment) (u : ℕ) : Prop :=
  u < 2 ^ 48 ∧ ∃ seg ∈ segs, ∃ k, k < seg.memSize ∧ u = seg.vaddrStart + k

/-- The end of the segment wraps around when it is rounded up to a page. -/
def Segment.Wraps (seg : Segment) : Prop := 2 ^ 64 ≤ seg.vaddrStart + seg.memSize + 4095

/-- **The pages of a segment that does not wrap hold all its addresses.** -/
theorem round_of_address {segs : List Segment} {seg : Segment} (hseg : seg ∈ segs) (hwraps : ¬ seg.Wraps)
    {k : ℕ} (hk : k < seg.memSize) : ∃ r ∈ rounds segs, r.seg = seg ∧ r.vaddr % 4096 = 0 ∧
      r.vaddr ≤ seg.vaddrStart + k ∧ seg.vaddrStart + k < r.vaddr + 4096 := by
  rw [Segment.Wraps, Nat.not_le] at hwraps
  have hcount : (seg.vaddrStart + k - seg.firstPage) / 4096 < seg.pageCount := by
    unfold Segment.pageCount Segment.firstPage pageSize
    omega
  refine ⟨⟨seg, seg.firstPage + 4096 * ((seg.vaddrStart + k - seg.firstPage) / 4096)⟩,
    mem_rounds.mpr ⟨hseg, _, hcount, rfl⟩, rfl, ?_⟩
  dsimp only
  unfold Segment.firstPage pageSize
  omega

/-- An address in an aligned page. -/
theorem samePage_of_mem {v vaddr : ℕ} (halign : vaddr % 4096 = 0) (hv : vaddr ≤ v) (hv' : v < vaddr + 4096) :
    SamePage v vaddr := by
  rw [SamePage]
  omega

/-- On a machine whose free blocks have 52-bit addresses nothing stands in the way of the loader. -/
theorem clear_of_addressable {s : VmState} (h : Addressable s.pmm) (pml4 fileBuffer : ℕ) (p : PmmState) :
    Clear pml4 fileBuffer [] s p where
  low := by
    intro a ha
    obtain ⟨i, rfl, hi, hfree, -⟩ := ha.block
    have hlt := h i hi hfree
    rw [blockSize]
    omega
  tables := by
    rintro x ⟨hx, hx'⟩
    exact absurd hx' (by simpa using hx)
  blocks := by
    rintro x ⟨hx, hx'⟩
    exact absurd hx' (by simpa using hx)

/-- The number of free blocks decides, also when there is no round at all. -/
theorem roundsSucceed_iff_of_ok {pml4 fileBuffer : ℕ} {image : List UInt8} {s₀ s : VmState}
    (hclear : ∀ p, Clear pml4 fileBuffer image s₀ p) (h : Loading pml4 fileBuffer image s₀ s) {rs : List Round}
    (hok : (elfRounds pml4 fileBuffer rs s).1 = true) :
    RoundsSucceed pml4 fileBuffer rs s ↔ blocksNeeded s pml4 rs ≤ (freeBlocks s.pmm).card := by
  cases rs with
  | nil => exact iff_of_true trivial (Nat.zero_le _)
  | cons r rs => exact roundsSucceed_iff hclear h (zero_used (block_of_elfPage (elfPage_of_elfRounds hok))) _

/-- Without a table there is no entry. -/
theorem not_userEntry {m : Memory} {pml4 u vaddr : ℕ} (hnone : reach (next m) pml4 (dirs vaddr) = none)
    (hu : SamePage u vaddr) : ¬ UserEntry m pml4 u := by
  obtain ⟨hdirs, -⟩ := (indices_eq_iff_dirs u vaddr).mp ((indices_eq_iff u vaddr).mpr hu)
  rintro ⟨e, hentry, -⟩
  rw [pageEntry, hdirs, hnone] at hentry
  cases hentry

/-- **When addresses are mapped after rounds**: each of them is in a page or was mapped before, and the blocks
do not run out at the last page, if it is a page of one of them. -/
theorem userEntry_rounds_iff {pml4 fileBuffer : ℕ} {image : List UInt8} {s₀ s : VmState}
    (hclear : ∀ p, Clear pml4 fileBuffer image s₀ p) (h : Loading pml4 fileBuffer image s₀ s) {rs : List Round}
    (hok : (elfRounds pml4 fileBuffer rs s).1 = true) (A : ℕ → Prop) :
    (∀ u, A u → UserEntry (elfRounds pml4 fileBuffer rs s).2.mem pml4 u) ↔
      (∀ u, A u → UserEntry s.mem pml4 u ∨ ∃ r ∈ rs, SamePage u r.vaddr) ∧
        (blocksNeeded s pml4 rs ≤ (freeBlocks s.pmm).card ∨
          ∀ r, rs.getLast? = some r → ∀ u, A u → ¬ SamePage u r.vaddr) := by
  by_cases hsucceed : RoundsSucceed pml4 fileBuffer rs s
  · have hfree := (roundsSucceed_iff_of_ok hclear h hok).mp hsucceed
    simp only [userEntry_elfRounds hclear _ h hsucceed, hfree, true_or, and_true]
  · have hfree : ¬ blocksNeeded s pml4 rs ≤ (freeBlocks s.pmm).card :=
      fun hle => hsucceed ((roundsSucceed_iff_of_ok hclear h hok).mpr hle)
    obtain ⟨before, last, rfl, hbefore, hnone⟩ := refused_last hclear h hok hsucceed
    rw [List.getLast?_concat]
    constructor
    · intro hmapped
      refine ⟨?_, Or.inr ?_⟩
      · intro u hu
        refine ((userEntry_refused hclear u h hbefore hok hnone).mp (hmapped u hu)).imp_right ?_
        rintro ⟨r, hr, hpage⟩
        exact ⟨r, List.mem_append_left _ hr, hpage⟩
      · intro r hr u hu hpage
        obtain rfl := Option.some.inj hr
        exact not_userEntry hnone hpage (hmapped u hu)
    · rintro ⟨hcovered, hlast⟩ u hu
      rw [userEntry_refused hclear u h hbefore hok hnone]
      refine (hcovered u hu).imp_right ?_
      rintro ⟨r, hr, hpage⟩
      cases List.mem_append.mp hr with
      | inl hmem => exact ⟨r, hmem, hpage⟩
      | inr hmem =>
        rw [List.mem_singleton.mp hmem] at hpage
        exact absurd hpage (hlast.resolve_left hfree last rfl u hu)

/-- When the addresses are mapped after the load of `Exec`. -/
theorem userMapped_loaded_iff {s : VmState} {pml4 : ℕ} (fileBuffer : ℕ) (htree : UserTree s pml4)
    (hblocks : Addressable s.pmm) (hok : (elfLoadFile s pml4 fileBuffer).1 ≠ 0) :
    let segs := segmentsLoaded s pml4 fileBuffer
    (∀ u, SegmentAddress segs u → UserMapped (elfLoadFile s pml4 fileBuffer).2.mem pml4 u) ↔
      (∀ seg ∈ segs, seg.Wraps → ∀ k, k < seg.memSize → seg.vaddrStart + k < 2 ^ 48 →
          UserMapped s.mem pml4 (seg.vaddrStart + k) ∨
            ∃ r ∈ rounds segs, SamePage (seg.vaddrStart + k) r.vaddr) ∧
        (blocksNeeded s pml4 (rounds segs) ≤ (freeBlocks s.pmm).card ∨
          ∀ r, (rounds segs).getLast? = some r → ∀ u, SegmentAddress segs u → ¬ SamePage u r.vaddr) := by
  intro segs
  have hclear := clear_of_addressable hblocks pml4 fileBuffer
  have hstart := loading_start htree.toTreeOk fileBuffer []
  have hrun : elfRounds pml4 fileBuffer (rounds segs) s = (true, (elfLoadFile s pml4 fileBuffer).2) :=
    elfLoadFile_eq s hok
  have hrounds : (elfRounds pml4 fileBuffer (rounds segs) s).1 = true := by rw [hrun]
  have hsmall := (loading_elfRounds hclear hstart hrounds).small
  have huser := flagged_elfRounds hclear userFlag_seven hstart hrounds htree.flagged
  have hiff := userEntry_rounds_iff hclear hstart hrounds (SegmentAddress segs)
  rw [hrun] at hsmall huser hiff
  simp only [userMapped_iff hsmall huser, userMapped_iff htree.toTreeOk.flagged htree.flagged]
  rw [hiff]
  -- only a segment that wraps around can have an address outside the pages
  refine and_congr_left fun _ => ⟨?_, ?_⟩
  · intro hcovered seg hseg _ k hk hlow
    exact hcovered _ ⟨hlow, seg, hseg, k, hk, rfl⟩
  · rintro hcovered u ⟨hlow, seg, hseg, k, hk, rfl⟩
    by_cases hwraps : seg.Wraps
    · exact hcovered seg hseg hwraps k hk hlow
    · obtain ⟨r, hr, -, halign, hfirst, hlast⟩ := round_of_address hseg hwraps hk
      exact Or.inr ⟨r, hr, samePage_of_mem halign hfirst hlast⟩

/-- The free blocks of such tables have 52-bit addresses. -/
theorem addressable_of_tablesOk {s : VmState} {root : ℕ → Prop} (h : TablesOk s root) : Addressable s.pmm :=
  fun _ hi _ => Nat.lt_of_lt_of_le hi h.total

/-- **When a loaded file is mapped.**  After an `elf_load_file` in place has returned an entry point, all
addresses of the segments are mapped for the user if and only if

* the addresses of a segment whose end wraps around are in a page of the loop or were mapped before, and
* there were enough free blocks for the pages and the missing tables, or the last page is not one of a segment. -/
theorem loaded_mapped_iff {own : List ℕ} {root : ℕ → Prop} {s s' : VmState} {pml4 fileBuffer e : ℕ}
    (hplace : KernelMap.InPlace own root s pml4 fileBuffer)
    (hload : KernelMap.elfLoadFile own s pml4 fileBuffer = some (e, s')) (he : e ≠ 0) :
    let segs := segmentsLoaded s pml4 fileBuffer
    (∀ u, SegmentAddress segs u → UserMapped s'.mem pml4 u) ↔
      (∀ seg ∈ segs, seg.Wraps → ∀ k, k < seg.memSize → seg.vaddrStart + k < 2 ^ 48 →
          UserMapped s.mem pml4 (seg.vaddrStart + k) ∨
            ∃ r ∈ rounds segs, SamePage (seg.vaddrStart + k) r.vaddr) ∧
        (blocksNeeded s pml4 (rounds segs) ≤ (freeBlocks s.pmm).card ∨
          ∀ r, (rounds segs).getLast? = some r → ∀ u, SegmentAddress segs u → ¬ SamePage u r.vaddr) := by
  have hexec : elfLoadFile s pml4 fileBuffer = (e, s') := Option.some.inj (hplace.elfLoadFile.symm.trans hload)
  have hiff := userMapped_loaded_iff fileBuffer (userTree_of_tablesOk hplace.ok hplace.space)
    (addressable_of_tablesOk hplace.ok) (by rw [hexec]; exact he)
  rw [hexec] at hiff
  exact hiff

/-! ### A file on the machine of 128 MB -/

/-- An ELF file with one segment: two bytes at `0x8000000100`, five in memory. -/
def farElf : List UInt8 :=
  [0x7F, 69, 76, 70, 2, 1, 1, 0, 0, 0, 0, 0, 0, 0, 0, 0, 2, 0, 62, 0, 1, 0, 0, 0, 0x00, 0x01, 0, 0, 0x80, 0, 0, 0,
    64, 0, 0, 0, 0, 0, 0, 0, 0, 0, 0, 0, 0, 0, 0, 0, 0, 0, 0, 0, 64, 0, 56, 0, 1, 0, 0, 0, 0, 0, 0, 0,
    1, 0, 0, 0, 7, 0, 0, 0, 120, 0, 0, 0, 0, 0, 0, 0, 0x00, 0x01, 0, 0, 0x80, 0, 0, 0, 0, 0, 0, 0, 0, 0, 0, 0,
    2, 0, 0, 0, 0, 0, 0, 0, 5, 0, 0, 0, 0, 0, 0, 0, 0, 16, 0, 0, 0, 0, 0, 0, 0xEB, 0xFE]

theorem length_farElf : farElf.length = 122 := rfl

def farSegment : Segment := ⟨0x8000000100, 5, 2, 120⟩

theorem rounds_farSegment : rounds [farSegment] = [⟨farSegment, 0x8000000000⟩] := by
  have hcount : farSegment.pageCount = 1 := by decide
  have hfirst : farSegment.firstPage = 0x8000000000 := by decide
  rw [rounds_cons, Segment.rounds, hcount, hfirst]
  rfl

section File

variable {m : Memory} (hstaged : Staged m 0x300000 farElf)
include hstaged

theorem phdrAddr_farElf : phdrAddr (programHeaders m 0x300000) 0 = 0x300040 := by
  have hphoff := hstaged.readLe (show 32 + 8 ≤ farElf.length from by rw [length_farElf]; decide)
  rw [programHeaders, hphoff]
  decide

theorem phnum_farElf : readLe m (0x300000 + 56) 2 = 1 := by
  rw [hstaged.readLe (show 56 + 2 ≤ farElf.length from by rw [length_farElf]; decide)]
  decide

theorem headersIn_farElf : HeadersIn m 0x300000 farElf := by
  have hlen := length_farElf
  refine ⟨by omega, ?_⟩
  intro i hi
  rw [phnum_farElf hstaged] at hi
  obtain rfl : i = 0 := by omega
  rw [phdrAddr_farElf hstaged]
  omega

theorem loadSegments_farElf : loadSegments m 0x300000 = [farSegment] := by
  have hload : readLe m 0x300040 4 = 1 := by
    rw [hstaged.readLe (show 0x40 + 4 ≤ farElf.length from by rw [length_farElf]; decide)]
    decide
  have hfield : ∀ k, k ≤ 40 →
      readLe m (0x300040 + k) 8 = readLe (fun x => farElf.getD x 0) (0x40 + k) 8 := by
    intro k hk
    rw [Nat.add_assoc 0x300000 0x40 k]
    exact hstaged.readLe (show 0x40 + k + 8 ≤ 122 from by omega)
  have hsegment : segmentAt m 0x300040 = farSegment :=
    segmentAt_eq ((hfield 16 (by decide)).trans (by decide)) ((hfield 40 (by decide)).trans (by decide))
      ((hfield 32 (by decide)).trans (by decide)) ((hfield 8 (by decide)).trans (by decide))
  rw [loadSegments, phnum_farElf hstaged, segmentsFrom, phdrAddr_farElf hstaged, if_pos hload, hsegment,
    segmentsFrom]

theorem supported_farElf : elfCheckSupported m 0x300000 = true := by
  have hbyte : ∀ k, k < 122 → m (0x300000 + k) = farElf.getD k 0 := hstaged.bytes
  rw [elfCheckSupported, elfCheckFile, hbyte 0 (by decide), hbyte 1 (by decide), hbyte 2 (by decide),
    hbyte 3 (by decide), hbyte 4 (by decide), hbyte 5 (by decide),
    hstaged.readLe (show 18 + 2 ≤ farElf.length from by rw [length_farElf]; decide),
    hstaged.readLe (show 16 + 2 ≤ farElf.length from by rw [length_farElf]; decide)]
  decide

end File

section Machine

open KernelMap

variable {s : VmState} (hs : Started s) (k : ℕ)
include hs

theorem staged_farElf : Staged (loaderVm s farElf k).mem 0x300000 farElf := hs.staged (by rw [length_farElf]; decide) k

/-- The file is loaded in place. -/
theorem inPlace_farElf : InPlace [0x8600] (Machine.root ⟨loaderVm s farElf k, [newSpace s]⟩) (loaderVm s farElf k)
    (newSpace s) 0x300000 := by
  have hstaged := staged_farElf hs k
  refine hs.inPlace (by rw [length_farElf]; decide) k (headersIn_farElf hstaged) ?_ ?_ ?_
  · rw [loadSegments_farElf hstaged, rounds_farSegment]
    rintro r hr x ⟨-, hx, hx'⟩
    rw [List.mem_singleton.mp hr] at hx hx'
    have hrange : copyRange farSegment 0x8000000000 = (0x8000000100, 0x8000000102) := by decide
    dsimp only at hx hx'
    rw [hrange] at hx hx'
    have hlen := length_farElf
    rw [farSegment] at hx hx'
    dsimp only at hx hx'
    omega
  · rw [loadSegments_farElf hstaged, rounds_farSegment]
    intro r hr
    rw [List.mem_singleton.mp hr]
    decide
  · intro a ha
    rw [List.mem_singleton.mp ha]
    decide

/-- With a block for its page the file is loaded. -/
theorem loaded_farElf (h0 : (pmmAllocBlock (loaderVm s farElf k).pmm).1 ≠ 0) :
    segmentsLoaded (loaderVm s farElf k) (newSpace s) 0x300000 = [farSegment] ∧
      (elfLoadFile (loaderVm s farElf k) (newSpace s) 0x300000).1 = 0x8000000100 := by
  have hstaged := staged_farElf hs k
  have htree := treeOk_of_tablesOk (inPlace_farElf hs k).ok (inPlace_farElf hs k).space
  have hclear := hs.clear (show farElf.length ≤ pageSize from by rw [length_farElf]; decide) k
  have hok : (elfRounds (newSpace s) 0x300000 (rounds (loadSegments (loaderVm s farElf k).mem 0x300000))
      (loaderVm s farElf k)).1 = true := by
    have hpage : (elfPage (loaderVm s farElf k) (newSpace s) 0x300000 farSegment 0x8000000000).1 = true := by
      rw [elfPage_eq h0]
    rw [loadSegments_farElf hstaged, rounds_farSegment,
      elfRounds_cons (r := ⟨farSegment, 0x8000000000⟩) [] hpage, elfRounds]
  refine ⟨?_, ?_⟩
  · rw [segmentsLoaded_eq htree hclear (headersIn_farElf hstaged) hok, loadSegments_farElf hstaged]
  · rw [elfLoadFile_of_rounds htree hclear (headersIn_farElf hstaged) hok (supported_farElf hstaged)]
    dsimp only
    rw [hstaged.readLe (show 24 + 8 ≤ farElf.length from by rw [length_farElf]; decide)]
    decide

/-- The free blocks after `k` calls. -/
theorem free_loaderVm (image : List UInt8) (hk : k < (freeBlocks s.pmm).card) :
    (freeBlocks (loaderVm s image k).pmm).card + k + 1 = (freeBlocks s.pmm).card := by
  have hone := freeBlocks_card_alloc hs.newSpace_ne
  have hrest := card_pmmAfter_eq (used_mono s.pmm hs.isolated.tables.zero)
    (show k ≤ (freeBlocks (pmmAllocBlock s.pmm).2).card from by omega)
  rw [loaderVm_pmm]
  omega

end Machine

/-- The loaded file is mapped. -/
theorem loaded_mapped_farElf :
    ∃ e s', KernelMap.elfLoadFile [0x8600] (KernelMap.loaderVm (vmmInit vm128) farElf 0)
        (KernelMap.newSpace (vmmInit vm128)) 0x300000 = some (e, s') ∧ e = 0x8000000100 ∧
      UserMapped s'.mem (KernelMap.newSpace (vmmInit vm128)) 0x8000000104 := by
  have hs := KernelMap.started_vm128
  generalize vmmInit vm128 = s at hs ⊢
  have hfree := hs.free
  have hcount := free_loaderVm hs 0 farElf (by omega)
  have hplace := inPlace_farElf hs 0
  have hload := hplace.elfLoadFile
  obtain ⟨hsegs, hentry⟩ := loaded_farElf hs 0 (pmmAllocBlock_ne_zero hplace.ok.zero (by omega))
  generalize elfLoadFile (KernelMap.loaderVm s farElf 0) (KernelMap.newSpace s) 0x300000 = d at hload hentry
  obtain ⟨e, s'⟩ := d
  dsimp only at hentry
  have hiff := loaded_mapped_iff hplace hload (by rw [hentry]; decide)
  rw [hsegs] at hiff
  refine ⟨_, _, hload, hentry, hiff.mpr ⟨?_, Or.inl ?_⟩ _ ?_⟩
  · intro seg hseg hwraps
    rw [List.mem_singleton.mp hseg, Segment.Wraps] at hwraps
    exact absurd hwraps (by decide)
  · have hneeded := blocksNeeded_le (KernelMap.loaderVm s farElf 0) (KernelMap.newSpace s) (rounds [farSegment])
    have hone : (rounds [farSegment]).length = 1 := by rw [rounds_farSegment]; rfl
    omega
  · exact ⟨by decide, farSegment, List.mem_singleton_self _, 4, by decide, rfl⟩

/-- **One block for the page, none for its tables**: the file counts as loaded, and is not mapped. -/
theorem cramped_not_mapped :
    ¬ ∀ (own : List ℕ) (root : ℕ → Prop) (s s' : VmState) (pml4 fileBuffer e : ℕ),
      KernelMap.InPlace own root s pml4 fileBuffer →
      KernelMap.elfLoadFile own s pml4 fileBuffer = some (e, s') → e ≠ 0 →
      ∀ u, SegmentAddress (segmentsLoaded s pml4 fileBuffer) u → UserMapped s'.mem pml4 u := by
  intro hall
  have hs := KernelMap.started_vm128
  generalize vmmInit vm128 = s at hs
  -- all blocks but one are taken
  obtain ⟨k, hk⟩ : ∃ k, k + 2 = (freeBlocks s.pmm).card := ⟨_, Nat.sub_add_cancel (by have := hs.free; omega)⟩
  have hcount := free_loaderVm hs k farElf (by omega)
  have hplace := inPlace_farElf hs k
  have hload := hplace.elfLoadFile
  obtain ⟨hsegs, hentry⟩ := loaded_farElf hs k (pmmAllocBlock_ne_zero hplace.ok.zero (by omega))
  have hpage : SegmentAddress [farSegment] 0x8000000100 :=
    ⟨by decide, farSegment, List.mem_singleton_self _, 0, by decide, rfl⟩
  have hiff := userMapped_loaded_iff 0x300000 (userTree_of_tablesOk hplace.ok hplace.space)
    (addressable_of_tablesOk hplace.ok) (hentry.trans_ne (by decide))
  generalize elfLoadFile (KernelMap.loaderVm s farElf k) (KernelMap.newSpace s) 0x300000 = d at hload hentry hiff
  obtain ⟨e, s'⟩ := d
  dsimp only at hentry
  have hmapped := hall _ _ _ _ _ _ _ hplace hload (by rw [hentry]; decide)
  rw [hsegs] at hiff hmapped
  dsimp only at hiff
  rw [rounds_farSegment] at hiff
  have habsent : [pml4Index 0x8000000000] ∈
      absentTables (KernelMap.loaderVm s farElf k).mem (KernelMap.newSpace s)
        (roundWays [⟨farSegment, 0x8000000000⟩]) := by
    have hnone := hs.next_newSpace (show farElf.length ≤ pageSize from by rw [length_farElf]; decide) k
      (show pml4Index 0x8000000000 ≠ 0 from by decide)
    refine mem_absentTables.mpr ⟨mem_roundWays.mpr ⟨_, List.mem_singleton_self _, ?_⟩, ?_⟩
    · exact Finset.mem_insert_self _ _
    · rw [reach, hnone]
      rfl
  obtain ⟨-, hfree | hlast⟩ := hiff.mp hmapped
  · have hone := Finset.card_pos.mpr ⟨_, habsent⟩
    rw [blocksNeeded] at hfree
    have hlen : [(⟨farSegment, 0x8000000000⟩ : Round)].length = 1 := rfl
    omega
  · exact hlast _ rfl _ hpage (samePage_of_mem (by decide) (by decide) (by decide))

end OsEojin.Exec
