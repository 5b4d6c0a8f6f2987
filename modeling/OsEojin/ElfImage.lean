import OsEojin.ExecStaging
import OsEojin.IdentityMap

/-!
# The image of a segment

The loop of `elf_load_file` (`src/kernel/elf.c`) over the pages of one program header gives every page a
cleared block and copies into it what the page and the file's part of the segment have in common.  When all
its allocations succeed and no block lies over the file, the segment can be read back through the page
tables, byte by byte: the file's bytes, and zeros around them.

* `SegmentByte`: what the byte at an address has to be;
* `copySegment_byte`: one page;
* `Loading`: what every page of every header keeps, `loading_elfHeaders` over the headers;
* `PagesIn`, `pagesIn_elfPages`: the pages of one header, one after the other;
* `segment_image`: what is seen through the PML4 after the loop.
-/

namespace OsEojin.Exec

open OsEojin.Lib.ByteMemory OsEojin.Lib.Forests OsEojin.Pmm OsEojin.Vmm

/-! ### One page -/

/-- The byte at `x` is in the image buffer. -/
def InImage (fileBuffer : ℕ) (image : List UInt8) (x : ℕ) : Prop :=
  fileBuffer ≤ x ∧ x < fileBuffer + image.length

/-- The file lies in the buffer. -/
structure Staged (m : Memory) (fileBuffer : ℕ) (image : List UInt8) : Prop where
  fits : fileBuffer + image.length ≤ 2 ^ 64
  bytes : ∀ j, j < image.length → m (fileBuffer + j) = image.getD j 0

theorem staged_store {m : Memory} {fileBuffer : ℕ} {image : List UInt8}
    (h : fileBuffer + image.length ≤ 2 ^ 64) : Staged (store m fileBuffer image) fileBuffer image where
  fits := h
  bytes := by
    intro j hj
    rw [store, if_pos ⟨by omega, by omega⟩, Nat.add_sub_cancel_left]

/-- A number in the file. -/
theorem Staged.readLe {m : Memory} {fileBuffer : ℕ} {image : List UInt8} (h : Staged m fileBuffer image) {n k : ℕ}
    (hk : k + n ≤ image.length) :
    readLe m (fileBuffer + k) n = Lib.ByteMemory.readLe (fun x => image.getD x 0) k n := by
  induction n generalizing k with
  | zero => rfl
  | succ n ih =>
    rw [Lib.ByteMemory.readLe, Lib.ByteMemory.readLe, h.bytes k (by omega), Nat.add_assoc, ih (by omega)]

/-- **The byte of the segment at `v`**: the byte of the file, and zero outside the file's part. -/
def SegmentByte (image : List UInt8) (seg : Segment) (v : ℕ) (b : UInt8) : Prop :=
  (seg.vaddrStart ≤ v → v < seg.vaddrStart + seg.fileSize →
      seg.fileOffset + (v - seg.vaddrStart) < image.length →
      b = image.getD (seg.fileOffset + (v - seg.vaddrStart)) 0) ∧
    (v < seg.vaddrStart ∨ seg.vaddrStart + seg.fileSize ≤ v → b = 0)

section Page

variable {m : Memory} {fileBuffer vaddr paddr : ℕ} {image : List UInt8} {seg : Segment}

/-- The part of the page that is copied, when no sum wraps. -/
theorem copyRange_eq (hend : seg.vaddrStart + seg.fileSize < 2 ^ 64) (hpage : vaddr + pageSize < 2 ^ 64) :
    copyRange seg vaddr = (max vaddr seg.vaddrStart, min (seg.vaddrStart + seg.fileSize) (vaddr + pageSize)) := by
  rw [copyRange, Nat.mod_eq_of_lt hend, Nat.mod_eq_of_lt hpage]
  congr 1
  · split <;> omega
  · split <;> omega

/-- **One page**: after clearing and copying it holds its part of the segment. -/
theorem copySegment_byte (hstaged : Staged m fileBuffer image)
    (hend : seg.vaddrStart + seg.fileSize < 2 ^ 64) (hpage : vaddr + pageSize < 2 ^ 64)
    (hoff : ∀ x, InImage fileBuffer image x → x < paddr ∨ paddr + pageSize ≤ x) {v : ℕ} (hv : vaddr ≤ v)
    (hv' : v < vaddr + pageSize) :
    SegmentByte image seg v
      (copySegment (fill m paddr pageSize 0) fileBuffer seg vaddr paddr (paddr + (v - vaddr))) := by
  have hclear : fill m paddr pageSize 0 (paddr + (v - vaddr)) = 0 := if_pos (by omega)
  rw [copySegment, copyRange_eq hend hpage]
  dsimp only
  constructor
  · intro hstart hlast hfile
    rw [if_pos (by omega)]
    -- the byte is copied: its place in the file and its place in the page
    have hsrc : (fileBuffer + seg.fileOffset + (max vaddr seg.vaddrStart - seg.vaddrStart)) % 2 ^ 64 =
        fileBuffer + seg.fileOffset + (max vaddr seg.vaddrStart - seg.vaddrStart) := by
      apply Nat.mod_eq_of_lt
      have := hstaged.fits
      omega
    have hfrom : fileBuffer + seg.fileOffset + (max vaddr seg.vaddrStart - seg.vaddrStart) +
        (v - max vaddr seg.vaddrStart) = fileBuffer + (seg.fileOffset + (v - seg.vaddrStart)) := by
      omega
    have hout := hoff (fileBuffer + (seg.fileOffset + (v - seg.vaddrStart))) ⟨by omega, by omega⟩
    rw [hsrc, show paddr + (v - vaddr) = paddr + (max vaddr seg.vaddrStart - vaddr) +
        (v - max vaddr seg.vaddrStart) from by omega, copy_of_mem (by omega) (by omega), hfrom,
      fill_of_notMem hout, hstaged.bytes _ hfile]
  · intro hout
    split
    · rw [copy_of_notMem (by omega), hclear]
    · exact hclear

end Page

/-! ### What the loader keeps -/

/-- What the loader relies on until the allocator is in `p`: its blocks fit into page-table entries, and
neither they nor the tables lie over the file. -/
structure Clear (pml4 fileBuffer : ℕ) (image : List UInt8) (s₀ : VmState) (p : PmmState) : Prop where
  low : ∀ a, Returned s₀.pmm p a → a < 2 ^ 52
  tables : ∀ x, InImage fileBuffer image x → OffTables s₀.mem (fun r => r = pml4) x
  blocks : ∀ x, InImage fileBuffer image x → ¬ Taken s₀.pmm p x

theorem Clear.mono {pml4 fileBuffer : ℕ} {image : List UInt8} {s₀ : VmState} {p p' : PmmState}
    (h : Clear pml4 fileBuffer image s₀ p') (hp : Allocates p p') : Clear pml4 fileBuffer image s₀ p where
  low := fun a ha => h.low a (ha.mono (Allocates.refl _) hp)
  tables := h.tables
  blocks := fun x hx ht => h.blocks x hx (ht.mono (Allocates.refl _) hp)

/-- **What the loader keeps**, from the state `s₀` at the call to the state `s`. -/
structure Loading (pml4 fileBuffer : ℕ) (image : List UInt8) (s₀ s : VmState) : Prop where
  forest : Forest s (fun r => r = pml4)
  small : Flagged NoHuge s.mem (fun r => r = pml4)
  allocates : Allocates s₀.pmm s.pmm
  /-- a table was there or is a new block -/
  tables : ∀ t, Node (next s.mem) (fun r => r = pml4) 3 t →
    Node (next s₀.mem) (fun r => r = pml4) 3 t ∨ Returned s₀.pmm s.pmm t
  file : ∀ x, InImage fileBuffer image x → s.mem x = s₀.mem x

/-- At the call. -/
theorem loading_start {s : VmState} {pml4 : ℕ} (h : TreeOk s pml4) (fileBuffer : ℕ) (image : List UInt8) :
    Loading pml4 fileBuffer image s s :=
  ⟨h.forest, h.flagged, Allocates.refl _, fun _ ht => Or.inl ht, fun _ _ => rfl⟩

/-- The first half of a round: a block is taken and mapped. -/
def mapBlock (s : VmState) (pml4 vaddr : ℕ) : VmState :=
  vmmMapPage { s with pmm := (pmmAllocBlock s.pmm).2 } pml4 vaddr (pmmAllocBlock s.pmm).1 pagingFlagsAll

theorem elfPage_eq {pml4 fileBuffer vaddr : ℕ} {seg : Segment} {s : VmState}
    (h0 : (pmmAllocBlock s.pmm).1 ≠ 0) :
    elfPage s pml4 fileBuffer seg vaddr =
      (true, { mapBlock s pml4 vaddr with
        mem := copySegment (fill (mapBlock s pml4 vaddr).mem (pmmAllocBlock s.pmm).1 pageSize 0) fileBuffer
          seg vaddr (pmmAllocBlock s.pmm).1 }) := by
  rw [elfPage]
  exact if_neg h0

theorem returned_aligned {p p' : PmmState} {a : ℕ} (h : Returned p p' a) : a % 4096 = 0 := by
  obtain ⟨i, rfl, -⟩ := h.block
  rw [blockSize]
  omega

theorem leafEntry_block {a : ℕ} (ha : a % 4096 = 0) (hlt : a < 2 ^ 52) :
    leafEntry a pagingFlagsAll = a + 7 := by
  obtain ⟨n, rfl⟩ := Nat.dvd_of_mod_eq_zero ha
  rw [Nat.mul_comm]
  exact leafEntry_page (by omega)

theorem allocates_mapBlock (s : VmState) (pml4 vaddr : ℕ) :
    Allocates (pmmAllocBlock s.pmm).2 (mapBlock s pml4 vaddr).pmm :=
  allocates_vmmMapPage { s with pmm := (pmmAllocBlock s.pmm).2 } pml4 vaddr _ _

/-- The block is used once it is taken. -/
theorem used_block {s : VmState} (h0 : (pmmAllocBlock s.pmm).1 ≠ 0) :
    testBit (pmmAllocBlock s.pmm).2.bitmap ((pmmAllocBlock s.pmm).1 / 4096) = true := by
  obtain ⟨j, haddr, -, -, -, hstate⟩ := pmmAllocBlock_fresh s.pmm h0
  rw [hstate, haddr, blockSize, Nat.mul_div_cancel _ (by decide)]
  simp [testBit_setBit]

/-- A block that was handed out before is another one. -/
theorem ne_block {p₀ : PmmState} {s : VmState} (h0 : (pmmAllocBlock s.pmm).1 ≠ 0) {b : ℕ}
    (hb : Returned p₀ s.pmm b) : b ≠ (pmmAllocBlock s.pmm).1 := by
  rintro rfl
  obtain ⟨i, hblock, -, -, hused⟩ := hb.block
  obtain ⟨j, haddr, -, hfree, -, -⟩ := pmmAllocBlock_fresh s.pmm h0
  rw [haddr] at hblock
  rw [Nat.eq_of_mul_eq_mul_right (by decide) hblock] at hfree
  exact absurd (hused.symm.trans hfree) (by decide)

section Map

variable {pml4 fileBuffer vaddr : ℕ} {image : List UInt8} {seg : Segment} {s₀ s : VmState}
variable (h : Loading pml4 fileBuffer image s₀ s)
include h

theorem Loading.returned_block (h0 : (pmmAllocBlock s.pmm).1 ≠ 0) :
    Returned s₀.pmm (mapBlock s pml4 vaddr).pmm (pmmAllocBlock s.pmm).1 :=
  ⟨s.pmm, h.allocates, allocates_mapBlock s pml4 vaddr, rfl, h0⟩

theorem Loading.forest_alloc : Forest { s with pmm := (pmmAllocBlock s.pmm).2 } (fun r => r = pml4) :=
  Forest.transfer (s := s) (fun _ _ _ => rfl) h.forest (fun _ hj => used_mono _ hj)

theorem Loading.staged (hstaged : Staged s₀.mem fileBuffer image) : Staged s.mem fileBuffer image where
  fits := hstaged.fits
  bytes := fun j hj => (h.file _ ⟨by omega, by omega⟩).trans (hstaged.bytes j hj)

variable (hclear : Clear pml4 fileBuffer image s₀ (mapBlock s pml4 vaddr).pmm)
include hclear

theorem Loading.lowBlocks : LowBlocks { s with pmm := (pmmAllocBlock s.pmm).2 } pml4 vaddr := by
  intro a ha
  apply hclear.low a
  rw [mapBlock, vmmMapPage_pmm]
  exact ha.mono (h.allocates.trans (allocates_alloc _)) (Allocates.refl _)

/-- The block of the page is not a table. -/
theorem Loading.not_node_block (h0 : (pmmAllocBlock s.pmm).1 ≠ 0) :
    ¬ Node (next (mapBlock s pml4 vaddr).mem) (fun r => r = pml4) 3 (pmmAllocBlock s.pmm).1 := by
  intro hnode
  cases node_vmmMapPage h.forest_alloc (h.lowBlocks hclear) _ _ hnode with
  | inl hold => exact h.forest.fresh h0 hold
  | inr hreturned => exact absurd ((used_block h0).symm.trans hreturned.free) (by decide)

/-- Bytes outside the tables and the new blocks stay. -/
theorem Loading.kept {x : ℕ} (hoff : OffTables s.mem (fun r => r = pml4) x)
    (htaken : ¬ Taken (pmmAllocBlock s.pmm).2 (mapBlock s pml4 vaddr).pmm x) :
    (mapBlock s pml4 vaddr).mem x = s.mem x :=
  vmmMapPage_kept h.forest_alloc (h.lowBlocks hclear) _ _ hoff htaken

/-- The bytes of an earlier page stay. -/
theorem Loading.block_mapBlock {b x : ℕ} (hb : Returned s₀.pmm s.pmm b)
    (hnode : ¬ Node (next s.mem) (fun r => r = pml4) 3 b) (hx : b ≤ x) (hx' : x < b + pageSize) :
    (mapBlock s pml4 vaddr).mem x = s.mem x := by
  have halign := returned_aligned hb
  rw [pageSize] at hx'
  apply h.kept hclear
  · rintro t ht ⟨htx, htx'⟩
    have htalign := h.forest.aligned_of_node ht
    rw [pageSize] at htx'
    obtain rfl : t = b := by omega
    exact hnode ht
  · rintro ⟨a, ha, hax, hax'⟩
    have haalign := returned_aligned ha
    rw [blockSize] at hax'
    obtain rfl : a = b := by omega
    obtain ⟨i, rfl, -, -, hused⟩ := hb.block
    have hfree := ha.free
    rw [blockSize, Nat.mul_div_cancel _ (by decide), used_mono _ hused] at hfree
    cases hfree

/-- The block of an earlier page is still not a table. -/
theorem Loading.not_node_mapBlock {b : ℕ} (hb : Returned s₀.pmm s.pmm b)
    (hnode : ¬ Node (next s.mem) (fun r => r = pml4) 3 b) :
    ¬ Node (next (mapBlock s pml4 vaddr).mem) (fun r => r = pml4) 3 b := by
  intro hnew
  cases node_vmmMapPage h.forest_alloc (h.lowBlocks hclear) _ _ hnew with
  | inl hold => exact hnode hold
  | inr hreturned =>
    obtain ⟨i, rfl, -, -, hused⟩ := hb.block
    have hfree := hreturned.free
    rw [blockSize, Nat.mul_div_cancel _ (by decide), used_mono _ hused] at hfree
    cases hfree

/-- The entries after the page was mapped. -/
theorem Loading.pageEntry_mapBlock (h0 : (pmmAllocBlock s.pmm).1 ≠ 0)
    (htables : ¬ AllocFails { s with pmm := (pmmAllocBlock s.pmm).2 } pml4 vaddr) (u : ℕ) :
    pageEntry (mapBlock s pml4 vaddr).mem pml4 u =
      if indices u = indices vaddr then some ((pmmAllocBlock s.pmm).1 + 7)
      else pageEntry s.mem pml4 u := by
  have halign := pmmAllocBlock_aligned s.pmm
  have hleaf := leafEntry_block halign (hclear.low _ (h.returned_block h0))
  have hpresent : present ((pmmAllocBlock s.pmm).1 + 7) = true := by
    rw [present_iff]
    rw [blockSize] at halign
    omega
  rw [allocFails_iff] at htables
  rw [mapBlock, pageEntry_vmmMapPage h.forest_alloc (h.lowBlocks hclear) _ _ htables, hleaf,
    if_pos hpresent]

/-- **The first half of a round.** -/
theorem loading_mapBlock : Loading pml4 fileBuffer image s₀ (mapBlock s pml4 vaddr) where
  forest := forest_vmmMapPage h.forest_alloc (h.lowBlocks hclear) _ _
  small := flagged_vmmMapPage h.forest_alloc (h.lowBlocks hclear) _ _ (show NoHuge 7 from rfl) h.small
  allocates := h.allocates.trans ((allocates_alloc _).trans (allocates_mapBlock s pml4 vaddr))
  tables := by
    have hone := allocates_alloc s.pmm
    intro t ht
    cases node_vmmMapPage h.forest_alloc (h.lowBlocks hclear) _ _ ht with
    | inl hold =>
      exact (h.tables t hold).imp_right fun hr =>
        hr.mono (Allocates.refl _) (hone.trans (allocates_mapBlock s pml4 vaddr))
    | inr hnew => exact Or.inr (hnew.mono (h.allocates.trans hone) (Allocates.refl _))
  file := by
    have hall := (allocates_alloc s.pmm).trans (allocates_mapBlock s pml4 vaddr)
    intro x hx
    rw [← h.file x hx]
    apply h.kept hclear
    · intro t ht hin
      cases h.tables t ht with
      | inl hold => exact hclear.tables x hx t hold hin
      | inr hnew => exact hclear.blocks x hx ⟨t, hnew.mono (Allocates.refl _) hall, hin⟩
    · exact fun ht => hclear.blocks x hx (ht.mono (h.allocates.trans (allocates_alloc _)) (Allocates.refl _))

end Map

/-! ### Loops of the loader -/

section Loops

variable {pml4 fileBuffer vaddr : ℕ} {image : List UInt8} {seg : Segment} {s₀ s : VmState}

theorem elfPage_pmm (h0 : (pmmAllocBlock s.pmm).1 ≠ 0) :
    (elfPage s pml4 fileBuffer seg vaddr).2.pmm = (mapBlock s pml4 vaddr).pmm := by
  rw [elfPage_eq h0]

theorem elfPage_mem (h0 : (pmmAllocBlock s.pmm).1 ≠ 0) :
    (elfPage s pml4 fileBuffer seg vaddr).2.mem =
      copySegment (fill (mapBlock s pml4 vaddr).mem (pmmAllocBlock s.pmm).1 pageSize 0) fileBuffer seg vaddr
        (pmmAllocBlock s.pmm).1 := by
  rw [elfPage_eq h0]

theorem elfPage_state (h0 : (pmmAllocBlock s.pmm).1 ≠ 0) :
    (elfPage s pml4 fileBuffer seg vaddr).2 =
      { mapBlock s pml4 vaddr with mem := (elfPage s pml4 fileBuffer seg vaddr).2.mem } := by
  rw [elfPage_eq h0]

/-- The second half of a round writes into the block. -/
theorem elfPage_of_notMem (h0 : (pmmAllocBlock s.pmm).1 ≠ 0) {x : ℕ}
    (hx : x < (pmmAllocBlock s.pmm).1 ∨ (pmmAllocBlock s.pmm).1 + pageSize ≤ x) :
    (elfPage s pml4 fileBuffer seg vaddr).2.mem x = (mapBlock s pml4 vaddr).mem x := by
  rw [elfPage_mem h0, copySegment_of_notMem hx, fill_of_notMem hx]

theorem block_of_elfPage (hok : (elfPage s pml4 fileBuffer seg vaddr).1 = true) :
    (pmmAllocBlock s.pmm).1 ≠ 0 := by
  intro h0
  rw [elfPage] at hok
  simp only [h0, if_true] at hok
  cases hok

theorem elfPages_succ (n : ℕ) (hok : (elfPage s pml4 fileBuffer seg vaddr).1 = true) :
    elfPages pml4 fileBuffer seg (n + 1) vaddr s =
      elfPages pml4 fileBuffer seg n (vaddr + pageSize) (elfPage s pml4 fileBuffer seg vaddr).2 := by
  rw [elfPages]
  generalize elfPage s pml4 fileBuffer seg vaddr = r at hok ⊢
  obtain ⟨ok, s'⟩ := r
  obtain rfl : ok = true := hok
  rfl

theorem elfPage_of_elfPages {n : ℕ} (hok : (elfPages pml4 fileBuffer seg (n + 1) vaddr s).1 = true) :
    (elfPage s pml4 fileBuffer seg vaddr).1 = true := by
  rw [elfPages] at hok
  generalize elfPage s pml4 fileBuffer seg vaddr = r at hok ⊢
  obtain ⟨ok, s'⟩ := r
  cases ok with
  | true => rfl
  | false => exact hok

theorem elfHeaders_succ (pml4 fileBuffer phdr fuel i : ℕ) (s : VmState) :
    elfHeaders pml4 fileBuffer phdr (fuel + 1) i s =
      if i < readLe s.mem (fileBuffer + 56) 2 then
        if readLe s.mem (phdrAddr phdr i) 4 = 1 then
          let loaded := elfSegment s pml4 fileBuffer (segmentAt s.mem (phdrAddr phdr i))
          if loaded.1 then elfHeaders pml4 fileBuffer phdr fuel (i + 1) loaded.2 else (false, loaded.2)
        else elfHeaders pml4 fileBuffer phdr fuel (i + 1) s
      else (true, s) := by
  rw [elfHeaders]
  generalize elfSegment s pml4 fileBuffer (segmentAt s.mem (phdrAddr phdr i)) = r
  obtain ⟨ok, s'⟩ := r
  cases ok <;> rfl

theorem allocates_elfPages (n vaddr : ℕ) (s : VmState) :
    Allocates s.pmm (elfPages pml4 fileBuffer seg n vaddr s).2.pmm := by
  have hevents := allocates_events ⟨s, []⟩ (elfPagesEvents pml4 fileBuffer seg n vaddr s)
  rw [run_elfPagesEvents] at hevents
  exact hevents

/-- A block that is not a table can be written. -/
theorem Loading.writeBlock (h : Loading pml4 fileBuffer image s₀ s) {a : ℕ} {mem : Memory}
    (ha : Returned s₀.pmm s.pmm a) (hnode : ¬ Node (next s.mem) (fun r => r = pml4) 3 a)
    (hblocks : ∀ x, InImage fileBuffer image x → ¬ Taken s₀.pmm s.pmm x)
    (hmem : ∀ x, x < a ∨ a + pageSize ≤ x → mem x = s.mem x) :
    Loading pml4 fileBuffer image s₀ { s with mem := mem } := by
  have hentry : ∀ t k, Node (next s.mem) (fun r => r = pml4) 3 t →
      entry ({ s with mem := mem } : VmState).mem t k = entry s.mem t k :=
    fun t k ht => h.forest.entry_of_block (returned_aligned ha) hnode hmem ht k
  refine ⟨Forest.transfer hentry h.forest (fun _ hj => hj), Flagged.transfer hentry h.small, h.allocates, ?_, ?_⟩
  · rintro t ⟨r, q, hr, hq, ht⟩
    rw [reach_transfer hentry hr hq] at ht
    exact h.tables t ⟨r, q, hr, hq, ht⟩
  · intro x hx
    rw [← h.file x hx]
    apply hmem
    by_contra hin
    exact hblocks x hx ⟨a, ha, by omega, by rw [blockSize]; rw [pageSize] at hin; omega⟩

/-- **One page** of any header. -/
theorem loading_elfPage (h : Loading pml4 fileBuffer image s₀ s)
    (hok : (elfPage s pml4 fileBuffer seg vaddr).1 = true)
    (hclear : Clear pml4 fileBuffer image s₀ (elfPage s pml4 fileBuffer seg vaddr).2.pmm) :
    Loading pml4 fileBuffer image s₀ (elfPage s pml4 fileBuffer seg vaddr).2 := by
  have h0 := block_of_elfPage hok
  rw [elfPage_pmm h0] at hclear
  rw [elfPage_state h0]
  exact (loading_mapBlock h hclear).writeBlock (h.returned_block h0) (h.not_node_block hclear h0)
    hclear.blocks (fun x hx => elfPage_of_notMem h0 hx)

/-- The pages of any header. -/
theorem loading_elfPages (n : ℕ) : ∀ {vaddr : ℕ} {s : VmState}, Loading pml4 fileBuffer image s₀ s →
    (elfPages pml4 fileBuffer seg n vaddr s).1 = true →
    Clear pml4 fileBuffer image s₀ (elfPages pml4 fileBuffer seg n vaddr s).2.pmm →
    Loading pml4 fileBuffer image s₀ (elfPages pml4 fileBuffer seg n vaddr s).2 := by
  induction n with
  | zero => exact fun h _ _ => h
  | succ n ih =>
    intro vaddr s h hok hclear
    have hpage := elfPage_of_elfPages hok
    rw [elfPages_succ n hpage] at hok hclear ⊢
    exact ih (loading_elfPage h hpage (hclear.mono (allocates_elfPages n _ _))) hok hclear

/-- **Any number of headers.** -/
theorem loading_elfHeaders {phdr : ℕ} (fuel : ℕ) : ∀ {i : ℕ} {s : VmState},
    Loading pml4 fileBuffer image s₀ s → (elfHeaders pml4 fileBuffer phdr fuel i s).1 = true →
    Clear pml4 fileBuffer image s₀ (elfHeaders pml4 fileBuffer phdr fuel i s).2.pmm →
    Loading pml4 fileBuffer image s₀ (elfHeaders pml4 fileBuffer phdr fuel i s).2 := by
  induction fuel with
  | zero => exact fun h _ _ => h
  | succ fuel ih =>
    intro i s h hok hclear
    rw [elfHeaders_succ] at hok hclear ⊢
    dsimp only at hok hclear ⊢
    split_ifs at hok hclear ⊢ with hi htype hloaded
    · have hsegment := loading_elfPages _ h hloaded (hclear.mono (allocates_elfHeaders _ _ _ fuel _ _))
      exact ih hsegment hok hclear
    · exact ih h hok hclear
    · exact h

end Loops

/-! ### The pages of one header -/

/-- Every allocation of the loop succeeds: the blocks of the pages and those of the tables. -/
def AllSucceed (pml4 fileBuffer : ℕ) (seg : Segment) : ℕ → ℕ → VmState → Prop
  | 0, _, _ => True
  | n + 1, vaddr, s =>
    (pmmAllocBlock s.pmm).1 ≠ 0 ∧ ¬ AllocFails { s with pmm := (pmmAllocBlock s.pmm).2 } pml4 vaddr ∧
      AllSucceed pml4 fileBuffer seg n (vaddr + pageSize) (elfPage s pml4 fileBuffer seg vaddr).2

/-- The page of `v` is in place, in a block handed out from `p₀` to `p`. -/
def PageIn (pml4 : ℕ) (image : List UInt8) (seg : Segment) (p₀ p : PmmState) (m : Memory) (v : ℕ) : Prop :=
  ∃ b, Returned p₀ p b ∧ ¬ Node (next m) (fun r => r = pml4) 3 b ∧ pageEntry m pml4 v = some (b + 7) ∧
    SegmentByte image seg v (m (b + v % 4096))

/-- The pages from `first` to `vaddr` are in place. -/
def PagesIn (pml4 : ℕ) (image : List UInt8) (seg : Segment) (p₀ p : PmmState) (m : Memory)
    (first vaddr : ℕ) : Prop :=
  ∀ v, first ≤ v → v < vaddr → PageIn pml4 image seg p₀ p m v

section Segment

variable {pml4 fileBuffer vaddr first : ℕ} {image : List UInt8} {seg : Segment} {s₀ s : VmState}

section Round

variable (h : Loading pml4 fileBuffer image s₀ s) (h0 : (pmmAllocBlock s.pmm).1 ≠ 0)
  (htables : ¬ AllocFails { s with pmm := (pmmAllocBlock s.pmm).2 } pml4 vaddr)
  (hclear : Clear pml4 fileBuffer image s₀ (mapBlock s pml4 vaddr).pmm)
include h h0 hclear

/-- Filling the block leaves the tables alone. -/
theorem Loading.entry_fillBlock {t : ℕ} {k : Fin 512}
    (ht : Node (next (mapBlock s pml4 vaddr).mem) (fun r => r = pml4) 3 t) :
    entry (elfPage s pml4 fileBuffer seg vaddr).2.mem t k =
      entry (mapBlock s pml4 vaddr).mem t k := by
  have hreturned : Returned s₀.pmm (mapBlock s pml4 vaddr).pmm (pmmAllocBlock s.pmm).1 :=
    h.returned_block h0
  exact (loading_mapBlock h hclear).forest.entry_of_block (returned_aligned hreturned)
    (h.not_node_block hclear h0) (fun x hx => elfPage_of_notMem h0 hx) ht k

theorem Loading.not_node_elfPage {b : ℕ}
    (hb : ¬ Node (next (mapBlock s pml4 vaddr).mem) (fun r => r = pml4) 3 b) :
    ¬ Node (next (elfPage s pml4 fileBuffer seg vaddr).2.mem) (fun r => r = pml4) 3 b := by
  rintro ⟨r, q, hr, hq, hreach⟩
  rw [reach_transfer (s := mapBlock s pml4 vaddr)
    (fun t k ht => h.entry_fillBlock h0 hclear (k := k) ht) hr hq] at hreach
  exact hb ⟨r, q, hr, hq, hreach⟩

include htables

theorem Loading.pageEntry_elfPage (u : ℕ) :
    pageEntry (elfPage s pml4 fileBuffer seg vaddr).2.mem pml4 u =
      if indices u = indices vaddr then some ((pmmAllocBlock s.pmm).1 + 7)
      else pageEntry s.mem pml4 u := by
  rw [← h.pageEntry_mapBlock hclear h0 htables u]
  exact pageEntry_transfer (s := mapBlock s pml4 vaddr) (fun t k ht => h.entry_fillBlock h0 hclear ht)
    (show (fun r => r = pml4) pml4 from rfl) u

/-- An earlier page stays in place. -/
theorem Loading.pageIn_old {v : ℕ} {old : Segment} (hne : indices v ≠ indices vaddr)
    (hpage : PageIn pml4 image old s₀.pmm s.pmm s.mem v) :
    PageIn pml4 image old s₀.pmm (elfPage s pml4 fileBuffer seg vaddr).2.pmm
      (elfPage s pml4 fileBuffer seg vaddr).2.mem v := by
  obtain ⟨b, hb, hnode, hentry, hbyte⟩ := hpage
  have halign := returned_aligned hb
  have hblock := pmmAllocBlock_aligned s.pmm
  have hother := ne_block h0 hb
  have hnew : ¬ Node (next (elfPage s pml4 fileBuffer seg vaddr).2.mem) (fun r => r = pml4) 3 b :=
    h.not_node_elfPage h0 hclear (h.not_node_mapBlock hclear hb hnode)
  refine ⟨b, hb.mono (Allocates.refl _) (allocates_elfPage _ _ _ _ _), hnew, ?_, ?_⟩
  · rw [h.pageEntry_elfPage h0 htables hclear, if_neg hne, hentry]
  · have hmapped := h.block_mapBlock hclear hb hnode (x := b + v % 4096) (by omega)
      (by rw [pageSize]; omega)
    have hkept : (elfPage s pml4 fileBuffer seg vaddr).2.mem (b + v % 4096) = s.mem (b + v % 4096) := by
      rw [← hmapped]
      apply elfPage_of_notMem h0
      rw [blockSize] at hblock
      rw [pageSize]
      omega
    rw [hkept]
    exact hbyte

/-- The new page is in place. -/
theorem Loading.pageIn_new (hstaged : Staged s₀.mem fileBuffer image) (halign : vaddr % 4096 = 0)
    (hend : seg.vaddrStart + seg.fileSize < 2 ^ 64) (hpage : vaddr + pageSize < 2 ^ 64) {v : ℕ}
    (hv : vaddr ≤ v) (hv' : v < vaddr + pageSize) :
    PageIn pml4 image seg s₀.pmm (elfPage s pml4 fileBuffer seg vaddr).2.pmm
      (elfPage s pml4 fileBuffer seg vaddr).2.mem v := by
  have hreturned : Returned s₀.pmm (mapBlock s pml4 vaddr).pmm (pmmAllocBlock s.pmm).1 :=
    h.returned_block h0
  have hsame : indices v = indices vaddr := by
    rw [pageSize] at hv'
    rw [indices_eq_iff, SamePage]
    omega
  refine ⟨(pmmAllocBlock s.pmm).1, ?_, h.not_node_elfPage h0 hclear (h.not_node_block hclear h0), ?_, ?_⟩
  · rw [elfPage_pmm h0]
    exact hreturned
  · rw [h.pageEntry_elfPage h0 htables hclear, if_pos hsame]
  · have hoff : ∀ x, InImage fileBuffer image x →
        x < (pmmAllocBlock s.pmm).1 ∨ (pmmAllocBlock s.pmm).1 + pageSize ≤ x := by
      intro x hx
      by_contra hin
      rw [pageSize] at hin
      exact hclear.blocks x hx ⟨_, hreturned, by omega, by rw [blockSize]; omega⟩
    have hplace : v % 4096 = v - vaddr := by
      rw [pageSize] at hv'
      omega
    rw [elfPage_mem h0, hplace]
    exact copySegment_byte ((loading_mapBlock h hclear).staged hstaged) hend hpage hoff hv hv'

end Round

/-- **The loop over the pages of a header.** -/
theorem pagesIn_elfPages (hstaged : Staged s₀.mem fileBuffer image)
    (hend : seg.vaddrStart + seg.fileSize < 2 ^ 64) (n : ℕ) : ∀ {vaddr : ℕ} {s : VmState},
    Loading pml4 fileBuffer image s₀ s → PagesIn pml4 image seg s₀.pmm s.pmm s.mem first vaddr →
    AllSucceed pml4 fileBuffer seg n vaddr s →
    Clear pml4 fileBuffer image s₀ (elfPages pml4 fileBuffer seg n vaddr s).2.pmm →
    vaddr % 4096 = 0 → vaddr + 4096 * n ≤ 2 ^ 48 →
    Loading pml4 fileBuffer image s₀ (elfPages pml4 fileBuffer seg n vaddr s).2 ∧
      PagesIn pml4 image seg s₀.pmm (elfPages pml4 fileBuffer seg n vaddr s).2.pmm
        (elfPages pml4 fileBuffer seg n vaddr s).2.mem first (vaddr + 4096 * n) := by
  induction n with
  | zero => exact fun h hpages _ _ _ _ => ⟨h, hpages⟩
  | succ n ih =>
    intro vaddr s h hpages hall hclear halign hlast
    have hstep : vaddr + 4096 * (n + 1) = vaddr + pageSize + 4096 * n := by
      unfold pageSize
      omega
    rw [hstep] at hlast ⊢
    obtain ⟨h0, htables, hrest⟩ := hall
    have hok : (elfPage s pml4 fileBuffer seg vaddr).1 = true := by rw [elfPage_eq h0]
    rw [elfPages_succ n hok] at hclear ⊢
    have hpage : Clear pml4 fileBuffer image s₀ (elfPage s pml4 fileBuffer seg vaddr).2.pmm :=
      hclear.mono (allocates_elfPages n _ _)
    have hmap : Clear pml4 fileBuffer image s₀ (mapBlock s pml4 vaddr).pmm := by
      rw [elfPage_pmm h0] at hpage
      exact hpage
    have hnext : PagesIn pml4 image seg s₀.pmm (elfPage s pml4 fileBuffer seg vaddr).2.pmm
        (elfPage s pml4 fileBuffer seg vaddr).2.mem first (vaddr + pageSize) := by
      intro v hv hv'
      by_cases hold : v < vaddr
      · refine h.pageIn_old h0 htables hmap ?_ (hpages v hv hold)
        rw [Ne, indices_eq_iff, SamePage]
        omega
      · exact h.pageIn_new h0 htables hmap hstaged halign hend (by omega) (by omega) hv'
    exact ih (loading_elfPage h hok hpage) hnext hrest hclear (by unfold pageSize; omega) hlast

/-- What is seen through the PML4. -/
theorem PageIn.seen {p₀ p : PmmState} {m : Memory} {v : ℕ} (h : PageIn pml4 image seg p₀ p m v)
    (hsmall : Flagged NoHuge m (fun r => r = pml4)) (hlow : ∀ a, Returned p₀ p a → a < 2 ^ 52) :
    ∃ x, translate m pml4 v = some x ∧ SegmentByte image seg v (m x) := by
  obtain ⟨b, hb, -, hentry, hbyte⟩ := h
  refine ⟨b + v % 4096, ?_, hbyte⟩
  rw [translate_eq hsmall rfl, hentry, Option.map_some, tableOf_pointer (returned_aligned hb) (hlow b hb)]
  rfl

end Segment

/-! ### The segment -/

/-- `phdr`: the address of the program headers. -/
def programHeaders (m : Memory) (fileBuffer : ℕ) : ℕ := (fileBuffer + readLe m (fileBuffer + 32) 8) % 2 ^ 64

/-- The call of `elf_load_file` in `s` has come to header `i`, a segment to load, and is in `sᵢ`. -/
structure AtSegment (s : VmState) (pml4 fileBuffer i : ℕ) (sᵢ : VmState) (seg : Segment) : Prop where
  supported : elfCheckSupported s.mem fileBuffer = true
  before : elfHeaders pml4 fileBuffer (programHeaders s.mem fileBuffer) i 0 s = (true, sᵢ)
  counted : i < readLe sᵢ.mem (fileBuffer + 56) 2
  load : readLe sᵢ.mem (phdrAddr (programHeaders s.mem fileBuffer) i) 4 = 1
  segment : seg = segmentAt sᵢ.mem (phdrAddr (programHeaders s.mem fileBuffer) i)

/-- The first page of a segment. -/
def Segment.firstPage (seg : Segment) : ℕ := seg.vaddrStart / pageSize * pageSize

/-- The number of its pages. -/
def Segment.pageCount (seg : Segment) : ℕ :=
  ((seg.vaddrStart + seg.memSize + pageSize - 1) % 2 ^ 64 / pageSize * pageSize - seg.firstPage) / pageSize

theorem elfSegment_eq (s : VmState) (pml4 fileBuffer : ℕ) (seg : Segment) :
    elfSegment s pml4 fileBuffer seg = elfPages pml4 fileBuffer seg seg.pageCount seg.firstPage s := rfl

/-- The pages end behind the segment. -/
theorem Segment.lastPage {seg : Segment} (hend : seg.vaddrStart + seg.memSize + 4095 < 2 ^ 48) :
    seg.vaddrStart + seg.memSize ≤ seg.firstPage + 4096 * seg.pageCount ∧
      seg.firstPage + 4096 * seg.pageCount ≤ 2 ^ 48 := by
  unfold pageCount firstPage pageSize
  omega

/-- **A loaded segment**: through the PML4 its bytes are those of the file, and zeros up to its size in
memory and around it. -/
theorem segment_image (s sᵢ : VmState) (pml4 fileBuffer i : ℕ) (image : List UInt8) (seg : Segment)
    (hat : AtSegment s pml4 fileBuffer i sᵢ seg) (hsize : seg.fileSize ≤ seg.memSize)
    (hend : seg.vaddrStart + seg.memSize + 4095 < 2 ^ 48)
    (hall : AllSucceed pml4 fileBuffer seg seg.pageCount seg.firstPage sᵢ) (htree : TreeOk s pml4)
    (hstaged : Staged s.mem fileBuffer image)
    (hkernel : ∀ x, Taken s.pmm (elfSegment sᵢ pml4 fileBuffer seg).2.pmm x →
      translate s.mem s.currentPml4 x = some x)
    (htables : ∀ x, InImage fileBuffer image x → OffTables s.mem (fun r => r = pml4) x)
    (hblocks : ∀ x, InImage fileBuffer image x → ¬ Taken s.pmm (elfSegment sᵢ pml4 fileBuffer seg).2.pmm x) :
    let s' := (elfSegment sᵢ pml4 fileBuffer seg).2
    (∀ k, k < seg.memSize → ∃ x, translate s'.mem pml4 (seg.vaddrStart + k) = some x ∧
        (k < seg.fileSize → seg.fileOffset + k < image.length →
          s'.mem x = image.getD (seg.fileOffset + k) 0) ∧
        (seg.fileSize ≤ k → s'.mem x = 0)) ∧
      ∀ v, seg.firstPage ≤ v → v < seg.firstPage + 4096 * seg.pageCount →
        v < seg.vaddrStart ∨ seg.vaddrStart + seg.memSize ≤ v →
        ∃ x, translate s'.mem pml4 v = some x ∧ s'.mem x = 0 := by
  rw [elfSegment_eq] at hkernel hblocks ⊢
  intro s'
  have hclear : Clear pml4 fileBuffer image s s'.pmm := by
    refine ⟨fun a ha => ?_, htables, hblocks⟩
    exact translate_lt (hkernel a ⟨a, ha, le_rfl, by rw [blockSize]; omega⟩)
  have hstate : (elfHeaders pml4 fileBuffer (programHeaders s.mem fileBuffer) i 0 s).2 = sᵢ := by
    rw [hat.before]
  have hbefore : Loading pml4 fileBuffer image s sᵢ := by
    rw [← hstate]
    apply loading_elfHeaders i (loading_start htree fileBuffer image)
    · rw [hat.before]
    · rw [hstate]
      exact hclear.mono (allocates_elfPages _ _ _)
  have hnone : PagesIn pml4 image seg s.pmm sᵢ.pmm sᵢ.mem seg.firstPage seg.firstPage :=
    fun v hv hv' => absurd hv' (by omega)
  obtain ⟨hafter, hpages⟩ := pagesIn_elfPages hstaged (by omega) seg.pageCount hbefore hnone hall hclear
    (by unfold Segment.firstPage pageSize; omega) (Segment.lastPage hend).2
  have hseen : ∀ v, seg.firstPage ≤ v → v < seg.firstPage + 4096 * seg.pageCount →
      ∃ x, translate s'.mem pml4 v = some x ∧ SegmentByte image seg v (s'.mem x) :=
    fun v hv hv' => (hpages v hv hv').seen hafter.small hclear.low
  have hfirst : seg.firstPage ≤ seg.vaddrStart := Nat.div_mul_le_self _ _
  have hlast := (Segment.lastPage hend).1
  constructor
  · intro k hk
    obtain ⟨x, hx, hfile, hzero⟩ := hseen (seg.vaddrStart + k) (by omega) (by omega)
    rw [Nat.add_sub_cancel_left] at hfile
    exact ⟨x, hx, fun hk' => hfile (by omega) (by omega), fun hk' => hzero (Or.inr (by omega))⟩
  · intro v hv hv' hout
    obtain ⟨x, hx, -, hzero⟩ := hseen v hv hv'
    exact ⟨x, hx, hzero (by omega)⟩

/-! ### A small file -/

/-- An ELF file with one segment: two bytes at `0x400100`, five in memory. -/
def tinyElf : List UInt8 :=
  [0x7F, 69, 76, 70, 2, 1, 1, 0, 0, 0, 0, 0, 0, 0, 0, 0, 2, 0, 62, 0, 1, 0, 0, 0, 0x00, 0x01, 0x40, 0, 0, 0, 0, 0,
    64, 0, 0, 0, 0, 0, 0, 0, 0, 0, 0, 0, 0, 0, 0, 0, 0, 0, 0, 0, 64, 0, 56, 0, 1, 0, 0, 0, 0, 0, 0, 0,
    1, 0, 0, 0, 7, 0, 0, 0, 120, 0, 0, 0, 0, 0, 0, 0, 0x00, 0x01, 0x40, 0, 0, 0, 0, 0, 0, 0, 0, 0, 0, 0, 0, 0,
    2, 0, 0, 0, 0, 0, 0, 0, 5, 0, 0, 0, 0, 0, 0, 0, 0, 16, 0, 0, 0, 0, 0, 0, 0xEB, 0xFE]

/-- The file is at `0x14000`, and the kernel's tables at `0x11000` map the first gigabyte to itself. -/
def tinyMem : Memory :=
  store (store (store (fun _ => 0) 0x11000 [0x03, 0x20, 0x01]) 0x12000 [0x83]) 0x14000 tinyElf

/-- A machine of 16 blocks with an empty PML4 in block 1. -/
def tinyVm : VmState where
  mem := tinyMem
  pmm := ⟨fun _ => 3#32, 16, by decide⟩
  kernelPml4 := 0x11000
  currentPml4 := 0x11000

def tinySegment : Segment := ⟨0x400100, 5, 2, 120⟩

theorem translate_tinyVm {x : ℕ} (hx : x < 0x10000) : translate tinyVm.mem 0x11000 x = some x := by
  have hpml4 : pml4Index x = 0 := by
    rw [pml4Index, Fin.ext_iff, Fin.val_ofNat, Nat.shiftRight_eq_div_pow]
    show x / 2 ^ 39 % 512 = 0
    omega
  have hpdpt : pdptIndex x = 0 := by
    rw [pdptIndex, Fin.ext_iff, Fin.val_ofNat, Nat.shiftRight_eq_div_pow]
    show x / 2 ^ 30 % 512 = 0
    omega
  have hwalk : pageWalk tinyVm.mem 0x11000 x = [0x12003, 0x83] := by
    rw [pageWalk, indices, dirs, hpml4, hpdpt]
    rfl
  rw [Vmm.translate, hwalk]
  show some (tableOf 0x83 / 2 ^ 30 * 2 ^ 30 + x % 2 ^ 30) = some x
  rw [show tableOf 0x83 = 0 from by decide, Nat.mod_eq_of_lt (by omega)]
  norm_num

/-- A machine of 16 blocks with an empty PML4 in block 1 and a file behind them. -/
structure SmallMachine (s : VmState) (image : List UInt8) : Prop where
  zeros : ∀ x, 0x1000 ≤ x → x < 0x2000 → s.mem x = 0
  staged : Staged s.mem 0x14000 image
  total : s.pmm.totalBlocks = 16
  used : testBit s.pmm.bitmap 1 = true

section Small

variable {s : VmState} {image : List UInt8} (h : SmallMachine s image)
include h

theorem SmallMachine.empty (k : Fin 512) : present (entry s.mem 0x1000 k) = false := by
  rw [entry_of_zeros h.zeros]
  rfl

theorem SmallMachine.treeOk : TreeOk s 0x1000 :=
  (forest_empty h.empty (by decide) h.used).treeOk (flagged_empty h.empty)

theorem SmallMachine.offTables {x : ℕ} (hx : InImage 0x14000 image x) :
    OffTables s.mem (fun r => r = 0x1000) x := by
  rintro t ⟨r, q, rfl, -, ht⟩ ⟨-, hin⟩
  obtain ⟨-, rfl⟩ := reach_empty h.empty ht
  have := hx.1
  rw [pageSize] at hin
  omega

theorem SmallMachine.taken {p : PmmState} {x : ℕ} (hx : Taken s.pmm p x) : x < 0x10000 := by
  obtain ⟨a, ha, -, hx⟩ := hx
  obtain ⟨i, rfl, hi, -, -⟩ := ha.block
  have htotal := h.total
  rw [blockSize] at hx
  omega

theorem SmallMachine.not_taken {p : PmmState} {x : ℕ} (hx : InImage 0x14000 image x) : ¬ Taken s.pmm p x := by
  intro htaken
  have hlow := h.taken htaken
  have hhigh := hx.1
  omega

end Small

/-- Whatever its blocks are. -/
theorem smallMachine_tinyMem {s : VmState} (hmem : s.mem = tinyMem) (htotal : s.pmm.totalBlocks = 16)
    (hused : testBit s.pmm.bitmap 1 = true) : SmallMachine s tinyElf where
  zeros := by
    intro x hx hx'
    rw [hmem, tinyMem, store_of_notMem (Or.inl (by omega)), store_of_notMem (Or.inl (by omega)),
      store_of_notMem (Or.inl (by omega))]
  staged := by
    rw [hmem]
    exact staged_store (show 0x14000 + 122 ≤ 2 ^ 64 from by omega)
  total := htotal
  used := hused

theorem smallMachine_tinyVm : SmallMachine tinyVm tinyElf := smallMachine_tinyMem rfl rfl (by decide)

/-- The segment of a header, from its fields. -/
theorem segmentAt_eq {m : Memory} {p vaddr memSize fileSize offset : ℕ} (hvaddr : readLe m (p + 16) 8 = vaddr)
    (hmem : readLe m (p + 40) 8 = memSize) (hfile : readLe m (p + 32) 8 = fileSize)
    (hoffset : readLe m (p + 8) 8 = offset) : segmentAt m p = ⟨vaddr, memSize, fileSize, offset⟩ := by
  rw [segmentAt, hvaddr, hmem, hfile, hoffset]

theorem tinySegment_eq :
    tinySegment = segmentAt tinyVm.mem (phdrAddr (programHeaders tinyVm.mem 0x14000) 0) := by
  have hphdr : phdrAddr (programHeaders tinyVm.mem 0x14000) 0 = 0x14040 := by decide +kernel
  rw [hphdr]
  exact (segmentAt_eq (by decide +kernel) (by decide +kernel) (by decide +kernel) (by decide +kernel)).symm

theorem atSegment_tinyVm : AtSegment tinyVm 0x1000 0x14000 0 tinyVm tinySegment where
  supported := by decide +kernel
  before := rfl
  counted := by decide +kernel
  load := by decide +kernel
  segment := tinySegment_eq

theorem segment_image_tinyVm :
    AtSegment tinyVm 0x1000 0x14000 0 tinyVm tinySegment ∧
      ∃ x, translate (elfSegment tinyVm 0x1000 0x14000 tinySegment).2.mem 0x1000 0x400101 = some x ∧
        (elfSegment tinyVm 0x1000 0x14000 tinySegment).2.mem x = 0xFE := by
  have h := smallMachine_tinyVm
  have hall : AllSucceed 0x1000 0x14000 tinySegment tinySegment.pageCount tinySegment.firstPage tinyVm := by
    refine ⟨by decide, ?_, trivial⟩
    rw [allocFails_iff]
    decide
  obtain ⟨hbytes, -⟩ := segment_image tinyVm tinyVm 0x1000 0x14000 0 tinyElf tinySegment atSegment_tinyVm
    (by decide) (by decide) hall h.treeOk h.staged (fun x hx => translate_tinyVm (h.taken hx))
    (fun _ hx => h.offTables hx) (fun _ hx => h.not_taken hx)
  obtain ⟨x, hx, hfile, -⟩ := hbytes 1 (by decide)
  exact ⟨atSegment_tinyVm, x, hx, hfile (by decide) (by decide)⟩

end OsEojin.Exec
