import OsEojin.InPlace

/-!
# `exec` and the file

`exec` stages the file over whatever is at `0x4000000` and hands the address to the loaders, without the
size.  A file whose headers and segments lie inside it gives the same process on every machine with the
same page tables and allocator; one that does not gives what the memory behind it happens to hold.

* `SelfContained`: every byte the loaders use is a byte of the file;
* `Twins.elfLoadFile`, `Twins.execSpawn`: the loaders side by side on two machines;
* `ExecInPlace`, `spawnOk_of_file`: a file whose pages keep away from what the kernel uses;
* `exec_depends_on_file`: the same process;
* `exec_meets_stale_bytes`: an empty file is what was there before.
-/

namespace OsEojin.Vmm

open OsEojin.Lib.ByteMemory OsEojin.Lib.Forests OsEojin.Pmm OsEojin.Exec

/-! ### Files -/

/-- The file staged in an empty memory. -/
def stagedFile (image : List UInt8) : Memory := store (fun _ => 0) loadAddr image

/-- The bytes of the staged file. -/
def InFile (image : List UInt8) (x : ℕ) : Prop := loadAddr ≤ x ∧ x < loadAddr + image.length

/-- `len` bytes from `a` on are bytes of the file. -/
def Inside (image : List UInt8) (a len : ℕ) : Prop :=
  loadAddr ≤ a ∧ a + len ≤ loadAddr + image.length

/-- `ELFMAG0` to `ELFMAG3`. -/
def elfMagic : List UInt8 := [0x7F, 69, 76, 70]

/-- The pages of a segment. -/
def segmentPages (seg : Segment) : ℕ :=
  ((seg.vaddrStart + seg.memSize + pageSize - 1) % 2 ^ 64 / pageSize * pageSize -
    seg.vaddrStart / pageSize * pageSize) / pageSize

/-- Program header `i` is in the file, and so are the bytes of its segment. -/
def HeaderInside (image : List UInt8) (phdr i : ℕ) : Prop :=
  Inside image (phdrAddr phdr i) 4 ∧
    (readLe (stagedFile image) (phdrAddr phdr i) 4 = 1 →
      Inside image (phdrAddr phdr i) 48 ∧
        let seg := segmentAt (stagedFile image) (phdrAddr phdr i)
        ∀ k, k < segmentPages seg →
          SourceIn (InFile image) loadAddr seg (seg.vaddrStart / pageSize * pageSize + k * pageSize))

/-- A segment of the file. -/
def SegmentOf (image : List UInt8) (phdr : ℕ) (seg : Segment) : Prop :=
  ∃ i, i < readLe (stagedFile image) (loadAddr + 56) 2 ∧ readLe (stagedFile image) (phdrAddr phdr i) 4 = 1 ∧
    seg = segmentAt (stagedFile image) (phdrAddr phdr i)

/-- **The file is complete**: the chain holds `file_size` bytes, and `elf_check_file`,
`elf_check_supported` and `elf_load_file` find in them all that they look at. -/
structure SelfContained (image : List UInt8) (fileSize : ℕ) : Prop where
  whole : image.length = fileSize
  /-- not a part of the magic number -/
  magic : 4 ≤ image.length ∨ ¬ image <+: elfMagic
  /-- `e_machine` and `e_type` are there, or the file is refused before they are read -/
  supported : elfCheckFile (stagedFile image) loadAddr = true → 20 ≤ image.length ∨
    5 ≤ image.length ∧ stagedFile image (loadAddr + 4) ≠ 2 ∨
    6 ≤ image.length ∧ stagedFile image (loadAddr + 5) ≠ 1
  /-- the rest of the header, the program headers, the segments -/
  headers : elfCheckSupported (stagedFile image) loadAddr = true → 58 ≤ image.length ∧
    ∀ i, i < readLe (stagedFile image) (loadAddr + 56) 2 →
      HeaderInside image ((loadAddr + readLe (stagedFile image) (loadAddr + 32) 8) % 2 ^ 64) i

/-- The memory has the file where `exec` staged it. -/
def Shows (image : List UInt8) (m : Memory) : Prop := ∀ x, InFile image x → m x = stagedFile image x

section Shows

variable {image : List UInt8} {m : Memory}

theorem shows_store (m : Memory) (image : List UInt8) : Shows image (store m loadAddr image) :=
  fun _ hx => store_congr (Or.inl hx)

theorem Shows.readLe_eq (h : Shows image m) {a len : ℕ} (hin : Inside image a len) :
    readLe m a len = readLe (stagedFile image) a len := by
  obtain ⟨hlow, hhigh⟩ := hin
  apply readLe_congr
  intro x hx hx'
  exact h x ⟨by omega, by omega⟩

theorem Shows.segmentAt_eq (h : Shows image m) {p : ℕ} (hin : Inside image p 48) :
    segmentAt m p = segmentAt (stagedFile image) p := by
  obtain ⟨hlow, hhigh⟩ := hin
  rw [segmentAt, segmentAt, h.readLe_eq ⟨by omega, by omega⟩, h.readLe_eq ⟨by omega, by omega⟩,
    h.readLe_eq ⟨by omega, by omega⟩, h.readLe_eq ⟨by omega, by omega⟩]

theorem elfCheckFile_congr {m' : Memory} {hdr : ℕ} (h : ∀ k, k < 4 → m' (hdr + k) = m (hdr + k)) :
    elfCheckFile m' hdr = elfCheckFile m hdr := by
  have h0 := h 0 (by decide)
  rw [Nat.add_zero] at h0
  rw [elfCheckFile, elfCheckFile, h0, h 1 (by decide), h 2 (by decide), h 3 (by decide)]

/-- The check succeeds only on the magic number. -/
theorem magic_of_elfCheckFile {hdr : ℕ} (h : elfCheckFile m hdr = true) {k : ℕ} (hk : k < 4) :
    m (hdr + k) = elfMagic.getD k 0 := by
  simp only [elfCheckFile, Bool.and_eq_true, beq_iff_eq] at h
  obtain ⟨⟨⟨⟨-, hm0⟩, hm1⟩, hm2⟩, hm3⟩ := h
  obtain rfl | rfl | rfl | rfl : k = 0 ∨ k = 1 ∨ k = 2 ∨ k = 3 := by omega
  · exact hm0
  · exact hm1
  · exact hm2
  · exact hm3

theorem stagedFile_getD {image : List UInt8} {k : ℕ} (hk : k < image.length) :
    stagedFile image (loadAddr + k) = image.getD k 0 := by
  rw [stagedFile, store, if_pos ⟨by omega, by omega⟩, Nat.add_sub_cancel_left]

/-- What `elf_check_file` finds when the file decides. -/
theorem elfCheckFile_staged (h : ∀ k, k < 4 → k < image.length → m (loadAddr + k) =
      stagedFile image (loadAddr + k)) (hmagic : 4 ≤ image.length ∨ ¬ image <+: elfMagic) :
    elfCheckFile m loadAddr = elfCheckFile (stagedFile image) loadAddr := by
  by_cases hlen : 4 ≤ image.length
  · exact elfCheckFile_congr fun k hk => h k hk (by omega)
  · -- a memory that starts with the magic number makes the file a part of it
    have hno : ∀ m' : Memory, (∀ k, k < 4 → k < image.length → m' (loadAddr + k) =
        stagedFile image (loadAddr + k)) → elfCheckFile m' loadAddr = false := by
      intro m' h'
      rw [← Bool.not_eq_true]
      intro helf
      apply hmagic.resolve_left hlen
      rw [List.prefix_iff_getElem?]
      intro k hk
      have hbyte := magic_of_elfCheckFile helf (show k < 4 from by omega)
      rw [h' k (by omega) hk, stagedFile_getD hk] at hbyte
      have hk' : k < elfMagic.length := show k < 4 from by omega
      simp only [List.getD_eq_getElem?_getD, List.getElem?_eq_getElem hk, List.getElem?_eq_getElem hk',
        Option.getD_some] at hbyte
      rw [hbyte, List.getElem?_eq_getElem hk']
    rw [hno m h, hno (stagedFile image) fun _ _ _ => rfl]

/-- What `elf_check_supported` finds when the file decides. -/
theorem Shows.elfCheckSupported_eq (h : Shows image m)
    (hfile : elfCheckFile m loadAddr = elfCheckFile (stagedFile image) loadAddr)
    (hdecided : 20 ≤ image.length ∨ 5 ≤ image.length ∧ stagedFile image (loadAddr + 4) ≠ 2 ∨
      6 ≤ image.length ∧ stagedFile image (loadAddr + 5) ≠ 1) :
    elfCheckSupported m loadAddr = elfCheckSupported (stagedFile image) loadAddr := by
  have hbyte : ∀ k, k < image.length → m (loadAddr + k) = stagedFile image (loadAddr + k) :=
    fun k hk => h _ ⟨by omega, by omega⟩
  rw [elfCheckSupported, elfCheckSupported, hfile]
  rcases hdecided with hlen | ⟨hlen, hclass⟩ | ⟨hlen, hdata⟩
  · rw [hbyte 4 (by omega), hbyte 5 (by omega),
      h.readLe_eq (show Inside image (loadAddr + 18) 2 from ⟨by omega, by omega⟩),
      h.readLe_eq (show Inside image (loadAddr + 16) 2 from ⟨by omega, by omega⟩)]
  · have hclass' : (stagedFile image (loadAddr + 4) == 2) = false := beq_eq_false_iff_ne.mpr hclass
    rw [hbyte 4 (by omega), hclass']
    simp only [Bool.and_false, Bool.false_and]
  · have hdata' : (stagedFile image (loadAddr + 5) == 1) = false := beq_eq_false_iff_ne.mpr hdata
    rw [hbyte 4 (by omega), hbyte 5 (by omega), hdata']
    simp only [Bool.and_false, Bool.false_and]

end Shows

/-! ### The loaders on two machines -/

section Loops

variable {p₀ : PmmState} {T S : ℕ → Prop} {m₀ : Memory} {root : ℕ → Prop} {s₁ s₂ : VmState} {P : ℕ}

theorem Twins.flatLoop (h : Twins p₀ T S m₀ root s₁ s₂) (hP : root P) {size : ℕ}
    (hS : ∀ x, loadAddr ≤ x → x < loadAddr + size → S x) (n offset : ℕ) :
    (flatLoop P size n offset s₂).1 = (flatLoop P size n offset s₁).1 ∧
      Twins p₀ T S m₀ root (flatLoop P size n offset s₁).2 (flatLoop P size n offset s₂).2 := by
  induction n generalizing offset s₁ s₂ with
  | zero => exact ⟨rfl, h⟩
  | succ n ih =>
    obtain ⟨hsame, htwins⟩ := h.flatPage hP hS offset
    rw [Exec.flatLoop, Exec.flatLoop]
    generalize Exec.flatPage s₁ P size offset = r₁ at hsame htwins ⊢
    generalize Exec.flatPage s₂ P size offset = r₂ at hsame htwins ⊢
    obtain ⟨ok₁, s₁'⟩ := r₁
    obtain ⟨ok₂, s₂'⟩ := r₂
    obtain rfl : ok₂ = ok₁ := hsame
    cases ok₂ with
    | false => exact ⟨rfl, htwins⟩
    | true => exact ih htwins (offset + pageSize)

theorem Twins.elfPages (h : Twins p₀ T S m₀ root s₁ s₂) (hP : root P) {fileBuffer : ℕ} {seg : Segment}
    (n vaddr : ℕ) (hS : ∀ k, k < n → SourceIn S fileBuffer seg (vaddr + k * pageSize)) :
    (elfPages P fileBuffer seg n vaddr s₂).1 = (elfPages P fileBuffer seg n vaddr s₁).1 ∧
      Twins p₀ T S m₀ root (elfPages P fileBuffer seg n vaddr s₁).2
        (elfPages P fileBuffer seg n vaddr s₂).2 := by
  induction n generalizing vaddr s₁ s₂ with
  | zero => exact ⟨rfl, h⟩
  | succ n ih =>
    have hfirst := hS 0 (Nat.succ_pos n)
    rw [Nat.zero_mul, Nat.add_zero] at hfirst
    obtain ⟨hsame, htwins⟩ := h.elfPage hP hfirst
    rw [Exec.elfPages, Exec.elfPages]
    generalize Exec.elfPage s₁ P fileBuffer seg vaddr = r₁ at hsame htwins ⊢
    generalize Exec.elfPage s₂ P fileBuffer seg vaddr = r₂ at hsame htwins ⊢
    obtain ⟨ok₁, s₁'⟩ := r₁
    obtain ⟨ok₂, s₂'⟩ := r₂
    obtain rfl : ok₂ = ok₁ := hsame
    cases ok₂ with
    | false => exact ⟨rfl, htwins⟩
    | true =>
      apply ih htwins (vaddr + pageSize)
      intro k hk
      have hnext := hS (k + 1) (Nat.succ_lt_succ hk)
      rw [Nat.succ_mul, Nat.add_comm (k * pageSize), ← Nat.add_assoc] at hnext
      exact hnext

theorem Twins.elfSegment (h : Twins p₀ T S m₀ root s₁ s₂) (hP : root P) {fileBuffer : ℕ} {seg : Segment}
    (hS : ∀ k, k < segmentPages seg →
      SourceIn S fileBuffer seg (seg.vaddrStart / pageSize * pageSize + k * pageSize)) :
    (elfSegment s₂ P fileBuffer seg).1 = (elfSegment s₁ P fileBuffer seg).1 ∧
      Twins p₀ T S m₀ root (elfSegment s₁ P fileBuffer seg).2 (elfSegment s₂ P fileBuffer seg).2 :=
  h.elfPages hP _ _ hS

end Loops

/-- One round of the loop over the program headers, when it reads the file. -/
theorem Shows.elfHeaders_succ {image : List UInt8} {s : VmState} (h : Shows image s.mem)
    (hlen : 58 ≤ image.length) {phdr i : ℕ}
    (hheader : i < readLe (stagedFile image) (loadAddr + 56) 2 → HeaderInside image phdr i)
    (P fuel : ℕ) :
    elfHeaders P loadAddr phdr (fuel + 1) i s =
      if i < readLe (stagedFile image) (loadAddr + 56) 2 then
        if readLe (stagedFile image) (phdrAddr phdr i) 4 = 1 then
          let loaded := elfSegment s P loadAddr (segmentAt (stagedFile image) (phdrAddr phdr i))
          if loaded.1 then elfHeaders P loadAddr phdr fuel (i + 1) loaded.2 else (false, loaded.2)
        else elfHeaders P loadAddr phdr fuel (i + 1) s
      else (true, s) := by
  rw [elfHeaders, h.readLe_eq (show Inside image (loadAddr + 56) 2 from ⟨by omega, by omega⟩)]
  by_cases hi : i < readLe (stagedFile image) (loadAddr + 56) 2
  · obtain ⟨htype, hload⟩ := hheader hi
    rw [if_pos hi, if_pos hi, h.readLe_eq htype]
    by_cases hone : readLe (stagedFile image) (phdrAddr phdr i) 4 = 1
    · rw [if_pos hone, if_pos hone, h.segmentAt_eq (hload hone).1]
      generalize elfSegment s P loadAddr _ = r
      rcases r with ⟨_ | _, s'⟩
      · rfl
      · rfl
    · rw [if_neg hone, if_neg hone]
  · rw [if_neg hi, if_neg hi]

/-- The loader, when it reads the file. -/
theorem Shows.elfLoadFile_eq {image : List UInt8} {s : VmState} (h : Shows image s.mem)
    {fileSize : ℕ} (hfile : SelfContained image fileSize)
    (helf : elfCheckFile (stagedFile image) loadAddr = true) (P : ℕ) :
    elfLoadFile s P loadAddr =
      if elfCheckSupported (stagedFile image) loadAddr then
        let loaded := elfHeaders P loadAddr
          ((loadAddr + readLe (stagedFile image) (loadAddr + 32) 8) % 2 ^ 64) 65536 0 s
        (if loaded.1 then readLe loaded.2.mem (loadAddr + 24) 8 else 0, loaded.2)
      else (0, s) := by
  have hcheck : elfCheckFile s.mem loadAddr = elfCheckFile (stagedFile image) loadAddr :=
    elfCheckFile_staged (fun k _ hk => h _ ⟨by omega, by omega⟩) hfile.magic
  rw [elfLoadFile, h.elfCheckSupported_eq hcheck (hfile.supported helf)]
  by_cases hok : elfCheckSupported (stagedFile image) loadAddr = true
  · have hlen := (hfile.headers hok).1
    rw [if_pos hok, if_pos hok,
      h.readLe_eq (show Inside image (loadAddr + 32) 8 from ⟨by omega, by omega⟩)]
    generalize elfHeaders P loadAddr _ 65536 0 s = r
    rcases r with ⟨_ | _, s'⟩
    · rfl
    · rfl
  · rw [if_neg hok, if_neg hok]

section Loaders

variable {image : List UInt8} {p₀ final : PmmState} {T : ℕ → Prop} {m₀ : Memory} {root : ℕ → Prop}
  {s₁ s₂ : VmState} {P : ℕ} (hm₀ : Shows image m₀) (hmiss : ∀ x, InFile image x → ¬ T x)
  (hspare : ∀ x, InFile image x → ¬ Taken p₀ final x)
include hm₀ hmiss hspare

/-- The file is still there while the blocks taken are outside it. -/
theorem Twins.shows (h : Twins p₀ T (InFile image) m₀ root s₁ s₂) (hfinal : Allocates s₁.pmm final) :
    Shows image s₁.mem ∧ Shows image s₂.mem := by
  have hfirst : Shows image s₁.mem := by
    intro x hx
    rw [h.kept x hx (hmiss x hx)]
    · exact hm₀ x hx
    · exact fun htaken => hspare x hx (htaken.mono (Allocates.refl _) hfinal)
  refine ⟨hfirst, ?_⟩
  intro x hx
  rw [h.same x (Or.inr (Or.inl hx))]
  exact hfirst x hx

/-- The program headers, as long as they and their segments are in the file. -/
theorem Twins.elfHeaders (h : Twins p₀ T (InFile image) m₀ root s₁ s₂) (hP : root P) {phdr : ℕ}
    (hlen : 58 ≤ image.length)
    (hheaders : ∀ i, i < readLe (stagedFile image) (loadAddr + 56) 2 → HeaderInside image phdr i)
    (fuel i : ℕ) (hfinal : Allocates (elfHeaders P loadAddr phdr fuel i s₁).2.pmm final) :
    (elfHeaders P loadAddr phdr fuel i s₂).1 = (elfHeaders P loadAddr phdr fuel i s₁).1 ∧
      Twins p₀ T (InFile image) m₀ root (elfHeaders P loadAddr phdr fuel i s₁).2
        (elfHeaders P loadAddr phdr fuel i s₂).2 := by
  induction fuel generalizing i s₁ s₂ with
  | zero => exact ⟨rfl, h⟩
  | succ fuel ih =>
    obtain ⟨hshows₁, hshows₂⟩ := h.shows hm₀ hmiss hspare
      ((allocates_elfHeaders P loadAddr phdr (fuel + 1) i s₁).trans hfinal)
    rw [hshows₁.elfHeaders_succ hlen (hheaders i)] at hfinal ⊢
    rw [hshows₂.elfHeaders_succ hlen (hheaders i)]
    by_cases hi : i < readLe (stagedFile image) (loadAddr + 56) 2
    · rw [if_pos hi] at hfinal
      rw [if_pos hi, if_pos hi]
      by_cases hone : readLe (stagedFile image) (phdrAddr phdr i) 4 = 1
      · obtain ⟨hsame, htwins⟩ := h.elfSegment hP (((hheaders i hi).2 hone).2)
        rw [if_pos hone] at hfinal
        rw [if_pos hone, if_pos hone]
        generalize Exec.elfSegment s₁ P loadAddr _ = r₁ at hsame htwins hfinal ⊢
        generalize Exec.elfSegment s₂ P loadAddr _ = r₂ at hsame htwins ⊢
        obtain ⟨ok₁, s₁'⟩ := r₁
        obtain ⟨ok₂, s₂'⟩ := r₂
        obtain rfl : ok₂ = ok₁ := hsame
        cases ok₂ with
        | false => exact ⟨rfl, htwins⟩
        | true => exact ih htwins (i + 1) hfinal
      · rw [if_neg hone] at hfinal
        rw [if_neg hone, if_neg hone]
        exact ih h (i + 1) hfinal
    · rw [if_neg hi, if_neg hi]
      exact ⟨rfl, h⟩

/-- **What the loader reads** are bytes of the file, and what it loads are segments of the file. -/
theorem Twins.read_inside (h : Twins p₀ T (InFile image) m₀ root s₁ s₁) (hP : root P) {phdr : ℕ}
    (hlen : 58 ≤ image.length)
    (hheaders : ∀ i, i < readLe (stagedFile image) (loadAddr + 56) 2 → HeaderInside image phdr i)
    (fuel i : ℕ) (hfinal : Allocates (Exec.elfHeaders P loadAddr phdr fuel i s₁).2.pmm final) :
    (∀ d ∈ KernelMap.headersRead P loadAddr phdr fuel i s₁, Inside image d.1 d.2) ∧
      ∀ seg ∈ segmentsRead P loadAddr phdr fuel i s₁, SegmentOf image phdr seg := by
  induction fuel generalizing i s₁ with
  | zero => exact ⟨fun d hd => absurd hd List.not_mem_nil, fun seg hseg => absurd hseg List.not_mem_nil⟩
  | succ fuel ih =>
    obtain ⟨hshows, -⟩ := h.shows hm₀ hmiss hspare
      ((allocates_elfHeaders P loadAddr phdr (fuel + 1) i s₁).trans hfinal)
    rw [hshows.elfHeaders_succ hlen (hheaders i)] at hfinal
    rw [KernelMap.headersRead, segmentsRead,
      hshows.readLe_eq (show Inside image (loadAddr + 56) 2 from ⟨by omega, by omega⟩)]
    by_cases hi : i < readLe (stagedFile image) (loadAddr + 56) 2
    · obtain ⟨htype, hload⟩ := hheaders i hi
      rw [if_pos hi] at hfinal
      rw [if_pos hi, if_pos hi, hshows.readLe_eq htype]
      by_cases hone : readLe (stagedFile image) (phdrAddr phdr i) 4 = 1
      · obtain ⟨hheader, hsource⟩ := hload hone
        have hseg : SegmentOf image phdr (segmentAt (stagedFile image) (phdrAddr phdr i)) := ⟨i, hi, hone, rfl⟩
        obtain ⟨-, htwins⟩ := h.elfSegment hP hsource
        rw [if_pos hone] at hfinal
        rw [if_pos hone, if_pos hone, hshows.segmentAt_eq hheader]
        generalize Exec.elfSegment s₁ P loadAddr (segmentAt (stagedFile image) (phdrAddr phdr i)) = d
          at htwins hfinal ⊢
        obtain ⟨ok, s'⟩ := d
        cases ok with
        | false =>
          refine ⟨?_, ?_⟩
          · intro d hd
            rw [List.mem_singleton.mp hd]
            exact hheader
          · intro seg hmem
            rw [List.mem_singleton.mp hmem]
            exact hseg
        | true =>
          obtain ⟨hread, hsegs⟩ := ih htwins (i + 1) hfinal
          exact ⟨List.forall_mem_cons.mpr ⟨hheader, hread⟩, List.forall_mem_cons.mpr ⟨hseg, hsegs⟩⟩
      · rw [if_neg hone] at hfinal
        rw [if_neg hone, if_neg hone]
        obtain ⟨hread, hsegs⟩ := ih h (i + 1) hfinal
        exact ⟨List.forall_mem_cons.mpr ⟨htype, hread⟩, hsegs⟩
    · rw [if_neg hi, if_neg hi]
      exact ⟨fun d hd => absurd hd List.not_mem_nil, fun seg hseg => absurd hseg List.not_mem_nil⟩

/-- **`elf_load_file`** on both sides. -/
theorem Twins.elfLoadFile {fileSize : ℕ} (h : Twins p₀ T (InFile image) m₀ root s₁ s₂) (hP : root P)
    (hfile : SelfContained image fileSize) (helf : elfCheckFile (stagedFile image) loadAddr = true)
    (hfinal : Allocates (elfLoadFile s₁ P loadAddr).2.pmm final) :
    (elfLoadFile s₂ P loadAddr).1 = (elfLoadFile s₁ P loadAddr).1 ∧
      Twins p₀ T (InFile image) m₀ root (elfLoadFile s₁ P loadAddr).2 (elfLoadFile s₂ P loadAddr).2 := by
  obtain ⟨hshows₁, hshows₂⟩ := h.shows hm₀ hmiss hspare
    ((allocates_elfLoadFile s₁ P loadAddr).trans hfinal)
  rw [hshows₁.elfLoadFile_eq hfile helf] at hfinal ⊢
  rw [hshows₂.elfLoadFile_eq hfile helf]
  by_cases hok : elfCheckSupported (stagedFile image) loadAddr = true
  · obtain ⟨hlen, hheaders⟩ := hfile.headers hok
    rw [if_pos hok] at hfinal
    rw [if_pos hok, if_pos hok]
    generalize (loadAddr + readLe (stagedFile image) (loadAddr + 32) 8) % 2 ^ 64 = phdr at hheaders hfinal ⊢
    obtain ⟨hsame, htwins⟩ := h.elfHeaders hm₀ hmiss hspare hP hlen hheaders 65536 0 hfinal
    generalize Exec.elfHeaders P loadAddr phdr 65536 0 s₁ = r₁ at hsame htwins ⊢
    generalize Exec.elfHeaders P loadAddr phdr 65536 0 s₂ = r₂ at hsame htwins ⊢
    obtain ⟨ok₁, s₁'⟩ := r₁
    obtain ⟨ok₂, s₂'⟩ := r₂
    obtain rfl : ok₂ = ok₁ := hsame
    cases ok₂ with
    | false =>
      refine ⟨?_, htwins⟩
      dsimp only
      rw [if_neg Bool.false_ne_true, if_neg Bool.false_ne_true]
    | true =>
      refine ⟨?_, htwins⟩
      apply readLe_congr
      intro x hx hx'
      exact htwins.same x (Or.inr (Or.inl ⟨by omega, by omega⟩))
  · rw [if_neg hok, if_neg hok]
    exact ⟨rfl, h⟩

end Loaders

/-! ### The command on two machines -/

/-- A PML4 in the place of the file is no ELF file: its first entry is empty or has other flags. -/
theorem elfCheckFile_newRoot_self {s : VmState} {root : ℕ → Prop} (h : TablesOk s root)
    (hK : root s.kernelPml4) (h0 : (pmmAllocBlock s.pmm).1 ≠ 0) (hblock : (pmmAllocBlock s.pmm).1 = loadAddr) :
    elfCheckFile (newRoot s).mem loadAddr = false := by
  apply elfCheckFile_of_ne
  intro hbyte
  have hentry := entry_newRoot h hK h0 (pmmAllocBlock_aligned s.pmm) 0
  rw [if_pos rfl, if_pos rfl, hblock, entry, Fin.val_zero, Nat.mul_zero, Nat.add_zero, readLe, hbyte]
    at hentry
  have hlow : entry s.mem s.kernelPml4 0 % 256 = 127 := by
    rw [← hentry, Nat.add_mul_mod_self_left]
    rfl
  have hplain := h.plain s.kernelPml4 0 ⟨s.kernelPml4, [], hK, Nat.zero_le 2, rfl⟩
    (by rw [present_iff]; omega)
  omega

/-- `exec` goes the way of ELF files. -/
def takesElf (s : VmState) (image : List UInt8) : Bool :=
  match vmmCreateUserPml4 { s with mem := store s.mem loadAddr image } with
  | (procPml4, s) => procPml4 != 0 && elfCheckFile s.mem loadAddr

section Spawn

variable {image : List UInt8} {fileSize : ℕ} {p₀ : PmmState} {T : ℕ → Prop} {m₀ : Memory}
  {root : ℕ → Prop} {s₁ s₂ : VmState} (h : Twins p₀ T (InFile image) m₀ root s₁ s₂)
  (hK : root s₁.kernelPml4) (hshows : Shows image s₁.mem) (hfile : SelfContained image fileSize)
include h hK hshows hfile

/-- **The same decision on both sides**, and an ELF file only when the file is one. -/
theorem Twins.decision (h0 : (pmmAllocBlock s₁.pmm).1 ≠ 0) :
    elfCheckFile (Vmm.newRoot s₂).mem loadAddr = elfCheckFile (Vmm.newRoot s₁).mem loadAddr ∧
      (elfCheckFile (Vmm.newRoot s₁).mem loadAddr = true →
        elfCheckFile (stagedFile image) loadAddr = true) := by
  have halign := pmmAllocBlock_aligned s₁.pmm
  by_cases hblock : (pmmAllocBlock s₁.pmm).1 = loadAddr
  · -- the PML4 is where the file was
    have hno := elfCheckFile_newRoot_self h.ok hK h0 hblock
    have htaken : ∀ k, k < 4 → (Vmm.newRoot s₂).mem (loadAddr + k) = (Vmm.newRoot s₁).mem (loadAddr + k) := by
      intro k hk
      apply (h.newRoot hK h0).same
      refine Or.inr (Or.inr (Taken.mono ?_ h.allocates (Allocates.refl _)))
      show Taken s₁.pmm (pmmAllocBlock s₁.pmm).2 _
      rw [taken_alloc h0, hblock, blockSize]
      omega
    rw [elfCheckFile_congr htaken, hno]
    exact ⟨rfl, fun hfalse => absurd hfalse (by decide)⟩
  · have hout : ∀ k, k < 4 → loadAddr + k < (pmmAllocBlock s₁.pmm).1 ∨
        (pmmAllocBlock s₁.pmm).1 + pageSize ≤ loadAddr + k := by
      intro k hk
      rw [blockSize] at halign
      simp only [loadAddr, pageSize] at hblock ⊢
      omega
    have hfirst : elfCheckFile (Vmm.newRoot s₁).mem loadAddr = elfCheckFile (stagedFile image) loadAddr := by
      apply elfCheckFile_staged _ hfile.magic
      intro k hk hlen
      rw [newRoot_of_notMem (hout k hk)]
      exact hshows _ ⟨by omega, by omega⟩
    have hsecond : elfCheckFile (Vmm.newRoot s₂).mem loadAddr = elfCheckFile (stagedFile image) loadAddr := by
      apply elfCheckFile_staged _ hfile.magic
      intro k hk hlen
      have hin : InFile image (loadAddr + k) := ⟨by omega, by omega⟩
      rw [newRoot_of_notMem (by rw [h.pmm]; exact hout k hk), h.same _ (Or.inr (Or.inl hin))]
      exact hshows _ hin
    rw [hfirst, hsecond]
    exact ⟨rfl, id⟩

/-- **`exec` from the staged file on**, on both sides. -/
theorem Twins.execSpawn (hm₀ : Shows image m₀) (hmiss : ∀ x, InFile image x → ¬ T x)
    (hspare : elfCheckFile (stagedFile image) loadAddr = true →
      ∀ x, InFile image x → ¬ Taken p₀ (execSpawn s₁ fileSize).2.pmm x) :
    (execSpawn s₂ fileSize).1 = (execSpawn s₁ fileSize).1 ∧
      ∃ root', Twins p₀ T (InFile image) m₀ root' (execSpawn s₁ fileSize).2 (execSpawn s₂ fileSize).2 ∧
        ∀ entryPoint P, (execSpawn s₁ fileSize).1 = some (entryPoint, P) → root' P := by
  rw [execSpawn_eq] at hspare ⊢
  rw [execSpawn_eq, h.pmm]
  by_cases h0 : (pmmAllocBlock s₁.pmm).1 = 0
  · rw [if_pos h0, if_pos h0]
    refine ⟨rfl, root, h.alloc_zero h0, ?_⟩
    intro entryPoint P hnone
    cases hnone
  · obtain ⟨hsame, hstaged⟩ := h.decision hK hshows hfile h0
    have hroot := h.newRoot hK h0
    rw [if_neg h0] at hspare
    rw [if_neg h0, if_neg h0, hsame]
    by_cases helf : elfCheckFile (Vmm.newRoot s₁).mem loadAddr = true
    · rw [if_pos helf] at hspare
      rw [if_pos helf, if_pos helf]
      obtain ⟨hentry, htwins⟩ := hroot.elfLoadFile hm₀ hmiss (hspare (hstaged helf)) (Or.inr rfl) hfile
        (hstaged helf) (Allocates.refl _)
      refine ⟨by simp only [hentry], _, htwins, ?_⟩
      intro entryPoint P hsome
      simp only at hsome
      split at hsome
      · cases hsome
      · cases hsome
        exact Or.inr rfl
    · rw [if_neg helf, if_neg helf]
      have hbytes : ∀ x, loadAddr ≤ x → x < loadAddr + fileSize → InFile image x := by
        intro x hx hx'
        exact ⟨hx, by rw [hfile.whole]; exact hx'⟩
      obtain ⟨hok, htwins⟩ := hroot.flatLoop (Or.inr rfl) hbytes ((fileSize + pageSize - 1) / pageSize) 0
      refine ⟨by simp only [hok], _, htwins, ?_⟩
      intro entryPoint P hsome
      simp only at hsome
      split at hsome
      · cases hsome
        exact Or.inr rfl
      · cases hsome

end Spawn

/-! ### The same process -/

/-- The byte is in a page table. -/
def TablePage (m : Memory) (root : ℕ → Prop) (x : ℕ) : Prop :=
  ∃ t, Node (next m) root 3 t ∧ t ≤ x ∧ x < t + pageSize

/-- **Two machines with the same allocator and the same page tables.** -/
structure SameTables (root : ℕ → Prop) (s₁ s₂ : VmState) : Prop where
  pmm : s₂.pmm = s₁.pmm
  kernelPml4 : s₂.kernelPml4 = s₁.kernelPml4
  currentPml4 : s₂.currentPml4 = s₁.currentPml4
  tables : ∀ x, TablePage s₁.mem root x → s₂.mem x = s₁.mem x

/-- **The same process on both**: the same entry point and PML4, the same walk for every address, and the same
bytes in every block that was taken from the allocator `p`. -/
structure SameProcess (p : PmmState) (d₁ d₂ : Option (ℕ × ℕ) × VmState) : Prop where
  result : d₂.1 = d₁.1
  pmm : d₂.2.pmm = d₁.2.pmm
  walks : ∀ entryPoint P, d₁.1 = some (entryPoint, P) → ∀ u, pageWalk d₂.2.mem P u = pageWalk d₁.2.mem P u
  contents : ∀ x, Taken p d₁.2.pmm x → d₂.2.mem x = d₁.2.mem x

/-! ### A file that keeps away -/

/-- **The addresses that `exec` uses**: the kernel's own pages, the tables, the staging area with the file and an
ELF header, and the blocks that are taken until the allocator is in the state `p`. -/
inductive ExecUses (own : List ℕ) (root : ℕ → Prop) (s : VmState) (image : List UInt8) (p : PmmState) : ℕ → Prop
  | own {x : ℕ} (hx : x ∈ own) : ExecUses own root s image p x
  | table {x : ℕ} (hx : TablePage s.mem root x) : ExecUses own root s image p x
  | header {x : ℕ} (hx : loadAddr ≤ x) (hx' : x < loadAddr + 64) : ExecUses own root s image p x
  | file {x : ℕ} (hx : InFile image x) : ExecUses own root s image p x
  | block {x : ℕ} (hx : Taken s.pmm p x) : ExecUses own root s image p x

/-- **The pages of the file**: those of its segments, or those of a flat binary. -/
inductive ImagePage (image : List UInt8) (fileSize : ℕ) : ℕ → Prop
  | elf {seg : Segment} {k : ℕ} (hsupported : elfCheckSupported (stagedFile image) loadAddr = true)
      (hseg : SegmentOf image ((loadAddr + readLe (stagedFile image) (loadAddr + 32) 8) % 2 ^ 64) seg)
      (hk : k < segmentPages seg) :
      ImagePage image fileSize (seg.vaddrStart / pageSize * pageSize + k * pageSize)
  | flat {k : ℕ} (hflat : elfCheckFile (stagedFile image) loadAddr = false)
      (hk : k < (fileSize + pageSize - 1) / pageSize) :
      ImagePage image fileSize (flatBinaryVaddr + k * pageSize)

/-- **`exec` in place**: every address it uses leads to itself at the call, and no page of the file is mapped over
one of them. -/
structure ExecInPlace (own : List ℕ) (root : ℕ → Prop) (s : VmState) (image : List UInt8) (fileSize : ℕ)
    (p : PmmState) : Prop where
  straight : ∀ x, ExecUses own root s image p x → KernelMap.frame s x = some x
  apart : ∀ v, ImagePage image fileSize v → ∀ x, ExecUses own root s image p x → ¬ SamePage x v

section Same

variable {root : ℕ → Prop} {s₁ s₂ : VmState} {image : List UInt8}

/-- The file in place, the machines agree on it and on the tables. -/
theorem SameTables.staged (hsame : SameTables root s₁ s₂) (h : TablesOk s₁ root)
    (hmiss : ∀ x, InFile image x → ¬ TablePage s₁.mem root x) :
    Twins s₁.pmm (TablePage s₁.mem root) (InFile image) (store s₁.mem loadAddr image) root
      { s₁ with mem := store s₁.mem loadAddr image } { s₂ with mem := store s₂.mem loadAddr image } := by
  have hentry : ∀ t k, Node (next s₁.mem) root 3 t →
      entry (store s₁.mem loadAddr image) t k = entry s₁.mem t k := by
    intro t k ht
    apply entry_of_page
    intro x hx hx'
    rw [store, if_neg]
    exact fun hin => hmiss x hin ⟨t, ht, hx, hx'⟩
  refine ⟨Allocates.refl _, hsame.pmm, hsame.kernelPml4, h.transfer (Later.refl _) hentry, ?_, ?_, ?_⟩
  · rintro t x ⟨r, q, hr, hq, ht⟩ hx hx'
    rw [reach_of_nodes (fun y k hy => next_congr (hentry y k hy)) hr hq] at ht
    exact Or.inl ⟨t, ⟨r, q, hr, hq, ht⟩, hx, hx'⟩
  · rintro x (hT | hS | htaken)
    · exact store_congr (Or.inr (hsame.tables x hT))
    · exact store_congr (Or.inl hS)
    · exact absurd htaken not_taken_self
  · exact fun _ _ _ _ => rfl

/-- The walks from a root are the same. -/
theorem Twins.pageWalk_eq {p₀ : PmmState} {T S : ℕ → Prop} {m₀ : Memory}
    (h : Twins p₀ T S m₀ root s₁ s₂) {P : ℕ} (hP : root P) (u : ℕ) :
    pageWalk s₂.mem P u = pageWalk s₁.mem P u := by
  apply walkFrom_congr
  intro q i x hq hx
  exact h.entry_eq ⟨P, q, hP, length_of_isPrefix hq, hx⟩ i

/-- A block outside the staging area has no byte of the file. -/
theorem Spared.not_taken {p p' : PmmState} (h : Spared p p' image.length) {x : ℕ}
    (hx : InFile image x) : ¬ Taken p p' x := by
  rintro ⟨a, hreturned, hlow, hhigh⟩
  obtain ⟨hin, hin'⟩ := hx
  apply h a hreturned
  rw [InStaging]
  omega

/-- The blocks of the load are outside the file. -/
theorem not_taken_of_reserved {fileSize : ℕ} (h : TablesOk s₁ root) (hwhole : image.length = fileSize)
    (hspare : StagingReserved s₁.pmm fileSize ∨
      ∀ q, Allocates s₁.pmm q → Allocates q (exec s₁ image fileSize).2.pmm →
        q ≠ (exec s₁ image fileSize).2.pmm → FreeBelowStaging q) {x : ℕ} (hx : InFile image x) :
    ¬ Taken s₁.pmm (exec s₁ image fileSize).2.pmm x := by
  have hall : Allocates s₁.pmm (exec s₁ image fileSize).2.pmm :=
    (allocates_alloc _).trans (allocates_exec s₁ image fileSize)
  have hspared := (spared_iff hall h.zero).mpr hspare
  rw [← hwhole] at hspared ⊢
  exact hspared.not_taken hx

section Complete

variable {fileSize : ℕ} (h : TablesOk s₁ root) (hK : root s₁.kernelPml4) (hfile : SelfContained image fileSize)
  (hmiss : ∀ x, InFile image x → ¬ TablePage s₁.mem root x)
  (hspare : elfCheckFile (stagedFile image) loadAddr = true →
    ∀ x, InFile image x → ¬ Taken s₁.pmm (exec s₁ image fileSize).2.pmm x)
include h hK hfile hmiss hspare

/-- **With pointers that are physical addresses** both machines get the same process. -/
theorem SameTables.sameProcess (hsame : SameTables root s₁ s₂) :
    takesElf s₂ image = takesElf s₁ image ∧
      SameProcess s₁.pmm (exec s₁ image fileSize) (exec s₂ image fileSize) := by
  have hstaged := hsame.staged h hmiss
  have hshows := shows_store s₁.mem image
  obtain ⟨hresult, root', htwins, hroot'⟩ := hstaged.execSpawn hK hshows hfile hshows hmiss hspare
  refine ⟨?_, hresult, htwins.pmm, ?_, ?_⟩
  · rw [takesElf, takesElf, vmmCreateUserPml4_eq, vmmCreateUserPml4_eq, hsame.pmm]
    by_cases h0 : (pmmAllocBlock s₁.pmm).1 = 0
    · rw [if_pos h0, if_pos h0]
      rfl
    · have hdecision := (hstaged.decision hK hshows hfile h0).1
      rw [hsame.pmm] at hdecision
      rw [if_neg h0, if_neg h0]
      simp only
      rw [hdecision]
  · exact fun entryPoint P hsome u => htwins.pageWalk_eq (hroot' entryPoint P hsome) u
  · exact fun x hx => htwins.same x (Or.inr (Or.inr hx))

/-- **A complete file is loaded in place** when its pages keep away from the addresses in use. -/
theorem spawnOk_of_file {U : ℕ → Prop} (hheader : ∀ x, loadAddr ≤ x → x < loadAddr + 64 → U x)
    (hbytes : ∀ x, InFile image x → U x) (hblocks : ∀ x, Taken s₁.pmm (exec s₁ image fileSize).2.pmm x → U x)
    (hapart : ∀ v, ImagePage image fileSize v → ∀ x, U x → ¬ SamePage x v) :
    KernelMap.SpawnOk U { s₁ with mem := store s₁.mem loadAddr image } fileSize := by
  have hstaged := (show SameTables root s₁ s₁ from ⟨rfl, rfl, rfl, fun _ _ => rfl⟩).staged h hmiss
  have hshows := shows_store s₁.mem image
  have hfinal := allocates_exec s₁ image fileSize
  -- once the PML4 is made, the file decides
  have hdecision : (pmmAllocBlock s₁.pmm).1 ≠ 0 →
      elfCheckFile (newRoot { s₁ with mem := store s₁.mem loadAddr image }).mem loadAddr =
        elfCheckFile (stagedFile image) loadAddr := by
    intro h0
    cases helf : elfCheckFile (stagedFile image) loadAddr with
    | true =>
      have hroot := (hstaged.newRoot hK h0).shows hshows hmiss (hspare helf) hfinal
      rw [elfCheckFile_staged (fun k _ hk => hroot.1 _ ⟨by omega, by omega⟩) hfile.magic, helf]
    | false =>
      rw [← Bool.not_eq_true]
      intro htrue
      rw [(hstaged.decision hK hshows hfile h0).2 htrue] at helf
      cases helf
  have hread : (pmmAllocBlock s₁.pmm).1 ≠ 0 →
      elfCheckSupported (newRoot { s₁ with mem := store s₁.mem loadAddr image }).mem loadAddr = true →
      elfCheckSupported (stagedFile image) loadAddr = true ∧
        programHeaders (newRoot { s₁ with mem := store s₁.mem loadAddr image }).mem loadAddr =
          (loadAddr + readLe (stagedFile image) (loadAddr + 32) 8) % 2 ^ 64 ∧
        (∀ d ∈ KernelMap.headersRead (pmmAllocBlock s₁.pmm).1 loadAddr
            ((loadAddr + readLe (stagedFile image) (loadAddr + 32) 8) % 2 ^ 64) 65536 0
            (newRoot { s₁ with mem := store s₁.mem loadAddr image }), Inside image d.1 d.2) ∧
        ∀ seg ∈ segmentsRead (pmmAllocBlock s₁.pmm).1 loadAddr
            ((loadAddr + readLe (stagedFile image) (loadAddr + 32) 8) % 2 ^ 64) 65536 0
            (newRoot { s₁ with mem := store s₁.mem loadAddr image }),
          SegmentOf image ((loadAddr + readLe (stagedFile image) (loadAddr + 32) 8) % 2 ^ 64) seg := by
    intro h0 hsupported
    have helf : elfCheckFile (stagedFile image) loadAddr = true := by
      rw [← hdecision h0]
      simp only [elfCheckSupported, Bool.and_eq_true] at hsupported
      exact hsupported.1.1.1.1
    have hroot := hstaged.newRoot hK h0
    have hshown := (hroot.shows hshows hmiss (hspare helf) hfinal).1
    have hfirst := hshown.elfCheckSupported_eq (hdecision h0) (hfile.supported helf)
    rw [hsupported] at hfirst
    obtain ⟨hlen, hheaders⟩ := hfile.headers hfirst.symm
    have hphdr : programHeaders (newRoot { s₁ with mem := store s₁.mem loadAddr image }).mem loadAddr =
        (loadAddr + readLe (stagedFile image) (loadAddr + 32) 8) % 2 ^ 64 := by
      rw [programHeaders, hshown.readLe_eq (show Inside image (loadAddr + 32) 8 from ⟨by omega, by omega⟩)]
    refine ⟨hfirst.symm, hphdr, ?_⟩
    apply hroot.read_inside hshows hmiss (hspare helf) (Or.inr rfl) hlen hheaders 65536 0
    have htakes : (exec s₁ image fileSize).2 = (elfLoadFile (newRoot { s₁ with mem := store s₁.mem loadAddr image })
        (pmmAllocBlock s₁.pmm).1 loadAddr).2 := by
      rw [exec, execSpawn_eq, if_neg (show (pmmAllocBlock ({ s₁ with
        mem := store s₁.mem loadAddr image } : VmState).pmm).1 ≠ 0 from h0), if_pos ((hdecision h0).trans helf)]
    rw [htakes, hshown.elfLoadFile_eq hfile helf, if_pos hfirst.symm]
    exact Allocates.refl _
  refine ⟨hheader, hblocks, ?_, ?_, ?_, ?_⟩
  · intro h0 hsupported d hd x hx hx'
    obtain ⟨-, hphdr, hinside, -⟩ := hread h0 hsupported
    rw [hphdr] at hd
    obtain ⟨hlow, hhigh⟩ := hinside d hd
    exact hbytes x ⟨by omega, by omega⟩
  · intro h0 hsupported r hr
    obtain ⟨hok, hphdr, -, hsegs⟩ := hread h0 hsupported
    rw [segmentsLoaded, hphdr] at hr
    obtain ⟨hseg, k, hk, hvaddr⟩ := mem_rounds.mp hr
    have hpage : r.vaddr = r.seg.vaddrStart / pageSize * pageSize + k * pageSize := by
      rw [hvaddr, Segment.firstPage, Nat.mul_comm 4096 k]
      rfl
    obtain ⟨i, hi, hone, heq⟩ := hsegs r.seg hseg
    have hsource := ((hfile.headers hok).2 i hi).2 hone
    rw [← heq] at hsource
    refine ⟨?_, ?_⟩
    · rw [hpage]
      exact fun hlt x hx hx' => hbytes x (hsource.2 k hk hlt x hx hx')
    · rw [hpage]
      exact hapart _ (ImagePage.elf hok ⟨i, hi, hone, heq⟩ hk)
  · intro _ _ x hx hx'
    exact hbytes x ⟨hx, by rw [hfile.whole]; exact hx'⟩
  · intro h0 hflat k hk
    exact hapart _ (ImagePage.flat ((hdecision h0).symm.trans hflat) hk)

end Complete

end Same

/-- **The decision of a kernel** whose addresses in use are their own. -/
theorem Steady.takesElf {U root : ℕ → Prop} {s : VmState} {image : List UInt8} (h : KernelMap.Steady U root s)
    (hmiss : ∀ x, InFile image x → OffTables s.mem root x) (hbytes : ∀ x, InFile image x → U x)
    (hheader : ∀ x, loadAddr ≤ x → x < loadAddr + 64 → U x)
    (hblock : ∀ x, Taken s.pmm (pmmAllocBlock s.pmm).2 x → U x) :
    KernelMap.takesElf s image = some (Vmm.takesElf s image) := by
  have hstored := h.storeBytes (Nat.le_refl image.length) (fun x hx hx' => hmiss x ⟨hx, hx'⟩)
    fun x hx hx' => hbytes x ⟨hx, hx'⟩
  rw [List.take_length] at hstored
  have hplace := h.store fun x hx hx' => hmiss x ⟨hx, hx'⟩
  obtain ⟨hcreate, hroot⟩ := hplace.createUserPml4 hblock
  rw [KernelMap.takesElf, hstored, Option.bind_some, hcreate, Option.bind_some, Vmm.takesElf, vmmCreateUserPml4_eq]
  by_cases h0 : (pmmAllocBlock s.pmm).1 = 0
  · rw [if_pos h0]
    rfl
  · rw [if_neg h0]
    dsimp only
    rw [if_neg h0, KernelMap.elfCheckFile_eq (hroot h0).straight hheader, bne_iff_ne.mpr h0, Bool.true_and]

section Place

variable {own : List ℕ} {root : ℕ → Prop} {s₁ s₂ : VmState} {image : List UInt8} {fileSize : ℕ}

/-- An `exec` in place starts with addresses that are their own. -/
theorem ExecInPlace.steady {p : PmmState} (hplace : ExecInPlace own root s₁ image fileSize p) (h : TablesOk s₁ root)
    (hcurrent : root s₁.currentPml4) (hK : root s₁.kernelPml4) :
    KernelMap.Steady (ExecUses own root s₁ image p) root s₁ :=
  ⟨h, hcurrent, hK, fun t _ ht hx hx' => ExecUses.table ⟨t, ht, hx, hx'⟩, hplace.straight⟩

/-- The other machine has the same addresses. -/
theorem SameTables.steady {U : ℕ → Prop} (hsame : SameTables root s₁ s₂) (h : KernelMap.Steady U root s₁) :
    KernelMap.Steady U root s₂ := by
  refine h.transfer (by rw [hsame.pmm]; exact Later.refl _) hsame.kernelPml4 hsame.currentPml4 ?_
  intro t k ht
  apply entry_of_page
  exact fun x hx hx' => hsame.tables x ⟨t, ht, hx, hx'⟩

/-- The other machine has the same tables. -/
theorem SameTables.tablePage (hsame : SameTables root s₁ s₂) {x : ℕ} (hx : TablePage s₂.mem root x) :
    TablePage s₁.mem root x := by
  obtain ⟨t, ⟨r, q, hr, hq, ht⟩, hlow, hhigh⟩ := hx
  rw [reach_transfer (fun y k hy => entry_of_page (fun z hz hz' => hsame.tables z ⟨y, hy, hz, hz'⟩) k) hr hq] at ht
  exact ⟨t, ⟨r, q, hr, hq, ht⟩, hlow, hhigh⟩

/-- **`exec` depends on the file alone** when the file is complete and keeps away from what the kernel uses, is
not staged over a page table, and, an ELF file, is not overwritten while it is read: every block is taken below the
staging area, or the memory map reserves it. -/
theorem exec_depends_on_file (h : TablesOk s₁ root) (hK : root s₁.kernelPml4) (hcurrent : root s₁.currentPml4)
    (hsame : SameTables root s₁ s₂) (hfile : SelfContained image fileSize)
    (hmiss : ∀ x, InFile image x → ¬ TablePage s₁.mem root x)
    (hspare : elfCheckFile (stagedFile image) loadAddr = true →
      StagingReserved s₁.pmm fileSize ∨
        ∀ q, Allocates s₁.pmm q → Allocates q (exec s₁ image fileSize).2.pmm →
          q ≠ (exec s₁ image fileSize).2.pmm → FreeBelowStaging q)
    (hplace : ExecInPlace own root s₁ image fileSize (exec s₁ image fileSize).2.pmm) :
    (∃ elf, KernelMap.takesElf s₁ image = some elf ∧ KernelMap.takesElf s₂ image = some elf) ∧
      ∃ d₁ d₂, KernelMap.exec own s₁ image fileSize = some d₁ ∧ KernelMap.exec own s₂ image fileSize = some d₂ ∧
        SameProcess s₁.pmm d₁ d₂ := by
  have hfree := fun helf x => not_taken_of_reserved h hfile.whole (hspare helf) (x := x)
  obtain ⟨hdecision, hprocess⟩ := hsame.sameProcess h hK hfile hmiss hfree
  have hfirst := hplace.steady h hcurrent hK
  have hsecond := hsame.steady hfirst
  have hmiss' : ∀ x, InFile image x → ¬ TablePage s₂.mem root x := fun x hx ht => hmiss x hx (hsame.tablePage ht)
  have hblocks : ∀ x, Taken s₂.pmm (exec s₂ image fileSize).2.pmm x →
      ExecUses own root s₁ image (exec s₁ image fileSize).2.pmm x := by
    rw [hsame.pmm, hprocess.pmm]
    exact fun x hx => ExecUses.block hx
  have hspawn := spawnOk_of_file h hK hfile hmiss hfree (fun x => ExecUses.header) (fun x => ExecUses.file)
    (fun x => ExecUses.block) hplace.apart
  have hspawn' := spawnOk_of_file hsecond.ok hsecond.kernel hfile hmiss'
    (by rw [hsame.pmm, hprocess.pmm]; exact hfree) (fun x => ExecUses.header) (fun x => ExecUses.file)
    hblocks hplace.apart
  have hoff : ∀ x, InFile image x → OffTables s₁.mem root x := fun x hx t ht hin => hmiss x hx ⟨t, ht, hin⟩
  have hoff' : ∀ x, InFile image x → OffTables s₂.mem root x := fun x hx t ht hin => hmiss' x hx ⟨t, ht, hin⟩
  have hone : ∀ x, Taken s₁.pmm (pmmAllocBlock s₁.pmm).2 x →
      ExecUses own root s₁ image (exec s₁ image fileSize).2.pmm x :=
    fun x hx => ExecUses.block (hx.mono (Allocates.refl _) (allocates_exec s₁ image fileSize))
  refine ⟨⟨takesElf s₁ image, ?_, ?_⟩, exec s₁ image fileSize, exec s₂ image fileSize, ?_, ?_, hprocess⟩
  · exact Steady.takesElf hfirst hoff (fun x => ExecUses.file) (fun x => ExecUses.header) hone
  · rw [← hdecision]
    exact Steady.takesElf hsecond hoff' (fun x => ExecUses.file) (fun x => ExecUses.header)
      (by rw [hsame.pmm]; exact hone)
  · exact (hfirst.exec (fun x => ExecUses.own) (fun x hx hx' => hoff x ⟨hx, hx'⟩)
      (fun x hx hx' => ExecUses.file ⟨hx, hx'⟩) hspawn).1
  · exact (hsecond.exec (fun x => ExecUses.own) (fun x hx hx' => hoff' x ⟨hx, hx'⟩)
      (fun x hx hx' => ExecUses.file ⟨hx, hx'⟩) hspawn').1

end Place

/-! ### A machine of 128 MB -/

/-- The machine with these bytes left in the staging area by an earlier `exec`. -/
def leftover (s : VmState) (stale : List UInt8) : VmState := { s with mem := store s.mem loadAddr stale }

section Stale

variable {s : VmState} {root : ℕ → Prop}

theorem leftover_pmm (s : VmState) (stale : List UInt8) : (leftover s stale).pmm = s.pmm := rfl

/-- The tables are in used blocks. -/
theorem TablesOk.used_of_tablePage (h : TablesOk s root) {x : ℕ} (hx : TablePage s.mem root x) :
    testBit s.pmm.bitmap (x / 4096) = true := by
  obtain ⟨t, ht, hlow, hhigh⟩ := hx
  have halign := h.aligned_of_node ht
  rw [pageSize] at hhigh
  rw [show x / 4096 = t / 4096 from by omega]
  exact h.used t ht

theorem not_tablePage_of_stage (h : TablesOk s root) (hstage : testBit s.pmm.bitmap 16384 = false) {x : ℕ}
    (hx : loadAddr ≤ x) (hx' : x < loadAddr + pageSize) : ¬ TablePage s.mem root x := by
  intro htable
  have hused := h.used_of_tablePage htable
  rw [loadAddr] at hx hx'
  rw [pageSize] at hx'
  rw [show x / 4096 = 16384 from by omega, hstage] at hused
  cases hused

/-- What is left in the staging area is in no table. -/
theorem TablesOk.leftover (h : TablesOk s root) (hstage : testBit s.pmm.bitmap 16384 = false)
    {stale : List UInt8} (hlen : stale.length ≤ pageSize) : TablesOk (leftover s stale) root := by
  refine h.transfer (Later.refl _) ?_
  intro t k ht
  apply entry_of_page
  intro x hx hx'
  show store s.mem loadAddr stale x = s.mem x
  rw [store, if_neg]
  intro hin
  exact not_tablePage_of_stage h hstage hin.1 (by omega) ⟨t, ht, hx, hx'⟩

theorem sameTables_leftover (h : TablesOk s root) (hstage : testBit s.pmm.bitmap 16384 = false)
    {stale₁ stale₂ : List UInt8} (hlen₁ : stale₁.length ≤ pageSize) (hlen₂ : stale₂.length ≤ pageSize) :
    SameTables root (leftover s stale₁) (leftover s stale₂) := by
  refine ⟨rfl, rfl, rfl, ?_⟩
  intro x hx
  have hout : ∀ stale : List UInt8, stale.length ≤ pageSize →
      ¬ (loadAddr ≤ x ∧ x < loadAddr + stale.length) := by
    intro stale hlen hin
    exact not_tablePage_of_stage (h.leftover hstage hlen₁) hstage hin.1 (by omega) hx
  show store s.mem loadAddr stale₂ x = store s.mem loadAddr stale₁ x
  rw [store, if_neg (hout stale₂ hlen₂), store, if_neg (hout stale₁ hlen₁)]

/-- Nor is a file of one byte. -/
theorem oneByte_misses (h : TablesOk s root) (hstage : testBit s.pmm.bitmap 16384 = false) (b : UInt8)
    (x : ℕ) (hx : InFile [b] x) : ¬ TablePage s.mem root x := by
  obtain ⟨hlow, hhigh⟩ := hx
  have hpage : loadAddr + 1 ≤ loadAddr + pageSize := Nat.add_le_add_left (by decide) loadAddr
  exact not_tablePage_of_stage h hstage hlow (Nat.lt_of_lt_of_le hhigh hpage)

end Stale

theorem elfCheckFile_oneByte : elfCheckFile (stagedFile [0x90]) loadAddr = false := by decide

/-- One byte that is not an ELF file is complete. -/
theorem selfContained_oneByte : SelfContained [0x90] 1 := by
  refine ⟨rfl, Or.inr (by decide), ?_, ?_⟩
  · intro helf
    rw [elfCheckFile_oneByte] at helf
    cases helf
  · intro hok
    rw [elfCheckSupported, elfCheckFile_oneByte] at hok
    cases hok

/-- **The addresses `exec` uses** on a machine of 128 MB, for a file of at most 64 MB. -/
theorem uses_started {s : VmState} (hs : KernelMap.Started s) {image : List UInt8} (hsize : image.length ≤ 0x4000000)
    {p : PmmState} {x : ℕ} (hx : ExecUses [0x8600] (fun r => r = s.kernelPml4) s image p x) :
    x = 0x8600 ∨ 0x2000000 ≤ x ∧ x < 0x8000000 := by
  cases hx with
  | own hx => exact Or.inl (List.mem_singleton.mp hx)
  | table hx =>
    obtain ⟨t, ht, hlow, hhigh⟩ := hx
    obtain ⟨hup, hup'⟩ := hs.tables t ht
    omega
  | header hx hx' =>
    rw [loadAddr] at hx hx'
    omega
  | file hx =>
    obtain ⟨hx, hx'⟩ := hx
    rw [loadAddr] at hx hx'
    omega
  | block hx =>
    obtain ⟨a, ⟨q, hq, -, haddr, h0⟩, hx, hx'⟩ := hx
    rw [← haddr] at h0 hx hx'
    obtain ⟨hup, hup'⟩ := hs.blocks hq h0
    rw [pageSize] at hup'
    rw [blockSize] at hx'
    omega

/-- A file on such a machine is loaded in place when its pages keep away from the kernel and the upper memory. -/
theorem execInPlace_started {s : VmState} (hs : KernelMap.Started s) {image : List UInt8}
    (hsize : image.length ≤ 0x4000000) {fileSize : ℕ} (p : PmmState)
    (hapart : ∀ v, ImagePage image fileSize v → ∀ x, x = 0x8600 ∨ 0x2000000 ≤ x ∧ x < 0x8000000 → ¬ SamePage x v) :
    ExecInPlace [0x8600] (fun r => r = s.kernelPml4) s image fileSize p := by
  refine ⟨?_, fun v hv x hx => hapart v hv x (uses_started hs hsize hx)⟩
  intro x hx
  apply hs.steady.straight
  rcases uses_started hs hsize hx with rfl | ⟨-, hup⟩
  · decide
  · exact hup

/-- What is left in the staging area leaves such a machine as it is. -/
theorem started_leftover {s : VmState} (hs : KernelMap.Started s) (hstage : testBit s.pmm.bitmap 16384 = false)
    {stale : List UInt8} (hlen : stale.length ≤ pageSize) : KernelMap.Started (leftover s stale) := by
  have hentry : ∀ t k, Node (next s.mem) (fun r => r = s.kernelPml4) 3 t →
      entry (leftover s stale).mem t k = entry s.mem t k := by
    intro t k ht
    apply entry_of_page
    intro x hx hx'
    show store s.mem loadAddr stale x = s.mem x
    rw [store, if_neg]
    intro hin
    exact not_tablePage_of_stage hs.steady.ok hstage hin.1 (by omega) ⟨t, ht, hx, hx'⟩
  refine ⟨?_, hs.current, ?_, hs.total, hs.used, hs.free⟩
  · refine hs.isolated.transfer rfl (Later.refl _) ?_
    rintro t k ⟨r, q, hr, hq, ht⟩
    exact hentry t k ⟨r, q, hr.resolve_right List.not_mem_nil, hq, ht⟩
  · rintro t ⟨r, q, hr, hq, ht⟩
    rw [reach_transfer hentry hr hq] at ht
    exact hs.tables t ⟨r, q, hr, hq, ht⟩

/-- **A flat file of one byte is loaded in place.** -/
theorem execInPlace_oneByte {s : VmState} (hs : KernelMap.Started s) {b : UInt8}
    (hflat : elfCheckFile (stagedFile [b]) loadAddr = false) (p : PmmState) :
    ExecInPlace [0x8600] (fun r => r = s.kernelPml4) s [b] 1 p := by
  refine execInPlace_started hs (by rw [List.length_singleton]; decide) p ?_
  intro v hv x hx hpage
  cases hv with
  | elf hsupported _ _ =>
    rw [elfCheckSupported, hflat] at hsupported
    cases hsupported
  | @flat k _ hk =>
    obtain rfl : k = 0 := by
      rw [pageSize] at hk
      omega
    rw [SamePage, flatBinaryVaddr, pageSize] at hpage
    omega

theorem exec_depends_on_file_oneByte :
    SelfContained [0x90] 1 ∧
      ∃ d₁ d₂, KernelMap.exec [0x8600] (leftover (vmmInit vm128) [0xAA, 0xBB]) [0x90] 1 = some d₁ ∧
        KernelMap.exec [0x8600] (leftover (vmmInit vm128) [0xCC, 0xDD]) [0x90] 1 = some d₂ ∧
        SameProcess (vmmInit vm128).pmm d₁ d₂ := by
  obtain ⟨s, hvm, hs, hstage⟩ : ∃ s, s = vmmInit vm128 ∧ KernelMap.Started s ∧
      testBit s.pmm.bitmap 16384 = false := ⟨_, rfl, KernelMap.started_vm128, stage_vm128⟩
  rw [← hvm]
  have hlen : ([0xAA, 0xBB] : List UInt8).length ≤ pageSize := by decide
  have hleft := started_leftover hs hstage hlen
  have hsteady := hleft.steady
  have hplace := execInPlace_oneByte hleft elfCheckFile_oneByte (exec (leftover s [0xAA, 0xBB]) [0x90] 1).2.pmm
  have hroot : (fun r => r = (leftover s [0xAA, 0xBB]).kernelPml4) = fun r => r = s.kernelPml4 := rfl
  rw [hroot] at hsteady hplace
  have hlen' : ([0xCC, 0xDD] : List UInt8).length ≤ pageSize := by decide
  have hsame := sameTables_leftover hs.steady.ok hstage hlen hlen'
  have hmiss := oneByte_misses hsteady.ok (by rw [leftover_pmm]; exact hstage) 0x90
  have hdepends := exec_depends_on_file hsteady.ok hsteady.kernel hsteady.current hsame selfContained_oneByte hmiss
    (fun helf => by rw [elfCheckFile_oneByte] at helf; cases helf) hplace
  rw [leftover_pmm] at hdepends
  exact ⟨selfContained_oneByte, hdepends.2⟩

section Empty

variable {s : VmState} (h0 : (pmmAllocBlock s.pmm).1 ≠ 0) (hblock : (pmmAllocBlock s.pmm).1 ≠ loadAddr)
include hblock

/-- An empty file leaves what was in the staging area. -/
theorem newRoot_stale (stale : List UInt8) (hlen : stale.length ≤ pageSize) {k : ℕ}
    (hk : k < stale.length) :
    (newRoot { leftover s stale with mem := store (leftover s stale).mem loadAddr [] }).mem (loadAddr + k) =
      stale.getD k 0 := by
  have halign := pmmAllocBlock_aligned s.pmm
  rw [blockSize] at halign
  rw [newRoot_of_notMem]
  · show store (store s.mem loadAddr stale) loadAddr [] (loadAddr + k) = _
    rw [store, if_neg, store, if_pos ⟨by omega, by omega⟩, Nat.add_sub_cancel_left]
    rw [List.length_nil]
    omega
  · show loadAddr + k < (pmmAllocBlock s.pmm).1 ∨ (pmmAllocBlock s.pmm).1 + pageSize ≤ loadAddr + k
    rw [loadAddr] at hblock ⊢
    rw [pageSize] at hlen ⊢
    omega

include h0

/-- Over the start of an ELF file for another machine it is that file, and is refused. -/
theorem exec_empty_elf :
    elfCheckSupported (newRoot { leftover s (elfMagic ++ [0]) with
        mem := store (leftover s (elfMagic ++ [0])).mem loadAddr [] }).mem loadAddr = false ∧
      (exec (leftover s (elfMagic ++ [0])) [] 0).1 = none ∧
      elfCheckFile (newRoot { leftover s (elfMagic ++ [0]) with
        mem := store (leftover s (elfMagic ++ [0])).mem loadAddr [] }).mem loadAddr = true := by
  have hbyte := fun {k : ℕ} => newRoot_stale hblock (elfMagic ++ [0]) (by decide) (k := k)
  rw [exec, execSpawn_eq, if_neg (show (pmmAllocBlock (leftover s _).pmm).1 ≠ 0 from h0)]
  generalize newRoot { leftover s (elfMagic ++ [0]) with mem := _ } = s' at hbyte ⊢
  have hmagic : elfCheckFile s'.mem loadAddr = true := by
    have hfirst := hbyte (show 0 < _ from by decide)
    rw [Nat.add_zero] at hfirst
    rw [elfCheckFile, hfirst, hbyte (show 1 < _ from by decide), hbyte (show 2 < _ from by decide),
      hbyte (show 3 < _ from by decide)]
    decide
  have hclass : elfCheckSupported s'.mem loadAddr = false := by
    rw [elfCheckSupported, hmagic, hbyte (show 4 < _ from by decide)]
    simp [elfMagic]
  rw [if_pos hmagic, elfLoadFile, if_neg (by rw [hclass]; decide)]
  exact ⟨hclass, rfl, hmagic⟩

/-- Over zeros it is a flat binary without pages. -/
theorem exec_empty_flat :
    elfCheckFile (newRoot { leftover s [0] with mem := store (leftover s [0]).mem loadAddr [] }).mem loadAddr =
        false ∧
      (exec (leftover s [0]) [] 0).1 = some (flatBinaryVaddr, (pmmAllocBlock s.pmm).1) := by
  have hbyte := newRoot_stale hblock [0] (by decide) (show 0 < _ from by decide)
  rw [exec, execSpawn_eq, if_neg (show (pmmAllocBlock (leftover s _).pmm).1 ≠ 0 from h0)]
  generalize newRoot { leftover s [0] with mem := _ } = s' at hbyte ⊢
  have hflat : elfCheckFile s'.mem loadAddr = false := by
    rw [elfCheckFile_of_ne]
    rw [Nat.add_zero] at hbyte
    rw [hbyte]
    decide
  rw [if_neg (by rw [hflat]; decide)]
  exact ⟨hflat, rfl⟩

end Empty

/-- An empty file is loaded in place, whatever is in the staging area, when that is no supported ELF file. -/
theorem exec_empty_inPlace {s : VmState} (hs : KernelMap.Started s) (hstage : testBit s.pmm.bitmap 16384 = false)
    {stale : List UInt8} (hlen : stale.length ≤ pageSize)
    (hunsupported : elfCheckSupported (newRoot { leftover s stale with
      mem := store (leftover s stale).mem loadAddr [] }).mem loadAddr = false) :
    KernelMap.exec [0x8600] (leftover s stale) [] 0 = some (exec (leftover s stale) [] 0) := by
  have hno : ∀ {x : ℕ}, loadAddr ≤ x → ¬ x < loadAddr + ([] : List UInt8).length := by
    intro x hx hx'
    rw [List.length_nil] at hx'
    omega
  have hleft := started_leftover hs hstage hlen
  refine (hleft.steady.exec ?_ (fun x hx hx' => absurd hx' (hno hx))
    (fun x hx hx' => absurd hx' (hno hx)) ?_).1
  · intro a ha
    rw [List.mem_singleton.mp ha]
    decide
  · refine ⟨?_, ?_, ?_, ?_, ?_, ?_⟩
    · intro x _ hx
      rw [loadAddr] at hx
      omega
    · rintro x ⟨a, ⟨q, hq, -, haddr, h0⟩, -, hx⟩
      rw [← haddr] at h0 hx
      exact Nat.lt_of_lt_of_le hx (hleft.blocks hq h0).2
    · intro _ hsupported
      rw [hunsupported] at hsupported
      cases hsupported
    · intro _ hsupported
      rw [hunsupported] at hsupported
      cases hsupported
    · intro _ _ x hx hx'
      omega
    · intro _ _ k hk
      rw [pageSize] at hk
      omega

/-- **An empty file**: with other bytes left in the staging area `exec` does something else. -/
theorem exec_meets_stale_bytes :
    SameTables (fun r => r = (vmmInit vm128).kernelPml4) (leftover (vmmInit vm128) (elfMagic ++ [0]))
        (leftover (vmmInit vm128) [0]) ∧
      ∃ d₁ d₂, KernelMap.exec [0x8600] (leftover (vmmInit vm128) (elfMagic ++ [0])) [] 0 = some d₁ ∧
        KernelMap.exec [0x8600] (leftover (vmmInit vm128) [0]) [] 0 = some d₂ ∧ d₁.1 ≠ d₂.1 := by
  have hs := KernelMap.started_vm128
  have hstage := stage_vm128
  generalize vmmInit vm128 = s at hs hstage ⊢
  have hfree := hs.free
  have htotal := hs.total
  have hok := hs.steady.ok
  have h0 := pmmAllocBlock_ne_zero hok.zero (by omega)
  have hblock := alloc_ne_loadAddr hstage (by omega) (by omega) h0
  obtain ⟨hunsupported, helf, -⟩ := exec_empty_elf h0 hblock
  obtain ⟨hno, hflat⟩ := exec_empty_flat h0 hblock
  refine ⟨sameTables_leftover hok hstage (by decide) (by decide), _, _,
    exec_empty_inPlace hs hstage (by decide) hunsupported, exec_empty_inPlace hs hstage (by decide) ?_, ?_⟩
  · rw [elfCheckSupported, hno]
    rfl
  · rw [helf, hflat]
    exact (Option.some_ne_none _).symm

end OsEojin.Vmm
