import OsEojin.IdentityMap
import OsEojin.KernelMap

/-!
# Loading in place

The loaders read a file and write blocks and tables through the map that they change.  Where every address that
a load uses leads to itself at the call, and no page of the file is mapped over one of them, that stays so to the
end, and the load is the one of `Exec`, in which pointers are physical addresses.

* `headersRead`: the program headers the loader looks at, and `RoundOk`: a round that keeps away;
* `Steady.elfRounds`, `Steady.elfHeaders`, `Steady.elfLoadFile`, `Steady.execSpawn`: the loaders;
* `Uses`, `InPlace`, `InPlace.elfLoadFile`: the addresses that `elf_load_file` uses, and the condition.
-/

namespace OsEojin.KernelMap

open OsEojin.Lib.ByteMemory OsEojin.Lib.Forests OsEojin.Pmm OsEojin.Vmm
open OsEojin.Exec (Segment Round phdrAddr copyRange loadAddr flatBinaryVaddr pageRounds rounds segmentsRead
  segmentsLoaded programHeaders)

/-- The loader over a list of rounds. -/
def elfRounds (own : List ℕ) (pml4 fileBuffer : ℕ) : List Round → VmState → Option (Bool × VmState)
  | [], s => some (true, s)
  | r :: rest, s => (elfPage own s pml4 fileBuffer r.seg r.vaddr).bind fun
    | (false, s) => some (false, s)
    | (true, s) => elfRounds own pml4 fileBuffer rest s

theorem elfPages_eq (own : List ℕ) (pml4 fileBuffer : ℕ) (seg : Segment) (n vaddr : ℕ) (s : VmState) :
    elfPages own pml4 fileBuffer seg n vaddr s =
      elfRounds own pml4 fileBuffer (pageRounds seg n vaddr) s := by
  induction n generalizing vaddr s with
  | zero => rfl
  | succ n ih =>
    rw [elfPages, pageRounds, elfRounds]
    congr 1
    funext r
    obtain ⟨ok, s'⟩ := r
    cases ok with
    | false => rfl
    | true => exact ih (vaddr + pageSize) s'

/-- Where the loop over the program headers reads, as addresses and lengths. -/
def headersRead (pml4 fileBuffer phdr : ℕ) : ℕ → ℕ → VmState → List (ℕ × ℕ)
  | 0, _, _ => []
  | fuel + 1, i, s =>
    if i < readLe s.mem (fileBuffer + 56) 2 then
      if readLe s.mem (phdrAddr phdr i) 4 = 1 then
        (phdrAddr phdr i, 48) ::
          match Exec.elfSegment s pml4 fileBuffer (Exec.segmentAt s.mem (phdrAddr phdr i)) with
          | (false, _) => []
          | (true, s') => headersRead pml4 fileBuffer phdr fuel (i + 1) s'
      else (phdrAddr phdr i, 4) :: headersRead pml4 fileBuffer phdr fuel (i + 1) s
    else []

/-- The round copies the byte at `x`. -/
def Copies (fileBuffer : ℕ) (r : Round) (x : ℕ) : Prop :=
  (copyRange r.seg r.vaddr).1 < (copyRange r.seg r.vaddr).2 ∧
    (fileBuffer + r.seg.fileOffset + ((copyRange r.seg r.vaddr).1 - r.seg.vaddrStart)) % 2 ^ 64 ≤ x ∧
    x < (fileBuffer + r.seg.fileOffset + ((copyRange r.seg r.vaddr).1 - r.seg.vaddrStart)) % 2 ^ 64 +
      ((copyRange r.seg r.vaddr).2 - (copyRange r.seg r.vaddr).1)

/-- **A round that keeps away**: it copies from the addresses in use, and its page is at none of them. -/
structure RoundOk (U : ℕ → Prop) (fileBuffer : ℕ) (r : Round) : Prop where
  source : SourceIn U fileBuffer r.seg r.vaddr
  apart : ∀ x, U x → ¬ SamePage x r.vaddr

section Loops

variable {U root : ℕ → Prop} {s : VmState} {P fileBuffer : ℕ} {own : List ℕ}

theorem allocates_elfRounds (P fileBuffer : ℕ) (rs : List Round) (s : VmState) :
    Allocates s.pmm (Exec.elfRounds P fileBuffer rs s).2.pmm := by
  induction rs generalizing s with
  | nil => exact Allocates.refl _
  | cons r rs ih =>
    have hfirst := allocates_elfPage s P fileBuffer r.seg r.vaddr
    rw [Exec.elfRounds]
    generalize Exec.elfPage s P fileBuffer r.seg r.vaddr = d at hfirst
    obtain ⟨ok, s'⟩ := d
    cases ok with
    | false => exact hfirst
    | true => exact hfirst.trans (ih s')

/-- **Any number of rounds.** -/
theorem Steady.elfRounds (h : Steady U root s) (hP : root P) (hown : ∀ a ∈ own, U a) {rs : List Round}
    (hrounds : ∀ r ∈ rs, RoundOk U fileBuffer r)
    (hblocks : ∀ x, Taken s.pmm (Exec.elfRounds P fileBuffer rs s).2.pmm x → U x) :
    KernelMap.elfRounds own P fileBuffer rs s = some (Exec.elfRounds P fileBuffer rs s) ∧
      Steady U root (Exec.elfRounds P fileBuffer rs s).2 := by
  induction rs generalizing s with
  | nil => exact ⟨rfl, h⟩
  | cons r rs ih =>
    have hround := hrounds r List.mem_cons_self
    have hpage := allocates_elfPage s P fileBuffer r.seg r.vaddr
    have hfirst : ∀ x, Taken s.pmm (Exec.elfPage s P fileBuffer r.seg r.vaddr).2.pmm x → U x := by
      intro x hx
      apply hblocks x (hx.mono (Allocates.refl _) _)
      rw [Exec.elfRounds]
      generalize Exec.elfPage s P fileBuffer r.seg r.vaddr = d
      obtain ⟨ok, s'⟩ := d
      cases ok with
      | false => exact Allocates.refl _
      | true => exact allocates_elfRounds P fileBuffer rs s'
    obtain ⟨hsame, hsteady⟩ := h.elfPage hP hown hround.apart hround.source hfirst
    rw [Exec.elfRounds] at hblocks ⊢
    rw [KernelMap.elfRounds, hsame, Option.bind_some]
    generalize Exec.elfPage s P fileBuffer r.seg r.vaddr = d at hpage hsteady hblocks ⊢
    obtain ⟨ok, s'⟩ := d
    cases ok with
    | false => exact ⟨rfl, hsteady⟩
    | true =>
      exact ih hsteady (fun r' hr' => hrounds r' (List.mem_cons_of_mem r hr'))
        fun x hx => hblocks x (hx.mono hpage (Allocates.refl _))

theorem Steady.elfSegment (h : Steady U root s) (hP : root P) (hown : ∀ a ∈ own, U a) {seg : Segment}
    (hrounds : ∀ r ∈ seg.rounds, RoundOk U fileBuffer r)
    (hblocks : ∀ x, Taken s.pmm (Exec.elfSegment s P fileBuffer seg).2.pmm x → U x) :
    KernelMap.elfSegment own s P fileBuffer seg = some (Exec.elfSegment s P fileBuffer seg) ∧
      Steady U root (Exec.elfSegment s P fileBuffer seg).2 := by
  rw [Exec.elfSegment_eq_rounds] at hblocks ⊢
  have hrun := h.elfRounds hP hown hrounds hblocks
  rw [Exec.Segment.rounds, ← elfPages_eq] at hrun
  exact hrun

/-! ### Headers -/

theorem segmentAt_eq (h : ∀ x, U x → frame s x = some x) {p : ℕ} (hp : ∀ x, p ≤ x → x < p + 48 → U x) :
    segmentAt s p = some (Exec.segmentAt s.mem p) := by
  have hfield : ∀ k, k ≤ 40 → peekLe s (p + k) 8 = some (readLe s.mem (p + k) 8) :=
    fun k hk => peekLe_eq h fun x hx hx' => hp x (by omega) (by omega)
  rw [segmentAt, hfield 16 (by decide), hfield 40 (by decide), hfield 32 (by decide), hfield 8 (by decide)]
  rfl

/-- **The loop over the headers**, by induction on the fuel. -/
theorem Steady.elfHeaders (h : Steady U root s) (hP : root P) (hown : ∀ a ∈ own, U a)
    (hcount : ∀ x, fileBuffer + 56 ≤ x → x < fileBuffer + 56 + 2 → U x) (phdr : ℕ) {fuel i : ℕ}
    (hread : ∀ d ∈ headersRead P fileBuffer phdr fuel i s, ∀ x, d.1 ≤ x → x < d.1 + d.2 → U x)
    (hrounds : ∀ r ∈ rounds (segmentsRead P fileBuffer phdr fuel i s), RoundOk U fileBuffer r)
    (hblocks : ∀ x, Taken s.pmm (Exec.elfHeaders P fileBuffer phdr fuel i s).2.pmm x → U x) :
    KernelMap.elfHeaders own P fileBuffer phdr fuel i s = some (Exec.elfHeaders P fileBuffer phdr fuel i s) ∧
      Steady U root (Exec.elfHeaders P fileBuffer phdr fuel i s).2 := by
  induction fuel generalizing i s with
  | zero => exact ⟨rfl, h⟩
  | succ fuel ih =>
    rw [headersRead] at hread
    rw [segmentsRead] at hrounds
    rw [Exec.elfHeaders] at hblocks ⊢
    rw [KernelMap.elfHeaders, peekLe_eq h.straight hcount, Option.bind_some]
    by_cases hi : i < readLe s.mem (fileBuffer + 56) 2
    · rw [if_pos hi] at hread hrounds hblocks
      rw [if_pos hi, if_pos hi]
      by_cases hload : readLe s.mem (phdrAddr phdr i) 4 = 1
      · rw [if_pos hload] at hread hrounds hblocks
        have hheader : ∀ x, phdrAddr phdr i ≤ x → x < phdrAddr phdr i + 48 → U x :=
          hread (phdrAddr phdr i, 48) List.mem_cons_self
        rw [peekLe_eq h.straight fun x hx hx' => hheader x hx (by omega), Option.bind_some, if_pos hload,
          if_pos hload, segmentAt_eq h.straight hheader, Option.bind_some]
        have hsegment : ∀ r ∈ (Exec.segmentAt s.mem (phdrAddr phdr i)).rounds, RoundOk U fileBuffer r := by
          intro r hr
          apply hrounds r
          generalize Exec.elfSegment s P fileBuffer (Exec.segmentAt s.mem (phdrAddr phdr i)) = d
          obtain ⟨ok, s'⟩ := d
          cases ok with
          | false =>
            rw [Exec.rounds_cons]
            exact List.mem_append_left _ hr
          | true =>
            rw [Exec.rounds_cons]
            exact List.mem_append_left _ hr
        have hfirst : ∀ x, Taken s.pmm (Exec.elfSegment s P fileBuffer
            (Exec.segmentAt s.mem (phdrAddr phdr i))).2.pmm x → U x := by
          intro x hx
          apply hblocks x (hx.mono (Allocates.refl _) _)
          generalize Exec.elfSegment s P fileBuffer (Exec.segmentAt s.mem (phdrAddr phdr i)) = d
          obtain ⟨ok, s'⟩ := d
          cases ok with
          | false => exact Allocates.refl _
          | true => exact allocates_elfHeaders P fileBuffer phdr fuel (i + 1) s'
        have htakes : Allocates s.pmm (Exec.elfSegment s P fileBuffer
            (Exec.segmentAt s.mem (phdrAddr phdr i))).2.pmm := by
          rw [Exec.elfSegment_eq_rounds]
          exact allocates_elfRounds P fileBuffer _ s
        obtain ⟨hsame, hsteady⟩ := h.elfSegment hP hown hsegment hfirst
        rw [hsame, Option.bind_some]
        generalize Exec.elfSegment s P fileBuffer (Exec.segmentAt s.mem (phdrAddr phdr i)) = d
          at hsteady hblocks hread hrounds htakes ⊢
        obtain ⟨ok, s'⟩ := d
        cases ok with
        | false => exact ⟨rfl, hsteady⟩
        | true =>
          apply ih hsteady
          · exact fun d hd => hread d (List.mem_cons_of_mem _ hd)
          · intro r hr
            apply hrounds r
            rw [Exec.rounds_cons]
            exact List.mem_append_right _ hr
          · exact fun x hx => hblocks x (hx.mono htakes (Allocates.refl _))
      · rw [if_neg hload] at hread hrounds hblocks
        rw [peekLe_eq h.straight (hread (phdrAddr phdr i, 4) List.mem_cons_self), Option.bind_some, if_neg hload,
          if_neg hload]
        exact ih h (fun d hd => hread d (List.mem_cons_of_mem _ hd)) hrounds hblocks
    · rw [if_neg hi, if_neg hi]
      exact ⟨rfl, h⟩

/-! ### The header -/

/-- Checks on bytes that are there. -/
theorem checks_some (bs : List Bool) : checks (bs.map some) = some (bs.all id) := by
  induction bs with
  | nil => rfl
  | cons b bs ih =>
    cases b with
    | false => rfl
    | true => exact ih

section Header

variable (h : ∀ x, U x → frame s x = some x) {hdr : ℕ} (hhdr : ∀ x, hdr ≤ x → x < hdr + 64 → U x)
include h hhdr

theorem peek_header {k : ℕ} (hk : k < 64) : peek s (hdr + k) = some (s.mem (hdr + k)) := by
  rw [peek, h _ (hhdr _ (by omega) (by omega))]
  rfl

theorem peekLe_header {k n : ℕ} (hk : k + n ≤ 64) : peekLe s (hdr + k) n = some (readLe s.mem (hdr + k) n) :=
  peekLe_eq h fun x hx hx' => hhdr x (by omega) (by omega)

theorem elfCheckFile_eq : elfCheckFile s hdr = some (Exec.elfCheckFile s.mem hdr) := by
  have hfirst := peek_header h hhdr (show 0 < 64 from by decide)
  rw [Nat.add_zero] at hfirst
  rw [elfCheckFile, hfirst, peek_header h hhdr (show 1 < 64 from by decide),
    peek_header h hhdr (show 2 < 64 from by decide), peek_header h hhdr (show 3 < 64 from by decide)]
  refine (checks_some [hdr != 0, s.mem hdr == 0x7F, s.mem (hdr + 1) == 69, s.mem (hdr + 2) == 76,
    s.mem (hdr + 3) == 70]).trans ?_
  simp only [List.all_cons, List.all_nil, id, Exec.elfCheckFile, Bool.and_true, Bool.and_assoc]

theorem elfCheckSupported_eq : elfCheckSupported s hdr = some (Exec.elfCheckSupported s.mem hdr) := by
  rw [elfCheckSupported, elfCheckFile_eq h hhdr, peek_header h hhdr (show 4 < 64 from by decide),
    peek_header h hhdr (show 5 < 64 from by decide), peekLe_header h hhdr (show 18 + 2 ≤ 64 from by decide),
    peekLe_header h hhdr (show 16 + 2 ≤ 64 from by decide)]
  refine (checks_some [Exec.elfCheckFile s.mem hdr, s.mem (hdr + 4) == 2, s.mem (hdr + 5) == 1,
    readLe s.mem (hdr + 18) 2 == 62, readLe s.mem (hdr + 16) 2 == 2 || readLe s.mem (hdr + 16) 2 == 3]).trans ?_
  simp only [List.all_cons, List.all_nil, id, Exec.elfCheckSupported, Bool.and_true, Bool.and_assoc]

end Header

/-- **`elf_load_file`**, when its file and its blocks are among the addresses in use and its pages are not. -/
theorem Steady.elfLoadFile (h : Steady U root s) (hP : root P) (hown : ∀ a ∈ own, U a)
    (hhdr : ∀ x, fileBuffer ≤ x → x < fileBuffer + 64 → U x)
    (hread : Exec.elfCheckSupported s.mem fileBuffer = true →
      ∀ d ∈ headersRead P fileBuffer (programHeaders s.mem fileBuffer) 65536 0 s, ∀ x, d.1 ≤ x → x < d.1 + d.2 → U x)
    (hrounds : Exec.elfCheckSupported s.mem fileBuffer = true →
      ∀ r ∈ rounds (segmentsLoaded s P fileBuffer), RoundOk U fileBuffer r)
    (hblocks : ∀ x, Taken s.pmm (Exec.elfLoadFile s P fileBuffer).2.pmm x → U x) :
    KernelMap.elfLoadFile own s P fileBuffer = some (Exec.elfLoadFile s P fileBuffer) ∧
      Steady U root (Exec.elfLoadFile s P fileBuffer).2 := by
  rw [KernelMap.elfLoadFile, elfCheckSupported_eq h.straight hhdr, Option.bind_some]
  rw [Exec.elfLoadFile] at hblocks ⊢
  by_cases hsupported : Exec.elfCheckSupported s.mem fileBuffer = true
  · rw [if_pos hsupported] at hblocks
    rw [if_pos hsupported, if_pos hsupported, peekLe_header h.straight hhdr (show 32 + 8 ≤ 64 from by decide),
      Option.bind_some]
    have htaken : ∀ x, Taken s.pmm (Exec.elfHeaders P fileBuffer (programHeaders s.mem fileBuffer)
        65536 0 s).2.pmm x → U x := by
      intro x hx
      apply hblocks x
      rw [programHeaders] at hx
      generalize Exec.elfHeaders P fileBuffer _ 65536 0 s = d at hx ⊢
      obtain ⟨ok, s'⟩ := d
      cases ok with
      | false => exact hx
      | true => exact hx
    obtain ⟨hsame, hsteady⟩ := h.elfHeaders hP hown (fun x hx hx' => hhdr x (by omega) (by omega))
      (programHeaders s.mem fileBuffer) (hread hsupported) (hrounds hsupported) htaken
    rw [programHeaders] at hsame hsteady
    rw [hsame, Option.bind_some]
    generalize Exec.elfHeaders P fileBuffer _ 65536 0 s = d at hsteady ⊢
    obtain ⟨ok, s'⟩ := d
    cases ok with
    | false => exact ⟨rfl, hsteady⟩
    | true =>
      dsimp only at hsteady ⊢
      rw [peekLe_header hsteady.straight hhdr (show 24 + 8 ≤ 64 from by decide)]
      exact ⟨rfl, hsteady⟩
  · rw [if_neg hsupported, if_neg hsupported]
    exact ⟨rfl, h⟩

end Loops

/-! ### `exec` -/

section Spawn

variable {U root : ℕ → Prop} {s : VmState} {P : ℕ} {own : List ℕ}

/-- **The loop over a flat binary.** -/
theorem Steady.flatLoop (h : Steady U root s) (hP : root P) (hown : ∀ a ∈ own, U a) {size n offset : ℕ}
    (hfile : ∀ x, loadAddr ≤ x → x < loadAddr + size → U x)
    (hapart : ∀ k, k < n → ∀ x, U x → ¬ SamePage x (flatBinaryVaddr + offset + k * pageSize))
    (hblocks : ∀ x, Taken s.pmm (Exec.flatLoop P size n offset s).2.pmm x → U x) :
    KernelMap.flatLoop own P size n offset s = some (Exec.flatLoop P size n offset s) ∧
      Steady U root (Exec.flatLoop P size n offset s).2 := by
  induction n generalizing offset s with
  | zero => exact ⟨rfl, h⟩
  | succ n ih =>
    have hpage := allocates_flatPage s P size offset
    have hfirst : ∀ x, Taken s.pmm (Exec.flatPage s P size offset).2.pmm x → U x := by
      intro x hx
      apply hblocks x (hx.mono (Allocates.refl _) _)
      rw [Exec.flatLoop]
      generalize Exec.flatPage s P size offset = d
      obtain ⟨ok, s'⟩ := d
      cases ok with
      | false => exact Allocates.refl _
      | true => exact allocates_flatLoop P size n (offset + pageSize) s'
    have hzero := hapart 0 (Nat.succ_pos n)
    rw [Nat.zero_mul, Nat.add_zero] at hzero
    obtain ⟨hsame, hsteady⟩ := h.flatPage hP hown hzero
      (fun x hx _ hx' => hfile x (by omega) hx') hfirst
    rw [Exec.flatLoop] at hblocks ⊢
    rw [KernelMap.flatLoop, hsame, Option.bind_some]
    generalize Exec.flatPage s P size offset = d at hpage hsteady hblocks ⊢
    obtain ⟨ok, s'⟩ := d
    cases ok with
    | false => exact ⟨rfl, hsteady⟩
    | true =>
      refine ih hsteady ?_ fun x hx => hblocks x (hx.mono hpage (Allocates.refl _))
      intro k hk
      have hnext := hapart (k + 1) (Nat.succ_lt_succ hk)
      rwa [Nat.succ_mul, Nat.add_comm (k * pageSize), ← Nat.add_assoc, Nat.add_assoc flatBinaryVaddr] at hnext

/-- What `exec` does with the file in place uses these addresses, and maps its pages at none of them. -/
structure SpawnOk (U : ℕ → Prop) (s : VmState) (fileSize : ℕ) : Prop where
  header : ∀ x, loadAddr ≤ x → x < loadAddr + 64 → U x
  blocks : ∀ x, Taken s.pmm (Exec.execSpawn s fileSize).2.pmm x → U x
  headers : (pmmAllocBlock s.pmm).1 ≠ 0 → Exec.elfCheckSupported (newRoot s).mem loadAddr = true →
    ∀ d ∈ headersRead (pmmAllocBlock s.pmm).1 loadAddr (programHeaders (newRoot s).mem loadAddr) 65536 0 (newRoot s),
      ∀ x, d.1 ≤ x → x < d.1 + d.2 → U x
  rounds : (pmmAllocBlock s.pmm).1 ≠ 0 → Exec.elfCheckSupported (newRoot s).mem loadAddr = true →
    ∀ r ∈ rounds (segmentsLoaded (newRoot s) (pmmAllocBlock s.pmm).1 loadAddr), RoundOk U loadAddr r
  file : (pmmAllocBlock s.pmm).1 ≠ 0 → Exec.elfCheckFile (newRoot s).mem loadAddr = false →
    ∀ x, loadAddr ≤ x → x < loadAddr + fileSize → U x
  flat : (pmmAllocBlock s.pmm).1 ≠ 0 → Exec.elfCheckFile (newRoot s).mem loadAddr = false →
    ∀ k, k < (fileSize + pageSize - 1) / pageSize → ∀ x, U x → ¬ SamePage x (flatBinaryVaddr + k * pageSize)

/-- **`exec` from the staged file on.** -/
theorem Steady.execSpawn (h : Steady U root s) (hown : ∀ a ∈ own, U a) {fileSize : ℕ}
    (hspawn : SpawnOk U s fileSize) :
    KernelMap.execSpawn own s fileSize = some (Exec.execSpawn s fileSize) ∧
      ∃ root', Steady U root' (Exec.execSpawn s fileSize).2 := by
  have hblocks := hspawn.blocks
  have hall := allocates_execSpawn s fileSize
  obtain ⟨hcreate, hroot⟩ := h.createUserPml4 fun x hx => hblocks x (hx.mono (Allocates.refl _) hall)
  rw [KernelMap.execSpawn, hcreate, Option.bind_some, vmmCreateUserPml4_eq]
  rw [execSpawn_eq] at hblocks ⊢
  by_cases h0 : (pmmAllocBlock s.pmm).1 = 0
  · rw [if_pos h0, if_pos h0]
    dsimp only
    rw [if_pos rfl]
    exact ⟨rfl, root, h.alloc⟩
  · have hsteady := hroot h0
    rw [if_neg h0] at hblocks
    rw [if_neg h0, if_neg h0]
    dsimp only
    rw [if_neg h0, elfCheckFile_eq hsteady.straight hspawn.header, Option.bind_some]
    have hlater : ∀ {p x}, Taken (newRoot s).pmm p x → Taken s.pmm p x :=
      fun hx => hx.mono (allocates_alloc s.pmm) (Allocates.refl _)
    cases helf : Exec.elfCheckFile (newRoot s).mem loadAddr with
    | true =>
      rw [helf, if_pos rfl] at hblocks
      obtain ⟨hsame, hloaded⟩ := hsteady.elfLoadFile (Or.inr rfl) hown hspawn.header (hspawn.headers h0)
        (hspawn.rounds h0) fun x hx => hblocks x (hlater hx)
      rw [if_pos rfl, if_pos rfl, hsame, Option.map_some]
      refine ⟨?_, _, hloaded⟩
      generalize Exec.elfLoadFile (newRoot s) (pmmAllocBlock s.pmm).1 loadAddr = d
      split
      · rfl
      · rfl
    | false =>
      rw [helf, if_neg Bool.false_ne_true] at hblocks
      obtain ⟨hsame, hloaded⟩ := hsteady.flatLoop (Or.inr rfl) hown (hspawn.file h0 helf) (hspawn.flat h0 helf)
        fun x hx => hblocks x (hlater hx)
      rw [if_neg Bool.false_ne_true, if_neg Bool.false_ne_true, hsame, Option.map_some]
      refine ⟨?_, _, hloaded⟩
      generalize Exec.flatLoop (pmmAllocBlock s.pmm).1 fileSize _ 0 (newRoot s) = d
      obtain ⟨ok, s'⟩ := d
      cases ok with
      | false => rfl
      | true => rfl

/-- Bytes that hit no table. -/
theorem Steady.store (h : Steady U root s) {a : ℕ} {bytes : List UInt8}
    (hmiss : ∀ x, a ≤ x → x < a + bytes.length → OffTables s.mem root x) :
    Steady U root { s with mem := store s.mem a bytes } := by
  refine h.transfer (Later.refl _) rfl rfl ?_
  intro t k ht
  apply entry_of_page
  intro x hx hx'
  show Lib.ByteMemory.store s.mem a bytes x = s.mem x
  rw [Lib.ByteMemory.store, if_neg]
  exact fun hin => hmiss x hin.1 hin.2 t ht ⟨hx, hx'⟩

/-- **The file is stored byte by byte.** -/
theorem Steady.storeBytes (h : Steady U root s) {a : ℕ} {bytes : List UInt8} {n : ℕ} (hn : n ≤ bytes.length)
    (hmiss : ∀ x, a ≤ x → x < a + bytes.length → OffTables s.mem root x)
    (hU : ∀ x, a ≤ x → x < a + bytes.length → U x) :
    KernelMap.storeBytes s a bytes n = some { s with mem := Lib.ByteMemory.store s.mem a (bytes.take n) } := by
  induction n with
  | zero =>
    have hnone : Lib.ByteMemory.store s.mem a (bytes.take 0) = s.mem := by
      funext x
      rw [Lib.ByteMemory.store, List.take_zero, List.length_nil, if_neg (by omega)]
    rw [KernelMap.storeBytes, hnone]
  | succ n ih =>
    have hlen : (bytes.take n).length = n := by
      rw [List.length_take]
      omega
    have hbefore : Steady U root { s with mem := Lib.ByteMemory.store s.mem a (bytes.take n) } :=
      h.store fun x hx hx' => hmiss x hx (by omega)
    have hone : Function.update (Lib.ByteMemory.store s.mem a (bytes.take n)) (a + n) (bytes.getD n 0) =
        Lib.ByteMemory.store s.mem a (bytes.take (n + 1)) := by
      funext x
      have hlen' : (bytes.take (n + 1)).length = n + 1 := by
        rw [List.length_take]
        omega
      by_cases hx : x = a + n
      · subst hx
        rw [Function.update_self, Lib.ByteMemory.store, if_pos (by omega), Nat.add_sub_cancel_left]
        simp [List.getD_eq_getElem?_getD]
      · rw [Function.update_of_ne hx, Lib.ByteMemory.store, Lib.ByteMemory.store, hlen, hlen']
        by_cases hin : a ≤ x ∧ x < a + n
        · rw [if_pos hin, if_pos (by omega)]
          simp [List.getD_eq_getElem?_getD, show x - a < n by omega, show x - a < n + 1 by omega]
        · rw [if_neg hin, if_neg (by omega)]
    rw [KernelMap.storeBytes, ih (by omega), Option.bind_some, poke,
      hbefore.straight _ (hU (a + n) (by omega) (by omega)), Option.map_some, hone]

/-- **`exec`.** -/
theorem Steady.exec (h : Steady U root s) (hown : ∀ a ∈ own, U a) {image : List UInt8} {fileSize : ℕ}
    (hmiss : ∀ x, loadAddr ≤ x → x < loadAddr + image.length → OffTables s.mem root x)
    (hU : ∀ x, loadAddr ≤ x → x < loadAddr + image.length → U x)
    (hspawn : SpawnOk U { s with mem := Lib.ByteMemory.store s.mem loadAddr image } fileSize) :
    KernelMap.exec own s image fileSize = some (Exec.exec s image fileSize) ∧
      ∃ root', Steady U root' (Exec.exec s image fileSize).2 := by
  have hstored := h.storeBytes (Nat.le_refl image.length) hmiss hU
  rw [List.take_length] at hstored
  rw [KernelMap.exec, hstored, Option.bind_some]
  exact (h.store hmiss).execSpawn hown hspawn

end Spawn

/-! ### The condition -/

/-- **The addresses that `elf_load_file` uses**: the kernel's own pages, the tables, the file as far as it is
read, and the blocks that are taken. -/
inductive Uses (own : List ℕ) (root : ℕ → Prop) (s : VmState) (pml4 fileBuffer : ℕ) : ℕ → Prop
  | own {x : ℕ} (hx : x ∈ own) : Uses own root s pml4 fileBuffer x
  | table {t x : ℕ} (ht : Node (next s.mem) root 3 t) (hx : t ≤ x) (hx' : x < t + pageSize) :
      Uses own root s pml4 fileBuffer x
  | header {x : ℕ} (hx : fileBuffer ≤ x) (hx' : x < fileBuffer + 64) : Uses own root s pml4 fileBuffer x
  | programHeader {d : ℕ × ℕ} {x : ℕ}
      (hd : d ∈ headersRead pml4 fileBuffer (programHeaders s.mem fileBuffer) 65536 0 s) (hx : d.1 ≤ x)
      (hx' : x < d.1 + d.2) : Uses own root s pml4 fileBuffer x
  | source {r : Round} {x : ℕ} (hr : r ∈ rounds (segmentsLoaded s pml4 fileBuffer))
      (hx : Copies fileBuffer r x) : Uses own root s pml4 fileBuffer x
  | block {x : ℕ} (hx : Taken s.pmm (Exec.elfLoadFile s pml4 fileBuffer).2.pmm x) :
      Uses own root s pml4 fileBuffer x

/-- **A load in place**: every address it uses leads to itself at the call, and no page of the file is mapped
over one of them. -/
structure InPlace (own : List ℕ) (root : ℕ → Prop) (s : VmState) (pml4 fileBuffer : ℕ) : Prop where
  ok : TablesOk s root
  current : root s.currentPml4
  kernel : root s.kernelPml4
  space : root pml4
  straight : ∀ x, Uses own root s pml4 fileBuffer x → frame s x = some x
  apart : ∀ r ∈ rounds (segmentsLoaded s pml4 fileBuffer), ∀ x, Uses own root s pml4 fileBuffer x →
    ¬ SamePage x r.vaddr

section InPlace

variable {own : List ℕ} {root : ℕ → Prop} {s : VmState} {pml4 fileBuffer : ℕ}
  (h : InPlace own root s pml4 fileBuffer)
include h

theorem InPlace.steady : Steady (Uses own root s pml4 fileBuffer) root s :=
  ⟨h.ok, h.current, h.kernel, fun _ _ => Uses.table, h.straight⟩

theorem InPlace.roundOk : ∀ r ∈ rounds (segmentsLoaded s pml4 fileBuffer),
    RoundOk (Uses own root s pml4 fileBuffer) fileBuffer r :=
  fun r hr => ⟨fun hlt _ hx hx' => Uses.source hr ⟨hlt, hx, hx'⟩, h.apart r hr⟩

/-- **A load in place is that of `Exec`.** -/
theorem InPlace.elfLoadFile :
    KernelMap.elfLoadFile own s pml4 fileBuffer = some (Exec.elfLoadFile s pml4 fileBuffer) :=
  (h.steady.elfLoadFile h.space (fun _ => Uses.own) (fun _ => Uses.header)
    (fun _ _ hd _ => Uses.programHeader hd) (fun _ => h.roundOk) fun _ => Uses.block).1

end InPlace

/-! ### A file apart from tables and blocks -/

theorem mem_segmentsFrom {m : Memory} {phdr n i : ℕ} {seg : Segment} :
    seg ∈ Exec.segmentsFrom m phdr n i ↔ ∃ j, i ≤ j ∧ j < i + n ∧ readLe m (phdrAddr phdr j) 4 = 1 ∧
      seg = Exec.segmentAt m (phdrAddr phdr j) := by
  induction n generalizing i with
  | zero =>
    simp only [Exec.segmentsFrom, List.not_mem_nil, false_iff]
    rintro ⟨j, hj, hj', -⟩
    omega
  | succ n ih =>
    have hlater : (∃ j, i + 1 ≤ j ∧ j < i + 1 + n ∧ readLe m (phdrAddr phdr j) 4 = 1 ∧
        seg = Exec.segmentAt m (phdrAddr phdr j)) → ∃ j, i ≤ j ∧ j < i + (n + 1) ∧
          readLe m (phdrAddr phdr j) 4 = 1 ∧ seg = Exec.segmentAt m (phdrAddr phdr j) := by
      rintro ⟨j, hj, hj', hseg⟩
      exact ⟨j, by omega, by omega, hseg⟩
    rw [Exec.segmentsFrom]
    split
    · rename_i hload
      rw [List.mem_cons, ih]
      constructor
      · rintro (hseg | hrest)
        · exact ⟨i, Nat.le_refl i, by omega, hload, hseg⟩
        · exact hlater hrest
      · rintro ⟨j, hj, hj', hload', hseg⟩
        by_cases hij : j = i
        · exact Or.inl (hij ▸ hseg)
        · exact Or.inr ⟨j, by omega, by omega, hload', hseg⟩
    · rename_i hskip
      rw [ih]
      refine ⟨hlater, ?_⟩
      rintro ⟨j, hj, hj', hload, hseg⟩
      have hij : j ≠ i := by
        rintro rfl
        exact hskip hload
      exact ⟨j, by omega, by omega, hload, hseg⟩

section File

variable {pml4 fileBuffer : ℕ} {image : List UInt8} {s₀ : VmState}
  (hclear : ∀ p, Exec.Clear pml4 fileBuffer image s₀ p)
  (hheaders : Exec.HeadersIn s₀.mem fileBuffer image)
include hclear hheaders

/-- **What the loop reads and loads** are the headers and the segments of the file. -/
theorem read_in_file (fuel i : ℕ) {s : VmState} (h : Exec.Loading pml4 fileBuffer image s₀ s) :
    (∀ d ∈ headersRead pml4 fileBuffer (programHeaders s₀.mem fileBuffer) fuel i s,
        fileBuffer ≤ d.1 ∧ d.1 + d.2 ≤ fileBuffer + image.length) ∧
      ∀ seg ∈ segmentsRead pml4 fileBuffer (programHeaders s₀.mem fileBuffer) fuel i s,
        seg ∈ Exec.loadSegments s₀.mem fileBuffer := by
  induction fuel generalizing i s with
  | zero => exact ⟨fun d hd => absurd hd List.not_mem_nil, fun seg hseg => absurd hseg List.not_mem_nil⟩
  | succ fuel ih =>
    have hlen := hheaders.file
    rw [headersRead, segmentsRead, h.readLe (by omega) (by omega)]
    by_cases hi : i < readLe s₀.mem (fileBuffer + 56) 2
    · obtain ⟨hfirst, hlast⟩ := hheaders.table i hi
      rw [if_pos hi, if_pos hi, h.readLe hfirst (by omega)]
      by_cases hload : readLe s₀.mem (phdrAddr (programHeaders s₀.mem fileBuffer) i) 4 = 1
      · have hloaded := Exec.elfSegment_eq_rounds pml4 fileBuffer
          (Exec.segmentAt s₀.mem (phdrAddr (programHeaders s₀.mem fileBuffer) i)) s
        have hseg : Exec.segmentAt s₀.mem (phdrAddr (programHeaders s₀.mem fileBuffer) i) ∈
            Exec.loadSegments s₀.mem fileBuffer :=
          mem_segmentsFrom.mpr ⟨i, Nat.zero_le i, by omega, hload, rfl⟩
        rw [if_pos hload, if_pos hload, h.segmentAt hfirst hlast]
        cases hok : Exec.elfSegment s pml4 fileBuffer
            (Exec.segmentAt s₀.mem (phdrAddr (programHeaders s₀.mem fileBuffer) i)) with
        | mk ok s' =>
          cases ok with
          | false =>
            refine ⟨?_, ?_⟩
            · intro d hd
              obtain rfl := List.mem_singleton.mp hd
              exact ⟨hfirst, by omega⟩
            · intro seg hmem
              rw [List.mem_singleton.mp hmem]
              exact hseg
          | true =>
            have hafter : Exec.Loading pml4 fileBuffer image s₀ s' := by
              rw [hok] at hloaded
              have hrun := Exec.loading_elfRounds hclear h (by rw [← hloaded])
              rw [← hloaded] at hrun
              exact hrun
            obtain ⟨hread, hsegs⟩ := ih (i + 1) hafter
            refine ⟨?_, ?_⟩
            · intro d hd
              cases List.mem_cons.mp hd with
              | inl heq =>
                rw [heq]
                exact ⟨hfirst, by omega⟩
              | inr hmem => exact hread d hmem
            · intro seg hmem
              cases List.mem_cons.mp hmem with
              | inl heq => exact heq ▸ hseg
              | inr hmem => exact hsegs seg hmem
      · rw [if_neg hload, if_neg hload]
        obtain ⟨hread, hsegs⟩ := ih (i + 1) h
        refine ⟨?_, hsegs⟩
        intro d hd
        cases List.mem_cons.mp hd with
        | inl heq =>
          rw [heq]
          exact ⟨hfirst, by omega⟩
        | inr hmem => exact hread d hmem
    · rw [if_neg hi, if_neg hi]
      exact ⟨fun d hd => absurd hd List.not_mem_nil, fun seg hseg => absurd hseg List.not_mem_nil⟩

/-- **A file apart is loaded in place** when its pages keep away from the kernel, the tables, the file itself and
the blocks. -/
theorem inPlace_of_file {own : List ℕ} {root : ℕ → Prop} (hok : TablesOk s₀ root) (hcurrent : root s₀.currentPml4)
    (hkernel : root s₀.kernelPml4) (hspace : root pml4)
    (hstart : Exec.Loading pml4 fileBuffer image s₀ s₀) {V : ℕ → Prop} (hown : ∀ x ∈ own, V x)
    (htables : ∀ t x, Node (next s₀.mem) root 3 t → t ≤ x → x < t + pageSize → V x)
    (hfile : ∀ x, fileBuffer ≤ x → x < fileBuffer + image.length → V x)
    (hblocks : ∀ x, Taken s₀.pmm (Exec.elfLoadFile s₀ pml4 fileBuffer).2.pmm x → V x)
    (hstraight : ∀ x, V x → frame s₀ x = some x)
    (hrounds : ∀ r ∈ rounds (Exec.loadSegments s₀.mem fileBuffer), RoundOk V fileBuffer r) :
    InPlace own root s₀ pml4 fileBuffer := by
  have hlen := hheaders.file
  obtain ⟨hread, hsegs⟩ := read_in_file hclear hheaders 65536 0 hstart
  have hround : ∀ r ∈ rounds (segmentsLoaded s₀ pml4 fileBuffer), RoundOk V fileBuffer r := by
    intro r hr
    obtain ⟨hseg, hpage⟩ := Exec.mem_rounds.mp hr
    exact hrounds r (Exec.mem_rounds.mpr ⟨hsegs _ hseg, hpage⟩)
  have huses : ∀ x, Uses own root s₀ pml4 fileBuffer x → V x := by
    intro x hx
    cases hx with
    | own hx => exact hown x hx
    | table ht hx hx' => exact htables _ x ht hx hx'
    | header hx hx' => exact hfile x hx (by omega)
    | programHeader hd hx hx' =>
      obtain ⟨hfirst, hlast⟩ := hread _ hd
      exact hfile x (by omega) (by omega)
    | source hr hx => exact (hround _ hr).source hx.1 x hx.2.1 hx.2.2
    | block hx => exact hblocks x hx
  exact ⟨hok, hcurrent, hkernel, hspace, fun x hx => hstraight x (huses x hx),
    fun r hr x hx => (hround r hr).apart x (huses x hx)⟩

end File

/-! ### A machine with a file in front of the heap -/

/-- A block between 32 and 128 MB. -/
def InUpper (a : ℕ) : Prop := 0x2000000 ≤ a ∧ a + pageSize ≤ 0x8000000

/-- In the kernel's address space the first 512 MB are their own. -/
theorem frame_of_isolated {s : VmState} {spaces : List ℕ} (h : Isolated ⟨s, spaces⟩)
    (hcurrent : s.currentPml4 = s.kernelPml4) {x : ℕ} (hx : x < identityMapEnd) : frame s x = some x := by
  have hcanonical : canonical x = true := by
    rw [identityMapEnd] at hx
    rw [canonical, decide_eq_true (by omega), Bool.true_or]
  rw [frame, if_pos hcanonical, hcurrent]
  apply translate_identity h.tables (Or.inl rfl) hx
  apply h.identity
  rw [identityMapEnd] at hx
  omega

/-- The blocks of a machine of 128 MB whose first 32 MB are used. -/
theorem inUpper_of_alloc {p q : PmmState} (htotal : p.totalBlocks = 32768)
    (hused : ∀ i, i < 8192 → testBit p.bitmap i = true) (hq : Allocates p q) (h0 : (pmmAllocBlock q).1 ≠ 0) :
    InUpper (pmmAllocBlock q).1 := by
  obtain ⟨i, haddr, hi, hfree, -, -⟩ := pmmAllocBlock_fresh q h0
  have hcount : q.totalBlocks = p.totalBlocks := hq.later.total
  have hlow : 8192 ≤ i := by
    by_contra hlt
    have hbit := hq.later.used i (hused i (by omega))
    exact absurd (hbit.symm.trans hfree) (by decide)
  rw [InUpper, haddr, blockSize, pageSize]
  omega

/-- **A machine after its start**, with its tables and its free blocks between 32 and 128 MB. -/
structure Started (s : VmState) : Prop where
  isolated : Isolated ⟨s, []⟩
  current : s.currentPml4 = s.kernelPml4
  tables : ∀ t, Node (next s.mem) (fun r => r = s.kernelPml4) 3 t → InUpper t
  total : s.pmm.totalBlocks = 32768
  used : ∀ i, i < 8192 → testBit s.pmm.bitmap i = true
  free : 24317 ≤ (freeBlocks s.pmm).card

/-- The machine with a file at `0x300000`. -/
def fileVm (s : VmState) (image : List UInt8) : VmState :=
  { s with mem := Lib.ByteMemory.store s.mem 0x300000 image }

/-- The PML4 it makes next. -/
def newSpace (s : VmState) : ℕ := (pmmAllocBlock s.pmm).1

/-- The machine with that address space, and `k` blocks that were taken since. -/
def loaderVm (s : VmState) (image : List UInt8) (k : ℕ) : VmState :=
  { newRoot (fileVm s image) with pmm := pmmAfter k (pmmAllocBlock s.pmm).2 }

theorem loaderVm_pmm (s : VmState) (image : List UInt8) (k : ℕ) :
    (loaderVm s image k).pmm = pmmAfter k (pmmAllocBlock s.pmm).2 := rfl

theorem loaderVm_mem (s : VmState) (image : List UInt8) (k : ℕ) :
    (loaderVm s image k).mem = (newRoot (fileVm s image)).mem := rfl

section Started

variable {s : VmState} (hs : Started s)
include hs

/-- The blocks that are handed out. -/
theorem Started.blocks {q : PmmState} (hq : Allocates s.pmm q) (h0 : (pmmAllocBlock q).1 ≠ 0) :
    InUpper (pmmAllocBlock q).1 := inUpper_of_alloc hs.total hs.used hq h0

/-- Its addresses below 128 MB can be used. -/
theorem Started.steady : Steady (fun x => x < 0x8000000) (fun r => r = s.kernelPml4) s := by
  have hok := hs.isolated.tables
  rw [Machine.root_nil] at hok
  refine ⟨hok, hs.current, rfl, ?_, ?_⟩
  · intro t x ht _ hx
    obtain ⟨-, hup⟩ := hs.tables t ht
    exact Nat.lt_of_lt_of_le hx hup
  · exact fun x hx => frame_of_isolated hs.isolated hs.current (Nat.lt_trans hx (by decide))

theorem Started.newSpace_ne : newSpace s ≠ 0 :=
  pmmAllocBlock_ne_zero hs.isolated.tables.zero (Nat.lt_of_lt_of_le (by decide) hs.free)

theorem Started.inUpper_newSpace : InUpper (newSpace s) := hs.blocks (Allocates.refl _) hs.newSpace_ne

variable {image : List UInt8} (hlen : image.length ≤ pageSize) (k : ℕ)
include hlen

/-- The file is in no table. -/
theorem Started.entry_fileVm {t : ℕ} (i : Fin 512)
    (ht : Node (next s.mem) (fun r => r = s.kernelPml4) 3 t) :
    Vmm.entry (fileVm s image).mem t i = Vmm.entry s.mem t i := by
  obtain ⟨hup, -⟩ := hs.tables t ht
  rw [pageSize] at hlen
  exact entry_of_page (fun x hx _ => store_of_notMem (Or.inr (by omega))) i

theorem Started.isolated_fileVm : Isolated ⟨fileVm s image, []⟩ := by
  refine hs.isolated.transfer rfl (Later.refl _) ?_
  rintro t i ⟨r, q, hr, hq, hreach⟩
  exact hs.entry_fileVm hlen i ⟨r, q, hr.resolve_right List.not_mem_nil, hq, hreach⟩

theorem Started.isolated_loaderVm : Isolated ⟨loaderVm s image k, [newSpace s]⟩ := by
  have hcreated := (hs.isolated_fileVm hlen).create
  rw [step_create (show (pmmAllocBlock (fileVm s image).pmm).1 ≠ 0 from hs.newSpace_ne)] at hcreated
  exact hcreated.transfer rfl (allocates_pmmAfter k _).later fun _ _ _ => rfl

/-- The tables of the machine. -/
theorem Started.inUpper_of_node {t : ℕ}
    (ht : Node (next (loaderVm s image k).mem) (Machine.root ⟨loaderVm s image k, [newSpace s]⟩) 3 t) :
    InUpper t := by
  have hroot : Machine.root ⟨loaderVm s image k, [newSpace s]⟩ =
      fun r => Machine.root ⟨fileVm s image, []⟩ r ∨ r = (pmmAllocBlock (fileVm s image).pmm).1 := by
    funext r
    simp only [Machine.root, List.mem_singleton, List.not_mem_nil, or_false]
    rfl
  rw [hroot] at ht
  cases node_newRoot (hs.isolated_fileVm hlen).tables (Or.inl rfl) hs.newSpace_ne (Nat.le_refl 3) ht with
  | inl hnew =>
    rw [hnew]
    exact hs.inUpper_newSpace
  | inr hold =>
    obtain ⟨r, q, hr, hq, hreach⟩ := hold
    have hr' : r = s.kernelPml4 := hr.resolve_right List.not_mem_nil
    rw [reach_transfer (fun t i ht => hs.entry_fileVm hlen i ht) hr' hq] at hreach
    exact hs.tables t ⟨r, q, hr', hq, hreach⟩

/-- The first 512 MB are their own. -/
theorem Started.frame_loaderVm {x : ℕ} (hx : x < identityMapEnd) : frame (loaderVm s image k) x = some x :=
  frame_of_isolated (hs.isolated_loaderVm hlen k) hs.current hx

omit hlen in
/-- The blocks that are taken. -/
theorem Started.inUpper_of_returned {p : PmmState} {a : ℕ} (ha : Returned (loaderVm s image k).pmm p a) :
    InUpper a := by
  obtain ⟨q, hq, -, haddr, h0⟩ := ha
  have hall : Allocates s.pmm (loaderVm s image k).pmm := (allocates_alloc _).trans (allocates_pmmAfter k _)
  rw [← haddr] at h0 ⊢
  exact hs.blocks (hall.trans hq) h0

theorem Started.staged : Exec.Staged (loaderVm s image k).mem 0x300000 image where
  fits := by
    rw [pageSize] at hlen
    omega
  bytes := by
    intro j hj
    obtain ⟨hup, -⟩ := hs.inUpper_newSpace
    rw [newSpace] at hup
    rw [pageSize] at hlen
    have hfile : (fileVm s image).pmm = s.pmm := rfl
    rw [loaderVm_mem, newRoot_of_notMem (Or.inl (by rw [hfile]; omega)), fileVm]
    dsimp only
    rw [Lib.ByteMemory.store, if_pos ⟨by omega, by omega⟩, Nat.add_sub_cancel_left]

/-- The new address space is empty apart from entry 0. -/
theorem Started.next_newSpace {i : Fin 512} (hi : i ≠ 0) : next (loaderVm s image k).mem (newSpace s) i = none := by
  apply next_eq_none
  have hentry := entry_newRoot_other (hs.isolated_fileVm hlen).tables (Or.inl rfl) hs.newSpace_ne hi
  rw [loaderVm_mem, newSpace]
  rw [show (fileVm s image).pmm = s.pmm from rfl] at hentry
  rw [hentry]
  rfl

theorem Started.clear (p : PmmState) : Exec.Clear (newSpace s) 0x300000 image (loaderVm s image k) p where
  low := by
    intro a ha
    obtain ⟨-, hup⟩ := hs.inUpper_of_returned k ha
    omega
  tables := by
    rintro x ⟨hx, hx'⟩ t ⟨r, q, rfl, hq, ht⟩ ⟨hlow, -⟩
    obtain ⟨hup, -⟩ := hs.inUpper_of_node hlen k ⟨newSpace s, q, Or.inr (List.mem_singleton_self _), hq, ht⟩
    rw [pageSize] at hlen
    omega
  blocks := by
    rintro x ⟨hx, hx'⟩ ⟨a, ha, hlow, -⟩
    obtain ⟨hup, -⟩ := hs.inUpper_of_returned k ha
    rw [pageSize] at hlen
    omega

theorem Started.loading_start : Exec.Loading (newSpace s) 0x300000 image (loaderVm s image k) (loaderVm s image k) :=
  Exec.loading_start (treeOk_of_tablesOk (hs.isolated_loaderVm hlen k).tables
    (Or.inr (List.mem_singleton_self _))) _ _

/-- **A file whose pages are above 512 GB is loaded in place.** -/
theorem Started.inPlace (hheaders : Exec.HeadersIn (loaderVm s image k).mem 0x300000 image)
    (hsource : ∀ r ∈ rounds (Exec.loadSegments (loaderVm s image k).mem 0x300000), ∀ x, Copies 0x300000 r x →
      0x300000 ≤ x ∧ x < 0x300000 + image.length)
    (hhigh : ∀ r ∈ rounds (Exec.loadSegments (loaderVm s image k).mem 0x300000), pml4Index r.vaddr ≠ 0)
    {own : List ℕ} (hown : ∀ a ∈ own, a < 0x8000000) :
    InPlace own (Machine.root ⟨loaderVm s image k, [newSpace s]⟩) (loaderVm s image k) (newSpace s) 0x300000 := by
  have h := hs.isolated_loaderVm hlen k
  have hcurrent : Machine.root ⟨loaderVm s image k, [newSpace s]⟩ (loaderVm s image k).currentPml4 :=
    Or.inl hs.current
  have hsize : pageSize = 4096 := rfl
  refine inPlace_of_file (V := fun x => x < 0x8000000) (hs.clear hlen k) hheaders h.tables hcurrent
    (Or.inl rfl) (Or.inr (List.mem_singleton_self _)) (hs.loading_start hlen k) hown ?_ ?_ ?_ ?_ ?_
  · intro t x ht _ hx
    obtain ⟨-, hup⟩ := hs.inUpper_of_node hlen k ht
    exact Nat.lt_of_lt_of_le hx hup
  · intro x _ hx
    omega
  · rintro x ⟨a, ha, -, hx⟩
    obtain ⟨-, hup⟩ := hs.inUpper_of_returned k ha
    exact Nat.lt_of_lt_of_le hx hup
  · intro x hx
    exact hs.frame_loaderVm hlen k (Nat.lt_of_lt_of_le hx (by decide))
  · intro r hr
    refine ⟨?_, ?_⟩
    · intro hlt x hx hx'
      obtain ⟨-, hin⟩ := hsource r hr x ⟨hlt, hx, hx'⟩
      omega
    · intro x hx hpage
      have hsame := (indices_eq_iff x r.vaddr).mpr hpage
      rw [indices, dirs, indices, dirs] at hsame
      apply hhigh r hr
      rw [← (List.cons.inj hsame).1, pml4Index, Fin.ext_iff, Fin.val_ofNat, Nat.shiftRight_eq_div_pow]
      show x / 2 ^ 39 % 512 = 0
      have hx' : x < 0x8000000 := hx
      omega

end Started

/-! ### The machine of 128 MB -/

theorem freeBelow_of_boots {s : VmState} {spare : ℕ} (h : Boots s spare) :
    259 ≤ (freeBelow s.pmm (2 ^ 40)).card := by
  have hblocks := h.blocks
  have hall : freeBelow s.pmm (2 ^ 40) = freeBlocks s.pmm := by
    rw [freeBelow, Finset.filter_true_of_mem]
    intro i hi
    exact Nat.lt_of_lt_of_le (Finset.mem_range.mp (Finset.mem_filter.mp hi).1) h.total
  rw [hall]
  omega

/-- `vmm_init` switches to its PML4. -/
theorem vmmInit_currentPml4 (s : VmState) : (vmmInit s).currentPml4 = (vmmInit s).kernelPml4 := by
  rw [vmmInit_kernelPml4, vmmInit_eq, vmmSwitchPml4]
  exact kernelRoot_kernelPml4 s

theorem started_vm128 : Started (vmmInit vm128) := by
  have hused : ∀ i, i < 8192 → testBit pmm128.bitmap i = true :=
    fun i hi => (testBit_pmm128 i).trans (decide_eq_true (by omega))
  have hlater := (allocates_vmmInit vm128).later
  refine ⟨isolated_vmmInit boots_vm128, vmmInit_currentPml4 vm128, ?_, hlater.total,
    fun i hi => hlater.used i (hused i hi), free_vmmInit_vm128⟩
  intro t ht
  obtain ⟨q, hq, -, haddr, hfree⟩ := allocated_of_node (freeBelow_of_boots boots_vm128) ht
  have h0 : (pmmAllocBlock q).1 ≠ 0 := by
    intro hzero
    rw [← haddr, hzero, Nat.zero_div, hq.later.used 0 boots_vm128.zero] at hfree
    cases hfree
  exact haddr ▸ inUpper_of_alloc rfl hused hq h0

end OsEojin.KernelMap
