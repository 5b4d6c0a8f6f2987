import OsEojin.ElfImage

/-!
# The writes of the loader

`elf_load_file` (`src/kernel/elf.c`) with every call of `memset` and `memcpy` recorded, those for the page
tables in `vmm_map_page` included, and with its loops as they stand in the source: the addresses are
64-bit numbers that wrap around, and nothing says beforehand how often a loop runs.

* `Traced`: a machine and the calls so far; `Traced.loadFile`: the loader over it;
* `Confined`: a call that writes into a block handed out meanwhile;
* `Within`: what every part of the loader does to the machine and the record;
* `pageLoop_returns`, `headerLoop_returns`: the loops end, and do what `elfPages` and `elfHeaders` do;
* `loader_confined`: the whole of it, for any bytes in the buffer.
-/

namespace OsEojin.Exec

open OsEojin.Lib.ByteMemory OsEojin.Pmm OsEojin.Vmm

/-! ### The loader with a record of its writes -/

/-- A call of `memset` or `memcpy`: where it writes, and how many bytes. -/
structure Write where
  dest : ℕ
  count : ℕ

/-- A machine and the calls so far. -/
structure Traced where
  vm : VmState
  writes : List Write

namespace Traced

/-- `memset(dest, 0, count)`. -/
def memset (t : Traced) (dest count : ℕ) : Traced :=
  ⟨{ t.vm with mem := fill t.vm.mem dest count 0 }, t.writes ++ [⟨dest, count⟩]⟩

/-- A 64-bit number handed over as an `int`: its lower half, with a sign. -/
def asInt (n : ℕ) : ℤ := (BitVec.ofNat 32 n).toInt

/-- `memcpy(dest, source, nbytes)`.  The loop counts up to `nbytes`, so a negative number copies nothing. -/
def memcpy (t : Traced) (dest source : ℕ) (nbytes : ℤ) : Traced :=
  ⟨{ t.vm with mem := copy t.vm.mem dest source nbytes.toNat }, t.writes ++ [⟨dest, nbytes.toNat⟩]⟩

/-- `pmm_alloc_block()`. -/
def allocBlock (t : Traced) : ℕ × Traced :=
  match pmmAllocBlock t.vm.pmm with
  | (block, pmm) => (block, { t with vm := { t.vm with pmm := pmm } })

/-- The store `table->entries[i] = v`. -/
def putEntry (t : Traced) (table : ℕ) (i : Fin 512) (v : ℕ) : Traced :=
  { t with vm := { t.vm with mem := Vmm.putEntry t.vm.mem table i v } }

/-- One level of `vmm_map_page`. -/
def nextTable (t : Traced) (table : ℕ) (i : Fin 512) : Option ℕ × Traced :=
  if present (entry t.vm.mem table i) then (some (tableOf (entry t.vm.mem table i)), t)
  else
    match t.allocBlock with
    | (block, t) =>
      if block = 0 then (none, t)
      else
        let t := (t.memset block pageSize).putEntry table i
          (block ||| pagingFlagPresent ||| pagingFlagWritable ||| pagingFlagUser)
        (some (tableOf (entry t.vm.mem table i)), t)

/-- `vmm_map_page(pml4, vaddr, paddr, flags)`. -/
def mapPage (t : Traced) (pml4 vaddr paddr flags : ℕ) : Traced :=
  match t.nextTable pml4 (pml4Index vaddr) with
  | (none, t) => t
  | (some pdpt, t) =>
    match t.nextTable pdpt (pdptIndex vaddr) with
    | (none, t) => t
    | (some pd, t) =>
      match t.nextTable pd (pdIndex vaddr) with
      | (none, t) => t
      | (some pt, t) => t.putEntry pt (ptIndex vaddr) (paddr &&& 0xFFFFFFFFFF000 ||| flags)

/-- The body of the loop over the pages: `false` is the return without a block. -/
def page (t : Traced) (pml4 fileBuffer : ℕ) (seg : Segment) (vaddr : ℕ) : Bool × Traced :=
  match t.allocBlock with
  | (paddr, t) =>
    if paddr = 0 then (false, t)
    else
      let t := (t.mapPage pml4 vaddr paddr pagingFlagsAll).memset paddr pageSize
      let copyStart := (copyRange seg vaddr).1
      let copyEnd := (copyRange seg vaddr).2
      if copyStart < copyEnd then
        (true, t.memcpy ((paddr + (copyStart - vaddr)) % 2 ^ 64)
          ((fileBuffer + seg.fileOffset + (copyStart - seg.vaddrStart)) % 2 ^ 64)
          (asInt (copyEnd - copyStart)))
      else (true, t)

/-- `for (; vaddr < end_vaddr; vaddr += PAGE_SIZE)`, for at most `fuel` tests: `none` when these were not
enough, `false` when the loader returned from the loop. -/
def pageLoop (pml4 fileBuffer : ℕ) (seg : Segment) (endVaddr : ℕ) :
    ℕ → ℕ → Traced → Option (Bool × Traced)
  | 0, _, _ => none
  | fuel + 1, vaddr, t =>
    if vaddr < endVaddr then
      match t.page pml4 fileBuffer seg vaddr with
      | (false, t) => some (false, t)
      | (true, t) => pageLoop pml4 fileBuffer seg endVaddr fuel ((vaddr + pageSize) % 2 ^ 64) t
    else some (true, t)

/-- A segment: `end_vaddr` and the loop. -/
def segment (fuel : ℕ) (t : Traced) (pml4 fileBuffer : ℕ) (seg : Segment) : Option (Bool × Traced) :=
  pageLoop pml4 fileBuffer seg ((seg.vaddrStart + seg.memSize + pageSize - 1) % 2 ^ 64 / pageSize * pageSize)
    fuel (seg.vaddrStart / pageSize * pageSize) t

/-- `for (int i = 0; i < hdr->e_phnum; i++)`, for at most `fuel` tests and `pageFuel` for each loop inside. -/
def headerLoop (pml4 fileBuffer phdr pageFuel : ℕ) : ℕ → ℕ → Traced → Option (Bool × Traced)
  | 0, _, _ => none
  | fuel + 1, i, t =>
    if i < readLe t.vm.mem (fileBuffer + 56) 2 then
      if readLe t.vm.mem (phdrAddr phdr i) 4 = 1 then
        match segment pageFuel t pml4 fileBuffer (segmentAt t.vm.mem (phdrAddr phdr i)) with
        | none => none
        | some (false, t) => some (false, t)
        | some (true, t) => headerLoop pml4 fileBuffer phdr pageFuel fuel (i + 1) t
      else headerLoop pml4 fileBuffer phdr pageFuel fuel (i + 1) t
    else some (true, t)

/-- `elf_load_file(pml4, file_buffer)`, `none` when `fuel` tests are not enough for one of its loops. -/
def loadFile (fuel : ℕ) (t : Traced) (pml4 fileBuffer : ℕ) : Option (ℕ × Traced) :=
  if elfCheckSupported t.vm.mem fileBuffer then
    match headerLoop pml4 fileBuffer ((fileBuffer + readLe t.vm.mem (fileBuffer + 32) 8) % 2 ^ 64) fuel fuel 0 t with
    | none => none
    | some (false, t) => some (0, t)
    | some (true, t) => some (readLe t.vm.mem (fileBuffer + 24) 8, t)
  else some (0, t)

end Traced

/-! ### Confined writes -/

/-- The call writes into a block that `pmm_alloc_block` returned on the way from `p` to `p'`. -/
def Confined (p p' : PmmState) (w : Write) : Prop :=
  ∃ a, Returned p p' a ∧ a ≤ w.dest ∧ w.dest + w.count ≤ a + 4096

theorem Confined.mono {p p' q r : PmmState} {w : Write} (h : Confined q r w) (hbefore : Allocates p q)
    (hafter : Allocates r p') : Confined p p' w := by
  obtain ⟨a, ha, hw⟩ := h
  exact ⟨a, ha.mono hbefore hafter, hw⟩

/-- **What a part of the loader does**: it takes blocks, and its calls stay in them. -/
structure Within (t t' : Traced) : Prop where
  allocates : Allocates t.vm.pmm t'.vm.pmm
  writes : ∀ w ∈ t'.writes, w ∈ t.writes ∨ Confined t.vm.pmm t'.vm.pmm w

theorem Within.refl (t : Traced) : Within t t := ⟨Allocates.refl _, fun _ hw => Or.inl hw⟩

theorem Within.trans {t t' t'' : Traced} (h : Within t t') (h' : Within t' t'') : Within t t'' where
  allocates := h.allocates.trans h'.allocates
  writes := by
    intro w hw
    cases h'.writes w hw with
    | inr hnew => exact Or.inr (hnew.mono h.allocates (Allocates.refl _))
    | inl hold => exact (h.writes w hold).imp_right fun hc => hc.mono (Allocates.refl _) h'.allocates

section Parts

variable {t t' : Traced} {a : ℕ}

theorem within_allocBlock (t : Traced) : Within t t.allocBlock.2 :=
  ⟨allocates_alloc t.vm.pmm, fun _ hw => Or.inl hw⟩

theorem Within.putEntry (h : Within t t') (table : ℕ) (i : Fin 512) (v : ℕ) :
    Within t (t'.putEntry table i v) := ⟨h.allocates, h.writes⟩

/-- One more call, into a block of the part. -/
theorem Within.write (h : Within t t') (ha : Returned t.vm.pmm t'.vm.pmm a) {dest count : ℕ} {m : Memory}
    (hdest : a ≤ dest) (hcount : dest + count ≤ a + 4096) :
    Within t ⟨{ t'.vm with mem := m }, t'.writes ++ [⟨dest, count⟩]⟩ where
  allocates := h.allocates
  writes := by
    intro w hw
    cases List.mem_append.mp hw with
    | inl hold => exact h.writes w hold
    | inr hnew =>
      rw [List.mem_singleton.mp hnew]
      exact Or.inr ⟨a, ha, hdest, hcount⟩

theorem Within.memset (h : Within t t') (ha : Returned t.vm.pmm t'.vm.pmm a) :
    Within t (t'.memset a pageSize) :=
  h.write ha (Nat.le_refl a) (Nat.le_refl (a + 4096))

theorem returned_allocBlock (h0 : t.allocBlock.1 ≠ 0) :
    Returned t.vm.pmm t.allocBlock.2.vm.pmm t.allocBlock.1 :=
  ⟨t.vm.pmm, Allocates.refl _, Allocates.refl _, rfl, h0⟩

end Parts

/-! ### The parts of the loader -/

/-- A result without the record. -/
def forget {α : Type} (r : α × Traced) : α × VmState := (r.1, r.2.vm)

section Loader

variable {pml4 fileBuffer vaddr : ℕ} {seg : Segment}

theorem forget_nextTable (t : Traced) (table : ℕ) (i : Fin 512) :
    forget (t.nextTable table i) = nextTable t.vm table i := by
  rw [Traced.nextTable, nextTable, Traced.allocBlock]
  generalize pmmAllocBlock t.vm.pmm = r
  obtain ⟨block, pmm⟩ := r
  dsimp only
  split_ifs
  · rfl
  · rfl
  · rfl

theorem within_nextTable (t : Traced) (table : ℕ) (i : Fin 512) : Within t (t.nextTable table i).2 := by
  have hblock := within_allocBlock t
  have hreturned := returned_allocBlock (t := t)
  rw [Traced.nextTable]
  generalize t.allocBlock = r at hblock hreturned
  obtain ⟨block, t'⟩ := r
  dsimp only at hblock hreturned ⊢
  split_ifs with hpresent h0
  · exact Within.refl t
  · exact hblock
  · exact (hblock.memset (hreturned h0)).putEntry table i _

/-- `vmm_map_page` goes on with the result of each level. -/
theorem mapPage_vm (t : Traced) (pml4 vaddr paddr flags : ℕ) :
    (t.mapPage pml4 vaddr paddr flags).vm = vmmMapPage t.vm pml4 vaddr paddr flags := by
  rw [Traced.mapPage, vmmMapPage, ← forget_nextTable]
  generalize t.nextTable pml4 (pml4Index vaddr) = r₁
  obtain ⟨_ | pdpt, t₁⟩ := r₁
  · rfl
  simp only [forget]
  rw [← forget_nextTable]
  generalize t₁.nextTable pdpt (pdptIndex vaddr) = r₂
  obtain ⟨_ | pd, t₂⟩ := r₂
  · rfl
  simp only [forget]
  rw [← forget_nextTable]
  generalize t₂.nextTable pd (pdIndex vaddr) = r₃
  obtain ⟨_ | pt, t₃⟩ := r₃
  · rfl
  · rfl

theorem within_mapPage (t : Traced) (pml4 vaddr paddr flags : ℕ) :
    Within t (t.mapPage pml4 vaddr paddr flags) := by
  have h₁ := within_nextTable t pml4 (pml4Index vaddr)
  rw [Traced.mapPage]
  generalize t.nextTable pml4 (pml4Index vaddr) = r₁ at h₁
  obtain ⟨_ | pdpt, t₁⟩ := r₁
  · exact h₁
  have h₂ := h₁.trans (within_nextTable t₁ pdpt (pdptIndex vaddr))
  dsimp only
  generalize t₁.nextTable pdpt (pdptIndex vaddr) = r₂ at h₂
  obtain ⟨_ | pd, t₂⟩ := r₂
  · exact h₂
  have h₃ := h₂.trans (within_nextTable t₂ pd (pdIndex vaddr))
  dsimp only
  generalize t₂.nextTable pd (pdIndex vaddr) = r₃ at h₃
  obtain ⟨_ | pt, t₃⟩ := r₃
  · exact h₃
  · exact h₃.putEntry pt (ptIndex vaddr) _

/-! ### One page -/

/-- **The copied part lies in the page**, whatever wraps around. -/
theorem copyRange_bounds (seg : Segment) (vaddr : ℕ) :
    vaddr ≤ (copyRange seg vaddr).1 ∧ (copyRange seg vaddr).2 ≤ vaddr + 4096 := by
  have hmod : (vaddr + pageSize) % 2 ^ 64 ≤ vaddr + 4096 := Nat.mod_le _ _
  rw [copyRange]
  constructor
  · dsimp only
    split <;> omega
  · dsimp only
    split <;> omega

/-- Its length survives as an `int`. -/
theorem asInt_copyLen (seg : Segment) (vaddr : ℕ) :
    (Traced.asInt ((copyRange seg vaddr).2 - (copyRange seg vaddr).1)).toNat =
      (copyRange seg vaddr).2 - (copyRange seg vaddr).1 := by
  obtain ⟨hstart, hend⟩ := copyRange_bounds seg vaddr
  generalize hlen : (copyRange seg vaddr).2 - (copyRange seg vaddr).1 = n
  have hlt : n % 2 ^ 32 = n := Nat.mod_eq_of_lt (by omega)
  rw [Traced.asInt, BitVec.toInt_eq_toNat_of_lt (by rw [BitVec.toNat_ofNat]; omega), BitVec.toNat_ofNat, hlt,
    Int.toNat_natCast]

/-- Blocks end below `2^64`, so that its place in the block does not wrap around. -/
theorem copyDest_eq {p p' : PmmState} {paddr : ℕ} (h : Returned p p' paddr)
    (hcopy : (copyRange seg vaddr).1 < (copyRange seg vaddr).2) :
    (paddr + ((copyRange seg vaddr).1 - vaddr)) % 2 ^ 64 = paddr + ((copyRange seg vaddr).1 - vaddr) := by
  obtain ⟨hstart, hend⟩ := copyRange_bounds seg vaddr
  obtain ⟨i, rfl, hi, -⟩ := h.block
  have htotal := p.total_lt
  rw [blockSize]
  exact Nat.mod_eq_of_lt (by omega)

/-- The first half of a round. -/
theorem mapPage_block (t : Traced) (pml4 vaddr : ℕ) :
    (t.allocBlock.2.mapPage pml4 vaddr t.allocBlock.1 pagingFlagsAll).vm = mapBlock t.vm pml4 vaddr :=
  mapPage_vm t.allocBlock.2 pml4 vaddr t.allocBlock.1 pagingFlagsAll

/-- The round of the loader, apart from its record. -/
theorem forget_page (t : Traced) (pml4 fileBuffer : ℕ) (seg : Segment) (vaddr : ℕ) :
    forget (t.page pml4 fileBuffer seg vaddr) = elfPage t.vm pml4 fileBuffer seg vaddr := by
  by_cases h0 : t.allocBlock.1 = 0
  · have hzero : (pmmAllocBlock t.vm.pmm).1 = 0 := h0
    rw [Traced.page, elfPage]
    dsimp only
    rw [if_pos h0, if_pos hzero]
    rfl
  · rw [elfPage_eq h0, ← mapPage_block, Traced.page]
    dsimp only
    rw [if_neg h0, copySegment]
    split_ifs with hcopy
    · rw [Traced.memcpy, asInt_copyLen, copyDest_eq (returned_allocBlock h0) hcopy]
      rfl
    · rfl

/-- **One page**: the calls of the round stay in the blocks it took. -/
theorem within_page (t : Traced) (pml4 fileBuffer : ℕ) (seg : Segment) (vaddr : ℕ) :
    Within t (t.page pml4 fileBuffer seg vaddr).2 := by
  have hblock := within_allocBlock t
  have hmap := within_mapPage t.allocBlock.2 pml4 vaddr t.allocBlock.1 pagingFlagsAll
  have hreturned := fun h0 : t.allocBlock.1 ≠ 0 =>
    (returned_allocBlock h0).mono (Allocates.refl _) hmap.allocates
  rw [Traced.page]
  dsimp only
  split_ifs with h0 hcopy
  · exact hblock
  · obtain ⟨hstart, hend⟩ := copyRange_bounds seg vaddr
    rw [copyDest_eq (returned_allocBlock h0) hcopy]
    apply ((hblock.trans hmap).memset (hreturned h0)).write (hreturned h0)
    · omega
    · rw [asInt_copyLen]
      omega
  · exact (hblock.trans hmap).memset (hreturned h0)

/-! ### The loops -/

/-- The code returns, with the result `r` and its calls in the blocks it took. -/
def Returns {α : Type} (t : Traced) (o : Option (α × Traced)) (r : α × VmState) : Prop :=
  ∃ r', o = some r' ∧ forget r' = r ∧ Within t r'.2

/-- **The loop over the pages ends**: the addresses go up to `endVaddr` without wrapping around. -/
theorem pageLoop_returns {endVaddr : ℕ} (hend : endVaddr < 2 ^ 64) (halign : endVaddr % 4096 = 0) (n : ℕ) :
    ∀ (fuel vaddr : ℕ) (t : Traced), n < fuel → vaddr % 4096 = 0 → endVaddr - vaddr = 4096 * n →
      Returns t (Traced.pageLoop pml4 fileBuffer seg endVaddr fuel vaddr t)
        (elfPages pml4 fileBuffer seg n vaddr t.vm) := by
  induction n with
  | zero =>
    intro fuel vaddr t hfuel _ hn
    obtain ⟨fuel, rfl⟩ := Nat.exists_eq_succ_of_ne_zero (Nat.ne_of_gt hfuel)
    rw [Traced.pageLoop, if_neg (by omega)]
    exact ⟨(true, t), rfl, rfl, Within.refl t⟩
  | succ n ih =>
    intro fuel vaddr t hfuel hvaddr hn
    obtain ⟨fuel, rfl⟩ := Nat.exists_eq_succ_of_ne_zero (n := fuel) (by omega)
    have hnext : (vaddr + pageSize) % 2 ^ 64 = vaddr + pageSize := by
      rw [pageSize]
      exact Nat.mod_eq_of_lt (by omega)
    have hround := forget_page t pml4 fileBuffer seg vaddr
    have hwithin := within_page t pml4 fileBuffer seg vaddr
    rw [Traced.pageLoop, if_pos (by omega), elfPages, ← hround]
    generalize t.page pml4 fileBuffer seg vaddr = r at hwithin
    obtain ⟨_ | _, t'⟩ := r
    · exact ⟨(false, t'), rfl, rfl, hwithin⟩
    · simp only [forget]
      rw [hnext]
      obtain ⟨r, hr, hforget, hrest⟩ := ih fuel (vaddr + pageSize) t' (by omega)
        (by rw [pageSize]; omega) (by rw [pageSize]; omega)
      exact ⟨r, hr, hforget, hwithin.trans hrest⟩

/-- **Every segment**, whatever its header says. -/
theorem segment_returns {fuel : ℕ} (hfuel : 2 ^ 52 < fuel) (t : Traced) (pml4 fileBuffer : ℕ) (seg : Segment) :
    Returns t (Traced.segment fuel t pml4 fileBuffer seg) (elfSegment t.vm pml4 fileBuffer seg) := by
  have hlt : (seg.vaddrStart + seg.memSize + pageSize - 1) % 2 ^ 64 < 2 ^ 64 := Nat.mod_lt _ (by decide)
  rw [Traced.segment, elfSegment]
  generalize (seg.vaddrStart + seg.memSize + pageSize - 1) % 2 ^ 64 = last at hlt
  unfold pageSize
  exact pageLoop_returns (by omega) (by omega) _ fuel _ t (by omega) (by omega) (by omega)

/-- **The loop over the headers ends**: `e_phnum` has 16 bits, whatever the loader makes of it on the way. -/
theorem headerLoop_returns (pml4 fileBuffer phdr : ℕ) {pageFuel : ℕ} (hpages : 2 ^ 52 < pageFuel) (n : ℕ) :
    ∀ (fuel i : ℕ) (t : Traced), n < fuel → 65536 ≤ i + n →
      Returns t (Traced.headerLoop pml4 fileBuffer phdr pageFuel fuel i t)
        (elfHeaders pml4 fileBuffer phdr n i t.vm) := by
  induction n with
  | zero =>
    intro fuel i t hfuel hi
    have hcount := readLe_lt t.vm.mem (fileBuffer + 56) 2
    obtain ⟨fuel, rfl⟩ := Nat.exists_eq_succ_of_ne_zero (Nat.ne_of_gt hfuel)
    rw [Traced.headerLoop, if_neg (by omega)]
    exact ⟨(true, t), rfl, rfl, Within.refl t⟩
  | succ n ih =>
    intro fuel i t hfuel hi
    obtain ⟨fuel, rfl⟩ := Nat.exists_eq_succ_of_ne_zero (n := fuel) (by omega)
    rw [Traced.headerLoop, elfHeaders]
    split_ifs with hcount hload
    · obtain ⟨⟨ok, t'⟩, hr, hforget, hwithin⟩ :=
        segment_returns hpages t pml4 fileBuffer (segmentAt t.vm.mem (phdrAddr phdr i))
      rw [hr, ← hforget]
      cases ok with
      | false => exact ⟨(false, t'), rfl, rfl, hwithin⟩
      | true =>
        obtain ⟨r, hr, hforget, hrest⟩ := ih fuel (i + 1) t' (by omega) (by omega)
        exact ⟨r, hr, hforget, hwithin.trans hrest⟩
    · exact ih fuel (i + 1) t (by omega) (by omega)
    · exact ⟨(true, t), rfl, rfl, Within.refl t⟩

/-- **The loader returns.** -/
theorem loadFile_returns (s : VmState) (pml4 fileBuffer : ℕ) :
    Returns ⟨s, []⟩ (Traced.loadFile (2 ^ 52 + 1) ⟨s, []⟩ pml4 fileBuffer) (elfLoadFile s pml4 fileBuffer) := by
  have hheaders := headerLoop_returns pml4 fileBuffer (programHeaders s.mem fileBuffer)
    (Nat.lt_succ_self (2 ^ 52)) 65536 (2 ^ 52 + 1) 0 ⟨s, []⟩ (by omega) (by omega)
  rw [Traced.loadFile, elfLoadFile]
  split_ifs with hsupported
  · obtain ⟨⟨ok, t⟩, hr, hforget, hwithin⟩ := hheaders
    rw [programHeaders] at hr hforget
    rw [hr, ← hforget]
    cases ok with
    | false => exact ⟨(0, t), rfl, rfl, hwithin⟩
    | true => exact ⟨(readLe t.vm.mem (fileBuffer + 24) 8, t), rfl, rfl, hwithin⟩
  · exact ⟨(0, ⟨s, []⟩), rfl, rfl, Within.refl _⟩

end Loader

/-- **The loader is confined.**  For any bytes in the buffer, all its loops end, and every `memset` and
`memcpy` on the way writes into a block that it was given by `pmm_alloc_block`. -/
theorem loader_confined (s : VmState) (pml4 fileBuffer : ℕ) :
    ∃ fuel entryPoint t, Traced.loadFile fuel ⟨s, []⟩ pml4 fileBuffer = some (entryPoint, t) ∧
      (entryPoint, t.vm) = elfLoadFile s pml4 fileBuffer ∧
      ∀ w ∈ t.writes, Confined s.pmm t.vm.pmm w := by
  obtain ⟨⟨entryPoint, t⟩, hr, hforget, hwithin⟩ := loadFile_returns s pml4 fileBuffer
  refine ⟨2 ^ 52 + 1, entryPoint, t, hr, hforget, ?_⟩
  intro w hw
  cases hwithin.writes w hw with
  | inl hnone => cases hnone
  | inr hconfined => exact hconfined

end OsEojin.Exec
