import OsEojin.Kheap
import OsEojin.Lib.Layout

/-!
# The heap never hands out a byte twice

`kfree` merges list neighbours without checking that they touch in memory, so the blocks of the heap need
not tile its pages.  What survives is order: the blocks stay laid out by address, because a merged block
ends no later than the second of the two it came from, and because without frees the physical allocator
only hands out pages above all earlier ones.

* `carve_laid`, `firstFit_some`, `grow_cases`, `coalesceFrom_laid`: one lemma per edit of the list, each
  an instance of the splicing rule;
* `HeapOk` / `heapOk_step`: the invariant;
* `block_step`: the block of a live pointer survives every operation but its own `kfree`;
* `heap_never_hands_out_twice`: order, disjoint payloads and stability along every run.
-/

namespace OsEojin.Kheap

open OsEojin.Lib OsEojin.Lib.Runs OsEojin.Lib.Layout OsEojin.Pmm

/-- The blocks are laid out in address order, header included. -/
abbrev LaidOut (bs : List Block) : Prop := Laid Block.addr Block.stop bs

/-! ### The edits of the list -/

theorem add64_of_lt {a b : ℕ} (h : a + b < 2 ^ 64) : add64 a b = a + b := Nat.mod_eq_of_lt h

theorem sub64_of_le {a b : ℕ} (h : b ≤ a) (ha : a < 2 ^ 64) : sub64 a b = a - b := by
  rw [sub64, Nat.mod_eq_of_lt (show b < 2 ^ 64 from by omega)]
  omega

/-- Below the top of the address space the sums of the split do not wrap. -/
theorem carve_eq {b : Block} {size : ℕ} (hb : b.stop + blockSize ≤ 2 ^ 64) (hs : size ≤ b.size) :
    carve b size = if b.size > size + 32 then
      [{ b with size := size, isFree := false }, ⟨b.addr + 24 + size, b.size - size - 24, true⟩]
    else [{ b with isFree := false }] := by
  simp only [Block.stop, headerSize, blockSize] at hb
  have h1 : add64 size (headerSize + 8) = size + 32 := by
    rw [headerSize, add64_of_lt (by omega)]
  have h2 : add64 b.addr (headerSize + size) = b.addr + 24 + size := by
    rw [headerSize, add64_of_lt (by omega), Nat.add_assoc]
  rw [carve, h1, h2]
  split
  · rename_i hlt
    rw [sub64_of_le hs (by omega), headerSize, sub64_of_le (by omega) (by omega)]
  · rfl

/-- The pieces of a split block are laid out inside it, the first one used and as long as asked. -/
theorem carve_laid {b : Block} {size : ℕ} (hb : b.stop + blockSize ≤ 2 ^ 64) (hs : size ≤ b.size) :
    LaidOut (carve b size) ∧ Within Block.addr Block.stop (carve b size) [b] ∧
      ∃ c ∈ carve b size, c.addr = b.addr ∧ c.isFree = false ∧ size ≤ c.size := by
  rw [carve_eq hb hs]
  split
  · rename_i hlt
    refine ⟨?_, ?_, ⟨_, List.mem_cons_self, rfl, rfl, le_rfl⟩⟩
    · simp [Laid, Block.stop, headerSize]
    · intro a ha
      simp only [List.mem_cons, List.not_mem_nil, or_false] at ha
      simp only [List.mem_singleton, exists_eq_left]
      cases ha with
      | inl ha => subst ha; simp only [Block.stop, headerSize]; omega
      | inr ha => subst ha; simp only [Block.stop, headerSize]; omega
  · refine ⟨?_, ?_, ⟨_, List.mem_cons_self, rfl, rfl, hs⟩⟩
    · simp [Laid]
    · intro a ha
      simp only [List.mem_singleton] at ha
      subst ha
      simp [Block.stop]

/-- **First fit** takes a free block that is large enough and edits the list at that place only. -/
theorem firstFit_some {size : ℕ} {bs : List Block} {r : ℕ × List Block}
    (h : firstFit size bs = some r) :
    ∃ pre b post, bs = pre ++ ([b] ++ post) ∧ b.isFree = true ∧ size ≤ b.size ∧
      r = (add64 b.addr headerSize, pre ++ (carve b size ++ post)) := by
  induction bs generalizing r with
  | nil => simp [firstFit] at h
  | cons b bs ih =>
    rw [firstFit] at h
    split at h
    · rename_i hfit
      exact ⟨[], b, bs, rfl, hfit.1, hfit.2, (Option.some.inj h).symm⟩
    · obtain ⟨r', hr', hr⟩ := Option.map_eq_some_iff.mp h
      obtain ⟨pre, c, post, hbs, hfree, hsize, heq⟩ := ih hr'
      refine ⟨b :: pre, c, post, by rw [hbs]; rfl, hfree, hsize, ?_⟩
      rw [← hr, heq]
      rfl

/-- **Growth** extends the last block in place or appends the page's block. -/
theorem grow_cases (page : ℕ) (bs : List Block) (hb : ∀ b ∈ bs, b.stop + blockSize ≤ 2 ^ 64) :
    (∃ pre last, bs = pre ++ [last] ∧ last.isFree = true ∧ last.stop = page ∧
      grow page bs = pre ++ [{ last with size := last.size + blockSize }]) ∨
    grow page bs = bs ++ [pageBlock page] ∧
      ∀ last ∈ bs.getLast?, ¬ (last.isFree = true ∧ last.stop = page) := by
  induction bs with
  | nil => exact Or.inr ⟨rfl, by simp⟩
  | cons b bs ih =>
    cases bs with
    | nil =>
      have hstop := hb b List.mem_cons_self
      simp only [Block.stop, headerSize, blockSize] at hstop
      have hend : add64 (add64 b.addr headerSize) b.size = b.stop := by
        rw [headerSize, add64_of_lt (show b.addr + 24 < 2 ^ 64 from by omega),
          add64_of_lt (by omega)]
        rfl
      rw [grow, hend]
      split
      · rename_i hm
        left
        refine ⟨[], b, rfl, hm.1, hm.2, ?_⟩
        have h1 : add64 headerSize (blockSize - headerSize) = blockSize := by decide
        rw [h1, add64_of_lt (by simp only [blockSize]; omega)]
        rfl
      · rename_i hm
        right
        refine ⟨rfl, ?_⟩
        intro last hlast
        rw [List.getLast?_singleton, Option.mem_some_iff] at hlast
        rw [← hlast]
        exact hm
    | cons c bs =>
      cases ih (fun d hd => hb d (List.mem_cons_of_mem b hd)) with
      | inl h =>
        obtain ⟨pre, last, hbs, hfree, hstop, hgrow⟩ := h
        left
        exact ⟨b :: pre, last, by rw [hbs]; rfl, hfree, hstop, by rw [grow, hgrow]; rfl⟩
      | inr h =>
        right
        refine ⟨by rw [grow, h.1]; rfl, ?_⟩
        rw [List.getLast?_cons_cons]
        exact h.2

/-- Two neighbours of a laid list merge inside their span, whether or not they touch. -/
theorem merge_laid {b c : Block} {bs : List Block} (h : LaidOut (b :: c :: bs))
    (hc : c.stop + blockSize ≤ 2 ^ 64) :
    add64 b.size (add64 headerSize c.size) = b.size + 24 + c.size ∧
      LaidOut ({ b with size := b.size + 24 + c.size } :: bs) ∧
      ({ b with size := b.size + 24 + c.size } : Block).stop ≤ c.stop := by
  obtain ⟨hb, -⟩ := List.pairwise_cons.mp h
  have hbc : b.stop ≤ c.addr := hb c List.mem_cons_self
  simp only [Block.stop, headerSize, blockSize] at hbc hc
  have hstop : ({ b with size := b.size + 24 + c.size } : Block).stop ≤ c.stop := by
    simp only [Block.stop, headerSize]
    omega
  refine ⟨?_, ?_, hstop⟩
  · rw [headerSize, add64_of_lt (show 24 + c.size < 2 ^ 64 from by omega),
      add64_of_lt (by omega)]
    omega
  · have hmem : LaidOut ([] ++ ([b, c] ++ bs)) := h
    refine laid_splice hmem (List.pairwise_singleton _ { b with size := b.size + 24 + c.size }) ?_
    intro a ha
    rw [List.mem_singleton.mp ha]
    exact ⟨⟨b, by simp, le_rfl⟩, ⟨c, by simp, hstop⟩⟩

/-- **The merging pass** keeps the list laid out, stays below every earlier bound and keeps every used
block. -/
theorem coalesceFrom_laid (bs : List Block) : ∀ b : Block, LaidOut (b :: bs) →
    (∀ c ∈ b :: bs, c.stop + blockSize ≤ 2 ^ 64) →
    LaidOut (coalesceFrom b bs) ∧
      (∀ d ∈ coalesceFrom b bs, b.addr ≤ d.addr ∧ ∃ c ∈ b :: bs, d.stop ≤ c.stop) ∧
      (∀ d ∈ b :: bs, d.isFree = false → d ∈ coalesceFrom b bs) := by
  induction bs with
  | nil =>
    intro b h _
    refine ⟨h, ?_, fun d hd _ => hd⟩
    intro d hd
    rw [coalesceFrom] at hd
    rw [List.mem_singleton.mp hd]
    exact ⟨le_rfl, b, List.mem_cons_self, le_rfl⟩
  | cons c bs ih =>
    intro b h hbound
    obtain ⟨hb, htail⟩ := List.pairwise_cons.mp h
    have hbc : b.stop ≤ c.addr := hb c List.mem_cons_self
    have haddr : b.addr ≤ c.addr := by
      simp only [Block.stop] at hbc
      omega
    rw [coalesceFrom]
    split
    · -- both free: the pass stays at the merged block
      rename_i hfree
      obtain ⟨hsum, hlaid, hstop⟩ := merge_laid h (hbound c (by simp))
      rw [hsum]
      obtain ⟨h1, h2, h3⟩ := ih _ hlaid (by
        intro d hd
        cases List.mem_cons.mp hd with
        | inl hd => rw [hd]; have := hbound c (by simp); omega
        | inr hd => exact hbound d (by simp [hd]))
      refine ⟨h1, ?_, ?_⟩
      · intro d hd
        obtain ⟨hda, e, he, hde⟩ := h2 d hd
        refine ⟨hda, ?_⟩
        cases List.mem_cons.mp he with
        | inl he => rw [he] at hde; exact ⟨c, by simp, Nat.le_trans hde hstop⟩
        | inr he => exact ⟨e, by simp [he], hde⟩
      · intro d hd hused
        cases List.mem_cons.mp hd with
        | inl hd => rw [hd, hfree.1] at hused; cases hused
        | inr hd =>
          cases List.mem_cons.mp hd with
          | inl hd => rw [hd, hfree.2] at hused; cases hused
          | inr hd => exact h3 d (List.mem_cons_of_mem _ hd) hused
    · obtain ⟨h1, h2, h3⟩ := ih c htail (fun d hd => hbound d (List.mem_cons_of_mem b hd))
      refine ⟨List.pairwise_cons.mpr ⟨?_, h1⟩, ?_, ?_⟩
      · intro d hd
        exact Nat.le_trans hbc (h2 d hd).1
      · intro d hd
        cases List.mem_cons.mp hd with
        | inl hd => rw [hd]; exact ⟨le_rfl, b, List.mem_cons_self, le_rfl⟩
        | inr hd =>
          obtain ⟨hda, e, he, hde⟩ := h2 d hd
          exact ⟨Nat.le_trans haddr hda, e, List.mem_cons_of_mem b he, hde⟩
      · intro d hd hused
        cases List.mem_cons.mp hd with
        | inl hd => rw [hd]; exact List.mem_cons_self
        | inr hd => exact List.mem_cons_of_mem b (h3 d hd hused)

theorem coalesce_laid {bs : List Block} (h : LaidOut bs)
    (hbound : ∀ c ∈ bs, c.stop + blockSize ≤ 2 ^ 64) :
    LaidOut (coalesce bs) ∧ (∀ d ∈ coalesce bs, ∃ c ∈ bs, d.stop ≤ c.stop) ∧
      (∀ d ∈ bs, d.isFree = false → d ∈ coalesce bs) := by
  cases bs with
  | nil =>
    refine ⟨h, ?_, fun d hd _ => hd⟩
    intro d hd
    cases hd
  | cons b bs =>
    obtain ⟨h1, h2, h3⟩ := coalesceFrom_laid bs b h hbound
    exact ⟨h1, fun d hd => (h2 d hd).2, h3⟩

/-- Marking moves nothing. -/
theorem markFree_laid {bs : List Block} (ptr : ℕ) (h : LaidOut bs) : LaidOut (markFree ptr bs) := by
  refine laid_map _ ?_ ?_ h
  · intro a
    split <;> rfl
  · intro a
    split <;> rfl

theorem mem_markFree {bs : List Block} {ptr : ℕ} {c : Block} (h : c ∈ markFree ptr bs) :
    ∃ b ∈ bs, c.addr = b.addr ∧ c.size = b.size ∧
      (c = b ∨ (b.addr + headerSize = ptr ∧ c.isFree = true)) := by
  obtain ⟨b, hb, hbc⟩ := List.mem_map.mp h
  refine ⟨b, hb, ?_⟩
  by_cases hp : b.addr + headerSize = ptr
  · rw [if_pos hp] at hbc
    rw [← hbc]
    exact ⟨rfl, rfl, Or.inr ⟨hp, rfl⟩⟩
  · rw [if_neg hp] at hbc
    rw [← hbc]
    exact ⟨rfl, rfl, Or.inl rfl⟩

theorem mem_markFree_of_ne {bs : List Block} {ptr : ℕ} {b : Block} (hb : b ∈ bs)
    (hp : b.addr + headerSize ≠ ptr) : b ∈ markFree ptr bs :=
  List.mem_map.mpr ⟨b, hb, by rw [if_neg hp]⟩

/-! ### The invariant -/

/-- Every block ends below the `k` lowest pages, all of which are in use. -/
def Below (h : Heap) : Prop :=
  ∃ k, k ≤ h.pmm.totalBlocks ∧ (∀ j, j < k → testBit h.pmm.bitmap j = true) ∧
    ∀ b ∈ h.blocks, b.stop ≤ k * blockSize

/-- The heap invariant: laid out by address, below the allocator's frontier, and every live pointer at
a used block of its own that is long enough. -/
structure HeapOk (s : System) : Prop where
  laid : LaidOut s.heap.blocks
  below : Below s.heap
  live : ∀ a ∈ s.live, ∃ b ∈ s.heap.blocks,
    b.addr + headerSize = a.ptr ∧ b.isFree = false ∧ a.request ≤ b.size
  nodup : s.live.Pairwise fun a b => a.ptr ≠ b.ptr

theorem Below.stop_le {h : Heap} (hb : Below h) (b : Block) (hmem : b ∈ h.blocks) :
    b.stop + blockSize ≤ 2 ^ 64 := by
  obtain ⟨k, hk, -, hstop⟩ := hb
  have := h.pmm.total_lt
  have := hstop b hmem
  simp only [blockSize] at *
  omega

/-- A bound survives an edit of the list that stays below old stops. -/
theorem Below.mono {h h' : Heap} (hb : Below h) (hp : h'.pmm = h.pmm)
    (hstop : ∀ b ∈ h'.blocks, ∃ c ∈ h.blocks, b.stop ≤ c.stop) : Below h' := by
  obtain ⟨k, hk, hused, hle⟩ := hb
  rw [Below, hp]
  refine ⟨k, hk, hused, fun b hb' => ?_⟩
  obtain ⟨c, hc, hbc⟩ := hstop b hb'
  exact Nat.le_trans hbc (hle c hc)

/-- An allocation by anybody leaves the bound as it is. -/
theorem Below.alloc {bs : List Block} {p : PmmState} (hb : Below ⟨bs, p⟩) :
    Below ⟨bs, (pmmAllocBlock p).2⟩ := by
  obtain ⟨k, hk, hused, hle⟩ := hb
  refine ⟨k, ?_, fun j hj => used_mono p (hused j hj), hle⟩
  rw [pmmAllocBlock_totalBlocks]
  exact hk

/-- A page the allocator hands out lies above every block, and moves the bound just past it. -/
theorem Below.page {bs : List Block} {p : PmmState} (hb : Below ⟨bs, p⟩)
    (h0 : (pmmAllocBlock p).1 ≠ 0) :
    (∀ b ∈ bs, b.stop ≤ (pmmAllocBlock p).1) ∧
      ∀ bs', (∀ b ∈ bs', b.stop ≤ (pmmAllocBlock p).1 + blockSize) →
        Below ⟨bs', (pmmAllocBlock p).2⟩ := by
  obtain ⟨k, hk, hused, hle⟩ := hb
  obtain ⟨i, haddr, hi, hfree, hbelow, hpmm⟩ := pmmAllocBlock_fresh p h0
  have hki : k ≤ i := by
    by_contra hlt
    rw [hused i (by omega)] at hfree
    cases hfree
  refine ⟨?_, ?_⟩
  · intro b hb
    have := hle b hb
    rw [haddr]
    exact Nat.le_trans this (Nat.mul_le_mul_right _ hki)
  · intro bs' hbs'
    refine ⟨i + 1, ?_, ?_, ?_⟩
    · rw [hpmm]
      exact hi
    · intro j hj
      rw [hpmm, testBit_setBit]
      by_cases hji : j = i
      · simp [hji]
      · simp [hbelow j (by omega)]
    · intro b hb
      have := hbs' b hb
      rw [haddr] at this
      rw [Nat.add_mul, Nat.one_mul]
      exact this

variable {s : System}

/-- Of two blocks of a laid list with the same address there is only one. -/
theorem laidOut_unique {bs : List Block} (h : LaidOut bs) {b c : Block} (hb : b ∈ bs) (hc : c ∈ bs)
    (heq : b.addr = c.addr) : b = c := by
  cases laid_disjoint h hb hc with
  | inl he => exact he
  | inr hd =>
    simp only [Block.stop, headerSize] at hd
    omega

/-! ### Used blocks survive -/

/-- The block list after `kmalloc`: nothing changed, a free block carved, or a page added. -/
theorem kmalloc_cases (h : Heap) (size : ℕ) :
    (kmalloc h size = (0, h) ∧ kmallocPage h size = none) ∨
    (∃ pre b post, h.blocks = pre ++ ([b] ++ post) ∧ b.isFree = true ∧ size ≤ b.size ∧
      kmallocPage h size = none ∧
      kmalloc h size = (add64 b.addr headerSize, ⟨pre ++ (carve b size ++ post), h.pmm⟩)) ∨
    (kmallocPage h size = none ∧ kmalloc h size = (0, ⟨h.blocks, (pmmAllocBlock h.pmm).2⟩)) ∨
    ((pmmAllocBlock h.pmm).1 ≠ 0 ∧ kmallocPage h size = some (pmmAllocBlock h.pmm).1 ∧
      kmalloc h size = (0, ⟨grow (pmmAllocBlock h.pmm).1 h.blocks, (pmmAllocBlock h.pmm).2⟩)) := by
  by_cases h0 : size = 0
  · left
    simp [kmalloc, kmallocPage, h0]
  · cases hfit : firstFit size h.blocks with
    | some r =>
      right; left
      obtain ⟨pre, b, post, hbs, hfree, hsize, hr⟩ := firstFit_some hfit
      refine ⟨pre, b, post, hbs, hfree, hsize, by simp [kmallocPage, hfit], ?_⟩
      rw [kmalloc, if_neg h0, hfit, hr]
    | none =>
      right; right
      by_cases hp : (pmmAllocBlock h.pmm).1 = 0
      · left
        refine ⟨by simp [kmallocPage, hp], ?_⟩
        simp [kmalloc, h0, hfit, hp]
      · right
        refine ⟨hp, by simp [kmallocPage, h0, hfit, hp], ?_⟩
        simp [kmalloc, h0, hfit, hp]

/-- A used block survives growth. -/
theorem mem_grow {bs : List Block} {page : ℕ} (hb : ∀ b ∈ bs, b.stop + blockSize ≤ 2 ^ 64) {b : Block}
    (hmem : b ∈ bs) (hused : b.isFree = false) : b ∈ grow page bs := by
  cases grow_cases page bs hb with
  | inl h =>
    obtain ⟨pre, last, hbs, hfree, -, hgrow⟩ := h
    rw [hbs] at hmem
    rw [hgrow]
    cases List.mem_append.mp hmem with
    | inl hpre => exact List.mem_append_left _ hpre
    | inr hlast =>
      rw [List.mem_singleton.mp hlast, hfree] at hused
      cases hused
  | inr h =>
    rw [h.1]
    exact List.mem_append_left _ hmem

/-- **A used block survives** every operation but the `kfree` of its own payload. -/
theorem block_step (h : HeapOk s) (op : Op) {b : Block} (hmem : b ∈ s.heap.blocks)
    (hused : b.isFree = false) (hop : op ≠ .kfree (b.addr + headerSize)) :
    b ∈ (step s op).heap.blocks := by
  cases op with
  | kmalloc size =>
    show b ∈ (kmalloc s.heap size).2.blocks
    rcases kmalloc_cases s.heap size with ⟨hk, -⟩ | ⟨pre, c, post, hbs, hfree, -, -, hk⟩ | ⟨-, hk⟩ |
      ⟨-, -, hk⟩
    · rw [hk]
      exact hmem
    · rw [hk]
      rw [hbs] at hmem
      have hne : b ≠ c := by
        intro he
        rw [he, hfree] at hused
        cases hused
      simp only [List.mem_append, List.mem_singleton, hne, false_or] at hmem ⊢
      cases hmem with
      | inl hpre => exact Or.inl hpre
      | inr hpost => exact Or.inr (Or.inr hpost)
    · rw [hk]
      exact hmem
    · rw [hk]
      exact mem_grow h.below.stop_le hmem hused
  | kfree ptr =>
    show b ∈ (kfree s.heap ptr).blocks
    rw [kfree]
    split
    · exact hmem
    · have hne : b.addr + headerSize ≠ ptr := fun he => hop (by rw [he])
      refine (coalesce_laid (markFree_laid ptr h.laid) ?_).2.2 b (mem_markFree_of_ne hmem hne) hused
      intro c hc
      obtain ⟨d, hd, haddr, hsize, -⟩ := mem_markFree hc
      have := h.below.stop_le d hd
      simp only [Block.stop, haddr, hsize] at this ⊢
      exact this
  | alloc => exact hmem

/-! ### The step lemma -/

/-- The blocks after any operation are laid out below the bound. -/
theorem laid_step (h : HeapOk s) (op : Op) :
    LaidOut (step s op).heap.blocks ∧ Below (step s op).heap := by
  cases op with
  | kmalloc size =>
    show LaidOut (kmalloc s.heap size).2.blocks ∧ Below (kmalloc s.heap size).2
    rcases kmalloc_cases s.heap size with ⟨hk, -⟩ | ⟨pre, c, post, hbs, -, hsize, -, hk⟩ | ⟨-, hk⟩ |
      ⟨hp, -, hk⟩
    · rw [hk]
      exact ⟨h.laid, h.below⟩
    · -- a split stays inside the block it carves
      rw [hk]
      have hc : c ∈ s.heap.blocks := by rw [hbs]; simp
      obtain ⟨hlaid, hin, -⟩ := carve_laid (h.below.stop_le c hc) hsize
      have hold := h.laid
      rw [hbs] at hold
      refine ⟨laid_splice hold hlaid hin, h.below.mono rfl ?_⟩
      intro d hd
      simp only [List.mem_append] at hd
      rcases hd with hd | hd | hd
      · exact ⟨d, by rw [hbs]; simp [hd], le_rfl⟩
      · obtain ⟨-, e, he, hde⟩ := hin d hd
        rw [List.mem_singleton.mp he] at hde
        exact ⟨c, hc, hde⟩
      · exact ⟨d, by rw [hbs]; simp [hd], le_rfl⟩
    · rw [hk]
      exact ⟨h.laid, h.below.alloc⟩
    · -- a page lies above everything; the last block may grow into it
      rw [hk]
      obtain ⟨habove, hbelow⟩ := h.below.page hp
      have hpage : (pageBlock (pmmAllocBlock s.heap.pmm).1).stop
          = (pmmAllocBlock s.heap.pmm).1 + blockSize := by
        simp [Block.stop, pageBlock, headerSize, blockSize]
      cases grow_cases (pmmAllocBlock s.heap.pmm).1 s.heap.blocks h.below.stop_le with
      | inl hg =>
        obtain ⟨pre, last, hbs, -, hstop, hgrow⟩ := hg
        rw [hgrow]
        have hlast : ({ last with size := last.size + blockSize } : Block).stop
            = (pmmAllocBlock s.heap.pmm).1 + blockSize := by
          rw [← hstop]
          simp only [Block.stop]
          omega
        have hold := h.laid
        rw [hbs] at hold
        have hpre := List.pairwise_append.mp hold
        refine ⟨laid_snoc hpre.1 ?_, hbelow _ ?_⟩
        · intro b hb
          exact hpre.2.2 b hb last (List.mem_singleton_self last)
        · intro b hb
          cases List.mem_append.mp hb with
          | inl hb =>
            have := habove b (by rw [hbs]; exact List.mem_append_left _ hb)
            omega
          | inr hb => rw [List.mem_singleton.mp hb, hlast]
      | inr hg =>
        rw [hg.1]
        refine ⟨laid_snoc h.laid habove, hbelow _ ?_⟩
        intro b hb
        cases List.mem_append.mp hb with
        | inl hb =>
          have := habove b hb
          omega
        | inr hb => rw [List.mem_singleton.mp hb, hpage]
  | kfree ptr =>
    show LaidOut (kfree s.heap ptr).blocks ∧ Below (kfree s.heap ptr)
    rw [kfree]
    split
    · exact ⟨h.laid, h.below⟩
    · have hmarked : ∀ c ∈ markFree ptr s.heap.blocks, ∃ d ∈ s.heap.blocks, c.stop = d.stop := by
        intro c hc
        obtain ⟨d, hd, haddr, hsize, -⟩ := mem_markFree hc
        exact ⟨d, hd, by simp only [Block.stop, haddr, hsize]⟩
      obtain ⟨h1, h2, -⟩ := coalesce_laid (markFree_laid ptr h.laid) (by
        intro c hc
        obtain ⟨d, hd, hcd⟩ := hmarked c hc
        rw [hcd]
        exact h.below.stop_le d hd)
      refine ⟨h1, h.below.mono rfl ?_⟩
      intro b hb
      obtain ⟨c, hc, hbc⟩ := h2 b hb
      obtain ⟨d, hd, hcd⟩ := hmarked c hc
      exact ⟨d, hd, by rw [← hcd]; exact hbc⟩
  | alloc => exact ⟨h.laid, h.below.alloc⟩

/-- A live allocation keeps its block as long as its pointer is not freed. -/
theorem live_step (h : HeapOk s) (op : Op) {a : Allocation} (ha : a ∈ s.live)
    (hop : op ≠ .kfree a.ptr) :
    ∃ b ∈ (step s op).heap.blocks, b.addr + headerSize = a.ptr ∧ b.isFree = false ∧
      a.request ≤ b.size := by
  obtain ⟨b, hb, hptr, hused, hreq⟩ := h.live a ha
  refine ⟨b, block_step h op hb hused ?_, hptr, hused, hreq⟩
  rw [hptr]
  exact hop

/-- **The step lemma.** -/
theorem heapOk_step (s : System) (op : Op) (h : HeapOk s) (_ : FreesLive s op) :
    HeapOk (step s op) := by
  obtain ⟨hlaid, hbelow⟩ := laid_step h op
  cases op with
  | kmalloc size =>
    have hkept : ∀ a ∈ s.live, ∃ b ∈ (step s (.kmalloc size)).heap.blocks,
        b.addr + headerSize = a.ptr ∧ b.isFree = false ∧ a.request ≤ b.size :=
      fun a ha => live_step h _ ha (by simp)
    by_cases h0 : (kmalloc s.heap size).1 = 0
    · have hlive : (step s (.kmalloc size)).live = s.live := by
        simp [step, h0]
      exact ⟨hlaid, hbelow, by rw [hlive]; exact hkept, by rw [hlive]; exact h.nodup⟩
    · have hlive : (step s (.kmalloc size)).live = ⟨(kmalloc s.heap size).1, size⟩ :: s.live := by
        simp [step, h0]
      rcases kmalloc_cases s.heap size with ⟨hk, -⟩ | ⟨pre, c, post, hbs, hfree, hsize, -, hk⟩ |
        ⟨-, hk⟩ | ⟨-, -, hk⟩
      · rw [hk] at h0
        exact absurd rfl h0
      · -- the pointer handed out is the carved block's, which no live pointer owns
        have hc : c ∈ s.heap.blocks := by rw [hbs]; simp
        have hstop := h.below.stop_le c hc
        simp only [Block.stop, headerSize, blockSize] at hstop
        have hptr : (kmalloc s.heap size).1 = c.addr + headerSize := by
          rw [hk, headerSize, add64_of_lt (by omega)]
        obtain ⟨-, -, d, hd, hda, hdu, hds⟩ := carve_laid (h.below.stop_le c hc) hsize
        refine ⟨hlaid, hbelow, ?_, ?_⟩
        · rw [hlive]
          intro a ha
          cases List.mem_cons.mp ha with
          | inl ha =>
            rw [ha]
            refine ⟨d, ?_, by rw [hptr, hda], hdu, hds⟩
            show d ∈ (kmalloc s.heap size).2.blocks
            rw [hk]
            simp [hd]
          | inr ha => exact hkept a ha
        · rw [hlive, List.pairwise_cons]
          refine ⟨?_, h.nodup⟩
          intro a ha heq
          obtain ⟨b, hb, hbp, hbu, -⟩ := h.live a ha
          have hbc : b = c := laidOut_unique h.laid hb hc (by
            simp only at heq
            rw [hptr, ← hbp] at heq
            omega)
          rw [hbc, hfree] at hbu
          cases hbu
      · rw [hk] at h0
        exact absurd rfl h0
      · rw [hk] at h0
        exact absurd rfl h0
  | kfree ptr =>
    refine ⟨hlaid, hbelow, ?_, ?_⟩
    · intro a ha
      obtain ⟨ha, hne⟩ := List.mem_filter.mp ha
      refine live_step h _ ha ?_
      intro he
      exact (of_decide_eq_true hne) (Op.kfree.inj he).symm
    · exact h.nodup.filter _
  | alloc => exact ⟨hlaid, hbelow, h.live, h.nodup⟩

/-- `init_kheap` establishes the invariant, whether or not it finds a page. -/
theorem heapOk_start (pmm : PmmState) : HeapOk (start pmm) := by
  have hempty : Below ⟨[], pmm⟩ := ⟨0, Nat.zero_le _, by simp, by simp⟩
  by_cases h0 : (pmmAllocBlock pmm).1 = 0
  · have hheap : (start pmm).heap = ⟨[], (pmmAllocBlock pmm).2⟩ := by
      simp [start, initKheap, h0]
    refine ⟨by rw [hheap]; exact List.Pairwise.nil, by rw [hheap]; exact hempty.alloc, ?_, ?_⟩
    · intro a ha
      cases ha
    · exact List.Pairwise.nil
  · have hheap : (start pmm).heap
        = ⟨[pageBlock (pmmAllocBlock pmm).1], (pmmAllocBlock pmm).2⟩ := by
      simp [start, initKheap, h0]
    refine ⟨by rw [hheap]; exact List.pairwise_singleton _ _, ?_, ?_, ?_⟩
    · rw [hheap]
      refine (hempty.page h0).2 _ ?_
      intro b hb
      rw [List.mem_singleton.mp hb]
      simp [Block.stop, pageBlock, headerSize, blockSize]
    · intro a ha
      cases ha
    · exact List.Pairwise.nil

/-- The invariant along a run. -/
theorem heapOk_run (pmm : PmmState) (ops : List Op) (hops : Admits step FreesLive (start pmm) ops) :
    HeapOk (run step (start pmm) ops) :=
  run_invariant heapOk_step _ (heapOk_start pmm) ops hops

/-- A live allocation and its block stay as they are along a run that does not free it. -/
theorem live_run (s : System) (h : HeapOk s) (ops : List Op) (hops : Admits step FreesLive s ops)
    {a : Allocation} (ha : a ∈ s.live) {b : Block} (hb : b ∈ s.heap.blocks)
    (hptr : b.addr + headerSize = a.ptr) (hused : b.isFree = false) (hno : Op.kfree a.ptr ∉ ops) :
    a ∈ (run step s ops).live ∧ b ∈ (run step s ops).heap.blocks := by
  induction ops generalizing s with
  | nil => exact ⟨ha, hb⟩
  | cons op ops ih =>
    simp only [List.mem_cons, not_or] at hno
    have hop : op ≠ .kfree a.ptr := Ne.symm hno.1
    refine ih (step s op) (heapOk_step s op h hops.1) hops.2 ?_
      (block_step h op hb hused (by rw [hptr]; exact hop)) hno.2
    cases op with
    | kmalloc size =>
      show a ∈ if _ then _ else _
      split
      · exact ha
      · exact List.mem_cons_of_mem _ ha
    | kfree ptr =>
      refine List.mem_filter.mpr ⟨ha, decide_eq_true ?_⟩
      intro he
      exact hop (by rw [he])
    | alloc => exact ha

/-- **The heap never hands out a byte twice.**  Along every run from `init_kheap` of
allocations of any size, releases of live pointers and page allocations by other clients: the blocks are
listed in strictly increasing address order with disjoint extents; every live pointer has a used block
at least as long as it asked for; the payloads of different live pointers are disjoint; and a live
pointer keeps its block, address and size, until it is freed itself. -/
theorem heap_never_hands_out_twice (pmm : PmmState) (ops : List Op)
    (hops : Admits step FreesLive (start pmm) ops) :
    ((run step (start pmm) ops).heap.blocks.Pairwise fun a b =>
      a.addr < b.addr ∧ a.addr + 24 + a.size ≤ b.addr) ∧
    (∀ a ∈ (run step (start pmm) ops).live, ∃ b ∈ (run step (start pmm) ops).heap.blocks,
      b.addr + 24 = a.ptr ∧ b.isFree = false ∧ a.request ≤ b.size) ∧
    ((run step (start pmm) ops).live.Pairwise fun a a' =>
      ∀ b ∈ (run step (start pmm) ops).heap.blocks, ∀ b' ∈ (run step (start pmm) ops).heap.blocks,
        b.addr + 24 = a.ptr → b'.addr + 24 = a'.ptr →
        a.ptr + b.size ≤ a'.ptr ∨ a'.ptr + b'.size ≤ a.ptr) ∧
    (∀ ops₁ ops₂, ops = ops₁ ++ ops₂ → ∀ a ∈ (run step (start pmm) ops₁).live,
      ∀ b ∈ (run step (start pmm) ops₁).heap.blocks, b.addr + 24 = a.ptr → Op.kfree a.ptr ∉ ops₂ →
      a ∈ (run step (start pmm) ops).live ∧ b ∈ (run step (start pmm) ops).heap.blocks) := by
  have h := heapOk_run pmm ops hops
  refine ⟨?_, h.live, ?_, ?_⟩
  · refine h.laid.imp ?_
    intro a b hab
    simp only [Block.stop, headerSize] at hab
    omega
  · refine h.nodup.imp ?_
    intro a a' hne b hb b' hb' hptr hptr'
    cases laid_disjoint h.laid hb hb' with
    | inl he =>
      rw [he, hptr'] at hptr
      exact absurd hptr.symm hne
    | inr hd =>
      simp only [Block.stop, headerSize] at hd
      omega
  · intro ops₁ ops₂ heq a ha b hb hptr hno
    subst heq
    obtain ⟨hops₁, hops₂⟩ := (admits_append _ ops₁ ops₂).mp hops
    have h₁ := heapOk_run pmm ops₁ hops₁
    obtain ⟨c, hc, hcptr, hcused, -⟩ := h₁.live a ha
    have hbc : b = c := laidOut_unique h₁.laid hb hc (by
      simp only [headerSize] at hcptr
      omega)
    rw [run_append]
    exact live_run _ h₁ ops₂ hops₂ ha hb hptr (by rw [hbc]; exact hcused) hno

/-- Two allocations, a release and a page for somebody else: the survivor keeps its 64 bytes. -/
theorem heap_keeps_second_allocation :
    Admits step FreesLive (start smallPmm) [.kmalloc 64, .kmalloc 64, .kfree 0x1018, .alloc] ∧
      (⟨0x1058, 64, false⟩ : Block) ∈
        (run step (start smallPmm) [.kmalloc 64, .kmalloc 64, .kfree 0x1018, .alloc]).heap.blocks := by
  have hops : Admits step FreesLive (start smallPmm) [.kmalloc 64, .kmalloc 64, .kfree 0x1018, .alloc] :=
    ⟨trivial, trivial, ⟨⟨0x1018, 64⟩, by decide, rfl⟩, trivial, trivial⟩
  exact ⟨hops, ((heap_never_hands_out_twice smallPmm _ hops).2.2.2 [.kmalloc 64, .kmalloc 64]
    [.kfree 0x1018, .alloc] rfl ⟨0x1070, 64⟩ (by decide) ⟨0x1058, 64, false⟩ (by decide) rfl
    (by decide)).2⟩

end OsEojin.Kheap
