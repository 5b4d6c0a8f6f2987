import OsEojin.HeapNeutral
import Mathlib.Order.Interval.Finset.Nat
import Mathlib.Algebra.BigOperators.Group.List.Basic

/-!
# The heap's accounts

Headers and payloads of the block list together are the pages the heap got: a split and a merge only move
bytes between the two kinds.

* `total`: the bytes of a block list, `total_le` their bound;
* `coalesceFrom_total`, `coalesceFrom_apart`: the merging pass;
* `Computation`, `computations`: the sums and differences an operation computes on sizes and addresses;
* `Accounts`, `accounts_step`: the accounts and the step lemma;
* `heap_accounting`: along every run.
-/

namespace OsEojin.Kheap

open OsEojin.Lib.Runs OsEojin.Pmm OsEojin.HeapNeutral

/-! ### Bytes of a block list -/

/-- Headers and payloads. -/
def total (bs : List Block) : ℕ := (bs.map fun b => headerSize + b.size).sum

@[simp] theorem total_nil : total [] = 0 := rfl

@[simp] theorem total_cons (b : Block) (bs : List Block) : total (b :: bs) = 24 + b.size + total bs := by
  simp [total, headerSize]

@[simp] theorem total_append (bs cs : List Block) : total (bs ++ cs) = total bs + total cs := by
  simp [total]

/-- The addresses of the blocks. -/
def occupied (bs : List Block) : Finset ℕ := bs.foldr (fun b s => Finset.Ico b.addr b.stop ∪ s) ∅

theorem mem_occupied {bs : List Block} {x : ℕ} : x ∈ occupied bs ↔ ∃ b ∈ bs, b.addr ≤ x ∧ x < b.stop := by
  induction bs with
  | nil => simp [occupied]
  | cons b bs ih =>
    have hcons : occupied (b :: bs) = Finset.Ico b.addr b.stop ∪ occupied bs := rfl
    rw [hcons, Finset.mem_union, Finset.mem_Ico, ih]
    simp

theorem card_occupied {bs : List Block} (h : bs.Pairwise fun a b => a.stop ≤ b.addr ∨ b.stop ≤ a.addr) :
    (occupied bs).card = total bs := by
  induction bs with
  | nil => rfl
  | cons b bs ih =>
    obtain ⟨hb, hbs⟩ := List.pairwise_cons.mp h
    have hcons : occupied (b :: bs) = Finset.Ico b.addr b.stop ∪ occupied bs := rfl
    have hdisjoint : Disjoint (Finset.Ico b.addr b.stop) (occupied bs) := by
      rw [Finset.disjoint_left]
      intro x hx hx'
      obtain ⟨c, hc, hlo, hhi⟩ := mem_occupied.mp hx'
      rw [Finset.mem_Ico] at hx
      have hbc := hb c hc
      omega
    rw [hcons, Finset.card_union_of_disjoint hdisjoint, ih hbs, Nat.card_Ico, total_cons, Block.stop, headerSize]
    omega

/-- Blocks that are apart have room. -/
theorem total_le {bs : List Block} {M : ℕ} (h : bs.Pairwise fun a b => a.stop ≤ b.addr ∨ b.stop ≤ a.addr)
    (hM : ∀ b ∈ bs, b.stop ≤ M) : total bs ≤ M := by
  rw [← card_occupied h, ← Finset.card_range M]
  apply Finset.card_le_card
  intro x hx
  obtain ⟨b, hb, -, hhi⟩ := mem_occupied.mp hx
  rw [Finset.mem_range]
  have hstop := hM b hb
  omega

/-! ### The merging pass -/

/-- A merge, when the sum does not wrap. -/
theorem merge_size {b c : Block} {bs : List Block} (h : total (b :: c :: bs) < 2 ^ 64) :
    add64 b.size (add64 headerSize c.size) = b.size + (24 + c.size) := by
  rw [total_cons, total_cons] at h
  rw [headerSize, add64_of_lt (show 24 + c.size < 2 ^ 64 from by omega), add64_of_lt (by omega)]

/-- **Merging loses no byte.** -/
theorem coalesceFrom_total (bs : List Block) : ∀ b : Block, total (b :: bs) < 2 ^ 64 →
    total (coalesceFrom b bs) = total (b :: bs) := by
  induction bs with
  | nil =>
    intro b _
    rfl
  | cons c bs ih =>
    intro b h
    rw [coalesceFrom]
    split
    · rw [merge_size h]
      have hsum : total ({ b with size := b.size + (24 + c.size) } :: bs) = total (b :: c :: bs) := by
        simp only [total_cons]
        omega
      rw [ih _ (by rw [hsum]; exact h), hsum]
    · rw [total_cons, ih c (by rw [total_cons] at h; omega), ← total_cons]

theorem coalesce_total {bs : List Block} (h : total bs < 2 ^ 64) : total (coalesce bs) = total bs := by
  cases bs with
  | nil => rfl
  | cons b bs => exact coalesceFrom_total bs b h

/-- The pass starts with the flag of its first block. -/
theorem coalesceFrom_head (bs : List Block) : ∀ b : Block,
    ∃ c l, coalesceFrom b bs = c :: l ∧ c.isFree = b.isFree := by
  induction bs with
  | nil =>
    intro b
    exact ⟨b, [], rfl, rfl⟩
  | cons c bs ih =>
    intro b
    rw [coalesceFrom]
    split
    · exact ih { b with size := add64 b.size (add64 headerSize c.size) }
    · exact ⟨b, _, rfl, rfl⟩

/-- **It leaves no two free neighbours.** -/
theorem coalesceFrom_apart (bs : List Block) : ∀ b : Block, (coalesceFrom b bs).IsChain NotBothFree := by
  induction bs with
  | nil =>
    intro b
    exact List.isChain_singleton b
  | cons c bs ih =>
    intro b
    rw [coalesceFrom]
    split
    · exact ih _
    · rename_i hnot
      obtain ⟨d, l, heq, hflag⟩ := coalesceFrom_head bs c
      have hrest := ih c
      rw [heq] at hrest ⊢
      refine List.isChain_cons_cons.mpr ⟨?_, hrest⟩
      intro hboth
      rw [hflag] at hboth
      exact hnot hboth

theorem coalesce_apart (bs : List Block) : (coalesce bs).IsChain NotBothFree := by
  cases bs with
  | nil => exact List.isChain_nil
  | cons b bs => exact coalesceFrom_apart bs b

theorem coalesceFrom_pos (bs : List Block) : ∀ b : Block, total (b :: bs) < 2 ^ 64 →
    (∀ c ∈ b :: bs, 1 ≤ c.size) → ∀ c ∈ coalesceFrom b bs, 1 ≤ c.size := by
  induction bs with
  | nil =>
    intro b _ hpos
    exact hpos
  | cons c bs ih =>
    intro b h hpos
    rw [coalesceFrom]
    split
    · rw [merge_size h]
      apply ih
      · simp only [total_cons] at h ⊢
        omega
      · intro d hd
        cases List.mem_cons.mp hd with
        | inl hd =>
          rw [hd]
          have hb := hpos b List.mem_cons_self
          dsimp only
          omega
        | inr hd => exact hpos d (by simp [hd])
    · intro d hd
      cases List.mem_cons.mp hd with
      | inl hd =>
        rw [hd]
        exact hpos b List.mem_cons_self
      | inr hd =>
        rw [total_cons] at h
        exact ih c (by omega) (fun e he => hpos e (List.mem_cons_of_mem b he)) d hd

theorem coalesce_pos {bs : List Block} (h : total bs < 2 ^ 64) (hpos : ∀ c ∈ bs, 1 ≤ c.size) :
    ∀ c ∈ coalesce bs, 1 ≤ c.size := by
  cases bs with
  | nil => exact hpos
  | cons b bs => exact coalesceFrom_pos bs b h hpos

theorem total_markFree (ptr : ℕ) (bs : List Block) : total (markFree ptr bs) = total bs := by
  rw [total, total, markFree, List.map_map]
  congr 1
  apply List.map_congr_left
  intro b _
  rw [Function.comp_apply]
  split <;> rfl

/-! ### The arithmetic of an operation -/

/-- A 64-bit sum or difference. -/
inductive Computation where
  | sum (a b : ℕ)
  | difference (a b : ℕ)
  deriving DecidableEq, Repr

/-- Its result is the one of the natural numbers. -/
def Computation.Exact : Computation → Prop
  | .sum a b => a + b < 2 ^ 64
  | .difference a b => b ≤ a

/-- At the block that fits: the slack test, the split and the address of the payload. -/
def carveComputations (b : Block) (size : ℕ) : List Computation :=
  [.sum size headerSize, .sum (add64 size headerSize) 8] ++
    (if b.size > add64 size (headerSize + 8) then
      [.sum b.addr headerSize, .sum (add64 b.addr headerSize) size, .difference b.size size,
        .difference (sub64 b.size size) headerSize]
    else []) ++ [.sum b.addr headerSize]

def firstFitComputations (size : ℕ) : List Block → List Computation
  | [] => []
  | b :: bs => if b.isFree ∧ size ≤ b.size then carveComputations b size else firstFitComputations size bs

/-- At the last block: its end, and its size when it absorbs the page. -/
def growComputations (page : ℕ) : List Block → List Computation
  | [] => []
  | [last] =>
    [.sum last.addr headerSize, .sum (add64 last.addr headerSize) last.size] ++
      if last.isFree ∧ add64 (add64 last.addr headerSize) last.size = page then
        [.sum headerSize (blockSize - headerSize),
          .sum last.size (add64 headerSize (blockSize - headerSize))]
      else []
  | _ :: c :: bs => growComputations page (c :: bs)

/-- The sizes of the merging pass. -/
def coalesceComputations (b : Block) : List Block → List Computation
  | [] => []
  | c :: bs =>
    if b.isFree ∧ c.isFree then
      [.sum headerSize c.size, .sum b.size (add64 headerSize c.size)] ++
        coalesceComputations { b with size := add64 b.size (add64 headerSize c.size) } bs
    else coalesceComputations c bs

/-- What an operation computes on sizes and addresses. -/
def computations (h : Heap) : Op → List Computation
  | .kmalloc size =>
    if size = 0 then []
    else firstFitComputations size h.blocks ++
      if firstFit size h.blocks = none ∧ (pmmAllocBlock h.pmm).1 ≠ 0 then
        growComputations (pmmAllocBlock h.pmm).1 h.blocks
      else []
  | .kfree ptr =>
    if ptr = 0 then []
    else .difference ptr headerSize :: match markFree ptr h.blocks with
      | [] => []
      | b :: bs => coalesceComputations b bs
  | .alloc => []

theorem carveComputations_exact {b : Block} {size : ℕ} (hb : b.stop + blockSize ≤ 2 ^ 64)
    (hs : size ≤ b.size) : ∀ c ∈ carveComputations b size, c.Exact := by
  simp only [Block.stop, headerSize, blockSize] at hb
  have hsize : add64 size headerSize = size + 24 := by
    rw [headerSize, add64_of_lt (by omega)]
  have hslack : add64 size (headerSize + 8) = size + 32 := by
    rw [headerSize, add64_of_lt (by omega)]
  have haddr : add64 b.addr headerSize = b.addr + 24 := by
    rw [headerSize, add64_of_lt (by omega)]
  have hrest : sub64 b.size size = b.size - size := sub64_of_le hs (by omega)
  intro c hc
  rw [carveComputations, hsize, hslack, haddr, hrest, headerSize] at hc
  split at hc
  · rename_i hlt
    simp only [List.cons_append, List.nil_append, List.mem_cons, List.not_mem_nil, or_false] at hc
    rcases hc with hc | hc | hc | hc | hc | hc | hc
    all_goals
      rw [hc]
      simp only [Computation.Exact]
      omega
  · simp only [List.append_nil, List.cons_append, List.nil_append, List.mem_cons, List.not_mem_nil,
      or_false] at hc
    rcases hc with hc | hc | hc
    all_goals
      rw [hc]
      simp only [Computation.Exact]
      omega

theorem firstFitComputations_exact {size : ℕ} {bs : List Block}
    (hb : ∀ b ∈ bs, b.stop + blockSize ≤ 2 ^ 64) : ∀ c ∈ firstFitComputations size bs, c.Exact := by
  induction bs with
  | nil => simp [firstFitComputations]
  | cons b bs ih =>
    rw [firstFitComputations]
    split
    · rename_i hfit
      exact carveComputations_exact (hb b List.mem_cons_self) hfit.2
    · exact ih fun d hd => hb d (List.mem_cons_of_mem b hd)

theorem growComputations_exact {page : ℕ} {bs : List Block}
    (hb : ∀ b ∈ bs, b.stop + blockSize ≤ 2 ^ 64) : ∀ c ∈ growComputations page bs, c.Exact := by
  induction bs with
  | nil => simp [growComputations]
  | cons b bs ih =>
    cases bs with
    | nil =>
      have hstop := hb b List.mem_cons_self
      simp only [Block.stop, headerSize, blockSize] at hstop
      have haddr : add64 b.addr headerSize = b.addr + 24 := by
        rw [headerSize, add64_of_lt (by omega)]
      have hpage : add64 headerSize (blockSize - headerSize) = 4096 := by decide
      intro c hc
      rw [growComputations, haddr, hpage, headerSize, blockSize] at hc
      split at hc
      · simp only [List.cons_append, List.nil_append, List.mem_cons, List.not_mem_nil, or_false] at hc
        rcases hc with hc | hc | hc | hc
        all_goals
          rw [hc]
          simp only [Computation.Exact]
          omega
      · simp only [List.append_nil, List.mem_cons, List.not_mem_nil, or_false] at hc
        rcases hc with hc | hc
        all_goals
          rw [hc]
          simp only [Computation.Exact]
          omega
    | cons c bs => exact ih fun d hd => hb d (List.mem_cons_of_mem b hd)

/-- Induction along the pass: a merged block is as large as the two it came from. -/
theorem coalesceComputations_exact (bs : List Block) : ∀ b : Block, total (b :: bs) < 2 ^ 64 →
    ∀ c ∈ coalesceComputations b bs, c.Exact := by
  induction bs with
  | nil =>
    intro b _ c hc
    cases hc
  | cons d bs ih =>
    intro b h
    have hsum : add64 headerSize d.size = 24 + d.size := by
      rw [total_cons, total_cons] at h
      rw [headerSize, add64_of_lt (by omega)]
    have hmerge := merge_size h
    rw [hsum] at hmerge
    have hrest : total ({ b with size := b.size + (24 + d.size) } :: bs) < 2 ^ 64 := by
      simp only [total_cons] at h ⊢
      omega
    rw [coalesceComputations, hsum, hmerge]
    simp only [total_cons] at h
    split
    · intro c hc
      simp only [List.cons_append, List.nil_append, List.mem_cons] at hc
      rcases hc with hc | hc | hc
      · rw [hc]
        simp only [Computation.Exact, headerSize]
        omega
      · rw [hc]
        simp only [Computation.Exact]
        omega
      · exact ih _ hrest c hc
    · exact ih d (by rw [total_cons]; omega)

/-! ### The accounts -/

/-- Not both free when the second begins where the first ends. -/
def Merged (a b : Block) : Prop := a.stop = b.addr → NotBothFree a b

theorem merged_of_used (a b : Block) (h : a.isFree = false ∨ b.isFree = false) : Merged a b :=
  fun _ => notBothFree_of_used a b h

/-- The books of the heap balance. -/
structure Accounts (s : System) : Prop where
  balance : total s.heap.blocks = blockSize * s.pages.length
  pos : ∀ b ∈ s.heap.blocks, 1 ≤ b.size
  merged : s.heap.blocks.IsChain Merged

variable {s : System}

/-- The bytes of the heap fit in the address space. -/
theorem total_lt (h : HeapOk s) : total s.heap.blocks < 2 ^ 64 := by
  have hle : total s.heap.blocks ≤ 2 ^ 64 - blockSize := by
    refine total_le (h.laid.imp Or.inl) fun b hb => ?_
    have hstop := h.below.stop_le b hb
    omega
  rw [blockSize] at hle
  omega

/-- **A split** moves the bytes of a header out of a payload. -/
theorem total_carve {b : Block} {size : ℕ} (hb : b.stop + blockSize ≤ 2 ^ 64) (hs : size ≤ b.size) :
    total (carve b size) = 24 + b.size := by
  rw [carve_eq hb hs]
  split
  · simp only [total_cons, total_nil]
    omega
  · simp

theorem carve_pos {b : Block} {size : ℕ} (hb : b.stop + blockSize ≤ 2 ^ 64) (hs : size ≤ b.size)
    (h0 : size ≠ 0) : ∀ c ∈ carve b size, 1 ≤ c.size := by
  intro c hc
  rw [carve_eq hb hs] at hc
  split at hc
  · simp only [List.mem_cons, List.not_mem_nil, or_false] at hc
    cases hc with
    | inl hc => rw [hc]; show 1 ≤ size; omega
    | inr hc => rw [hc]; show 1 ≤ b.size - size - 24; omega
  · rw [List.mem_singleton.mp hc]
    show 1 ≤ b.size
    omega

/-- The remainder of a split ends where the block did. -/
theorem carve_merged {pre post : List Block} {b : Block} {size : ℕ} (hb : b.stop + blockSize ≤ 2 ^ 64)
    (hs : size ≤ b.size) (hfree : b.isFree = true) (h : (pre ++ ([b] ++ post)).IsChain Merged) :
    (pre ++ (carve b size ++ post)).IsChain Merged := by
  obtain ⟨hpre, hpost⟩ := List.isChain_split.mp h
  have hpre' : pre.IsChain Merged := (List.isChain_append.mp hpre).1
  rw [carve_eq hb hs]
  split
  · refine isChain_of_used merged_of_used rfl hpre' (hpost.imp_head ?_)
    intro z hz hstop hboth
    refine hz ?_ ⟨hfree, hboth.2⟩
    rw [← hstop]
    simp only [Block.stop, headerSize]
    omega
  · exact isChain_of_used merged_of_used rfl hpre' hpost.tail

/-- **Growth** adds a page. -/
theorem total_grow {bs : List Block} (page : ℕ) (hb : ∀ b ∈ bs, b.stop + blockSize ≤ 2 ^ 64) :
    total (grow page bs) = total bs + blockSize := by
  cases grow_cases page bs hb with
  | inl h =>
    obtain ⟨pre, last, hbs, -, -, hgrow⟩ := h
    rw [hgrow, hbs]
    simp only [total_append, total_cons, total_nil]
    omega
  | inr h =>
    rw [h.1]
    simp [pageBlock, headerSize, blockSize]

theorem pageBlock_pos (page : ℕ) : 1 ≤ (pageBlock page).size := by
  show 1 ≤ blockSize - headerSize
  decide

theorem grow_pos {bs : List Block} {page : ℕ} (hb : ∀ b ∈ bs, b.stop + blockSize ≤ 2 ^ 64)
    (hpos : ∀ b ∈ bs, 1 ≤ b.size) : ∀ b ∈ grow page bs, 1 ≤ b.size := by
  intro b hmem
  cases grow_cases page bs hb with
  | inl h =>
    obtain ⟨pre, last, hbs, -, -, hgrow⟩ := h
    rw [hgrow] at hmem
    cases List.mem_append.mp hmem with
    | inl hmem => exact hpos b (by rw [hbs]; exact List.mem_append_left _ hmem)
    | inr hmem =>
      rw [List.mem_singleton.mp hmem]
      show 1 ≤ last.size + blockSize
      rw [blockSize]
      omega
  | inr h =>
    rw [h.1] at hmem
    cases List.mem_append.mp hmem with
    | inl hmem => exact hpos b hmem
    | inr hmem =>
      rw [List.mem_singleton.mp hmem]
      exact pageBlock_pos page

theorem grow_merged {bs : List Block} {page : ℕ} (hb : ∀ b ∈ bs, b.stop + blockSize ≤ 2 ^ 64)
    (h : bs.IsChain Merged) : (grow page bs).IsChain Merged := by
  cases grow_cases page bs hb with
  | inl hg =>
    obtain ⟨pre, last, hbs, -, -, hgrow⟩ := hg
    rw [hgrow]
    rw [hbs, List.isChain_append] at h
    refine h.1.append (List.isChain_singleton _) ?_
    intro x hx y hy
    rw [List.head?_cons, Option.mem_some_iff] at hy
    rw [← hy]
    exact h.2.2 x hx last (by simp)
  | inr hg =>
    rw [hg.1]
    refine h.append (List.isChain_singleton _) ?_
    intro x hx y hy hstop hboth
    rw [List.head?_cons, Option.mem_some_iff] at hy
    rw [← hy] at hstop
    exact hg.2 x hx ⟨hboth.1, hstop⟩

/-- **The step lemma.** -/
theorem accounts_step (hok : HeapOk s) (h : Accounts s) (op : Op) : Accounts (step s op) := by
  have hbound := hok.below.stop_le
  cases op with
  | kmalloc size =>
    by_cases h0 : size = 0
    · have hsame : step s (.kmalloc size) = s := by
        simp [step, kmalloc, kmallocPage, h0]
      rw [hsame]
      exact h
    · rcases kmalloc_cases s.heap size with ⟨hk, hp⟩ | ⟨pre, b, post, hbs, hfree, hsize, hp, hk⟩ | ⟨hp, hk⟩ |
        ⟨-, hp, hk⟩
      · refine ⟨?_, ?_, ?_⟩
        all_goals simp only [step, hk, hp, Option.toList_none, List.nil_append]
        · exact h.balance
        · exact h.pos
        · exact h.merged
      · have hb : b.stop + blockSize ≤ 2 ^ 64 := hbound b (by rw [hbs]; simp)
        refine ⟨?_, ?_, ?_⟩
        all_goals simp only [step, hk, hp, Option.toList_none, List.nil_append]
        · rw [← h.balance, hbs]
          simp only [total_append, total_carve hb hsize, total_cons, total_nil]
          omega
        · intro c hc
          simp only [List.mem_append] at hc
          rcases hc with hc | hc | hc
          · exact h.pos c (by rw [hbs]; simp [hc])
          · exact carve_pos hb hsize h0 c hc
          · exact h.pos c (by rw [hbs]; simp [hc])
        · have hmerged := h.merged
          rw [hbs] at hmerged
          exact carve_merged hb hsize hfree hmerged
      · refine ⟨?_, ?_, ?_⟩
        all_goals simp only [step, hk, hp, Option.toList_none, List.nil_append]
        · exact h.balance
        · exact h.pos
        · exact h.merged
      · refine ⟨?_, ?_, ?_⟩
        all_goals simp only [step, hk, hp, Option.toList_some, List.singleton_append]
        · rw [total_grow _ hbound, h.balance, List.length_cons, Nat.mul_add, Nat.mul_one]
        · exact grow_pos hbound h.pos
        · exact grow_merged hbound h.merged
  | kfree ptr =>
    have htotal : total (markFree ptr s.heap.blocks) < 2 ^ 64 := by
      rw [total_markFree]
      exact total_lt hok
    by_cases h0 : ptr = 0
    · refine ⟨?_, ?_, ?_⟩
      all_goals simp only [step, kfree, if_pos h0]
      · exact h.balance
      · exact h.pos
      · exact h.merged
    · refine ⟨?_, ?_, ?_⟩
      all_goals simp only [step, kfree, if_neg h0]
      · rw [coalesce_total htotal, total_markFree]
        exact h.balance
      · refine coalesce_pos htotal ?_
        intro c hc
        obtain ⟨b, hb, -, hsize, -⟩ := mem_markFree hc
        rw [hsize]
        exact h.pos b hb
      · exact (coalesce_apart _).imp fun a b hab _ => hab
  | alloc => exact ⟨h.balance, h.pos, h.merged⟩

theorem accounts_start {pmm : PmmState} (h0 : (pmmAllocBlock pmm).1 ≠ 0) : Accounts (start pmm) := by
  have hheap : (start pmm).heap.blocks = [pageBlock (pmmAllocBlock pmm).1] := by
    simp [start, initKheap, h0]
  have hpages : (start pmm).pages = [(pmmAllocBlock pmm).1] := by
    simp [start, h0]
  refine ⟨?_, ?_, ?_⟩
  · rw [hheap, hpages]
    rfl
  · intro b hb
    rw [hheap] at hb
    rw [List.mem_singleton.mp hb]
    exact pageBlock_pos _
  · rw [hheap]
    exact List.isChain_singleton _

/-- No computation of an operation wraps; a live pointer has its header below it. -/
theorem computations_exact (hok : HeapOk s) {op : Op} (hop : FreesLive s op) :
    ∀ c ∈ computations s.heap op, c.Exact := by
  cases op with
  | kmalloc size =>
    intro c hc
    rw [computations] at hc
    split at hc
    · cases hc
    · cases List.mem_append.mp hc with
      | inl hc => exact firstFitComputations_exact hok.below.stop_le c hc
      | inr hc =>
        split at hc
        · exact growComputations_exact hok.below.stop_le c hc
        · cases hc
  | kfree ptr =>
    obtain ⟨a, ha, hptr⟩ := hop
    obtain ⟨b, -, hb, -⟩ := hok.live a ha
    have htotal : total (markFree ptr s.heap.blocks) < 2 ^ 64 := by
      rw [total_markFree]
      exact total_lt hok
    intro c hc
    rw [computations] at hc
    split at hc
    · cases hc
    · cases List.mem_cons.mp hc with
      | inl hc =>
        rw [hc]
        show headerSize ≤ ptr
        omega
      | inr hc =>
        split at hc
        · cases hc
        · rename_i d ds hmark
          rw [hmark] at htotal
          exact coalesceComputations_exact ds d htotal c hc
  | alloc =>
    intro c hc
    cases hc

/-- **The heap's books balance.**  Along every run from a successful `init_kheap` of allocations of any size,
releases of live pointers and page allocations by other clients: headers and payloads add up to the pages the
heap got, no sum or difference on sizes and addresses wraps, no block is empty, and no two list neighbours
that touch are both free. -/
theorem heap_accounting (pmm : PmmState) (h0 : (pmmAllocBlock pmm).1 ≠ 0) (ops : List Op)
    (hops : Admits step FreesLive (start pmm) ops) :
    ((run step (start pmm) ops).heap.blocks.map fun b => 24 + b.size).sum
      = 4096 * (run step (start pmm) ops).pages.length ∧
    (∀ ops₁ op ops₂, ops = ops₁ ++ op :: ops₂ →
      ∀ c ∈ computations (run step (start pmm) ops₁).heap op, c.Exact) ∧
    (∀ b ∈ (run step (start pmm) ops).heap.blocks, 1 ≤ b.size) ∧
    (run step (start pmm) ops).heap.blocks.IsChain fun a b =>
      b.addr = a.addr + 24 + a.size → ¬ (a.isFree = true ∧ b.isFree = true) := by
  have h : HeapOk (run step (start pmm) ops) ∧ Accounts (run step (start pmm) ops) := by
    refine run_invariant (I := fun s => HeapOk s ∧ Accounts s) ?_ _ ⟨heapOk_start pmm, accounts_start h0⟩
      ops hops
    intro s op h hop
    exact ⟨heapOk_step s op h.1 hop, accounts_step h.1 h.2 op⟩
  refine ⟨h.2.balance, ?_, h.2.pos, ?_⟩
  · intro ops₁ op ops₂ heq
    rw [heq, admits_append] at hops
    exact computations_exact (heapOk_run pmm ops₁ hops.1) hops.2.1
  · refine h.2.merged.imp ?_
    intro a b hab haddr
    exact hab haddr.symm

/-- Two allocations and a release. -/
theorem heap_accounting_small :
    ((run step (start smallPmm) [.kmalloc 64, .kmalloc 5000, .kfree 0x1018]).heap.blocks.map
      fun b => 24 + b.size).sum = 4096 * 2 := by
  have hops : Admits step FreesLive (start smallPmm) [.kmalloc 64, .kmalloc 5000, .kfree 0x1018] :=
    ⟨trivial, trivial, ⟨⟨0x1018, 64⟩, by decide, rfl⟩, trivial⟩
  exact (heap_accounting smallPmm (by decide) _ hops).1

end OsEojin.Kheap
