import OsEojin.HeapOrder

/-!
# Whose pages the heap hands out

Heap pages need not be neighbours, because other clients take pages in between.  Splitting and growing
respect the page boundaries; the merging pass of `kfree` respects them exactly when the free neighbours
it joins touch.

* `coalesceFrom_owned`: merging neighbours that touch stays inside the pages they were in;
* `OwnOk` / `ownOk_step`: every byte of every block is in a page of the heap, and nobody else holds a
  page of the heap;
* `heap_pages_owned`: along every run whose releases merge only touching neighbours;
* `kfree_swallows_foreign_page`: four operations after which a free block covers another client's page.
-/

namespace OsEojin.Kheap

open OsEojin.Lib OsEojin.Lib.Runs OsEojin.Lib.Layout OsEojin.Pmm

/-- The byte `x` lies in one of the pages. -/
def InPages (pages : List ℕ) (x : ℕ) : Prop := ∃ pg ∈ pages, pg ≤ x ∧ x < pg + blockSize

/-- Every byte of the block, header included, lies in one of the pages. -/
def Owned (pages : List ℕ) (b : Block) : Prop := ∀ x, b.addr ≤ x → x < b.stop → InPages pages x

theorem InPages.mono {pages pages' : List ℕ} {x : ℕ} (h : InPages pages x)
    (hsub : ∀ pg ∈ pages, pg ∈ pages') : InPages pages' x := by
  obtain ⟨pg, hpg, hx⟩ := h
  exact ⟨pg, hsub pg hpg, hx⟩

/-- Two neighbours, if both free, touch. -/
def Touch (a b : Block) : Prop := a.isFree = true → b.isFree = true → a.stop = b.addr

/-- The side condition of the runs: only live pointers are freed, and the free neighbours the merging
pass then meets touch in memory. -/
def FreesTouching (s : System) : Op → Prop
  | .kfree ptr => (∃ a ∈ s.live, a.ptr = ptr) ∧ (markFree ptr s.heap.blocks).IsChain Touch
  | _ => True

theorem FreesTouching.freesLive {s : System} {op : Op} (h : FreesTouching s op) : FreesLive s op := by
  cases op with
  | kmalloc size => trivial
  | kfree ptr => exact h.1
  | alloc => trivial

/-! ### The edits of the list, page by page -/

/-- **The merging pass** over touching neighbours makes blocks of owned bytes only. -/
theorem coalesceFrom_owned {pages : List ℕ} (bs : List Block) : ∀ b : Block, LaidOut (b :: bs) →
    (∀ c ∈ b :: bs, c.stop + blockSize ≤ 2 ^ 64) → (b :: bs).IsChain Touch →
    (∀ c ∈ b :: bs, Owned pages c) → ∀ d ∈ coalesceFrom b bs, Owned pages d := by
  induction bs with
  | nil =>
    intro b _ _ _ hown d hd
    exact hown d hd
  | cons c bs ih =>
    intro b hlaid hbound htouch hown d hd
    obtain ⟨hbc, htouch'⟩ := List.isChain_cons_cons.mp htouch
    rw [coalesceFrom] at hd
    split at hd
    · -- the merged block covers `b`, then `c`, with nothing in between
      rename_i hfree
      obtain ⟨hsum, hlaid', -⟩ := merge_laid hlaid (hbound c (by simp))
      have hgap : b.stop = c.addr := hbc hfree.1 hfree.2
      have hstop : ({ b with size := b.size + 24 + c.size } : Block).stop = c.stop := by
        simp only [Block.stop, headerSize] at hgap ⊢
        omega
      rw [hsum] at hd
      refine ih _ hlaid' ?_ ?_ ?_ d hd
      · intro e he
        cases List.mem_cons.mp he with
        | inl he => rw [he, hstop]; exact hbound c (by simp)
        | inr he => exact hbound e (by simp [he])
      · cases bs with
        | nil => exact .singleton _
        | cons e bs =>
          obtain ⟨hce, htail⟩ := List.isChain_cons_cons.mp htouch'
          refine List.isChain_cons_cons.mpr ⟨?_, htail⟩
          intro _ hefree
          rw [hstop]
          exact hce hfree.2 hefree
      · intro e he
        cases List.mem_cons.mp he with
        | inl he =>
          rw [he]
          intro x hx hx'
          rw [hstop] at hx'
          by_cases hxc : x < c.addr
          · exact hown b (by simp) x hx (by omega)
          · exact hown c (by simp) x (by omega) hx'
        | inr he => exact hown e (by simp [he])
    · cases List.mem_cons.mp hd with
      | inl hd => rw [hd]; exact hown b (by simp)
      | inr hd =>
        exact ih c (List.pairwise_cons.mp hlaid).2 (fun e he => hbound e (List.mem_cons_of_mem b he))
          htouch' (fun e he => hown e (List.mem_cons_of_mem b he)) d hd

theorem coalesce_owned {pages : List ℕ} {bs : List Block} (hlaid : LaidOut bs)
    (hbound : ∀ c ∈ bs, c.stop + blockSize ≤ 2 ^ 64) (htouch : bs.IsChain Touch)
    (hown : ∀ c ∈ bs, Owned pages c) : ∀ d ∈ coalesce bs, Owned pages d := by
  cases bs with
  | nil =>
    intro d hd
    cases hd
  | cons b bs => exact coalesceFrom_owned bs b hlaid hbound htouch hown

/-- A block inside the span of one owned block is owned. -/
theorem Owned.within {pages : List ℕ} {b c : Block} (h : Owned pages b) (hs : b.addr ≤ c.addr)
    (ht : c.stop ≤ b.stop) : Owned pages c :=
  fun x hx hx' => h x (by omega) (by omega)

theorem Owned.mono {pages pages' : List ℕ} {b : Block} (h : Owned pages b)
    (hsub : ∀ pg ∈ pages, pg ∈ pages') : Owned pages' b :=
  fun x hx hx' => (h x hx hx').mono hsub

/-- Growth by a page keeps every byte in the pages, the new one included. -/
theorem grow_owned {pages : List ℕ} {bs : List Block} (page : ℕ)
    (hbound : ∀ b ∈ bs, b.stop + blockSize ≤ 2 ^ 64) (hown : ∀ b ∈ bs, Owned pages b) :
    ∀ d ∈ grow page bs, Owned (page :: pages) d := by
  have hsub : ∀ pg ∈ pages, pg ∈ page :: pages := fun pg hpg => List.mem_cons_of_mem page hpg
  have hnew : ∀ x, page ≤ x → x < page + blockSize → InPages (page :: pages) x :=
    fun x hx hx' => ⟨page, List.mem_cons_self, hx, hx'⟩
  cases grow_cases page bs hbound with
  | inl h =>
    obtain ⟨pre, last, hbs, -, hstop, hgrow⟩ := h
    rw [hgrow]
    intro d hd
    cases List.mem_append.mp hd with
    | inl hd => exact (hown d (by rw [hbs]; exact List.mem_append_left _ hd)).mono hsub
    | inr hd =>
      rw [List.mem_singleton.mp hd]
      intro x hx hx'
      have hlast : Owned pages last := hown last (by rw [hbs]; simp)
      by_cases hxp : x < page
      · exact (hlast x hx (by omega)).mono hsub
      · refine hnew x (by omega) ?_
        simp only [Block.stop] at hx' hstop
        omega
  | inr h =>
    rw [h.1]
    intro d hd
    cases List.mem_append.mp hd with
    | inl hd => exact (hown d hd).mono hsub
    | inr hd =>
      rw [List.mem_singleton.mp hd]
      intro x hx hx'
      refine hnew x hx ?_
      simp only [Block.stop, pageBlock, headerSize, blockSize] at hx' ⊢
      omega

/-! ### The invariant -/

/-- The pages handed out so far are aligned blocks the bitmap marks used. -/
def HandedOut (p : PmmState) (pg : ℕ) : Prop :=
  pg % blockSize = 0 ∧ testBit p.bitmap (pg / blockSize) = true

/-- The ownership invariant: the heap invariant, every byte in a page of the heap, and no page in two
hands. -/
structure OwnOk (s : System) : Prop where
  ok : HeapOk s
  owned : ∀ b ∈ s.heap.blocks, Owned s.pages b
  handed : ∀ pg, pg ∈ s.pages ∨ pg ∈ s.foreign → HandedOut s.heap.pmm pg
  apart : ∀ pg ∈ s.pages, pg ∉ s.foreign

theorem HandedOut.alloc {p : PmmState} {pg : ℕ} (h : HandedOut p pg) :
    HandedOut (pmmAllocBlock p).2 pg :=
  ⟨h.1, used_mono p h.2⟩

/-- A page just handed out is new to everybody. -/
theorem handedOut_fresh {p : PmmState} (h0 : (pmmAllocBlock p).1 ≠ 0) :
    HandedOut (pmmAllocBlock p).2 (pmmAllocBlock p).1 ∧ ¬ HandedOut p (pmmAllocBlock p).1 := by
  obtain ⟨i, haddr, -, hfree, -, hpmm⟩ := pmmAllocBlock_fresh p h0
  have hdiv : (pmmAllocBlock p).1 / blockSize = i := by
    rw [haddr]
    exact Nat.mul_div_cancel i (by decide)
  refine ⟨⟨pmmAllocBlock_aligned p, ?_⟩, ?_⟩
  · rw [hdiv, hpmm, testBit_setBit]
    simp
  · intro h
    rw [HandedOut, hdiv, hfree] at h
    exact Bool.noConfusion h.2

/-- **The step lemma.** -/
theorem ownOk_step (s : System) (op : Op) (h : OwnOk s) (hop : FreesTouching s op) :
    OwnOk (step s op) := by
  have hok := heapOk_step s op h.ok hop.freesLive
  cases op with
  | kmalloc size =>
    have hbound := h.ok.below.stop_le
    have hheap : (step s (.kmalloc size)).heap = (kmalloc s.heap size).2 := rfl
    have hpages : (step s (.kmalloc size)).pages = (kmallocPage s.heap size).toList ++ s.pages := rfl
    have hforeign : (step s (.kmalloc size)).foreign = s.foreign := rfl
    rcases kmalloc_cases s.heap size with ⟨hk, hpg⟩ | ⟨pre, c, post, hbs, -, hsize, hpg, hk⟩ |
      ⟨hpg, hk⟩ | ⟨hp, hpg, hk⟩
    · rw [hk] at hheap
      rw [hpg] at hpages
      exact ⟨hok, by rw [hheap, hpages]; exact h.owned, by rw [hheap, hpages, hforeign]; exact h.handed,
        by rw [hpages, hforeign]; exact h.apart⟩
    · rw [hk] at hheap
      rw [hpg] at hpages
      have hc : c ∈ s.heap.blocks := by rw [hbs]; simp
      obtain ⟨-, hin, -⟩ := carve_laid (hbound c hc) hsize
      refine ⟨hok, ?_, by rw [hheap, hpages, hforeign]; exact h.handed,
        by rw [hpages, hforeign]; exact h.apart⟩
      rw [hheap, hpages]
      intro d hd
      simp only [List.mem_append] at hd
      rcases hd with hd | hd | hd
      · exact h.owned d (by rw [hbs]; simp [hd])
      · obtain ⟨⟨e, he, hed⟩, f, hf, hdf⟩ := hin d hd
        rw [List.mem_singleton.mp he] at hed
        rw [List.mem_singleton.mp hf] at hdf
        exact (h.owned c hc).within hed hdf
      · exact h.owned d (by rw [hbs]; simp [hd])
    · rw [hk] at hheap
      rw [hpg] at hpages
      refine ⟨hok, by rw [hheap, hpages]; exact h.owned, ?_, by rw [hpages, hforeign]; exact h.apart⟩
      rw [hheap, hpages, hforeign]
      exact fun pg hpg => (h.handed pg hpg).alloc
    · -- the heap grew: the new page was in nobody's hands
      rw [hk] at hheap
      rw [hpg] at hpages
      obtain ⟨hnew, hfresh⟩ := handedOut_fresh hp
      refine ⟨hok, ?_, ?_, ?_⟩
      · rw [hheap, hpages]
        exact grow_owned _ hbound h.owned
      · rw [hheap, hpages, hforeign]
        intro pg hpg
        simp only [Option.toList_some, List.cons_append, List.nil_append, List.mem_cons] at hpg
        rcases hpg with (hpg | hpg) | hpg
        · rw [hpg]
          exact hnew
        · exact (h.handed pg (Or.inl hpg)).alloc
        · exact (h.handed pg (Or.inr hpg)).alloc
      · rw [hpages, hforeign]
        intro pg hpg
        simp only [Option.toList_some, List.cons_append, List.nil_append, List.mem_cons] at hpg
        cases hpg with
        | inl hpg =>
          rw [hpg]
          exact fun hf => hfresh (h.handed _ (Or.inr hf))
        | inr hpg => exact h.apart pg hpg
  | kfree ptr =>
    refine ⟨hok, ?_, ?_, h.apart⟩
    · show ∀ b ∈ (kfree s.heap ptr).blocks, Owned s.pages b
      rw [kfree]
      split
      · exact h.owned
      · refine coalesce_owned (markFree_laid ptr h.ok.laid) ?_ hop.2 ?_
        · intro c hc
          obtain ⟨d, hd, haddr, hsize, -⟩ := mem_markFree hc
          have := h.ok.below.stop_le d hd
          simp only [Block.stop, haddr, hsize] at this ⊢
          exact this
        · intro c hc
          obtain ⟨d, hd, haddr, hsize, -⟩ := mem_markFree hc
          refine (h.owned d hd).within (by rw [haddr]) ?_
          simp only [Block.stop, haddr, hsize]
          exact le_rfl
    · show ∀ pg, pg ∈ s.pages ∨ pg ∈ s.foreign → HandedOut (kfree s.heap ptr).pmm pg
      rw [kfree]
      split <;> exact h.handed
  | alloc =>
    have hheap : (step s .alloc).heap.pmm = (pmmAllocBlock s.heap.pmm).2 := rfl
    by_cases h0 : (pmmAllocBlock s.heap.pmm).1 = 0
    · have hforeign : (step s .alloc).foreign = s.foreign := by
        simp [step, h0]
      refine ⟨hok, h.owned, ?_, by rw [hforeign]; exact h.apart⟩
      rw [hheap, hforeign]
      exact fun pg hpg => (h.handed pg hpg).alloc
    · have hforeign : (step s .alloc).foreign = (pmmAllocBlock s.heap.pmm).1 :: s.foreign := by
        simp [step, h0]
      obtain ⟨hnew, hfresh⟩ := handedOut_fresh h0
      refine ⟨hok, h.owned, ?_, ?_⟩
      · rw [hheap, hforeign]
        intro pg hpg
        simp only [List.mem_cons] at hpg
        rcases hpg with hpg | hpg | hpg
        · exact (h.handed pg (Or.inl hpg)).alloc
        · rw [hpg]
          exact hnew
        · exact (h.handed pg (Or.inr hpg)).alloc
      · rw [hforeign]
        intro pg hpg hf
        cases List.mem_cons.mp hf with
        | inl he =>
          rw [he] at hpg
          exact hfresh (h.handed _ (Or.inl hpg))
        | inr hf => exact h.apart pg hpg hf

theorem ownOk_start (pmm : PmmState) : OwnOk (start pmm) := by
  have hok := heapOk_start pmm
  by_cases h0 : (pmmAllocBlock pmm).1 = 0
  · refine ⟨hok, ?_, ?_, ?_⟩
    · simp [start, initKheap, h0]
    · simp [start, h0]
    · simp [start, h0]
  · refine ⟨hok, ?_, ?_, ?_⟩
    · have := @grow_owned [] [] (pmmAllocBlock pmm).1 (by simp) (by simp)
        (pageBlock (pmmAllocBlock pmm).1) (by simp [grow])
      simpa [start, initKheap, h0] using this
    · have := (handedOut_fresh h0).1
      simpa [start, initKheap, h0] using this
    · simp [start]

/-- Two different aligned pages have no byte in common. -/
theorem pages_disjoint {pg q x : ℕ} (hpg : pg % blockSize = 0) (hq : q % blockSize = 0)
    (hx : pg ≤ x ∧ x < pg + blockSize) (hx' : q ≤ x ∧ x < q + blockSize) : pg = q := by
  simp only [blockSize] at *
  omega

/-- **The heap hands out its own pages only.**  Along every run from `init_kheap` of allocations,
releases of live pointers and page allocations by others, in which every release finds the neighbours
it merges touching: every byte of every block lies in a page the allocator returned to the heap, and no
byte of a live payload lies in a page of another client. -/
theorem heap_pages_owned (pmm : PmmState) (ops : List Op)
    (hops : Admits step FreesTouching (start pmm) ops) :
    (∀ b ∈ (run step (start pmm) ops).heap.blocks, ∀ x, b.addr ≤ x → x < b.addr + 24 + b.size →
      ∃ pg ∈ (run step (start pmm) ops).pages, pg ≤ x ∧ x < pg + 4096) ∧
    (∀ a ∈ (run step (start pmm) ops).live, ∀ b ∈ (run step (start pmm) ops).heap.blocks,
      b.addr + 24 = a.ptr → ∀ x, a.ptr ≤ x → x < a.ptr + b.size →
      ∀ q ∈ (run step (start pmm) ops).foreign, ¬ (q ≤ x ∧ x < q + 4096)) := by
  have h : OwnOk (run step (start pmm) ops) :=
    run_invariant ownOk_step _ (ownOk_start pmm) ops hops
  refine ⟨h.owned, ?_⟩
  intro a _ b hb hptr x hx hx' q hq hqx
  obtain ⟨pg, hpg, hpgx⟩ := h.owned b hb x (by omega) (by simp only [Block.stop, headerSize]; omega)
  have heq := pages_disjoint (h.handed pg (Or.inl hpg)).1 (h.handed q (Or.inr hq)).1 hpgx hqx
  rw [heq] at hpg
  exact h.apart q hpg hq

/-- A run with a release that merges two halves of one page. -/
theorem heap_pages_owned_release :
    Admits step FreesTouching (start smallPmm) [.kmalloc 64, .alloc, .kfree 0x1018] ∧
      ∃ pg ∈ (run step (start smallPmm) [.kmalloc 64, .alloc, .kfree 0x1018]).pages,
        pg ≤ 0x1fff ∧ 0x1fff < pg + 4096 := by
  have hops : Admits step FreesTouching (start smallPmm) [.kmalloc 64, .alloc, .kfree 0x1018] := by
    refine ⟨trivial, trivial, ⟨⟨⟨0x1018, 64⟩, by decide, rfl⟩, ?_⟩, trivial⟩
    show List.IsChain Touch [⟨0x1000, 64, true⟩, ⟨0x1058, 3984, true⟩]
    exact List.isChain_cons_cons.mpr ⟨fun _ _ => rfl, .singleton _⟩
  exact ⟨hops, (heap_pages_owned smallPmm _ hops).1 ⟨0x1000, 4072, true⟩ (by decide) 0x1fff
    (by decide) (by decide)⟩

/-- **A release swallows another client's page.**  The heap owns the pages `0x1000` and `0x3000`,
somebody else `0x2000`; freeing the one allocation merges all three free blocks into one of 8168 bytes
from `0x1000` on, which the next allocation then hands out. -/
theorem kfree_swallows_foreign_page :
    Admits step FreesLive (start smallPmm)
        [.kmalloc 4000, .alloc, .kmalloc 512, .kfree 0x1018, .kmalloc 8000] ∧
      (run step (start smallPmm)
        [.kmalloc 4000, .alloc, .kmalloc 512, .kfree 0x1018, .kmalloc 8000]).foreign = [0x2000] ∧
      (⟨0x1000, 8000, false⟩ : Block) ∈ (run step (start smallPmm)
        [.kmalloc 4000, .alloc, .kmalloc 512, .kfree 0x1018, .kmalloc 8000]).heap.blocks ∧
      ¬ ∃ pg ∈ (run step (start smallPmm)
          [.kmalloc 4000, .alloc, .kmalloc 512, .kfree 0x1018, .kmalloc 8000]).pages,
        pg ≤ 0x2000 ∧ 0x2000 < pg + 4096 := by
  refine ⟨⟨trivial, trivial, trivial, ⟨⟨0x1018, 4000⟩, by decide, rfl⟩, trivial, trivial⟩,
    by decide, by decide, by decide⟩

end OsEojin.Kheap
