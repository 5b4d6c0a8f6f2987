import OsEojin.HeapAccounting

/-!
# What a caller of the heap gets

First fit serves every request some free block is large enough for; the call that has to grow the heap returns
null, although the page it appended would do.  A release undoes the allocation before it, and leaves room for
any request no larger than what was released.

* `Fits`, `Serves`: a free block is large enough; the caller gets a used block of its own;
* `serves_of_fits`: first fit delivers; `kmalloc_of_not_fits`: growth does not;
* `kmalloc_serves_iff`: exactly when `kmalloc` delivers what it could;
* `InMemory`: a block list in physical memory; `coalesce_room`: merging keeps the room of a free block;
* `kfree_undoes_kmalloc`: the release.
-/

namespace OsEojin.Kheap

open OsEojin.Pmm OsEojin.HeapNeutral

/-- Some free block is large enough. -/
def Fits (bs : List Block) (size : ℕ) : Prop := ∃ b ∈ bs, b.isFree = true ∧ size ≤ b.size

/-- `kmalloc` returned the payload of a used block of at least `size` bytes. -/
def Serves (r : ℕ × Heap) (size : ℕ) : Prop :=
  r.1 ≠ 0 ∧ ∃ b ∈ r.2.blocks, r.1 = b.addr + 24 ∧ b.isFree = false ∧ size ≤ b.size

/-! ### Growth does not serve -/

theorem firstFit_eq_none_iff {size : ℕ} {bs : List Block} : firstFit size bs = none ↔ ¬ Fits bs size := by
  induction bs with
  | nil => simp [firstFit, Fits]
  | cons b bs ih =>
    rw [firstFit]
    split
    · rename_i hfit
      simp only [reduceCtorEq, false_iff, not_not]
      exact ⟨b, List.mem_cons_self, hfit⟩
    · rename_i hnot
      have hcons : Fits (b :: bs) size ↔ Fits bs size := by
        rw [Fits, Fits, List.exists_mem_cons_iff, or_iff_right hnot]
      rw [Option.map_eq_none_iff, ih, hcons]

/-- The first piece of a split is the caller's. -/
theorem carve_served {b : Block} {size : ℕ} (hs : size ≤ b.size) :
    ∃ c ∈ carve b size, c.addr = b.addr ∧ c.isFree = false ∧ size ≤ c.size := by
  rw [carve]
  split
  · exact ⟨_, List.mem_cons_self, rfl, rfl, le_rfl⟩
  · exact ⟨_, List.mem_cons_self, rfl, rfl, hs⟩

/-- **First fit delivers**, and asks for no page. -/
theorem serves_of_fits {h : Heap} {size : ℕ} (haddr : ∀ b ∈ h.blocks, b.addr + 24 < 2 ^ 64)
    (h0 : 1 ≤ size) (hfits : Fits h.blocks size) :
    Serves (kmalloc h size) size ∧ kmallocPage h size = none ∧ (kmalloc h size).2.pmm = h.pmm := by
  cases hfit : firstFit size h.blocks with
  | none => exact absurd hfits (firstFit_eq_none_iff.mp hfit)
  | some r =>
    obtain ⟨pre, b, post, hbs, -, hsize, hr⟩ := firstFit_some hfit
    have hk : kmalloc h size = (b.addr + 24, ⟨pre ++ (carve b size ++ post), h.pmm⟩) := by
      rw [kmalloc, if_neg (by omega), hfit, hr]
      dsimp only
      rw [headerSize, add64_of_lt (haddr b (by rw [hbs]; simp))]
    obtain ⟨c, hc, hca, hcu, hcs⟩ := carve_served hsize
    rw [hk]
    refine ⟨⟨by simp, c, by simp [hc], ?_, hcu, hcs⟩, by simp [kmallocPage, hfit], rfl⟩
    rw [hca]

/-- **Growth does not**: the page is appended and null returned. -/
theorem kmalloc_of_not_fits {h : Heap} {size : ℕ} (hfits : ¬ Fits h.blocks size) :
    (kmalloc h size).1 = 0 := by
  rw [kmalloc, firstFit_eq_none_iff.mpr hfits]
  split
  · rfl
  · dsimp only
    split
    · rfl
    · rfl

/-- **When `kmalloc` delivers what it could.**  In every heap whose headers lie in the address space and for
every size, those that fit a page among them: from "a free block is large enough or the physical allocator has
a page" follows "the caller gets its block" exactly when a free block is large enough or the allocator has no
page. -/
theorem kmalloc_serves_iff (h : Heap) (haddr : ∀ b ∈ h.blocks, b.addr + 24 < 2 ^ 64) (size : ℕ)
    (h1 : 1 ≤ size) :
    ((Fits h.blocks size ∨ (pmmAllocBlock h.pmm).1 ≠ 0) → Serves (kmalloc h size) size) ↔
      (Fits h.blocks size ∨ (pmmAllocBlock h.pmm).1 = 0) := by
  by_cases hfits : Fits h.blocks size
  · have hserves : Serves (kmalloc h size) size := (serves_of_fits haddr h1 hfits).1
    exact ⟨fun _ => Or.inl hfits, fun _ _ => hserves⟩
  · have hnull : ¬ Serves (kmalloc h size) size := fun hserves => hserves.1 (kmalloc_of_not_fits hfits)
    constructor
    · intro hclaim
      right
      by_contra hpage
      exact hnull (hclaim (Or.inr hpage))
    · intro hcond hcould
      cases hcond with
      | inl hfit => exact absurd hfit hfits
      | inr hpage =>
        cases hcould with
        | inl hfit => exact absurd hfit hfits
        | inr hpage' => exact absurd hpage hpage'

/-- On the one-page heap of `init_kheap` it does. -/
theorem kmalloc_serves_first :
    Fits (initKheap smallPmm).blocks 512 ∧ Serves (kmalloc (initKheap smallPmm) 512) 512 := by
  have hfits : Fits (initKheap smallPmm).blocks 512 := ⟨⟨0x1000, 4072, true⟩, by decide, rfl, by decide⟩
  have hiff := kmalloc_serves_iff (initKheap smallPmm) (by decide) 512 (by decide)
  exact ⟨hfits, hiff.mpr (Or.inl hfits) (Or.inl hfits)⟩

/-- On the empty list a failed `init_kheap` leaves, with pages to be had, `kmalloc(512)` returns null. -/
theorem kmalloc_empty_list :
    (Fits [] 512 ∨ (pmmAllocBlock smallPmm).1 ≠ 0) ∧ ¬ Serves (kmalloc ⟨[], smallPmm⟩ 512) 512 := by
  refine ⟨Or.inr (by decide), ?_⟩
  intro hserves
  exact hserves.1 (by decide)

/-! ### Release -/

/-- The blocks lie apart in physical memory. -/
structure InMemory (h : Heap) : Prop where
  disjoint : h.blocks.Pairwise fun a b => a.stop ≤ b.addr ∨ b.stop ≤ a.addr
  within : ∀ b ∈ h.blocks, b.stop ≤ h.pmm.totalBlocks * blockSize

/-- As the heap's own invariant says. -/
theorem inMemory_of_heapOk {s : System} (h : HeapOk s) : InMemory s.heap := by
  refine ⟨h.laid.imp Or.inl, ?_⟩
  obtain ⟨k, hk, -, hstop⟩ := h.below
  intro b hb
  exact Nat.le_trans (hstop b hb) (Nat.mul_le_mul_right _ hk)

variable {h : Heap}

theorem InMemory.stop_le (hm : InMemory h) {b : Block} (hb : b ∈ h.blocks) : b.stop + 4096 ≤ 2 ^ 64 := by
  have hstop := hm.within b hb
  have htotal := h.pmm.total_lt
  rw [blockSize] at hstop
  omega

theorem InMemory.tidy (hm : InMemory h) (hapart : h.blocks.IsChain NotBothFree) : Tidy h.blocks := by
  refine ⟨⟨hm.disjoint, ?_⟩, hapart⟩
  intro b hb
  have hstop := hm.stop_le hb
  omega

theorem InMemory.total_lt (hm : InMemory h) : total h.blocks < 2 ^ 64 := by
  have hle : total h.blocks ≤ 2 ^ 64 - 4096 := by
    refine total_le hm.disjoint fun b hb => ?_
    have hstop := hm.stop_le hb
    omega
  omega

/-- Induction along the pass: a block only grows until it is left behind. -/
theorem coalesceFrom_room (bs : List Block) : ∀ b : Block, total (b :: bs) < 2 ^ 64 →
    ∀ d ∈ b :: bs, d.isFree = true → ∃ c ∈ coalesceFrom b bs, c.isFree = true ∧ d.size ≤ c.size := by
  induction bs with
  | nil =>
    intro b _ d hd hfree
    exact ⟨d, hd, hfree, le_rfl⟩
  | cons e bs ih =>
    intro b h d hd hfree
    rw [coalesceFrom]
    split
    · rename_i hboth
      rw [merge_size h]
      have hrest := ih { b with size := b.size + (24 + e.size) } (by
        simp only [total_cons] at h ⊢
        omega)
      rw [List.mem_cons, List.mem_cons] at hd
      have hhead := hrest _ List.mem_cons_self hboth.1
      obtain ⟨c, hc, hcfree, hcsize⟩ := hhead
      dsimp only at hcsize
      rcases hd with hd | hd | hd
      · rw [hd]
        exact ⟨c, hc, hcfree, by omega⟩
      · rw [hd]
        exact ⟨c, hc, hcfree, by omega⟩
      · exact hrest d (List.mem_cons_of_mem _ hd) hfree
    · cases List.mem_cons.mp hd with
      | inl hd =>
        rw [hd] at hfree ⊢
        exact ⟨b, List.mem_cons_self, hfree, le_rfl⟩
      | inr hd =>
        obtain ⟨c, hc, hroom⟩ := ih e (by rw [total_cons] at h; omega) d hd hfree
        exact ⟨c, List.mem_cons_of_mem b hc, hroom⟩

/-- **Merging keeps the room of a free block.** -/
theorem coalesce_room {bs : List Block} (ht : total bs < 2 ^ 64) {d : Block} (hd : d ∈ bs)
    (hfree : d.isFree = true) : ∃ c ∈ coalesce bs, c.isFree = true ∧ d.size ≤ c.size := by
  cases bs with
  | nil => cases hd
  | cons b bs => exact coalesceFrom_room bs b ht d hd hfree

/-- The merged blocks keep their addresses. -/
theorem coalesceFrom_addr (bs : List Block) : ∀ b : Block, ∀ c ∈ coalesceFrom b bs,
    ∃ d ∈ b :: bs, c.addr = d.addr := by
  induction bs with
  | nil =>
    intro b c hc
    exact ⟨c, hc, rfl⟩
  | cons e bs ih =>
    intro b c hc
    rw [coalesceFrom] at hc
    split at hc
    · obtain ⟨d, hd, hcd⟩ := ih _ c hc
      cases List.mem_cons.mp hd with
      | inl hd =>
        rw [hd] at hcd
        exact ⟨b, List.mem_cons_self, hcd⟩
      | inr hd => exact ⟨d, by simp [hd], hcd⟩
    · cases List.mem_cons.mp hc with
      | inl hc => exact ⟨b, List.mem_cons_self, by rw [hc]⟩
      | inr hc =>
        obtain ⟨d, hd, hcd⟩ := ih e c hc
        exact ⟨d, List.mem_cons_of_mem b hd, hcd⟩

theorem coalesce_addr {bs : List Block} {c : Block} (hc : c ∈ coalesce bs) : ∃ d ∈ bs, c.addr = d.addr := by
  cases bs with
  | nil => cases hc
  | cons b bs => exact coalesceFrom_addr bs b c hc

/-- A release undoes the allocation before it. -/
theorem kfree_kmalloc (hm : InMemory h) (hapart : h.blocks.IsChain NotBothFree) {size p : ℕ} {h' : Heap}
    (hk : kmalloc h size = (p, h')) (hp : p ≠ 0) : kfree h' p = h := by
  rcases kmalloc_cases h size with ⟨hc, -⟩ | ⟨pre, b, post, hbs, hfree, hsize, -, hc⟩ | ⟨-, hc⟩ |
    ⟨-, -, hc⟩
  · rw [hc] at hk
    exact absurd (Prod.mk.inj hk).1.symm hp
  · have hstop := hm.stop_le (b := b) (by rw [hbs]; simp)
    simp only [Block.stop, headerSize] at hstop
    rw [hc, headerSize, add64_of_lt (by omega)] at hk
    obtain ⟨hptr, hh⟩ := Prod.mk.inj hk
    have hlist : h.blocks = pre ++ b :: post := hbs
    have htidy := hm.tidy hapart
    rw [hlist] at htidy
    have hrestored := coalesce_markFree_carve htidy (show size + 32 < 2 ^ 64 from by omega) hfree
    rw [kfree, if_neg hp, ← hh, ← hptr]
    dsimp only
    rw [hrestored, ← hlist]
  · rw [hc] at hk
    exact absurd (Prod.mk.inj hk).1.symm hp
  · rw [hc] at hk
    exact absurd (Prod.mk.inj hk).1.symm hp

/-- A released block is room for any request no larger than it. -/
theorem kmalloc_kfree (hm : InMemory h) {b : Block} (hb : b ∈ h.blocks) {m : ℕ} (h1 : 1 ≤ m)
    (hle : m ≤ b.size) :
    Serves (kmalloc (kfree h (b.addr + 24)) m) m ∧ kmallocPage (kfree h (b.addr + 24)) m = none ∧
      (kmalloc (kfree h (b.addr + 24)) m).2.pmm = h.pmm := by
  have hkfree : kfree h (b.addr + 24) = { h with blocks := coalesce (markFree (b.addr + 24) h.blocks) } := by
    rw [kfree, if_neg (by omega)]
  have hmarked : ({ b with isFree := true } : Block) ∈ markFree (b.addr + 24) h.blocks :=
    List.mem_map.mpr ⟨b, hb, if_pos rfl⟩
  have htotal : total (markFree (b.addr + 24) h.blocks) < 2 ^ 64 := by
    rw [total_markFree]
    exact hm.total_lt
  obtain ⟨c, hc, hcfree, hcsize⟩ := coalesce_room htotal hmarked rfl
  rw [hkfree]
  refine serves_of_fits ?_ h1 ⟨c, hc, hcfree, Nat.le_trans hle hcsize⟩
  intro d hd
  obtain ⟨e, he, hde⟩ := coalesce_addr hd
  obtain ⟨f, hf, hef, -⟩ := mem_markFree he
  have hstop := hm.stop_le hf
  simp only [Block.stop, headerSize] at hstop
  rw [hde, hef]
  omega

/-- **`kfree` undoes `kmalloc`.**  For every list of blocks in physical memory no two neighbours of which are
both free: the release of what `kmalloc` just returned restores the heap, for every size; and after the release
of any used block a request no larger than its payload is served without a page of the physical allocator. -/
theorem kfree_undoes_kmalloc (h : Heap) (hm : InMemory h)
    (hapart : h.blocks.IsChain fun a b => ¬ (a.isFree = true ∧ b.isFree = true)) :
    (∀ size p h', kmalloc h size = (p, h') → p ≠ 0 → kfree h' p = h) ∧
    ∀ b ∈ h.blocks, b.isFree = false → ∀ m, 1 ≤ m → m ≤ b.size →
      Serves (kmalloc (kfree h (b.addr + 24)) m) m ∧ kmallocPage (kfree h (b.addr + 24)) m = none ∧
        (kmalloc (kfree h (b.addr + 24)) m).2.pmm = h.pmm :=
  ⟨fun _ _ _ hk hp => kfree_kmalloc hm hapart hk hp, fun _ hb _ _ h1 hle => kmalloc_kfree hm hb h1 hle⟩

/-- A page with a used block in front. -/
theorem kfree_undoes_kmalloc_small :
    kfree (kmalloc ⟨[⟨0x1000, 64, false⟩, ⟨0x1058, 3984, true⟩], smallPmm⟩ 100).2 0x1070
        = ⟨[⟨0x1000, 64, false⟩, ⟨0x1058, 3984, true⟩], smallPmm⟩ ∧
      Serves (kmalloc (kfree ⟨[⟨0x1000, 64, false⟩, ⟨0x1058, 3984, true⟩], smallPmm⟩ 0x1018) 48) 48 := by
  have hm : InMemory ⟨[⟨0x1000, 64, false⟩, ⟨0x1058, 3984, true⟩], smallPmm⟩ := by
    refine ⟨?_, ?_⟩
    · simp [Block.stop, headerSize]
    · decide
  have h := kfree_undoes_kmalloc _ hm (by simp)
  exact ⟨h.1 100 0x1070 _ rfl (by decide),
    (h.2 ⟨0x1000, 64, false⟩ (by simp) rfl 48 (by decide) (by decide)).1⟩

end OsEojin.Kheap
