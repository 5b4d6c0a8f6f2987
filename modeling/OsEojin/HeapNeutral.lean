import OsEojin.Fat
import OsEojin.HeapOrder
import Mathlib.Data.List.Chain

/-!
# FAT operations are heap-neutral

Every function of `fat.c` gets its buffers from `kmalloc` and gives them back, up to three of them nested.
That the block list is then as before is a fact about the heap: an allocation splits the first block that
fits, and its release merges exactly the two halves again, as long as no two neighbours of the list were
both free.

* `Tidy`: such a block list; `Taken`: the heap in which one buffer is out;
* `Taken.tidy`, `Taken.kfree_eq`: the list stays tidy, and the release restores it;
* `Neutral`, `Frees`: kernel code that leaves the heap as it found it, and code that does so apart from
  giving back one buffer;
* `Operation`: the entry points of `fat.c`;
* `fat_operations_heap_neutral`: none of them changes the block list.
-/

namespace OsEojin.HeapNeutral

open OsEojin.Lib.Programs OsEojin.Pmm OsEojin.Kheap OsEojin.Ata OsEojin.Fat

/-! ### Tidy block lists -/

/-- Not both free. -/
def NotBothFree (a b : Block) : Prop := ¬ (a.isFree = true ∧ b.isFree = true)

/-- A list of blocks that occupy disjoint ranges of the 64-bit address space. -/
structure Extents (bs : List Block) : Prop where
  disjoint : bs.Pairwise fun a b => a.stop ≤ b.addr ∨ b.stop ≤ a.addr
  bounded : ∀ b ∈ bs, b.stop ≤ 2 ^ 64

/-- A block list without two list-adjacent free blocks. -/
structure Tidy (bs : List Block) : Prop extends Extents bs where
  apart : bs.IsChain NotBothFree

/-- The heap's own invariant provides the extents. -/
theorem extents_of_heapOk {s : System} (h : HeapOk s) : Extents s.heap.blocks := by
  refine ⟨h.laid.imp Or.inl, ?_⟩
  intro b hb
  have := h.below.stop_le b hb
  omega

/-- The merging pass leaves a block without free neighbours, and all before it, alone. -/
theorem coalesceFrom_append (pre : List Block) : ∀ b x : Block, ∀ post : List Block,
    (b :: (pre ++ [x])).IsChain NotBothFree →
    coalesceFrom b (pre ++ x :: post) = b :: (pre ++ coalesceFrom x post) := by
  induction pre with
  | nil =>
    intro b x post h
    have hbx : NotBothFree b x := (List.isChain_cons_cons.mp h).1
    exact if_neg hbx
  | cons c pre ih =>
    intro b x post h
    obtain ⟨hbc, hrest⟩ := List.isChain_cons_cons.mp h
    rw [List.cons_append, coalesceFrom, if_neg hbc, ih c x post hrest]
    rfl

theorem coalesce_append {pre : List Block} {x : Block} {post : List Block}
    (h : (pre ++ [x]).IsChain NotBothFree) :
    coalesce (pre ++ x :: post) = pre ++ coalesceFrom x post := by
  cases pre with
  | nil => rfl
  | cons b pre => exact coalesceFrom_append pre b x post h

theorem coalesceFrom_of_apart (bs : List Block) : ∀ b : Block, (b :: bs).IsChain NotBothFree →
    coalesceFrom b bs = b :: bs := by
  induction bs with
  | nil =>
    intro b _
    rfl
  | cons c bs ih =>
    intro b h
    obtain ⟨hbc, hrest⟩ := List.isChain_cons_cons.mp h
    rw [coalesceFrom, if_neg hbc, ih c hrest]

/-! ### One buffer out -/

/-- `kmalloc(512)` on the heap `h` returned `ptr`, not null, and left the heap `h'`. -/
def Taken (h : Heap) (ptr : ℕ) (h' : Heap) : Prop := Kheap.kmalloc h 512 = (ptr, h') ∧ ptr ≠ 0

/-- The split of a block, when no sum wraps. -/
theorem carve_within {b : Block} {size : ℕ} (hb : b.stop ≤ 2 ^ 64) (hsize : size + 32 < 2 ^ 64) :
    carve b size = if b.size > size + 32 then
      [⟨b.addr, size, false⟩, ⟨b.addr + (24 + size), b.size - (24 + size), true⟩]
    else [{ b with isFree := false }] := by
  simp only [Block.stop, headerSize] at hb
  have hmin : add64 size (headerSize + 8) = size + 32 := by
    rw [headerSize]
    exact add64_of_lt hsize
  rw [carve, hmin]
  by_cases hlt : b.size > size + 32
  · have haddr : add64 b.addr (headerSize + size) = b.addr + (24 + size) := by
      rw [headerSize, add64_of_lt (by omega)]
    have hrest : sub64 (sub64 b.size size) headerSize = b.size - (24 + size) := by
      rw [sub64_of_le (show size ≤ b.size from by omega) (by omega), headerSize,
        sub64_of_le (by omega) (by omega)]
      omega
    rw [if_pos hlt, if_pos hlt, haddr, hrest]
  · rw [if_neg hlt, if_neg hlt]

/-- What a successful allocation of a buffer does to the list. -/
theorem Taken.cases {h h' : Heap} {ptr : ℕ} (hx : Extents h.blocks) (ht : Taken h ptr h') :
    ∃ pre b post, h.blocks = pre ++ b :: post ∧ b.isFree = true ∧ ptr = b.addr + 24 ∧
      h' = ⟨pre ++ (carve b 512 ++ post), h.pmm⟩ := by
  obtain ⟨hk, h0⟩ := ht
  rcases kmalloc_cases h 512 with ⟨hc, -⟩ | ⟨pre, b, post, hbs, hfree, hsize, -, hc⟩ | ⟨-, hc⟩ |
    ⟨-, -, hc⟩
  · rw [hc] at hk
    exact absurd (Prod.mk.inj hk).1.symm h0
  · have hb : b.stop ≤ 2 ^ 64 := hx.bounded b (by rw [hbs]; simp)
    simp only [Block.stop, headerSize] at hb
    rw [hc] at hk
    obtain ⟨hptr, hh⟩ := Prod.mk.inj hk
    refine ⟨pre, b, post, hbs, hfree, ?_, hh.symm⟩
    rw [← hptr, headerSize, add64_of_lt (by omega)]
  · rw [hc] at hk
    exact absurd (Prod.mk.inj hk).1.symm h0
  · rw [hc] at hk
    exact absurd (Prod.mk.inj hk).1.symm h0

/-- Blocks inside the range of the one they replace. -/
theorem Extents.splice {pre new post : List Block} {b : Block} (h : Extents (pre ++ b :: post))
    (hnew : new.Pairwise fun a c => a.stop ≤ c.addr ∨ c.stop ≤ a.addr)
    (hin : ∀ c ∈ new, b.addr ≤ c.addr ∧ c.stop ≤ b.stop) : Extents (pre ++ (new ++ post)) := by
  obtain ⟨hpre, htail, hcross⟩ := List.pairwise_append.mp h.disjoint
  obtain ⟨hbpost, hpost⟩ := List.pairwise_cons.mp htail
  refine ⟨?_, ?_⟩
  · rw [List.pairwise_append, List.pairwise_append]
    refine ⟨hpre, ⟨hnew, hpost, ?_⟩, ?_⟩
    · intro c hc d hd
      have := hin c hc
      have := hbpost d hd
      omega
    · intro a ha c hc
      cases List.mem_append.mp hc with
      | inl hc =>
        have := hin c hc
        have := hcross a ha b List.mem_cons_self
        omega
      | inr hc => exact hcross a ha c (List.mem_cons_of_mem b hc)
  · intro c hc
    simp only [List.mem_append] at hc
    rcases hc with hc | hc | hc
    · exact h.bounded c (by simp [hc])
    · exact Nat.le_trans (hin c hc).2 (h.bounded b (by simp))
    · exact h.bounded c (by simp [hc])

/-- A used block separates whatever stands on its two sides. -/
theorem isChain_of_used {R : Block → Block → Prop}
    (hR : ∀ a b, a.isFree = false ∨ b.isFree = false → R a b) {pre post : List Block} {c : Block}
    (hc : c.isFree = false) (hpre : pre.IsChain R) (hpost : post.IsChain R) :
    (pre ++ c :: post).IsChain R := by
  rw [List.isChain_append]
  refine ⟨hpre, ?_, ?_⟩
  · cases post with
    | nil => exact List.isChain_singleton c
    | cons d post => exact List.isChain_cons_cons.mpr ⟨hR c d (Or.inl hc), hpost⟩
  · intro x _ y hy
    rw [List.head?_cons, Option.mem_some_iff] at hy
    rw [← hy]
    exact hR x c (Or.inr hc)

theorem notBothFree_of_used (a b : Block) (h : a.isFree = false ∨ b.isFree = false) : NotBothFree a b := by
  intro hab
  cases h with
  | inl h => rw [hab.1] at h; cases h
  | inr h => rw [hab.2] at h; cases h

/-- **A split keeps the list tidy**: the used half stands between the free ones. -/
theorem Tidy.carve {pre : List Block} {b : Block} {post : List Block} {size : ℕ}
    (h : Tidy (pre ++ b :: post)) (hsize : size + 32 < 2 ^ 64) (hfree : b.isFree = true) :
    Tidy (pre ++ (carve b size ++ post)) := by
  obtain ⟨hpre, hbpost⟩ := List.isChain_split.mp h.apart
  have hpre' : pre.IsChain NotBothFree := (List.isChain_append.mp hpre).1
  rw [carve_within (h.bounded b (by simp)) hsize]
  split
  · rename_i hlt
    refine ⟨h.toExtents.splice ?_ ?_, ?_⟩
    · simp [Block.stop, headerSize, Nat.add_assoc]
    · intro c hc
      simp only [List.mem_cons, List.not_mem_nil, or_false] at hc
      cases hc with
      | inl hc => subst hc; simp only [Block.stop, headerSize]; omega
      | inr hc => subst hc; simp only [Block.stop, headerSize]; omega
    · refine isChain_of_used notBothFree_of_used rfl hpre' (hbpost.imp_head ?_)
      intro z hz hrz
      exact hz ⟨hfree, hrz.2⟩
  · refine ⟨h.toExtents.splice (List.pairwise_singleton _ _) ?_, ?_⟩
    · intro c hc
      rw [List.mem_singleton.mp hc]
      exact ⟨le_rfl, le_rfl⟩
    · exact isChain_of_used notBothFree_of_used rfl hpre' hbpost.tail

/-- The heap with a buffer out is tidy again, so that the next buffer can be taken. -/
theorem Taken.tidy {h h' : Heap} {ptr : ℕ} (hh : Tidy h.blocks) (ht : Taken h ptr h') :
    Tidy h'.blocks := by
  obtain ⟨pre, b, post, hbs, hfree, -, hh'⟩ := ht.cases hh.toExtents
  rw [hh']
  rw [hbs] at hh
  exact hh.carve (by decide) hfree

/-- Blocks apart from `b` are not marked with it. -/
theorem markFree_other {l : List Block} {b : Block}
    (hl : ∀ c ∈ l, c.stop ≤ b.addr ∨ b.stop ≤ c.addr) : markFree (b.addr + 24) l = l := by
  refine (List.map_congr_left ?_).trans (List.map_id l)
  intro c hc
  refine if_neg ?_
  have := hl c hc
  simp only [Block.stop, headerSize] at this ⊢
  omega

theorem markFree_append (ptr : ℕ) (bs cs : List Block) :
    markFree ptr (bs ++ cs) = markFree ptr bs ++ markFree ptr cs := List.map_append

/-- The carved block marked free again: the block itself, or its two halves side by side. -/
theorem markFree_carve {b : Block} {size : ℕ} (hb : b.stop ≤ 2 ^ 64) (hsize : size + 32 < 2 ^ 64)
    (hfree : b.isFree = true) :
    markFree (b.addr + 24) (carve b size) = if b.size > size + 32 then
      [⟨b.addr, size, true⟩, ⟨b.addr + (24 + size), b.size - (24 + size), true⟩] else [b] := by
  rw [carve_within hb hsize]
  split
  · have hrem : ¬ b.addr + (24 + size) + headerSize = b.addr + 24 := by
      rw [headerSize]
      omega
    simp only [markFree, List.map_cons, List.map_nil]
    rw [if_pos (show b.addr + headerSize = b.addr + 24 from rfl), if_neg hrem]
  · simp only [markFree, List.map_cons, List.map_nil]
    rw [if_pos (show b.addr + headerSize = b.addr + 24 from rfl), ← hfree]

/-- The release of the buffer carved from `b` marks its own half and merges it with the remainder. -/
theorem coalesce_markFree_carve {pre post : List Block} {b : Block} {size : ℕ}
    (h : Tidy (pre ++ b :: post)) (hsize : size + 32 < 2 ^ 64) (hfree : b.isFree = true) :
    coalesce (markFree (b.addr + 24) (pre ++ (carve b size ++ post))) = pre ++ b :: post := by
  obtain ⟨-, htail, hcross⟩ := List.pairwise_append.mp h.disjoint
  obtain ⟨hbpost, -⟩ := List.pairwise_cons.mp htail
  obtain ⟨hpre, hchain⟩ := List.isChain_split.mp h.apart
  have hb := h.bounded b (by simp)
  have hmarkpre : markFree (b.addr + 24) pre = pre :=
    markFree_other fun a ha => hcross a ha b List.mem_cons_self
  have hmarkpost : markFree (b.addr + 24) post = post :=
    markFree_other fun c hc => (hbpost c hc).symm
  rw [markFree_append, markFree_append, hmarkpre, hmarkpost, markFree_carve hb hsize hfree]
  split
  · rename_i hlt
    -- in front of the marked half stands what stood in front of `b`
    have hmarked : (pre ++ [(⟨b.addr, size, true⟩ : Block)]).IsChain NotBothFree := by
      rw [List.isChain_append] at hpre ⊢
      refine ⟨hpre.1, List.isChain_singleton _, ?_⟩
      intro x hx y _ hxy
      exact hpre.2.2 x hx b (by simp) ⟨hxy.1, hfree⟩
    have hsum : add64 size (add64 headerSize (b.size - (24 + size))) = b.size := by
      simp only [Block.stop, headerSize] at hb
      rw [headerSize, add64_of_lt (show 24 + (b.size - (24 + size)) < 2 ^ 64 from by omega),
        add64_of_lt (by omega)]
      omega
    have hmerged : (⟨b.addr, b.size, true⟩ : Block) = b := by rw [← hfree]
    calc coalesce (pre ++ (⟨b.addr, size, true⟩ :: ⟨b.addr + (24 + size), b.size - (24 + size), true⟩ :: post))
        = pre ++ coalesceFrom ⟨b.addr, size, true⟩
            (⟨b.addr + (24 + size), b.size - (24 + size), true⟩ :: post) := coalesce_append hmarked
      _ = pre ++ coalesceFrom b post := by
          rw [coalesceFrom, if_pos ⟨rfl, rfl⟩, hsum, hmerged]
      _ = pre ++ b :: post := by rw [coalesceFrom_of_apart post b hchain]
  · rw [List.singleton_append, coalesce_append hpre, coalesceFrom_of_apart post b hchain]

/-- **The release of a buffer undoes its allocation.** -/
theorem Taken.kfree_eq {h h' : Heap} {ptr : ℕ} (hh : Tidy h.blocks) (ht : Taken h ptr h') :
    Kheap.kfree h' ptr = h := by
  obtain ⟨pre, b, post, hbs, hfree, hptr, hh'⟩ := ht.cases hh.toExtents
  rw [Kheap.kfree, if_neg ht.2, hh', hptr]
  rw [hbs] at hh
  rw [coalesce_markFree_carve hh (by decide) hfree, ← hbs]

/-! ### Kernel code on a real heap -/

/-- The disk, the heap, the number of allocations so far and how many of them returned null. -/
structure Machine where
  disk : Disk
  heap : Heap
  allocations : ℕ
  failures : ℕ

/-- The handler: allocations go to the heap, the `n`-th fresh block holding the bytes `junk n`. -/
def machine (junk : ℕ → Sector) : (o : Call) → Machine → Option (o.Res × Machine)
  | .kmalloc size, m =>
    some (⟨(Kheap.kmalloc m.heap size).1, junk m.allocations⟩,
      { m with
        heap := (Kheap.kmalloc m.heap size).2
        allocations := m.allocations + 1
        failures := if (Kheap.kmalloc m.heap size).1 = 0 then m.failures + 1 else m.failures })
  | .kfree ptr, m => some ((), { m with heap := Kheap.kfree m.heap ptr })
  | .ataReadSector lba _, m => some (m.disk.get lba, m)
  | .ataWriteSector lba b, m => some ((), { m with disk := m.disk.put lba b.data })
  | .kprint _, m => some ((), m)
  | .clearScreen, m => some ((), m)
  | .printMemoryMap, m => some ((), m)
  | .pmmAllocBlock, m =>
    some ((pmmAllocBlock m.heap.pmm).1,
      { m with heap := { m.heap with pmm := (pmmAllocBlock m.heap.pmm).2 } })
  | .outw _ _, m => some ((), m)
  | .divideError, _ => none

section Calculus

variable {α β : Type} {junk : ℕ → Sector}

/-- A failed allocation is never forgotten. -/
theorem failures_le {p : Kernel α} {m : Machine} {r : α × Machine}
    (hr : p.run (machine junk) m = some r) : m.failures ≤ r.2.failures := by
  refine (Program.calls_true p).run_relates (T := fun s t => s.failures ≤ t.failures)
    (fun _ => le_rfl) (fun _ _ _ => Nat.le_trans) ?_ hr
  intro o s q _ hq
  cases o with
  | kmalloc size =>
    rw [← Option.some.inj hq]
    show s.failures ≤ if _ then _ else _
    split
    · exact Nat.le_succ _
    · exact le_rfl
  | divideError => cases hq
  | _ =>
    rw [← Option.some.inj hq]

variable (junk) in
/-- **Neutral code**: with every allocation successful it leaves a tidy heap as it found it, and its
answer has the property `R`. -/
def Neutral (p : Kernel α) (R : α → Prop) : Prop :=
  ∀ m r, Tidy m.heap.blocks → p.run (machine junk) m = some r → r.2.failures = m.failures →
    r.2.heap = m.heap ∧ R r.1

variable (junk) in
/-- **Code that frees** the buffer at `ptr` and is neutral otherwise: started with that buffer out, it
ends in the heap before the allocation. -/
def Frees (ptr : ℕ) (p : Kernel α) (R : α → Prop) : Prop :=
  ∀ h m r, Tidy h.blocks → Taken h ptr m.heap → p.run (machine junk) m = some r →
    r.2.failures = m.failures → r.2.heap = h ∧ R r.1

variable {R : α → Prop} {S : β → Prop}

theorem neutral_pure {a : α} (ha : R a) : Neutral junk (pure a) R := by
  intro m r _ hr _
  rw [← Option.some.inj hr]
  exact ⟨rfl, ha⟩

theorem neutral_hang : Neutral junk (.hang : Kernel α) R := by
  intro m r _ hr _
  cases hr

theorem neutral_divideError : Neutral junk (divideError : Kernel α) R := by
  intro m r _ hr _
  cases hr

theorem neutral_bind {p : Kernel α} {f : α → Kernel β} (hp : Neutral junk p R)
    (hf : ∀ a, R a → Neutral junk (f a) S) : Neutral junk (p >>= f) S := by
  intro m r hm hr hfail
  obtain ⟨a, m', ha, hrest⟩ := (Program.run_bind_eq_some _).mp hr
  have h₁ : m.failures ≤ m'.failures := failures_le ha
  have h₂ : m'.failures ≤ r.2.failures := failures_le hrest
  obtain ⟨hheap, hR⟩ := hp m (a, m') hm ha (show m'.failures = m.failures from by omega)
  obtain ⟨hheap', hS⟩ := hf a hR m' r (by rw [hheap]; exact hm) hrest (by omega)
  exact ⟨hheap'.trans hheap, hS⟩

/-- Code that only prints. -/
theorem neutral_of_prints {p : Kernel α} (hp : Program.Calls IsPrint p) :
    Neutral junk p fun _ => True := by
  intro m r _ hr _
  refine ⟨hp.run_keeps (V := Machine.heap) ?_ hr, trivial⟩
  intro o s q ho hq
  obtain ⟨message, rfl⟩ := ho
  rw [← Option.some.inj hq]

theorem neutral_kprint (message : List UInt8) : Neutral junk (kprint message) fun _ => True :=
  neutral_of_prints (calls_kprint message)

theorem neutral_print (message : List UInt8) {k : Unit → Kernel α} (hk : Neutral junk (k ()) R) :
    Neutral junk (kprint message >>= k) R :=
  neutral_bind (neutral_kprint message) fun _ _ => hk

/-- The bytes read arrive in the same block. -/
theorem neutral_ataReadSector (lba : ℕ) (b : Buffer) :
    Neutral junk (ataReadSector lba b) fun b' => b'.ptr = b.ptr := by
  intro m r _ hr _
  rw [← Option.some.inj hr]
  exact ⟨rfl, rfl⟩

theorem neutral_ataWriteSector (lba : ℕ) (b : Buffer) :
    Neutral junk (ataWriteSector lba b) fun _ => True := by
  intro m r _ hr _
  rw [← Option.some.inj hr]
  exact ⟨rfl, trivial⟩

/-- **A buffer taken and freed**: code that gets a buffer and frees it is neutral. -/
theorem neutral_kmalloc {k : Buffer → Kernel α} (hk : ∀ b : Buffer, b.ptr ≠ 0 → Frees junk b.ptr (k b) R) :
    Neutral junk (Ata.kmalloc 512 >>= k) R := by
  intro m r hm hr hfail
  obtain ⟨b, m', hb, hrest⟩ := (Program.run_bind_eq_some _).mp hr
  have hle : m'.failures ≤ r.2.failures := failures_le hrest
  obtain ⟨rfl, rfl⟩ := Prod.mk.inj (Option.some.inj hb)
  have h0 : (Kheap.kmalloc m.heap 512).1 ≠ 0 := by
    intro h0
    simp only [h0, if_true] at hle
    omega
  refine hk _ h0 m.heap _ r hm ⟨rfl, h0⟩ hrest ?_
  simp only [if_neg h0]
  exact hfail

/-- While a buffer is out, neutral code changes nothing. -/
theorem frees_bind {ptr : ℕ} {p : Kernel α} {f : α → Kernel β} (hp : Neutral junk p R)
    (hf : ∀ a, R a → Frees junk ptr (f a) S) : Frees junk ptr (p >>= f) S := by
  intro h m r hh ht hr hfail
  obtain ⟨a, m', ha, hrest⟩ := (Program.run_bind_eq_some _).mp hr
  have h₁ : m.failures ≤ m'.failures := failures_le ha
  have h₂ : m'.failures ≤ r.2.failures := failures_le hrest
  obtain ⟨hheap, hR⟩ := hp m (a, m') (ht.tidy hh) ha (show m'.failures = m.failures from by omega)
  exact hf a hR h m' r hh (by rw [hheap]; exact ht) hrest (by omega)

theorem frees_print {ptr : ℕ} (message : List UInt8) {k : Unit → Kernel α}
    (hk : Frees junk ptr (k ()) R) : Frees junk ptr (kprint message >>= k) R :=
  frees_bind (neutral_kprint message) fun _ _ => hk

/-- The release itself. -/
theorem frees_kfree {ptr : ℕ} {b : Buffer} (hb : b.ptr = ptr) :
    Frees junk ptr (Ata.kfree b) fun _ => True := by
  intro h m r hh ht hr _
  rw [← Option.some.inj hr]
  refine ⟨?_, trivial⟩
  show Kheap.kfree m.heap b.ptr = h
  rw [hb]
  exact ht.kfree_eq hh

/-- What follows the release runs on the heap before the allocation. -/
theorem frees_then {ptr : ℕ} {p : Kernel α} {f : α → Kernel β} (hp : Frees junk ptr p R)
    (hf : ∀ a, R a → Neutral junk (f a) S) : Frees junk ptr (p >>= f) S := by
  intro h m r hh ht hr hfail
  obtain ⟨a, m', ha, hrest⟩ := (Program.run_bind_eq_some _).mp hr
  have h₁ : m.failures ≤ m'.failures := failures_le ha
  have h₂ : m'.failures ≤ r.2.failures := failures_le hrest
  obtain ⟨hheap, hR⟩ := hp h m (a, m') hh ht ha (show m'.failures = m.failures from by omega)
  obtain ⟨hheap', hS⟩ := hf a hR m' r (by rw [hheap]; exact hh) hrest (by omega)
  exact ⟨hheap'.trans hheap, hS⟩

theorem frees_divideError {ptr : ℕ} : Frees junk ptr (divideError : Kernel α) R := by
  intro h m r _ _ hr _
  cases hr

/-- The two together, as most functions end. -/
theorem frees_kfree_pure {ptr : ℕ} {b : Buffer} (hb : b.ptr = ptr) {a : α} (ha : R a) :
    Frees junk ptr (do Ata.kfree b; pure a) R :=
  frees_then (frees_kfree hb) fun _ _ => neutral_pure ha

end Calculus

/-! ### The functions of `fat.c` -/

section Functions

variable {junk : ℕ → Sector} (g : Globals)

theorem neutral_fatNextCluster (cluster : UInt16) :
    Neutral junk (fatNextCluster g cluster) fun _ => True := by
  refine neutral_kmalloc fun b _ => ?_
  refine frees_bind (neutral_ataReadSector _ b) fun b' hb' => ?_
  exact frees_kfree_pure hb' trivial

theorem neutral_fatWriteFatEntry (cluster value : UInt16) :
    Neutral junk (fatWriteFatEntry g cluster value) fun _ => True := by
  refine neutral_kmalloc fun b _ => ?_
  refine frees_bind (neutral_ataReadSector _ b) fun b' hb' => ?_
  exact frees_bind (neutral_ataWriteSector _ _) fun _ _ => frees_kfree hb'

/-- Induction on the number of FAT sectors left: the buffer stays out until the last one. -/
theorem frees_allocLoop (n : ℕ) : ∀ i (b : Buffer),
    Frees junk b.ptr (allocLoop g n i b) fun _ => True := by
  induction n with
  | zero =>
    intro i b
    exact frees_kfree_pure rfl trivial
  | succ n ih =>
    intro i b
    refine frees_bind (neutral_ataReadSector _ b) fun b' hb' => ?_
    cases allocInSector b'.data i 256 0 with
    | some cluster =>
      refine frees_bind (neutral_fatWriteFatEntry g cluster 0xFFFF) fun _ _ => ?_
      exact frees_kfree_pure hb' trivial
    | none =>
      rw [← hb']
      exact ih (i + 1) b'

theorem neutral_fatAllocateCluster : Neutral junk (fatAllocateCluster g) fun _ => True :=
  neutral_kmalloc fun b _ => frees_allocLoop g _ 0 b

theorem neutral_dirClusterLoop (n : ℕ) : ∀ curr,
    Neutral junk (dirClusterLoop g n curr) fun _ => True := by
  induction n with
  | zero =>
    intro curr
    rw [dirClusterLoop]
    split
    · exact neutral_pure trivial
    · exact neutral_pure trivial
  | succ n ih =>
    intro curr
    rw [dirClusterLoop]
    split
    · exact neutral_pure trivial
    · exact neutral_bind (neutral_fatNextCluster g curr) fun next _ => ih next

theorem neutral_followLinks (n : ℕ) : ∀ curr, Neutral junk (followLinks g n curr) fun _ => True := by
  induction n with
  | zero =>
    intro curr
    exact neutral_pure trivial
  | succ n ih =>
    intro curr
    exact neutral_bind (neutral_fatNextCluster g curr) fun next _ => ih next

theorem neutral_writeBackLba (i : ℕ) : Neutral junk (writeBackLba g i) fun _ => True := by
  rw [writeBackLba]
  split
  · exact neutral_pure trivial
  · simp only
    split
    · exact neutral_divideError
    · exact neutral_bind (neutral_followLinks g _ _) fun _ _ => neutral_pure trivial

theorem neutral_fatReadDirSector (c : UInt16) (i : ℕ) (b : Buffer) :
    Neutral junk (fatReadDirSector g c i b) fun r => ∀ b' ∈ r, b'.ptr = b.ptr := by
  have hread : ∀ lba, Neutral junk (do let b ← ataReadSector lba b; pure (some b))
      fun r => ∀ b' ∈ r, b'.ptr = b.ptr := by
    intro lba
    refine neutral_bind (neutral_ataReadSector lba b) fun b' hb' => neutral_pure ?_
    intro b'' h
    rw [← Option.mem_some_iff.mp h]
    exact hb'
  rw [fatReadDirSector]
  split
  · split
    · exact neutral_divideError
    · split
      · exact neutral_pure (by simp)
      · exact hread _
  · simp only
    split
    · exact neutral_divideError
    · refine neutral_bind (neutral_dirClusterLoop g _ c) fun r _ => ?_
      cases r with
      | none => exact neutral_pure (by simp)
      | some curr => exact hread _

/-- Induction on the fuel: every sector arrives in the one buffer. -/
theorem neutral_scanDir (c : UInt16) (e : Bool) (v : DirEntry → Verdict) (fuel : ℕ) :
    ∀ i (b : Buffer), Neutral junk (scanDir g c e v fuel i b) fun r => r.buffer.ptr = b.ptr := by
  induction fuel with
  | zero =>
    intro i b
    exact neutral_hang
  | succ fuel ih =>
    intro i b
    refine neutral_bind (neutral_fatReadDirSector g c i b) fun r hr => ?_
    cases r with
    | none => exact neutral_pure rfl
    | some b' =>
      have hb' : b'.ptr = b.ptr := hr b' rfl
      have hnext := ih (i + 1) b'
      rw [hb'] at hnext
      simp only
      split
      · exact neutral_pure hb'
      · exact hnext
      · split
        · exact neutral_pure hb'
        · exact hnext

theorem frees_listLoop (fuel : ℕ) : ∀ i (b : Buffer),
    Frees junk b.ptr (listLoop g fuel i b) fun _ => True := by
  induction fuel with
  | zero =>
    intro i b h m r _ _ hr
    cases hr
  | succ fuel ih =>
    intro i b
    refine frees_bind (neutral_fatReadDirSector g _ i b) fun r hr => ?_
    cases r with
    | none => exact frees_kfree rfl
    | some b' =>
      have hb' : b'.ptr = b.ptr := hr b' rfl
      refine frees_bind (neutral_of_prints (calls_listSector b'.data 16 0)) fun last _ => ?_
      cases last with
      | true => exact frees_kfree hb'
      | false =>
        rw [← hb']
        exact ih (i + 1) b'

theorem neutral_fatInit : Neutral junk (fatInit g) fun _ => True := by
  refine neutral_kmalloc fun b h0 => ?_
  rw [if_neg h0]
  refine frees_bind (neutral_ataReadSector 0 b) fun b' hb' => ?_
  refine frees_print _ (frees_print _ (frees_bind (neutral_of_prints (calls_prints _)) fun _ _ => ?_))
  repeat refine frees_print _ ?_
  split
  · exact frees_divideError
  · repeat refine frees_print _ ?_
    exact frees_kfree_pure hb' trivial

theorem neutral_fatList (fuel : ℕ) : Neutral junk (fatList g fuel) fun _ => True := by
  rw [fatList]
  split
  · exact neutral_kprint _
  · refine neutral_kmalloc fun b h0 => ?_
    rw [if_neg h0]
    exact frees_print _ (frees_print _ (frees_listLoop g fuel 0 b))

theorem neutral_fatFindFile (fuel : ℕ) (filename : List UInt8) :
    Neutral junk (fatFindFile g fuel filename) fun _ => True := by
  rw [fatFindFile]
  split
  · exact neutral_print _ (neutral_pure trivial)
  · refine neutral_kmalloc fun b h0 => ?_
    rw [if_neg h0]
    refine frees_bind (neutral_scanDir g _ true (findVerdict filename) fuel 0 b) fun r hr => ?_
    cases r with
    | hit i k b' => exact frees_kfree_pure hr trivial
    | stop b' => exact frees_kfree_pure hr trivial
    | through b' => exact frees_kfree_pure hr trivial

theorem neutral_fatChangeDir (fuel : ℕ) (dirname : List UInt8) :
    Neutral junk (fatChangeDir g fuel dirname) fun _ => True := by
  rw [fatChangeDir]
  split
  · exact neutral_print _ (neutral_pure trivial)
  · refine neutral_bind (neutral_fatFindFile g fuel dirname) fun r _ => ?_
    cases r with
    | none => exact neutral_print _ (neutral_pure trivial)
    | some entry =>
      simp only
      split
      · exact neutral_print _ (neutral_pure trivial)
      · exact neutral_print _ (neutral_pure trivial)

theorem neutral_fatCreateEntry (fuel : ℕ) (filename : List UInt8) (attr : UInt8) (cluster : UInt16)
    (size : ℕ) :
    Neutral junk (fatCreateEntry g fuel filename attr cluster size) fun _ => True := by
  rw [fatCreateEntry]
  split
  · exact neutral_pure trivial
  · refine neutral_kmalloc fun b _ => ?_
    refine frees_bind (neutral_scanDir g _ false freeVerdict fuel 0 b) fun r hr => ?_
    cases r with
    | hit i k b' =>
      refine frees_bind (neutral_writeBackLba g i) fun lba _ => ?_
      refine frees_bind (neutral_ataWriteSector lba _) fun _ _ => ?_
      refine frees_then (frees_kfree hr) fun _ _ => ?_
      exact neutral_print _ (neutral_print _ (neutral_print _ (neutral_pure trivial)))
    | stop b' =>
      exact frees_then (frees_kfree hr) fun _ _ => neutral_print _ (neutral_pure trivial)
    | through b' =>
      exact frees_then (frees_kfree hr) fun _ _ => neutral_print _ (neutral_pure trivial)

theorem neutral_freeLoop (fuel : ℕ) : ∀ curr, Neutral junk (freeLoop g fuel curr) fun _ => True := by
  induction fuel with
  | zero =>
    intro curr
    exact neutral_hang
  | succ fuel ih =>
    intro curr
    rw [freeLoop]
    split
    · refine neutral_bind (neutral_fatNextCluster g curr) fun next _ => ?_
      exact neutral_bind (neutral_fatWriteFatEntry g curr 0x0000) fun _ _ => ih next
    · exact neutral_pure trivial

theorem neutral_fatFreeClusterChain (fuel : ℕ) (cluster : UInt16) :
    Neutral junk (fatFreeClusterChain g fuel cluster) fun _ => True := by
  rw [fatFreeClusterChain]
  split
  · exact neutral_pure trivial
  · exact neutral_freeLoop g fuel cluster

theorem neutral_fatIsDirEmpty (fuel : ℕ) (cluster : UInt16) :
    Neutral junk (fatIsDirEmpty g fuel cluster) fun _ => True := by
  refine neutral_kmalloc fun b h0 => ?_
  rw [if_neg h0]
  refine frees_bind (neutral_scanDir g cluster true emptyVerdict fuel 0 b) fun r hr => ?_
  cases r with
  | hit i k b' => exact frees_kfree_pure hr trivial
  | stop b' => exact frees_kfree_pure hr trivial
  | through b' => exact frees_kfree_pure hr trivial

theorem frees_deleteFound (fuel i k : ℕ) {ptr : ℕ} {b : Buffer} (hb : b.ptr = ptr)
    (message : String) :
    Frees junk ptr (deleteFound g fuel i k b message) fun _ => True := by
  refine frees_bind (neutral_writeBackLba g i) fun lba _ => ?_
  refine frees_bind (neutral_fatFreeClusterChain g fuel _) fun _ _ => ?_
  refine frees_bind (neutral_ataWriteSector lba _) fun _ _ => ?_
  exact frees_then (frees_kfree hb) fun _ _ => neutral_print _ (neutral_pure trivial)

theorem neutral_fatDeleteFile (fuel : ℕ) (filename : List UInt8) :
    Neutral junk (fatDeleteFile g fuel filename) fun _ => True := by
  rw [fatDeleteFile]
  split
  · exact neutral_pure trivial
  · refine neutral_kmalloc fun b _ => ?_
    refine frees_bind (neutral_scanDir g _ false (deleteFileVerdict filename) fuel 0 b) fun r hr => ?_
    cases r with
    | hit i k b' =>
      simp only
      split
      · exact frees_print _ (frees_kfree_pure hr trivial)
      · exact frees_deleteFound g fuel i k hr _
    | stop b' =>
      exact frees_then (frees_kfree hr) fun _ _ => neutral_print _ (neutral_pure trivial)
    | through b' =>
      exact frees_then (frees_kfree hr) fun _ _ => neutral_print _ (neutral_pure trivial)

theorem neutral_fatDeleteDir (fuel : ℕ) (dirname : List UInt8) :
    Neutral junk (fatDeleteDir g fuel dirname) fun _ => True := by
  rw [fatDeleteDir]
  split
  · exact neutral_pure trivial
  · refine neutral_kmalloc fun b _ => ?_
    refine frees_bind (neutral_scanDir g _ false (deleteDirVerdict dirname) fuel 0 b) fun r hr => ?_
    cases r with
    | hit i k b' =>
      simp only
      split
      · exact frees_print _ (frees_kfree_pure hr trivial)
      · refine frees_bind (neutral_fatIsDirEmpty g fuel _) fun empty _ => ?_
        split
        · exact frees_print _ (frees_kfree_pure hr trivial)
        · exact frees_deleteFound g fuel i k hr _
    | stop b' =>
      exact frees_then (frees_kfree hr) fun _ _ => neutral_print _ (neutral_pure trivial)
    | through b' =>
      exact frees_then (frees_kfree hr) fun _ _ => neutral_print _ (neutral_pure trivial)

/-- One lemma for the entry points. -/
theorem neutral_code (fuel : ℕ) (op : Operation) : Neutral junk (op.code g fuel) fun _ => True := by
  cases op with
  | fatInit => exact neutral_bind (neutral_fatInit g) fun _ _ => neutral_pure trivial
  | fatList => exact neutral_fatList g fuel
  | fatFindFile filename =>
    exact neutral_bind (neutral_fatFindFile g fuel filename) fun _ _ => neutral_pure trivial
  | fatChangeDir dirname =>
    exact neutral_bind (neutral_fatChangeDir g fuel dirname) fun _ _ => neutral_pure trivial
  | fatNextCluster cluster =>
    exact neutral_bind (neutral_fatNextCluster g cluster) fun _ _ => neutral_pure trivial
  | fatWriteFatEntry cluster value => exact neutral_fatWriteFatEntry g cluster value
  | fatAllocateCluster =>
    exact neutral_bind (neutral_fatAllocateCluster g) fun _ _ => neutral_pure trivial
  | fatCreateEntry filename attr cluster size =>
    exact neutral_bind (neutral_fatCreateEntry g fuel filename attr cluster size)
      fun _ _ => neutral_pure trivial
  | fatFreeClusterChain cluster => exact neutral_fatFreeClusterChain g fuel cluster
  | fatIsDirEmpty cluster =>
    exact neutral_bind (neutral_fatIsDirEmpty g fuel cluster) fun _ _ => neutral_pure trivial
  | fatDeleteFile filename =>
    exact neutral_bind (neutral_fatDeleteFile g fuel filename) fun _ _ => neutral_pure trivial
  | fatDeleteDir dirname =>
    exact neutral_bind (neutral_fatDeleteDir g fuel dirname) fun _ _ => neutral_pure trivial

end Functions

/-- **FAT operations are heap-neutral.**  For every disk, every argument, every content of the fresh
blocks and every block list without two list-adjacent free blocks: when a function of `fat.c` returns and
none of its allocations failed, the block list is the one it found. -/
theorem fat_operations_heap_neutral (junk : ℕ → Sector) (g : Globals) (fuel : ℕ) (op : Operation)
    (m : Machine) (hm : Tidy m.heap.blocks) (r : Unit × Machine)
    (hr : (op.code g fuel).run (machine junk) m = some r) (hfail : r.2.failures = m.failures) :
    r.2.heap.blocks = m.heap.blocks := by
  rw [(neutral_code g fuel op m r hm hr hfail).1]

/-- An empty disk and a heap of one page, of which the first block is in use. -/
def freshMachine : Machine where
  disk := fun _ _ => 0
  heap := ⟨[⟨0x2000000, 64, false⟩, ⟨0x2000058, 3984, true⟩], smallPmm⟩
  allocations := 0
  failures := 0

theorem tidy_freshMachine : Tidy freshMachine.heap.blocks where
  disjoint := by simp [freshMachine, Block.stop, headerSize]
  bounded := by simp [freshMachine, Block.stop, headerSize]
  apart := by simp [freshMachine, NotBothFree]

/-- Creating a file on it. -/
theorem create_entry_heap_neutral :
    ∃ r, ((Operation.fatCreateEntry (text "A") 0x20 0 0).code twoSectorRoot 2).run
        (machine fun _ _ => 0xAA) freshMachine = some r ∧
      r.2.failures = freshMachine.failures ∧ r.2.heap.blocks = freshMachine.heap.blocks := by
  have hsome : (((Operation.fatCreateEntry (text "A") 0x20 0 0).code twoSectorRoot 2).run
      (machine fun _ _ => 0xAA) freshMachine).isSome = true := by decide
  obtain ⟨r, hr⟩ := Option.isSome_iff_exists.mp hsome
  have hfail : r.2.failures = freshMachine.failures := by
    have h := congrArg (Option.map fun r => r.2.failures) hr
    exact (Option.some.inj h).symm
  exact ⟨r, hr, hfail, fat_operations_heap_neutral _ _ _ _ _ tidy_freshMachine r hr hfail⟩

end OsEojin.HeapNeutral
