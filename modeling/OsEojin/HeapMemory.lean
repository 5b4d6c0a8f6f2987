import OsEojin.HeapService
import OsEojin.Lib.ByteMemory
import OsEojin.Lib.Segments

/-!
# The kernel heap in memory

`src/kernel/kheap.c` once more, one level down: the list of blocks is threaded through the memory the heap
hands out.  A header is the 24 bytes of a `block_header_t` in front of its payload: the link to the next
header, the size and the free flag; `head` is the only variable outside.  The operations read and write these
bytes in the order of the source; their loops follow links and are given fuel.

* `HeapState`, `initKheap`, `kmalloc`, `kfree`: the code;
* `Represents`: memory holds the headers of a list of blocks, linked in order up to the null link;
* `firstFitLoop_spec`, `takeBlock_spec`, `expandHeap_spec`, `mergeLoop_spec`: one lemma for each part;
* `heap_memory_refines`: along every run the loops end, the pointers handed out are those of the list model,
  and memory represents its list;
* `payload_bytes_kept`: nobody but its owner changes a byte of a live allocation.
-/

namespace OsEojin.HeapMemory

open OsEojin.Lib OsEojin.Lib.Runs OsEojin.Lib.ByteMemory OsEojin.Lib.Segments OsEojin.Pmm
open OsEojin.Kheap (Block Heap System Allocation Op headerSize add64 sub64 pageBlock carve firstFit grow markFree
  coalesce coalesceFrom LaidOut HeapOk FreesLive)

/-! ### The code -/

/-- The heap's one global, the memory its list lives in, and the allocator it grows from. -/
structure HeapState where
  head : ℕ
  mem : Memory
  pmm : PmmState

/-- The fields of the `block_header_t` at `p`: `next`, `size` and `is_free`. -/
def nextAt (m : Memory) (p : ℕ) : ℕ := readLe m p 8

def sizeAt (m : Memory) (p : ℕ) : ℕ := readLe m (p + 8) 8

def freeAt (m : Memory) (p : ℕ) : ℕ := readLe m (p + 16) 1

def setNext (m : Memory) (p v : ℕ) : Memory := writeLe m p 8 v

def setSize (m : Memory) (p v : ℕ) : Memory := writeLe m (p + 8) 8 v

def setFree (m : Memory) (p v : ℕ) : Memory := writeLe m (p + 16) 1 v

/-- `init_kheap`. -/
def initKheap (m : Memory) (pmm : PmmState) : HeapState :=
  let page := pmmAllocBlock pmm
  if page.1 = 0 then ⟨0, m, page.2⟩
  else
    let m := setNext m page.1 0
    let m := setSize m page.1 (blockSize - headerSize)
    ⟨page.1, setFree m page.1 1, page.2⟩

/-- The first-fit loop of `kmalloc`: `curr` and `last` where it stops, with `curr` null when nothing fits. -/
def firstFitLoop (m : Memory) (size : ℕ) : ℕ → ℕ → ℕ → Option (ℕ × ℕ)
  | 0, _, _ => none
  | fuel + 1, curr, last =>
    if curr = 0 then some (curr, last)
    else if freeAt m curr ≠ 0 ∧ size ≤ sizeAt m curr then some (curr, last)
    else firstFitLoop m size fuel (nextAt m curr) curr

/-- The body of the loop once a block fits: split it when the rest is worth a header, and mark it used. -/
def takeBlock (m : Memory) (curr size : ℕ) : Memory :=
  let m :=
    if sizeAt m curr > add64 size (headerSize + 8) then
      let newBlock := add64 (add64 curr headerSize) size
      let m := setSize m newBlock (sub64 (sub64 (sizeAt m curr) size) headerSize)
      let m := setFree m newBlock 1
      let m := setNext m newBlock (nextAt m curr)
      let m := setSize m curr size
      setNext m curr newBlock
    else m
  setFree m curr 0

/-- The rest of `kmalloc`: a new page for the list, absorbed by its last block where the two touch.  With an
empty list the end of `last` is computed from address 0 and not used. -/
def expandHeap (h : HeapState) (last : ℕ) : HeapState :=
  let page := pmmAllocBlock h.pmm
  if page.1 = 0 then { h with pmm := page.2 }
  else
    let newBlock := page.1
    let m := setSize h.mem newBlock (blockSize - headerSize)
    let m := setFree m newBlock 1
    let m := setNext m newBlock 0
    let head := if last ≠ 0 then h.head else newBlock
    let m := if last ≠ 0 then setNext m last newBlock else m
    let lastEnd := add64 (add64 last headerSize) (sizeAt m last)
    if last ≠ 0 ∧ freeAt m last ≠ 0 ∧ lastEnd = newBlock then
      let m := setSize m last (add64 (sizeAt m last) (add64 headerSize (sizeAt m newBlock)))
      ⟨head, setNext m last (nextAt m newBlock), page.2⟩
    else if last ≠ 0 then ⟨head, setNext m last newBlock, page.2⟩
    else ⟨head, m, page.2⟩

/-- `kmalloc`, given fuel for its loop. -/
def kmalloc (fuel : ℕ) (h : HeapState) (size : ℕ) : Option (ℕ × HeapState) :=
  if size = 0 then some (0, h)
  else (firstFitLoop h.mem size fuel h.head h.head).map fun r =>
    if r.1 ≠ 0 then (add64 r.1 headerSize, { h with mem := takeBlock h.mem r.1 size })
    else (0, expandHeap h r.2)

/-- The merging loop of `kfree`. -/
def mergeLoop : ℕ → Memory → ℕ → Option Memory
  | 0, _, _ => none
  | fuel + 1, m, curr =>
    if curr ≠ 0 ∧ nextAt m curr ≠ 0 then
      if freeAt m curr ≠ 0 ∧ freeAt m (nextAt m curr) ≠ 0 then
        let m := setSize m curr (add64 (sizeAt m curr) (add64 headerSize (sizeAt m (nextAt m curr))))
        mergeLoop fuel (setNext m curr (nextAt m (nextAt m curr))) curr
      else mergeLoop fuel m (nextAt m curr)
    else some m

/-- `kfree`, given fuel for its loop. -/
def kfree (fuel : ℕ) (h : HeapState) (ptr : ℕ) : Option HeapState :=
  if ptr = 0 then some h
  else (mergeLoop fuel (setFree h.mem (sub64 ptr headerSize) 1) h.head).map fun m => { h with mem := m }

/-! ### Headers -/

/-- The header at `p`, as a block of the list model. -/
def headerAt (m : Memory) (p : ℕ) : Block := ⟨p, sizeAt m p, decide (freeAt m p ≠ 0)⟩

/-- The memory keeps the header of `b` at its address. -/
def HoldsHeader (m : Memory) (b : Block) : Prop := headerAt m b.addr = b

/-- The byte `x` lies in the header of one of the blocks. -/
def InHeaders (bs : List Block) (x : ℕ) : Prop := ∃ b ∈ bs, b.addr ≤ x ∧ x < b.addr + headerSize

theorem notMem_headers_cons {b : Block} {bs : List Block} {x : ℕ} (h : ¬ InHeaders (b :: bs) x) :
    (x < b.addr ∨ b.addr + headerSize ≤ x) ∧ ¬ InHeaders bs x := by
  refine ⟨?_, ?_⟩
  · by_contra hin
    rw [not_or, Nat.not_lt, Nat.not_le] at hin
    exact h ⟨b, List.mem_cons_self, hin.1, hin.2⟩
  · intro hin
    obtain ⟨c, hc, hx⟩ := hin
    exact h ⟨c, List.mem_cons_of_mem b hc, hx⟩

/-- The links from `p` pass the headers of the blocks and lead to `q`. -/
abbrev Chain (m : Memory) (p : ℕ) (bs : List Block) (q : ℕ) : Prop :=
  Segment Block.addr nextAt HoldsHeader m p bs q

section Headers

variable {m m' : Memory} {p q v : ℕ}

/-- A header is read from its own 24 bytes. -/
theorem header_congr (h : ∀ x, p ≤ x → x < p + headerSize → m' x = m x) :
    headerAt m' p = headerAt m p ∧ nextAt m' p = nextAt m p := by
  simp only [headerSize] at h
  have hnext : nextAt m' p = nextAt m p := readLe_congr fun x hx hx' => h x hx (by omega)
  have hsize : sizeAt m' p = sizeAt m p := readLe_congr fun x hx hx' => h x (by omega) (by omega)
  have hfree : freeAt m' p = freeAt m p := readLe_congr fun x hx hx' => h x (by omega) (by omega)
  refine ⟨?_, hnext⟩
  simp only [headerAt, hsize, hfree]

/-- What the three writes leave alone: every byte outside the header. -/
theorem setNext_of_notMem {x : ℕ} (h : x < p ∨ p + headerSize ≤ x) : setNext m p v x = m x := by
  simp only [headerSize] at h
  rw [setNext, writeLe, if_neg (by omega)]

theorem setSize_of_notMem {x : ℕ} (h : x < p ∨ p + headerSize ≤ x) : setSize m p v x = m x := by
  simp only [headerSize] at h
  rw [setSize, writeLe, if_neg (by omega)]

theorem setFree_of_notMem {x : ℕ} (h : x < p ∨ p + headerSize ≤ x) : setFree m p v x = m x := by
  simp only [headerSize] at h
  rw [setFree, writeLe, if_neg (by omega)]

/-- What they do to the header itself. -/
theorem nextAt_setNext (hv : v < 2 ^ 64) : nextAt (setNext m p v) p = v := by
  rw [nextAt, setNext, readLe_writeLe_same]
  exact Nat.mod_eq_of_lt hv

@[simp] theorem headerAt_setNext : headerAt (setNext m p v) p = headerAt m p := by
  have hsize : sizeAt (setNext m p v) p = sizeAt m p := readLe_writeLe_of_disjoint (by omega)
  have hfree : freeAt (setNext m p v) p = freeAt m p := readLe_writeLe_of_disjoint (by omega)
  simp only [headerAt, hsize, hfree]

@[simp] theorem nextAt_setSize : nextAt (setSize m p v) p = nextAt m p :=
  readLe_writeLe_of_disjoint (by omega)

theorem headerAt_setSize (hv : v < 2 ^ 64) : headerAt (setSize m p v) p = { headerAt m p with size := v } := by
  have hsize : sizeAt (setSize m p v) p = v := by
    rw [sizeAt, setSize, readLe_writeLe_same]
    exact Nat.mod_eq_of_lt hv
  have hfree : freeAt (setSize m p v) p = freeAt m p := readLe_writeLe_of_disjoint (by omega)
  simp only [headerAt, hsize, hfree]

@[simp] theorem nextAt_setFree : nextAt (setFree m p v) p = nextAt m p :=
  readLe_writeLe_of_disjoint (by omega)

theorem headerAt_setFree (hv : v < 256) :
    headerAt (setFree m p v) p = { headerAt m p with isFree := decide (v ≠ 0) } := by
  have hsize : sizeAt (setFree m p v) p = sizeAt m p := readLe_writeLe_of_disjoint (by omega)
  have hfree : freeAt (setFree m p v) p = v := by
    rw [freeAt, setFree, readLe_writeLe_same]
    exact Nat.mod_eq_of_lt hv
  simp only [headerAt, hsize, hfree]

/-- A write to the header at `q` is invisible to a header that does not overlap it. -/
theorem header_of_apart (h : p + headerSize ≤ q ∨ q + headerSize ≤ p)
    (hm : ∀ x, x < q ∨ q + headerSize ≤ x → m' x = m x) :
    headerAt m' p = headerAt m p ∧ nextAt m' p = nextAt m p := by
  apply header_congr
  intro x hx hx'
  exact hm x (by omega)

theorem holdsHeader_size {b : Block} (h : HoldsHeader m b) : sizeAt m b.addr = b.size :=
  congrArg Block.size h

theorem holdsHeader_free {b : Block} (h : HoldsHeader m b) : freeAt m b.addr ≠ 0 ↔ b.isFree = true := by
  have hfree : decide (freeAt m b.addr ≠ 0) = b.isFree := congrArg Block.isFree h
  rw [← hfree, decide_eq_true_eq]

/-- Outside the headers of its blocks a chain can be written over. -/
theorem chain_congr {bs : List Block} (h : Chain m p bs q)
    (hm : ∀ b ∈ bs, ∀ x, b.addr ≤ x → x < b.addr + headerSize → m' x = m x) : Chain m' p bs q := by
  refine h.congr ?_
  intro b hb
  obtain ⟨hheader, hnext⟩ := header_congr (hm b hb)
  refine ⟨?_, hnext⟩
  intro hold
  rw [HoldsHeader, hheader]
  exact hold

end Headers

/-! ### The parts of `kmalloc` -/

/-- The block the first-fit loop leaves in `last` when it runs through the whole list. -/
def lastAddr (last : ℕ) (bs : List Block) : ℕ := (bs.map Block.addr).getLastD last

/-- No block starts at the null pointer. -/
def Nonnull (bs : List Block) : Prop := ∀ b ∈ bs, b.addr ≠ 0

/-- Every block ends a page below the top of the address space. -/
def Bounded (bs : List Block) : Prop := ∀ b ∈ bs, b.stop + blockSize ≤ 2 ^ 64

/-- Where the list model finds nothing, the loop runs to the null link. -/
theorem firstFitLoop_of_none {m : Memory} {size fuel p last : ℕ} {bs : List Block} (h : Chain m p bs 0)
    (hnull : Nonnull bs) (hfuel : bs.length < fuel) (hfit : firstFit size bs = none) :
    firstFitLoop m size fuel p last = some (0, lastAddr last bs) := by
  induction bs generalizing p last fuel with
  | nil =>
    cases fuel with
    | zero => simp at hfuel
    | succ fuel =>
      have hp : p = 0 := h
      rw [firstFitLoop, if_pos hp, hp]
      rfl
  | cons b bs ih =>
    obtain ⟨rfl, hb, hrest⟩ := h
    rw [firstFit] at hfit
    split at hfit
    · cases hfit
    · rename_i hno
      cases fuel with
      | zero => simp at hfuel
      | succ fuel =>
        have hskip : ¬ (freeAt m b.addr ≠ 0 ∧ size ≤ sizeAt m b.addr) := by
          rw [holdsHeader_free hb, holdsHeader_size hb]
          exact hno
        rw [firstFitLoop, if_neg (hnull b List.mem_cons_self), if_neg hskip]
        rw [ih hrest (fun c hc => hnull c (List.mem_cons_of_mem b hc)) (by simpa using hfuel)
          (by simpa using hfit)]
        simp only [lastAddr, List.map_cons, List.getLastD_cons]

/-- Where it finds a block, the loop stops at the same one. -/
theorem firstFitLoop_of_some {m : Memory} {size fuel p : ℕ} (last : ℕ) {bs : List Block} (h : Chain m p bs 0)
    (hnull : Nonnull bs) (hfuel : bs.length < fuel) {r : ℕ × List Block} (hfit : firstFit size bs = some r) :
    ∃ pre b post l, bs = pre ++ ([b] ++ post) ∧ size ≤ b.size ∧
      r = (add64 b.addr headerSize, pre ++ (carve b size ++ post)) ∧
      firstFitLoop m size fuel p last = some (b.addr, l) := by
  induction bs generalizing p last fuel r with
  | nil => cases hfit
  | cons b bs ih =>
    obtain ⟨rfl, hb, hrest⟩ := h
    have hb0 := hnull b List.mem_cons_self
    cases fuel with
    | zero => simp at hfuel
    | succ fuel =>
      have hcond : (freeAt m b.addr ≠ 0 ∧ size ≤ sizeAt m b.addr) ↔ (b.isFree = true ∧ size ≤ b.size) := by
        rw [holdsHeader_free hb, holdsHeader_size hb]
      rw [firstFitLoop, if_neg hb0]
      rw [firstFit] at hfit
      split at hfit
      · rename_i hyes
        rw [if_pos (hcond.mpr hyes)]
        exact ⟨[], b, bs, last, rfl, hyes.2, (Option.some.inj hfit).symm, rfl⟩
      · rename_i hno
        rw [if_neg (hcond.not.mpr hno)]
        obtain ⟨r', hr', hr⟩ := Option.map_eq_some_iff.mp hfit
        have hfuel' : bs.length < fuel := by simpa using hfuel
        obtain ⟨pre, c, post, l, hbs, hsize, heq, hloop⟩ := ih b.addr hrest
          (fun c hc => hnull c (List.mem_cons_of_mem b hc)) hfuel' hr'
        refine ⟨b :: pre, c, post, l, by rw [hbs]; rfl, hsize, ?_, hloop⟩
        rw [← hr, heq]
        rfl

/-- A chain is edited in one place by a memory that links the new blocks where the old one was. -/
theorem chain_splice {m m' : Memory} {p : ℕ} {pre post new : List Block} {b : Block} {q : ℕ}
    (h : Chain m p (pre ++ ([b] ++ post)) 0) (hnew : Chain m' b.addr new q)
    (hq : nextAt m b.addr = q)
    (hm : ∀ c ∈ pre ++ post, ∀ x, c.addr ≤ x → x < c.addr + headerSize → m' x = m x) :
    Chain m' p (pre ++ (new ++ post)) 0 := by
  obtain ⟨r, hpre, hr, -, hpost⟩ := segment_append.mp h
  rw [hr] at hpre
  rw [hq] at hpost
  refine segment_append.mpr ⟨b.addr, ?_, segment_append.mpr ⟨q, hnew, ?_⟩⟩
  · exact chain_congr hpre fun c hc => hm c (List.mem_append_left _ hc)
  · exact chain_congr hpost fun c hc => hm c (List.mem_append_right _ hc)

theorem nextAt_lt (m : Memory) (p : ℕ) : nextAt m p < 2 ^ 64 := readLe_lt m p 8

/-- **Taking a block**: the carved pieces are linked between the block's neighbours, and only their headers are
written. -/
theorem takeBlock_spec {m : Memory} {b : Block} {size : ℕ} (hb : HoldsHeader m b)
    (hstop : b.stop + blockSize ≤ 2 ^ 64) (hsize : size ≤ b.size) :
    Chain (takeBlock m b.addr size) b.addr (carve b size) (nextAt m b.addr) ∧
      ∀ x, ¬ InHeaders (carve b size) x → takeBlock m b.addr size x = m x := by
  have hbs := hstop
  simp only [Block.stop, headerSize, blockSize] at hbs
  have h1 : add64 size (headerSize + 8) = size + 32 := by
    rw [headerSize, Kheap.add64_of_lt (by omega)]
  rw [Kheap.carve_eq hstop hsize, takeBlock, holdsHeader_size hb, h1]
  split
  · -- the block is split
    rename_i hlt
    have hnew : add64 (add64 b.addr headerSize) size = b.addr + 24 + size := by
      rw [headerSize, Kheap.add64_of_lt (a := b.addr) (by omega), Kheap.add64_of_lt (by omega)]
    have hleft : sub64 (sub64 b.size size) headerSize = b.size - size - 24 := by
      rw [Kheap.sub64_of_le hsize (by omega), headerSize, Kheap.sub64_of_le (by omega) (by omega)]
    simp only [hnew, hleft]
    set c := b.addr + 24 + size with hc
    have hapart : b.addr + headerSize ≤ c := by rw [hc, headerSize]; omega
    set m1 := setSize m c (b.size - size - 24) with hm1
    set m2 := setFree m1 c 1 with hm2
    set m3 := setNext m2 c (nextAt m2 b.addr) with hm3
    set m4 := setSize m3 b.addr size with hm4
    set m5 := setNext m4 b.addr c with hm5
    set m6 := setFree m5 b.addr 0 with hm6
    -- the header of the rest is complete in `m3`, and the block's own header is still the old one
    have hb3 : headerAt m3 b.addr = headerAt m b.addr ∧ nextAt m3 b.addr = nextAt m b.addr :=
      header_of_apart (Or.inl hapart) fun x hx => by
        rw [hm3, setNext_of_notMem hx, hm2, setFree_of_notMem hx, hm1, setSize_of_notMem hx]
    have hn2 : nextAt m2 b.addr = nextAt m b.addr :=
      (header_of_apart (Or.inl hapart) fun x hx => by
        rw [hm2, setFree_of_notMem hx, hm1, setSize_of_notMem hx]).2
    have hc3 : headerAt m3 c = ⟨c, b.size - size - 24, true⟩ ∧ nextAt m3 c = nextAt m b.addr := by
      refine ⟨?_, ?_⟩
      · rw [hm3, headerAt_setNext, hm2, headerAt_setFree (by decide), hm1, headerAt_setSize (by omega)]
        rfl
      · rw [hm3, nextAt_setNext (nextAt_lt m2 b.addr), hn2]
    have hc6 : headerAt m6 c = headerAt m3 c ∧ nextAt m6 c = nextAt m3 c :=
      header_of_apart (Or.inr hapart) fun x hx => by
        rw [hm6, setFree_of_notMem hx, hm5, setNext_of_notMem hx, hm4, setSize_of_notMem hx]
    have hb6 : headerAt m6 b.addr = { b with size := size, isFree := false } := by
      rw [hm6, headerAt_setFree (by decide), hm5, headerAt_setNext, hm4, headerAt_setSize (by omega), hb3.1]
      rfl
    have hn6 : nextAt m6 b.addr = c := by
      rw [hm6, nextAt_setFree, hm5, nextAt_setNext (by omega)]
    refine ⟨⟨rfl, hb6, hn6, ?_, ?_⟩, ?_⟩
    · show headerAt m6 c = _
      rw [hc6.1, hc3.1]
    · show nextAt m6 c = _
      rw [hc6.2, hc3.2]
    · intro x hx
      obtain ⟨hxb, hx'⟩ := notMem_headers_cons hx
      obtain ⟨hxc, -⟩ := notMem_headers_cons hx'
      rw [hm6, setFree_of_notMem hxb, hm5, setNext_of_notMem hxb, hm4, setSize_of_notMem hxb, hm3,
        setNext_of_notMem hxc, hm2, setFree_of_notMem hxc, hm1, setSize_of_notMem hxc]
  · -- the block is taken whole
    refine ⟨⟨rfl, ?_, nextAt_setFree⟩, ?_⟩
    · show headerAt (setFree m b.addr 0) b.addr = _
      rw [headerAt_setFree (by decide), hb]
      rfl
    · intro x hx
      exact setFree_of_notMem (notMem_headers_cons hx).1

theorem add64_lt (a b : ℕ) : add64 a b < 2 ^ 64 := Nat.mod_lt _ (by decide)

theorem lastAddr_concat (last : ℕ) (pre : List Block) (b : Block) : lastAddr last (pre ++ [b]) = b.addr := by
  rw [lastAddr, List.map_append, List.map_singleton, List.getLastD_concat]

/-- Growth only looks at the last block. -/
theorem grow_concat (page : ℕ) (pre : List Block) (b : Block) :
    grow page (pre ++ [b]) = pre ++ grow page [b] := by
  induction pre with
  | nil => rfl
  | cons c pre ih =>
    cases pre with
    | nil => rfl
    | cons d pre =>
      show c :: grow page (d :: (pre ++ [b])) = c :: d :: (pre ++ grow page [b])
      rw [← List.cons_append, ih]
      rfl

/-- A fresh page becomes a block of its own. -/
theorem pageHeader_spec (m : Memory) (page : ℕ) :
    headerAt (setNext (setFree (setSize m page (blockSize - headerSize)) page 1) page 0) page = pageBlock page ∧
      nextAt (setNext (setFree (setSize m page (blockSize - headerSize)) page 1) page 0) page = 0 := by
  refine ⟨?_, nextAt_setNext (by decide)⟩
  rw [headerAt_setNext, headerAt_setFree (by decide), headerAt_setSize (by decide)]
  rfl

/-- **Growth**: the page's block is linked behind the last one, or absorbed by it. -/
theorem expandHeap_spec {h : HeapState} {bs : List Block} (hchain : Chain h.mem h.head bs 0)
    (hnull : Nonnull bs) (hlaid : LaidOut bs) (hpage : (pmmAllocBlock h.pmm).1 ≠ 0)
    (hlt : (pmmAllocBlock h.pmm).1 < 2 ^ 64) (habove : ∀ b ∈ bs, b.stop ≤ (pmmAllocBlock h.pmm).1) :
    ∃ head m, expandHeap h (lastAddr h.head bs) = ⟨head, m, (pmmAllocBlock h.pmm).2⟩ ∧
      Chain m head (grow (pmmAllocBlock h.pmm).1 bs) 0 ∧
      ∀ x, ¬ InHeaders bs x → ¬ InHeaders [pageBlock (pmmAllocBlock h.pmm).1] x → m x = h.mem x := by
  set page := (pmmAllocBlock h.pmm).1 with hp
  set m1 := setNext (setFree (setSize h.mem page (blockSize - headerSize)) page 1) page 0 with hm1
  obtain ⟨hheader, hnext⟩ := pageHeader_spec h.mem page
  have hsame1 : ∀ x, x < page ∨ page + headerSize ≤ x → m1 x = h.mem x := by
    intro x hx
    rw [hm1, setNext_of_notMem hx, setFree_of_notMem hx, setSize_of_notMem hx]
  rcases List.eq_nil_or_concat bs with rfl | ⟨pre, b, rfl⟩
  · -- the list was empty: the page is its first block
    have hhead : h.head = 0 := hchain
    refine ⟨page, m1, ?_, ⟨rfl, hheader, hnext⟩, ?_⟩
    · simp [expandHeap, lastAddr, hhead, ← hp, hpage, hm1]
    · intro x _ hx
      exact hsame1 x (notMem_headers_cons hx).1
  · rw [List.concat_eq_append] at hchain hnull hlaid habove ⊢
    have hb : b ∈ pre ++ [b] := by simp
    have hb0 : b.addr ≠ 0 := hnull b hb
    have hstop : b.stop ≤ page := habove b hb
    have hbp : b.addr + headerSize ≤ page := by
      simp only [Block.stop] at hstop
      omega
    have hholds : HoldsHeader h.mem b := hchain.holds_of_mem hb
    set m2 := setNext m1 b.addr page with hm2
    have hb1 : headerAt m1 b.addr = b := by
      rw [(header_of_apart (Or.inl hbp) hsame1).1]
      exact hholds
    have hb2 : headerAt m2 b.addr = b := by rw [hm2, headerAt_setNext, hb1]
    have hp2 : headerAt m2 page = pageBlock page ∧ nextAt m2 page = 0 := by
      have hsame2 : ∀ x, x < b.addr ∨ b.addr + headerSize ≤ x → m2 x = m1 x :=
        fun x hx => setNext_of_notMem hx
      obtain ⟨h1, h2⟩ := header_of_apart (p := page) (Or.inr hbp) hsame2
      exact ⟨h1.trans hheader, h2.trans hnext⟩
    have hchain' : Chain h.mem h.head (pre ++ ([b] ++ [])) 0 := by simpa using hchain
    have hlast : nextAt h.mem b.addr = 0 := by
      obtain ⟨r, -, hend⟩ := segment_append.mp hchain
      exact hend.2.2
    have hpre : ∀ c ∈ pre, c.stop ≤ b.addr := by
      intro c hc
      exact (List.pairwise_append.mp hlaid).2.2 c hc b (List.mem_singleton_self b)
    -- every write goes to the header of the page or of the last block
    have hsame : ∀ m' : Memory, (∀ x, x < b.addr ∨ b.addr + headerSize ≤ x → m' x = m1 x) →
        (∀ c ∈ pre ++ [], ∀ x, c.addr ≤ x → x < c.addr + headerSize → m' x = h.mem x) ∧
          ∀ x, ¬ InHeaders (pre ++ [b]) x → ¬ InHeaders [pageBlock page] x → m' x = h.mem x := by
      intro m' hm'
      refine ⟨?_, ?_⟩
      · intro c hc x hx hx'
        have := hpre c (by simpa using hc)
        simp only [Block.stop] at this
        rw [hm' x (by omega), hsame1 x (by omega)]
      · intro x hx hx'
        have hxb : x < b.addr ∨ b.addr + headerSize ≤ x := by
          by_contra hin
          rw [not_or, Nat.not_lt, Nat.not_le] at hin
          exact hx ⟨b, hb, hin.1, hin.2⟩
        rw [hm' x hxb, hsame1 x (notMem_headers_cons hx').1]
    have hsize2 : sizeAt m2 b.addr = b.size := holdsHeader_size hb2
    have hfree2 : freeAt m2 b.addr ≠ 0 ↔ b.isFree = true := holdsHeader_free hb2
    have hpsize : sizeAt m2 page = blockSize - headerSize := congrArg Block.size hp2.1
    rw [grow_concat, grow]
    by_cases hmerge : b.isFree = true ∧ add64 (add64 b.addr headerSize) b.size = page
    · -- the last block is free and touches the page: it absorbs it
      rw [if_pos hmerge]
      set v := add64 b.size (add64 headerSize (blockSize - headerSize)) with hv
      set m3 := setSize m2 b.addr v with hm3
      set m4 := setNext m3 b.addr (nextAt m3 page) with hm4
      have hm4' : ∀ x, x < b.addr ∨ b.addr + headerSize ≤ x → m4 x = m1 x := by
        intro x hx
        rw [hm4, setNext_of_notMem hx, hm3, setSize_of_notMem hx, hm2, setNext_of_notMem hx]
      have hp3 : nextAt m3 page = 0 := by
        rw [hm3, (header_of_apart (Or.inr hbp) fun x hx => setSize_of_notMem hx).2]
        exact hp2.2
      refine ⟨h.head, m4, ?_, ?_, (hsame m4 hm4').2⟩
      · rw [expandHeap, lastAddr_concat]
        simp only [← hp, if_neg hpage, ← hm1, if_pos hb0, ← hm2, hsize2, hfree2, hpsize, ne_eq]
        rw [if_pos ⟨hb0, hmerge⟩]
      · have hnew : Chain m4 b.addr [{ b with size := v }] 0 := by
          refine ⟨rfl, ?_, ?_⟩
          · show headerAt m4 b.addr = _
            rw [hm4, headerAt_setNext, hm3, headerAt_setSize (add64_lt _ _), hb2]
          · show nextAt m4 b.addr = 0
            rw [hm4, nextAt_setNext (nextAt_lt _ _), hp3]
        simpa using chain_splice hchain' hnew hlast (hsame m4 hm4').1
    · -- the page stays a block of its own
      rw [if_neg hmerge]
      set m3 := setNext m2 b.addr page with hm3
      have hm3' : ∀ x, x < b.addr ∨ b.addr + headerSize ≤ x → m3 x = m1 x := by
        intro x hx
        rw [hm3, setNext_of_notMem hx, hm2, setNext_of_notMem hx]
      have hsame3 : ∀ x, x < b.addr ∨ b.addr + headerSize ≤ x → m3 x = m2 x :=
        fun x hx => setNext_of_notMem hx
      obtain ⟨h1, h2⟩ := header_of_apart (p := page) (Or.inr hbp) hsame3
      refine ⟨h.head, m3, ?_, ?_, (hsame m3 hm3').2⟩
      · rw [expandHeap, lastAddr_concat]
        simp only [← hp, if_neg hpage, ← hm1, if_pos hb0, ← hm2, hsize2, hfree2, ne_eq]
        rw [if_neg (fun hcond => hmerge hcond.2)]
      · have hnew : Chain m3 b.addr [b, pageBlock page] 0 := by
          have hn3 : nextAt m3 b.addr = page := by rw [hm3, nextAt_setNext hlt]
          refine ⟨rfl, ?_, hn3, ?_, ?_⟩
          · show headerAt m3 b.addr = _
            rw [hm3, headerAt_setNext, hb2]
          · exact h1.trans hp2.1
          · exact h2.trans hp2.2
        simpa using chain_splice hchain' hnew hlast (hsame m3 hm3').1

/-! ### The merging loop -/

/-- **The merging loop** makes the pass of the list model and writes headers only. -/
theorem mergeLoop_spec (bs : List Block) : ∀ (b : Block) (m : Memory) (fuel : ℕ),
    Chain m b.addr (b :: bs) 0 → LaidOut (b :: bs) → Bounded (b :: bs) → Nonnull (b :: bs) →
    bs.length < fuel →
    ∃ m', mergeLoop fuel m b.addr = some m' ∧ Chain m' b.addr (coalesceFrom b bs) 0 ∧
      ∀ x, ¬ InHeaders (b :: bs) x → m' x = m x := by
  induction bs with
  | nil =>
    intro b m fuel hchain _ _ _ hfuel
    cases fuel with
    | zero => simp at hfuel
    | succ fuel =>
      have hend : nextAt m b.addr = 0 := hchain.2.2
      refine ⟨m, ?_, hchain, fun _ _ => rfl⟩
      rw [mergeLoop, if_neg (fun h => h.2 hend)]
  | cons c bs ih =>
    intro b m fuel hchain hlaid hbound hnull hfuel
    cases fuel with
    | zero => simp at hfuel
    | succ fuel =>
      simp only [List.length_cons] at hfuel
      obtain ⟨-, hb, hlink, hc, hrest⟩ := hchain
      have hb0 : b.addr ≠ 0 := hnull b List.mem_cons_self
      have hc0 : c.addr ≠ 0 := hnull c (by simp)
      obtain ⟨hbfirst, hlaid'⟩ := List.pairwise_cons.mp hlaid
      have hbc : b.addr + headerSize ≤ c.addr := by
        have := hbfirst c List.mem_cons_self
        simp only [Block.stop] at this
        omega
      rw [mergeLoop, if_pos ⟨hb0, by rw [hlink]; exact hc0⟩, hlink, coalesceFrom]
      by_cases hfree : b.isFree = true ∧ c.isFree = true
      · -- both free: the loop stays at the merged block
        have hcond : freeAt m b.addr ≠ 0 ∧ freeAt m c.addr ≠ 0 := by
          rw [holdsHeader_free hb, holdsHeader_free hc]
          exact hfree
        rw [if_pos hcond, if_pos hfree, holdsHeader_size hb, holdsHeader_size hc]
        obtain ⟨hsum, hlaid2, hstop⟩ := Kheap.merge_laid hlaid (hbound c (by simp))
        set v := add64 b.size (add64 headerSize c.size) with hv
        set m1 := setSize m b.addr v with hm1
        have hn1 : nextAt m1 b.addr = c.addr := by rw [hm1, nextAt_setSize, hlink]
        have hcn : nextAt m1 c.addr = nextAt m c.addr :=
          (header_of_apart (Or.inr hbc) fun x hx => setSize_of_notMem hx).2
        set m2 := setNext m1 b.addr (nextAt m1 (nextAt m1 b.addr)) with hm2
        have hsame : ∀ x, x < b.addr ∨ b.addr + headerSize ≤ x → m2 x = m x := by
          intro x hx
          rw [hm2, setNext_of_notMem hx, hm1, setSize_of_notMem hx]
        rw [← hsum] at hlaid2 hstop
        have hchain2 : Chain m2 b.addr ({ b with size := v } :: bs) 0 := by
          refine ⟨rfl, ?_, ?_⟩
          · show headerAt m2 b.addr = _
            rw [hm2, headerAt_setNext, hm1, headerAt_setSize (add64_lt _ _), hb]
          · have hlink2 : nextAt m2 b.addr = nextAt m c.addr := by
              rw [hm2, nextAt_setNext (nextAt_lt _ _), hn1, hcn]
            rw [hlink2]
            refine chain_congr hrest ?_
            intro d hd x hx hx'
            have := hbfirst d (List.mem_cons_of_mem c hd)
            simp only [Block.stop] at this
            exact hsame x (by omega)
        obtain ⟨m', hrun, hchain', hframe⟩ := ih { b with size := v } m2 fuel hchain2 hlaid2 (by
            intro d hd
            cases List.mem_cons.mp hd with
            | inl hd =>
              have := hbound c (by simp)
              rw [hd]
              omega
            | inr hd => exact hbound d (by simp [hd])) (by
            intro d hd
            cases List.mem_cons.mp hd with
            | inl hd => rw [hd]; exact hb0
            | inr hd => exact hnull d (by simp [hd])) (by omega)
        refine ⟨m', hrun, hchain', ?_⟩
        intro x hx
        obtain ⟨hxb, hx1⟩ := notMem_headers_cons hx
        obtain ⟨-, hx2⟩ := notMem_headers_cons hx1
        rw [hframe x ?_, hsame x hxb]
        intro hin
        obtain ⟨d, hd, hxd⟩ := hin
        cases List.mem_cons.mp hd with
        | inl hd =>
          rw [hd] at hxd
          exact hx ⟨b, List.mem_cons_self, hxd⟩
        | inr hd => exact hx2 ⟨d, hd, hxd⟩
      · -- otherwise it goes on with the next block, and this one is not written again
        have hcond : ¬ (freeAt m b.addr ≠ 0 ∧ freeAt m c.addr ≠ 0) := by
          rw [holdsHeader_free hb, holdsHeader_free hc]
          exact hfree
        rw [if_neg hcond, if_neg hfree]
        obtain ⟨m', hrun, hchain', hframe⟩ := ih c m fuel ⟨rfl, hc, hrest⟩ hlaid'
          (fun d hd => hbound d (List.mem_cons_of_mem b hd))
          (fun d hd => hnull d (List.mem_cons_of_mem b hd)) (by omega)
        have hkeep : ∀ x, b.addr ≤ x → x < b.addr + headerSize → m' x = m x := by
          intro x hx hx'
          refine hframe x ?_
          intro hin
          obtain ⟨d, hd, hxd, -⟩ := hin
          have := hbfirst d hd
          simp only [Block.stop] at this
          omega
        obtain ⟨h1, h2⟩ := header_congr hkeep
        refine ⟨m', hrun, ⟨rfl, h1.trans hb, ?_⟩, ?_⟩
        · rw [h2, hlink]
          exact hchain'
        · intro x hx
          exact hframe x (notMem_headers_cons hx).2

/-! ### The operations -/

/-- Memory holds the headers of the heap's list, linked in order up to the null link. -/
structure Represents (t : HeapState) (h : Heap) : Prop where
  chain : Chain t.mem t.head h.blocks 0
  pmm : t.pmm = h.pmm

section Operations

variable {s : System} {t : HeapState} {fuel : ℕ}

/-- `init_kheap` makes the list of the list model. -/
theorem initKheap_spec (m : Memory) (pmm : PmmState) : Represents (initKheap m pmm) (Kheap.initKheap pmm) := by
  by_cases h0 : (pmmAllocBlock pmm).1 = 0
  · rw [initKheap, if_pos h0, Kheap.initKheap, if_pos h0]
    exact ⟨rfl, rfl⟩
  · rw [initKheap, if_neg h0, Kheap.initKheap, if_neg h0]
    set page := (pmmAllocBlock pmm).1
    refine ⟨⟨rfl, ?_, ?_⟩, rfl⟩
    · show headerAt (setFree (setSize (setNext m page 0) page (blockSize - headerSize)) page 1) page = _
      rw [headerAt_setFree (by decide), headerAt_setSize (by decide)]
      rfl
    · show nextAt (setFree (setSize (setNext m page 0) page (blockSize - headerSize)) page 1) page = 0
      rw [nextAt_setFree, nextAt_setSize, nextAt_setNext (by decide)]

/-- **`kmalloc` in memory** returns the pointer of the list model, makes its list, and writes headers only: those
of the old list, of the new one, and of a page it obtains. -/
theorem kmalloc_spec (hr : Represents t s.heap) (hok : HeapOk s) (hnull : Nonnull s.heap.blocks)
    (hfuel : s.heap.blocks.length < fuel) (size : ℕ) :
    ∃ t', kmalloc fuel t size = some ((Kheap.kmalloc s.heap size).1, t') ∧
      Represents t' (Kheap.kmalloc s.heap size).2 ∧
      ∀ x, ¬ InHeaders s.heap.blocks x → ¬ InHeaders (Kheap.kmalloc s.heap size).2.blocks x →
        (∀ page ∈ Kheap.kmallocPage s.heap size, ¬ InHeaders [pageBlock page] x) → t'.mem x = t.mem x := by
  by_cases h0 : size = 0
  · rw [kmalloc, if_pos h0, Kheap.kmalloc, if_pos h0]
    exact ⟨t, rfl, hr, fun _ _ _ _ => rfl⟩
  · rw [kmalloc, if_neg h0]
    cases hfit : firstFit size s.heap.blocks with
    | some r =>
      obtain ⟨pre, b, post, l, hbs, hsize, rfl, hloop⟩ :=
        firstFitLoop_of_some t.head hr.chain hnull hfuel hfit
      have hb : b ∈ s.heap.blocks := by rw [hbs]; simp
      have hk : Kheap.kmalloc s.heap size
          = (add64 b.addr headerSize, { s.heap with blocks := pre ++ (carve b size ++ post) }) := by
        rw [Kheap.kmalloc, if_neg h0, hfit]
      obtain ⟨hnew, hframe⟩ := takeBlock_spec (hr.chain.holds_of_mem hb) (hok.below.stop_le b hb) hsize
      refine ⟨{ t with mem := takeBlock t.mem b.addr size }, ?_, ?_, ?_⟩
      · rw [hloop, hk, Option.map_some, if_pos (hnull b hb)]
      · rw [hk]
        refine ⟨?_, hr.pmm⟩
        have hchain := hr.chain
        rw [hbs] at hchain
        refine chain_splice hchain hnew rfl ?_
        -- the carved pieces stay inside the old block, which no neighbour's header meets
        intro c hc x hx hx'
        refine hframe x ?_
        intro hin
        obtain ⟨d, hd, hxd, hxd'⟩ := hin
        obtain ⟨hlaid, hwithin, -⟩ := Kheap.carve_laid (hok.below.stop_le b hb) hsize
        have hold := hok.laid
        rw [hbs] at hold
        have hnewlaid := Layout.laid_splice hold hlaid hwithin
        rcases List.mem_append.mp hc with hc | hc
        · have := (List.pairwise_append.mp hnewlaid).2.2 c hc d (List.mem_append_left _ hd)
          simp only [Block.stop] at this
          omega
        · have := (List.pairwise_append.mp (List.pairwise_append.mp hnewlaid).2.1).2.2 d hd c hc
          simp only [Block.stop] at this
          omega
      · rw [hk]
        intro x _ hx _
        refine hframe x ?_
        intro hin
        obtain ⟨d, hd, hxd⟩ := hin
        exact hx ⟨d, by simp [hd], hxd⟩
    | none =>
      rw [firstFitLoop_of_none hr.chain hnull hfuel hfit, Option.map_some, if_neg (by simp)]
      by_cases hp : (pmmAllocBlock s.heap.pmm).1 = 0
      · have hk : Kheap.kmalloc s.heap size = (0, { s.heap with pmm := (pmmAllocBlock s.heap.pmm).2 }) := by
          rw [Kheap.kmalloc, if_neg h0, hfit]
          exact if_pos hp
        have hexpand : expandHeap t (lastAddr t.head s.heap.blocks)
            = { t with pmm := (pmmAllocBlock s.heap.pmm).2 } := by
          rw [expandHeap, hr.pmm]
          exact if_pos hp
        rw [hk, hexpand]
        exact ⟨_, rfl, ⟨hr.chain, rfl⟩, fun _ _ _ _ => rfl⟩
      · have hk : Kheap.kmalloc s.heap size
            = (0, ⟨grow (pmmAllocBlock s.heap.pmm).1 s.heap.blocks, (pmmAllocBlock s.heap.pmm).2⟩) := by
          rw [Kheap.kmalloc, if_neg h0, hfit]
          exact if_neg hp
        have hpage : Kheap.kmallocPage s.heap size = some (pmmAllocBlock s.heap.pmm).1 :=
          if_pos ⟨h0, hfit, hp⟩
        have hlt : (pmmAllocBlock s.heap.pmm).1 < 2 ^ 64 := by
          obtain ⟨i, haddr, hi, -⟩ := pmmAllocBlock_fresh s.heap.pmm hp
          have := s.heap.pmm.total_lt
          rw [haddr, blockSize]
          omega
        obtain ⟨habove, -⟩ := hok.below.page hp
        rw [← hr.pmm] at hp hlt habove
        obtain ⟨head, m, hexpand, hchain, hframe⟩ :=
          expandHeap_spec hr.chain hnull hok.laid hp hlt habove
        rw [hr.pmm] at hexpand hchain hframe
        rw [hk, hexpand, hpage]
        exact ⟨_, rfl, ⟨hchain, rfl⟩, fun x hx _ hx' => hframe x hx (hx' _ rfl)⟩

/-- Marking a header free in memory marks it in the list. -/
theorem chain_markFree {m : Memory} {p q a : ℕ} {bs : List Block} (h : Chain m p bs q)
    (hapart : ∀ c ∈ bs, c.addr = a ∨ c.addr + headerSize ≤ a ∨ a + headerSize ≤ c.addr) :
    Chain (setFree m a 1) p (markFree (a + headerSize) bs) q := by
  induction bs generalizing p with
  | nil => exact h
  | cons c bs ih =>
    obtain ⟨hp, hc, hrest⟩ := h
    have hrest' := ih hrest fun d hd => hapart d (List.mem_cons_of_mem c hd)
    rw [markFree, List.map_cons, ← markFree]
    by_cases hca : c.addr = a
    · have hpos : c.addr + headerSize = a + headerSize := by rw [hca]
      rw [if_pos hpos]
      refine ⟨hp, ?_, ?_⟩
      · show headerAt (setFree m a 1) c.addr = _
        rw [hca, headerAt_setFree (by decide), ← hca, hc]
        rfl
      · show Chain (setFree m a 1) (nextAt (setFree m a 1) c.addr) (markFree (a + headerSize) bs) q
        have hnext : nextAt (setFree m a 1) c.addr = nextAt m c.addr := by rw [hca, nextAt_setFree]
        rw [hnext]
        exact hrest'
    · have hneg : ¬ c.addr + headerSize = a + headerSize := fun he => hca (Nat.add_right_cancel he)
      rw [if_neg hneg]
      have hsame : ∀ x, x < a ∨ a + headerSize ≤ x → setFree m a 1 x = m x :=
        fun x hx => setFree_of_notMem hx
      obtain ⟨h1, h2⟩ := header_of_apart ((hapart c List.mem_cons_self).resolve_left hca) hsame
      refine ⟨hp, h1.trans hc, ?_⟩
      rw [h2]
      exact hrest'

theorem inHeaders_markFree {ptr x : ℕ} {bs : List Block} :
    InHeaders (markFree ptr bs) x → InHeaders bs x := by
  intro h
  obtain ⟨c, hc, hx⟩ := h
  obtain ⟨b, hb, haddr, -⟩ := Kheap.mem_markFree hc
  exact ⟨b, hb, by rw [← haddr]; exact hx⟩

/-- **`kfree` in memory** of the payload of a block makes the list of the list model and writes headers only. -/
theorem kfree_spec (hr : Represents t s.heap) (hok : HeapOk s) (hnull : Nonnull s.heap.blocks)
    (hfuel : s.heap.blocks.length < fuel) {b : Block} (hb : b ∈ s.heap.blocks) :
    ∃ t', kfree fuel t (b.addr + headerSize) = some t' ∧
      Represents t' (Kheap.kfree s.heap (b.addr + headerSize)) ∧
      ∀ x, ¬ InHeaders s.heap.blocks x → t'.mem x = t.mem x := by
  have hstop := hok.below.stop_le b hb
  simp only [Block.stop, headerSize, blockSize] at hstop
  have hptr : sub64 (b.addr + headerSize) headerSize = b.addr := by
    rw [headerSize, Kheap.sub64_of_le (by omega) (by omega)]
    omega
  have hne : b.addr + headerSize ≠ 0 := by
    rw [headerSize]
    omega
  have hapart : ∀ c ∈ s.heap.blocks,
      c.addr = b.addr ∨ c.addr + headerSize ≤ b.addr ∨ b.addr + headerSize ≤ c.addr := by
    intro c hc
    cases Layout.laid_disjoint hok.laid hc hb with
    | inl he => exact Or.inl (by rw [he])
    | inr hd =>
      simp only [Block.stop] at hd
      omega
  have hchain := chain_markFree hr.chain hapart
  have hlaid := Kheap.markFree_laid (b.addr + headerSize) hok.laid
  have hbound : Bounded (markFree (b.addr + headerSize) s.heap.blocks) := by
    intro c hc
    obtain ⟨d, hd, haddr, hsize, -⟩ := Kheap.mem_markFree hc
    have := hok.below.stop_le d hd
    simp only [Block.stop, haddr, hsize] at this ⊢
    exact this
  have hnull' : Nonnull (markFree (b.addr + headerSize) s.heap.blocks) := by
    intro c hc
    obtain ⟨d, hd, haddr, -⟩ := Kheap.mem_markFree hc
    rw [haddr]
    exact hnull d hd
  have hlen : (markFree (b.addr + headerSize) s.heap.blocks).length = s.heap.blocks.length := List.length_map _
  have hkept : ∀ x, ¬ InHeaders s.heap.blocks x → setFree t.mem b.addr 1 x = t.mem x := by
    intro x hx
    refine setFree_of_notMem ?_
    by_contra hin
    rw [not_or, Nat.not_lt, Nat.not_le] at hin
    exact hx ⟨b, hb, hin⟩
  rw [kfree, if_neg hne, Kheap.kfree, if_neg hne, hptr]
  -- the list is not empty, so the loop starts at its first header
  cases hmarked : markFree (b.addr + headerSize) s.heap.blocks with
  | nil =>
    rw [hmarked] at hlen
    rw [List.length_eq_zero_iff.mp hlen.symm] at hb
    cases hb
  | cons c cs =>
    rw [hmarked] at hchain hlaid hbound hnull' hlen
    simp only [List.length_cons] at hlen
    have hhead : t.head = c.addr := hchain.1
    rw [hhead] at hchain
    obtain ⟨m', hrun, hchain', hframe⟩ := mergeLoop_spec cs c _ fuel hchain hlaid hbound hnull' (by omega)
    refine ⟨{ t with mem := m' }, ?_, ⟨?_, hr.pmm⟩, ?_⟩
    · rw [hhead, hrun, Option.map_some]
    · rw [hhead]
      exact hchain'
    · intro x hx
      have hx' : ¬ InHeaders (c :: cs) x := by
        rw [← hmarked]
        exact fun hin => hx (inHeaders_markFree hin)
      exact (hframe x hx').trans (hkept x hx)

end Operations

/-! ### Runs -/

/-- What happens to the heap's memory: an operation of the heap or of another client of the physical allocator,
or stores by whoever owns the bytes. -/
inductive Event where
  | op (o : Op)
  | store (a : ℕ) (bytes : List UInt8)

/-- The heap in memory with the pointers it has handed out. -/
structure Machine where
  heap : HeapState
  live : List Allocation

/-- One event in memory; `none` when a loop has not ended on the fuel. -/
def step (fuel : ℕ) (t : Machine) : Event → Option Machine
  | .op (.kmalloc size) => (kmalloc fuel t.heap size).map fun r =>
      ⟨r.2, if r.1 = 0 then t.live else ⟨r.1, size⟩ :: t.live⟩
  | .op (.kfree ptr) => (kfree fuel t.heap ptr).map fun h => ⟨h, t.live.filter fun a => a.ptr ≠ ptr⟩
  | .op .alloc => some { t with heap := { t.heap with pmm := (pmmAllocBlock t.heap.pmm).2 } }
  | .store a bytes => some { t with heap := { t.heap with mem := store t.heap.mem a bytes } }

/-- The machine right after `init_kheap`. -/
def boot (m : Memory) (pmm : PmmState) : Machine := ⟨initKheap m pmm, []⟩

/-- The same event in the list model, which has no bytes. -/
def listStep (s : System) : Event → System
  | .op o => Kheap.step s o
  | .store _ _ => s

/-- The bytes that are not the heap's own: those asked for in a live allocation, and those in no block. -/
def Writable (s : System) (x : ℕ) : Prop :=
  (∃ a ∈ s.live, a.ptr ≤ x ∧ x < a.ptr + a.request) ∨ ∀ b ∈ s.heap.blocks, x < b.addr ∨ b.stop ≤ x

/-- Only live pointers are freed, and nobody stores over bytes that are the heap's own. -/
def Allowed (s : System) : Event → Prop
  | .op o => FreesLive s o
  | .store a bytes => ∀ x, a ≤ x → x < a + bytes.length → Writable s x

/-- The event stores a byte at `x`. -/
def Event.Stores (x : ℕ) : Event → Prop
  | .op _ => False
  | .store a bytes => a ≤ x ∧ x < a + bytes.length

/-- **The simulation relation**: the same live pointers, the list of the list model in memory, and its invariant. -/
structure Refines (t : Machine) (s : System) : Prop where
  represents : Represents t.heap s.heap
  live : t.live = s.live
  ok : HeapOk s
  nonnull : Nonnull s.heap.blocks

section Steps

variable {s : System} {t : Machine}

/-- A payload meets no header. -/
theorem payload_notMem_headers {bs : List Block} (h : LaidOut bs) {b : Block} (hb : b ∈ bs) {x : ℕ}
    (hx : b.addr + headerSize ≤ x) (hx' : x < b.stop) : ¬ InHeaders bs x := by
  intro hin
  obtain ⟨c, hc, hxc, hxc'⟩ := hin
  cases Layout.laid_disjoint h hb hc with
  | inl he =>
    rw [he] at hx
    omega
  | inr hd =>
    simp only [Block.stop, headerSize] at hd hx hx' hxc'
    omega

/-- Writable bytes are not in headers. -/
theorem Writable.notMem_headers (h : HeapOk s) {x : ℕ} (hx : Writable s x) : ¬ InHeaders s.heap.blocks x := by
  cases hx with
  | inl hlive =>
    obtain ⟨a, ha, hax, hax'⟩ := hlive
    obtain ⟨b, hb, hptr, -, hreq⟩ := h.live a ha
    refine payload_notMem_headers h.laid hb (by omega) ?_
    simp only [Block.stop]
    omega
  | inr hout =>
    intro hin
    obtain ⟨b, hb, hx, hx'⟩ := hin
    have := hout b hb
    simp only [Block.stop] at this
    omega

theorem heapOk_listStep (h : HeapOk s) {e : Event} (he : Allowed s e) : HeapOk (listStep s e) := by
  cases e with
  | op o => exact Kheap.heapOk_step s o h he
  | store a bytes => exact h

/-- Splitting and growing put no block at the null pointer. -/
theorem nonnull_kmalloc (h : HeapOk s) (hnull : Nonnull s.heap.blocks) (size : ℕ) :
    Nonnull (Kheap.kmalloc s.heap size).2.blocks := by
  rcases Kheap.kmalloc_cases s.heap size with ⟨hk, -⟩ | ⟨pre, c, post, hbs, -, hsize, -, hk⟩ | ⟨-, hk⟩ |
    ⟨hp, -, hk⟩
  · rw [hk]
    exact hnull
  · rw [hk]
    intro b hb
    have hc : c ∈ s.heap.blocks := by rw [hbs]; simp
    rcases List.mem_append.mp hb with hb | hb
    · exact hnull b (by rw [hbs]; simp [hb])
    · rcases List.mem_append.mp hb with hb | hb
      · obtain ⟨-, hwithin, -⟩ := Kheap.carve_laid (h.below.stop_le c hc) hsize
        obtain ⟨⟨d, hd, hda⟩, -⟩ := hwithin b hb
        rw [List.mem_singleton.mp hd] at hda
        have := hnull c hc
        omega
      · exact hnull b (by rw [hbs]; simp [hb])
  · rw [hk]
    exact hnull
  · rw [hk]
    intro b hb
    rcases Kheap.grow_cases (pmmAllocBlock s.heap.pmm).1 s.heap.blocks h.below.stop_le with hg | hg
    · obtain ⟨pre, last, hbs, -, -, hgrow⟩ := hg
      rw [hgrow] at hb
      rcases List.mem_append.mp hb with hb | hb
      · exact hnull b (by rw [hbs]; simp [hb])
      · rw [List.mem_singleton.mp hb]
        exact hnull last (by rw [hbs]; simp)
    · rw [hg.1] at hb
      rcases List.mem_append.mp hb with hb | hb
      · exact hnull b hb
      · rw [List.mem_singleton.mp hb]
        exact hp

theorem nonnull_listStep (h : HeapOk s) (hnull : Nonnull s.heap.blocks) (e : Event) :
    Nonnull (listStep s e).heap.blocks := by
  cases e with
  | store a bytes => exact hnull
  | op o =>
    cases o with
    | kmalloc size => exact nonnull_kmalloc h hnull size
    | alloc => exact hnull
    | kfree ptr =>
      show Nonnull (Kheap.kfree s.heap ptr).blocks
      rw [Kheap.kfree]
      split
      · exact hnull
      · intro b hb
        obtain ⟨c, hc, hbc⟩ := Kheap.coalesce_addr hb
        obtain ⟨d, hd, hcd, -⟩ := Kheap.mem_markFree hc
        rw [hbc, hcd]
        exact hnull d hd

/-- One operation adds at most one block. -/
theorem length_coalesceFrom (bs : List Block) : ∀ b : Block, (coalesceFrom b bs).length ≤ bs.length + 1 := by
  induction bs with
  | nil => intro b; exact le_rfl
  | cons c bs ih =>
    intro b
    rw [coalesceFrom]
    split
    · have := ih { b with size := add64 b.size (add64 headerSize c.size) }
      simp only [List.length_cons]
      omega
    · have := ih c
      simp only [List.length_cons]
      omega

theorem length_listStep (h : HeapOk s) (e : Event) :
    (listStep s e).heap.blocks.length ≤ s.heap.blocks.length + 1 := by
  cases e with
  | store a bytes => exact Nat.le_succ _
  | op o =>
    cases o with
    | alloc => exact Nat.le_succ _
    | kmalloc size =>
      show (Kheap.kmalloc s.heap size).2.blocks.length ≤ _
      rcases Kheap.kmalloc_cases s.heap size with ⟨hk, -⟩ | ⟨pre, c, post, hbs, -, -, -, hk⟩ | ⟨-, hk⟩ |
        ⟨-, -, hk⟩
      · rw [hk]
        exact Nat.le_succ _
      · have hcarve : (carve c size).length ≤ 2 := by
          rw [carve]
          split <;> simp
        rw [hk, hbs]
        simp only [List.length_append, List.length_singleton]
        omega
      · rw [hk]
        exact Nat.le_succ _
      · rw [hk]
        rcases Kheap.grow_cases (pmmAllocBlock s.heap.pmm).1 s.heap.blocks h.below.stop_le with hg | hg
        · obtain ⟨pre, last, hbs, -, -, hgrow⟩ := hg
          rw [hgrow, hbs]
          simp
        · rw [hg.1]
          simp
    | kfree ptr =>
      show (Kheap.kfree s.heap ptr).blocks.length ≤ _
      rw [Kheap.kfree]
      split
      · exact Nat.le_succ _
      · have hlen : (markFree ptr s.heap.blocks).length = s.heap.blocks.length := List.length_map _
        show (coalesce (markFree ptr s.heap.blocks)).length ≤ _
        cases hm : markFree ptr s.heap.blocks with
        | nil => simp [coalesce]
        | cons b bs =>
          rw [hm, List.length_cons] at hlen
          have := length_coalesceFrom bs b
          rw [coalesce]
          omega

/-- A live allocation stays live until it is freed. -/
theorem live_listStep {e : Event} {a : Allocation} (ha : a ∈ s.live) (he : e ≠ .op (.kfree a.ptr)) :
    a ∈ (listStep s e).live := by
  cases e with
  | store p bytes => exact ha
  | op o =>
    cases o with
    | kmalloc size =>
      show a ∈ if _ then _ else _
      split
      · exact ha
      · exact List.mem_cons_of_mem _ ha
    | kfree ptr =>
      refine List.mem_filter.mpr ⟨ha, decide_eq_true ?_⟩
      intro hp
      exact he (by rw [hp])
    | alloc => exact ha

/-- A payload byte that an operation leaves in a used block keeps its value. -/
theorem payload_kept_kmalloc (h : HeapOk s) {b : Block} (hb : b ∈ s.heap.blocks) (hused : b.isFree = false)
    {x : ℕ} (hx : b.addr + headerSize ≤ x) (hx' : x < b.stop) (size : ℕ) :
    ¬ InHeaders s.heap.blocks x ∧ ¬ InHeaders (Kheap.kmalloc s.heap size).2.blocks x ∧
      ∀ page ∈ Kheap.kmallocPage s.heap size, ¬ InHeaders [pageBlock page] x := by
  have hb' : b ∈ (Kheap.kmalloc s.heap size).2.blocks := Kheap.block_step h (.kmalloc size) hb hused (by simp)
  have hlaid' : LaidOut (Kheap.kmalloc s.heap size).2.blocks := (Kheap.laid_step h (.kmalloc size)).1
  refine ⟨payload_notMem_headers h.laid hb hx hx', payload_notMem_headers hlaid' hb' hx hx', ?_⟩
  intro page hpage hin
  obtain ⟨c, hc, hxc, -⟩ := hin
  rw [List.mem_singleton.mp hc] at hxc
  rw [Kheap.kmallocPage] at hpage
  split at hpage
  · rename_i hcond
    rw [Option.mem_some_iff] at hpage
    have := (h.below.page hcond.2.2).1 b hb
    rw [hpage] at this
    simp only [pageBlock] at hxc
    omega
  · cases hpage

/-- **The step lemma.**  Given fuel for one pass over the list, the event ends as in the list model, and a live
allocation that it neither frees nor stores into keeps its bytes. -/
theorem refines_step (h : Refines t s) {e : Event} (he : Allowed s e) (fuel : ℕ)
    (hfuel : s.heap.blocks.length < fuel) :
    ∃ t', step fuel t e = some t' ∧ Refines t' (listStep s e) ∧
      ∀ a ∈ s.live, e ≠ .op (.kfree a.ptr) → ∀ x, a.ptr ≤ x → x < a.ptr + a.request → ¬ e.Stores x →
        t'.heap.mem x = t.heap.mem x := by
  have hok' := heapOk_listStep h.ok he
  have hnull' := nonnull_listStep h.ok h.nonnull e
  cases e with
  | store a bytes =>
    refine ⟨_, rfl, ⟨⟨?_, h.represents.pmm⟩, h.live, hok', hnull'⟩, ?_⟩
    · -- nobody writes into a header
      refine chain_congr h.represents.chain ?_
      intro b hb x hx hx'
      refine store_of_notMem ?_
      by_contra hin
      rw [not_or, Nat.not_lt, Nat.not_le] at hin
      exact (he x hin.1 hin.2).notMem_headers h.ok ⟨b, hb, hx, hx'⟩
    · intro b _ _ x _ _ hno
      refine store_of_notMem ?_
      by_contra hin
      rw [not_or, Nat.not_lt, Nat.not_le] at hin
      exact hno hin
  | op o =>
    cases o with
    | alloc =>
      refine ⟨_, rfl, ⟨⟨h.represents.chain, ?_⟩, h.live, hok', hnull'⟩, fun _ _ _ _ _ _ _ => rfl⟩
      show (pmmAllocBlock t.heap.pmm).2 = (pmmAllocBlock s.heap.pmm).2
      rw [h.represents.pmm]
    | kmalloc size =>
      obtain ⟨t', hrun, hr, hframe⟩ := kmalloc_spec h.represents h.ok h.nonnull hfuel size
      refine ⟨⟨t', if (Kheap.kmalloc s.heap size).1 = 0 then t.live
        else ⟨(Kheap.kmalloc s.heap size).1, size⟩ :: t.live⟩, ?_, ⟨hr, ?_, hok', hnull'⟩, ?_⟩
      · rw [step, hrun, Option.map_some]
      · rw [h.live]
        rfl
      · intro a ha _ x hx hx' _
        obtain ⟨b, hb, hptr, hused, hreq⟩ := h.ok.live a ha
        obtain ⟨h1, h2, h3⟩ := payload_kept_kmalloc h.ok hb hused (x := x) (by omega)
          (by simp only [Block.stop]; omega) size
        exact hframe x h1 h2 h3
    | kfree ptr =>
      obtain ⟨a, ha, rfl⟩ := he
      obtain ⟨b, hb, hptr, -, -⟩ := h.ok.live a ha
      rw [← hptr] at hok' hnull' ⊢
      obtain ⟨t', hrun, hr, hframe⟩ := kfree_spec h.represents h.ok h.nonnull hfuel hb
      refine ⟨⟨t', t.live.filter fun c => c.ptr ≠ b.addr + headerSize⟩, ?_, ⟨hr, ?_, hok', hnull'⟩, ?_⟩
      · rw [step, hrun, Option.map_some]
      · rw [h.live]
        rfl
      · intro c hc _ x hx hx' _
        obtain ⟨d, hd, hdptr, -, hreq⟩ := h.ok.live c hc
        refine hframe x (payload_notMem_headers h.ok.laid hd (by omega) ?_)
        simp only [Block.stop]
        omega

/-- The run lemma: fuel for the blocks there are and one more for each event. -/
theorem refines_run (h : Refines t s) {es : List Event} (hes : Admits listStep Allowed s es) (fuel : ℕ)
    (hfuel : s.heap.blocks.length + es.length < fuel) :
    ∃ t', runOption (step fuel) t es = some t' ∧ Refines t' (run listStep s es) ∧
      ∀ a ∈ s.live, (∀ e ∈ es, e ≠ .op (.kfree a.ptr)) → ∀ x, a.ptr ≤ x → x < a.ptr + a.request →
        (∀ e ∈ es, ¬ e.Stores x) → t'.heap.mem x = t.heap.mem x := by
  induction es generalizing s t with
  | nil => exact ⟨t, rfl, h, fun _ _ _ _ _ _ _ => rfl⟩
  | cons e es ih =>
    simp only [List.length_cons] at hfuel
    obtain ⟨t₁, hstep, h₁, hkept₁⟩ := refines_step h hes.1 fuel (by omega)
    have hlen := length_listStep h.ok e
    obtain ⟨t₂, hrun, h₂, hkept₂⟩ := ih h₁ hes.2 (by omega)
    refine ⟨t₂, (runOption_cons hstep es).trans hrun, h₂, ?_⟩
    intro a ha hfree x hx hx' hno
    have he := hfree e List.mem_cons_self
    rw [hkept₂ a (live_listStep ha he) (fun d hd => hfree d (List.mem_cons_of_mem e hd)) x hx hx'
        (fun d hd => hno d (List.mem_cons_of_mem e hd)),
      hkept₁ a ha he x hx hx' (hno e List.mem_cons_self)]

theorem length_run (h : HeapOk s) {es : List Event} (hes : Admits listStep Allowed s es) :
    (run listStep s es).heap.blocks.length ≤ s.heap.blocks.length + es.length := by
  induction es generalizing s with
  | nil => exact le_rfl
  | cons e es ih =>
    have h1 := length_listStep h e
    have h2 := ih (heapOk_listStep h hes.1) hes.2
    simp only [run_cons, List.length_cons]
    omega

end Steps

theorem refines_boot (m : Memory) (pmm : PmmState) : Refines (boot m pmm) (Kheap.start pmm) := by
  refine ⟨initKheap_spec m pmm, rfl, Kheap.heapOk_start pmm, ?_⟩
  show Nonnull (Kheap.initKheap pmm).blocks
  intro b hb
  rw [Kheap.initKheap] at hb
  split at hb
  · cases hb
  · rename_i h0
    rw [List.mem_singleton.mp hb]
    exact h0

theorem length_start (pmm : PmmState) : (Kheap.start pmm).heap.blocks.length ≤ 1 := by
  show (Kheap.initKheap pmm).blocks.length ≤ 1
  rw [Kheap.initKheap]
  split <;> simp

/-- **The heap in memory refines the list of blocks.**  From `init_kheap` on a memory of any contents, along every
run of allocations, releases of live pointers, allocations by other clients and stores into bytes that are not
the heap's own: every loop ends, within one step for each event of the run and two more; the pointers handed
out are those of the list model; and the links in memory lead through exactly its headers, in order, to null. -/
theorem heap_memory_refines (m : Memory) (pmm : PmmState) (events : List Event)
    (hevents : Admits listStep Allowed (Kheap.start pmm) events) (fuel : ℕ) (hfuel : events.length + 1 < fuel) :
    ∃ t, runOption (step fuel) (boot m pmm) events = some t ∧
      t.live = (run listStep (Kheap.start pmm) events).live ∧
      t.heap.pmm = (run listStep (Kheap.start pmm) events).heap.pmm ∧
      Chain t.heap.mem t.heap.head (run listStep (Kheap.start pmm) events).heap.blocks 0 := by
  have hlen := length_start pmm
  obtain ⟨t, hrun, h, -⟩ := refines_run (refines_boot m pmm) hevents fuel (by omega)
  exact ⟨t, hrun, h.live, h.represents.pmm, h.represents.chain⟩

/-- **Nobody but its owner changes a byte of a live allocation.**  In such a run, from any moment at which `a` is
live, a byte `a` asked for that nobody stores into reads the same at the end, whatever is allocated, released
(other than `a` itself), split, merged or stored elsewhere in between. -/
theorem payload_bytes_kept (m : Memory) (pmm : PmmState) (before after : List Event)
    (hevents : Admits listStep Allowed (Kheap.start pmm) (before ++ after)) (fuel : ℕ)
    (hfuel : (before ++ after).length + 1 < fuel) :
    ∃ t₁ t₂, runOption (step fuel) (boot m pmm) before = some t₁ ∧ runOption (step fuel) t₁ after = some t₂ ∧
      t₁.live = (run listStep (Kheap.start pmm) before).live ∧
      ∀ a ∈ (run listStep (Kheap.start pmm) before).live, (∀ e ∈ after, e ≠ .op (.kfree a.ptr)) →
        ∀ x, a.ptr ≤ x → x < a.ptr + a.request → (∀ e ∈ after, ¬ e.Stores x) →
        t₂.heap.mem x = t₁.heap.mem x := by
  obtain ⟨h₁, h₂⟩ := (admits_append _ before after).mp hevents
  rw [List.length_append] at hfuel
  have hlen := length_start pmm
  obtain ⟨t₁, hrun₁, href₁, -⟩ := refines_run (refines_boot m pmm) h₁ fuel (by omega)
  have hlen₁ := length_run (refines_boot m pmm).ok h₁
  obtain ⟨t₂, hrun₂, -, hkept⟩ := refines_run href₁ h₂ fuel (by omega)
  exact ⟨t₁, t₂, hrun₁, hrun₂, href₁.live, hkept⟩

/-- Two allocations, the second one filled, the first one released and its block split for a smaller request. -/
def exampleEvents : List Event :=
  [.op (.kmalloc 64), .op (.kmalloc 64), .store 0x1070 [7, 8, 9], .op (.kfree 0x1018), .op .alloc,
    .op (.kmalloc 16)]

theorem exampleEvents_admitted : Admits listStep Allowed (Kheap.start smallPmm) exampleEvents := by
  refine ⟨trivial, trivial, ?_, ⟨⟨0x1018, 64⟩, by decide, rfl⟩, trivial, trivial, trivial⟩
  intro x hx hx'
  refine Or.inl ⟨⟨0x1070, 64⟩, by decide, hx, ?_⟩
  simp only [List.length_cons, List.length_nil] at hx' ⊢
  omega

/-- On a memory full of ones the released block is handed out again, and its rest is linked behind it. -/
theorem heap_memory_refines_example :
    ∃ t, runOption (step 8) (boot (fun _ => 0xff) smallPmm) exampleEvents = some t ∧
      t.live = [⟨0x1018, 16⟩, ⟨0x1070, 64⟩] ∧
      Chain t.heap.mem t.heap.head
        [⟨0x1000, 16, false⟩, ⟨0x1028, 24, true⟩, ⟨0x1058, 64, false⟩, ⟨0x10b0, 3896, true⟩] 0 := by
  obtain ⟨t, hrun, hlive, -, hchain⟩ := heap_memory_refines (fun _ => 0xff) smallPmm exampleEvents
    exampleEvents_admitted 8 (by decide)
  have hlist : (run listStep (Kheap.start smallPmm) exampleEvents).heap.blocks
      = [⟨0x1000, 16, false⟩, ⟨0x1028, 24, true⟩, ⟨0x1058, 64, false⟩, ⟨0x10b0, 3896, true⟩] := by decide
  rw [hlist] at hchain
  exact ⟨t, hrun, hlive.trans (by decide), hchain⟩

/-- The three bytes stored into the second allocation are still there at the end. -/
theorem payload_bytes_kept_example :
    ∃ t₁ t₂, runOption (step 8) (boot (fun _ => 0xff) smallPmm) (exampleEvents.take 3) = some t₁ ∧
      runOption (step 8) t₁ (exampleEvents.drop 3) = some t₂ ∧
      ∀ x, 0x1070 ≤ x → x < 0x1073 → t₂.heap.mem x = t₁.heap.mem x := by
  obtain ⟨t₁, t₂, hrun₁, hrun₂, -, hkept⟩ := payload_bytes_kept (fun _ => 0xff) smallPmm
    (exampleEvents.take 3) (exampleEvents.drop 3) exampleEvents_admitted 8 (by decide)
  refine ⟨t₁, t₂, hrun₁, hrun₂, ?_⟩
  intro x hx hx'
  have hafter : ∀ e ∈ exampleEvents.drop 3,
      e = .op (.kfree 0x1018) ∨ e = .op .alloc ∨ e = .op (.kmalloc 16) := by simp [exampleEvents]
  refine hkept ⟨0x1070, 64⟩ (by decide) ?_ x hx (by show x < 0x1070 + 64; omega) ?_
  · intro e he
    rcases hafter e he with rfl | rfl | rfl <;> simp
  · intro e he
    rcases hafter e he with rfl | rfl | rfl <;> exact id

end OsEojin.HeapMemory
