import OsEojin.Pmm
import OsEojin.Lib.Pool

/-!
# The bitmap as a set of free frames

The allocator of `src/kernel/pmm.c` as its callers see it: a pool of the frames below `total_blocks`, from
which `pmm_alloc_block` takes the least and to which `pmm_free_block` gives one back.

* `freeSet`: the indices whose bit is clear;
* `freeSet_alloc`, `freeSet_free`: each call changes one bit and no other;
* `poolStep_pmmStep`, `poolRun_run`: the calls are those of the pool;
* `bitmap_refines_free_set`: what follows for every run.
-/

namespace OsEojin.Pmm

open OsEojin.Lib.Runs OsEojin.Lib.Pool

/-! ### Calls -/

/-- A call of the allocator. -/
inductive PmmCall where
  | alloc
  | free (addr : ℕ)

/-- The state after a call. -/
def pmmStep (p : PmmState) : PmmCall → PmmState
  | .alloc => (pmmAllocBlock p).2
  | .free addr => pmmFreeBlock p addr

/-- What is given back is the address of a block below `total_blocks` that is in use. -/
def Owned (p : PmmState) : PmmCall → Prop
  | .alloc => True
  | .free addr => addr % blockSize = 0 ∧ addr / blockSize < p.totalBlocks ∧
      testBit p.bitmap (addr / blockSize) = true

/-! ### The set -/

/-- The indices whose bit is clear. -/
def freeSet (p : PmmState) : Set ℕ := {i | testBit p.bitmap i = false}

/-- The frames that can be handed out. -/
def pool (p : PmmState) : Set ℕ := {i | i ∈ freeSet p ∧ i < p.totalBlocks}

@[simp] theorem pmmFreeBlock_totalBlocks (p : PmmState) (addr : ℕ) :
    (pmmFreeBlock p addr).totalBlocks = p.totalBlocks := rfl

/-- An allocation with a frame to hand out. -/
theorem pmmAllocBlock_of_isLeast {p : PmmState} {i : ℕ} (hi : IsLeast (pool p) i) :
    pmmAllocBlock p = (i * blockSize, { p with bitmap := setBit p.bitmap i }) := by
  cases pmmAllocBlock_cases p with
  | inl hsome =>
    obtain ⟨k, hk, hfree, hbelow, heq⟩ := hsome
    have hik : i ≤ k := hi.2 ⟨hfree, hk⟩
    have hki : ¬ i < k := by
      intro hlt
      have hused := hbelow i hlt
      rw [hi.1.1] at hused
      cases hused
    rw [show i = k from by omega]
    exact heq
  | inr hnone =>
    have hused := hnone.1 i hi.1.2
    rw [hi.1.1] at hused
    cases hused

/-- An allocation without one. -/
theorem pmmAllocBlock_of_empty {p : PmmState} (h : pool p = ∅) : pmmAllocBlock p = (0, p) := by
  cases pmmAllocBlock_cases p with
  | inl hsome =>
    obtain ⟨k, hk, hfree, -, -⟩ := hsome
    have hmem : k ∈ pool p := ⟨hfree, hk⟩
    rw [h] at hmem
    exact hmem.elim
  | inr hnone => exact hnone.2

theorem exists_isLeast_pool {p : PmmState} (h : pool p ≠ ∅) : ∃ i, IsLeast (pool p) i := by
  classical
  have hne := Set.nonempty_iff_ne_empty.mpr h
  exact ⟨Nat.find hne, Nat.find_spec hne, fun j hj => Nat.find_min' hne hj⟩

/-- `SET_BIT` takes one index out of the set. -/
theorem freeSet_setBit (p : PmmState) (i : ℕ) :
    freeSet { p with bitmap := setBit p.bitmap i } = freeSet p \ {i} := by
  ext j
  simp only [freeSet, Set.mem_ofPred_eq, testBit_setBit, Bool.or_eq_false_iff, decide_eq_false_iff_not,
    Set.mem_sdiff, Set.mem_singleton_iff]
  exact and_comm

/-- `pmm_free_block` puts one index into the set. -/
theorem freeSet_free (p : PmmState) (addr : ℕ) :
    freeSet (pmmFreeBlock p addr) = insert (addr / blockSize) (freeSet p) := by
  ext j
  simp only [freeSet, pmmFreeBlock, Set.mem_ofPred_eq, testBit_clearBit, Bool.and_eq_false_iff,
    Bool.not_eq_false', decide_eq_true_eq, Set.mem_insert_iff]

theorem freeSet_alloc {p : PmmState} {i : ℕ} (hi : IsLeast (pool p) i) :
    freeSet (pmmAllocBlock p).2 = freeSet p \ {i} := by
  rw [pmmAllocBlock_of_isLeast hi]
  exact freeSet_setBit p i

theorem pool_alloc {p : PmmState} {i : ℕ} (hi : IsLeast (pool p) i) :
    pool (pmmAllocBlock p).2 = pool p \ {i} := by
  ext j
  rw [pool, Set.mem_ofPred_eq, freeSet_alloc hi, pmmAllocBlock_totalBlocks]
  exact and_right_comm

theorem pool_free {p : PmmState} {addr : ℕ} (haddr : addr / blockSize < p.totalBlocks) :
    pool (pmmFreeBlock p addr) = insert (addr / blockSize) (pool p) := by
  ext j
  rw [pool, Set.mem_ofPred_eq, freeSet_free, pmmFreeBlock_totalBlocks]
  constructor
  · rintro ⟨rfl | hj, hlt⟩
    · exact Or.inl rfl
    · exact Or.inr ⟨hj, hlt⟩
  · rintro (rfl | hj)
    · exact ⟨Or.inl rfl, haddr⟩
    · exact ⟨Or.inr hj.1, hj.2⟩

/-! ### The simulation -/

/-- The call and its answer that an event of the pool stands for. -/
def answered : PoolEvent ℕ → PmmCall × ℕ
  | .took i => (.alloc, i * blockSize)
  | .refused => (.alloc, 0)
  | .gave i => (.free (i * blockSize), 0)

/-- A call and its answer; `pmm_free_block` has none. -/
def answer (p : PmmState) : PmmCall → PmmCall × ℕ
  | .alloc => (.alloc, (pmmAllocBlock p).1)
  | .free addr => (.free addr, 0)

/-- The calls of a run and their answers. -/
def transcript : PmmState → List PmmCall → List (PmmCall × ℕ)
  | _, [] => []
  | p, c :: calls => answer p c :: transcript (pmmStep p c) calls

theorem transcript_append (p : PmmState) (calls calls' : List PmmCall) :
    transcript p (calls ++ calls') = transcript p calls ++ transcript (run pmmStep p calls) calls' := by
  induction calls generalizing p with
  | nil => rfl
  | cons c calls ih => exact congrArg (answer p c :: ·) (ih (pmmStep p c))

theorem mem_of_mem_transcript {p : PmmState} {calls : List PmmCall} {c : PmmCall} {a : ℕ}
    (h : (c, a) ∈ transcript p calls) : c ∈ calls := by
  induction calls generalizing p with
  | nil => cases h
  | cons d calls ih =>
    cases List.mem_cons.mp h with
    | inl heq =>
      have hfst : (answer p d).1 = d := by cases d <;> rfl
      rw [show c = d from (congrArg Prod.fst heq).trans hfst]
      exact List.mem_cons_self
    | inr hrest => exact List.mem_cons_of_mem _ (ih hrest)

/-- **One call** is one request to the pool, with the same answer. -/
theorem poolStep_pmmStep {p : PmmState} {c : PmmCall} (hc : Owned p c) :
    ∃ e, PoolStep (pool p) e (pool (pmmStep p c)) ∧ answered e = answer p c := by
  cases c with
  | alloc =>
    by_cases hempty : pool p = ∅
    · refine ⟨.refused, ?_, ?_⟩
      · rw [pmmStep, pmmAllocBlock_of_empty hempty, hempty]
        exact PoolStep.refuse
      · rw [answer, pmmAllocBlock_of_empty hempty]
        rfl
    · obtain ⟨i, hi⟩ := exists_isLeast_pool hempty
      refine ⟨.took i, ?_, ?_⟩
      · rw [pmmStep, pool_alloc hi]
        exact PoolStep.take hi
      · rw [answer, pmmAllocBlock_of_isLeast hi]
        rfl
  | free addr =>
    obtain ⟨haligned, hlt, hused⟩ := hc
    refine ⟨.gave (addr / blockSize), ?_, ?_⟩
    · rw [pmmStep, pool_free hlt]
      apply PoolStep.give
      intro hmem
      exact absurd (hused.symm.trans hmem.1) (by decide)
    · rw [answered, answer, Nat.div_mul_cancel (Nat.dvd_of_mod_eq_zero haligned)]

/-- **Every run** is a run of the pool, with the same answers. -/
theorem poolRun_run (p : PmmState) (calls : List PmmCall) (h : Admits pmmStep Owned p calls) :
    ∃ events, PoolRun (pool p) events (pool (run pmmStep p calls)) ∧
      transcript p calls = events.map answered := by
  induction calls generalizing p with
  | nil => exact ⟨[], PoolRun.nil _, rfl⟩
  | cons c calls ih =>
    obtain ⟨e, hstep, hanswer⟩ := poolStep_pmmStep h.1
    obtain ⟨events, hrun, htranscript⟩ := ih (pmmStep p c) h.2
    refine ⟨e :: events, PoolRun.cons hstep hrun, ?_⟩
    rw [transcript, htranscript, List.map_cons, hanswer]

/-- The event behind a block that was handed out. -/
theorem eq_took_of_answered {e : PoolEvent ℕ} {a : ℕ} (h : answered e = (.alloc, a)) (ha : a ≠ 0) :
    e = .took (a / blockSize) := by
  cases e with
  | took i =>
    have haddr : i * blockSize = a := congrArg Prod.snd h
    rw [← haddr, Nat.mul_div_cancel _ (by decide)]
  | refused => exact absurd (congrArg Prod.snd h).symm ha
  | gave i =>
    have hcall := congrArg Prod.fst h
    cases hcall

/-- A block that two calls hand out was given back between them. -/
theorem freed_between {p : PmmState} {calls : List PmmCall}
    (h : Admits pmmStep Owned p (.alloc :: (calls ++ [.alloc]))) (h0 : (pmmAllocBlock p).1 ≠ 0)
    (hsame : (pmmAllocBlock (run pmmStep (pmmAllocBlock p).2 calls)).1 = (pmmAllocBlock p).1) :
    .free (pmmAllocBlock p).1 ∈ calls := by
  obtain ⟨events, hrun, htranscript⟩ := poolRun_run p _ h
  rw [transcript, transcript_append] at htranscript
  obtain ⟨first, events', rfl, hfirst, hrest⟩ := List.map_eq_cons_iff.mp htranscript.symm
  obtain ⟨middle, last', rfl, hmiddle, hlast'⟩ := List.map_eq_append_iff.mp hrest
  obtain ⟨last, nothing, rfl, hlast, -⟩ := List.map_eq_cons_iff.mp hlast'
  have hagain : answered last = (.alloc, (pmmAllocBlock p).1) := by
    rw [hlast, ← hsame]
    rfl
  rw [eq_took_of_answered hfirst h0, eq_took_of_answered hagain h0] at hrun
  have hgave := List.mem_map_of_mem (f := answered) hrun.gave_of_took
  rw [hmiddle, answered, Nat.div_mul_cancel (Nat.dvd_of_mod_eq_zero (pmmAllocBlock_aligned p))] at hgave
  exact mem_of_mem_transcript hgave

/-! ### What the callers can rely on -/

/-- No frame below `total_blocks` is free. -/
def NoneFree (p : PmmState) : Prop := ∀ i, i < p.totalBlocks → i ∉ freeSet p

theorem pool_eq_empty_iff (p : PmmState) : pool p = ∅ ↔ NoneFree p := by
  rw [Set.eq_empty_iff_forall_notMem]
  constructor
  · exact fun h i hi hfree => h i ⟨hfree, hi⟩
  · exact fun h i hi => h i hi.2 hi.1

/-- The answer `0` says that no frame is left, when frame `0` is reserved. -/
theorem pmmAllocBlock_eq_zero_iff {p : PmmState} (hzero : testBit p.bitmap 0 = true) :
    (pmmAllocBlock p).1 = 0 ↔ NoneFree p := by
  rw [← pool_eq_empty_iff]
  constructor
  · intro h
    by_contra hne
    obtain ⟨k, hk⟩ := exists_isLeast_pool hne
    rw [pmmAllocBlock_of_isLeast hk] at h
    have hk0 : k = 0 := by
      simp only [blockSize] at h
      omega
    rw [hk0] at hk
    exact absurd (hzero.symm.trans hk.1.1) (by decide)
  · intro h
    rw [pmmAllocBlock_of_empty h]

/-- **One allocation**: the least free frame and no other, or a refusal that changes nothing. -/
structure TakesLeast (p : PmmState) : Prop where
  takes : ∀ i, IsLeast (pool p) i →
    (pmmAllocBlock p).1 = blockSize * i ∧ freeSet (pmmAllocBlock p).2 = freeSet p \ {i}
  refuses : NoneFree p → pmmAllocBlock p = (0, p)
  only : testBit p.bitmap 0 = true → (pmmAllocBlock p).1 = 0 → NoneFree p

theorem takesLeast (p : PmmState) : TakesLeast p where
  takes := by
    intro i hi
    refine ⟨?_, freeSet_alloc hi⟩
    rw [pmmAllocBlock_of_isLeast hi, Nat.mul_comm]
  refuses := fun h => pmmAllocBlock_of_empty ((pool_eq_empty_iff p).mpr h)
  only := fun hzero => (pmmAllocBlock_eq_zero_iff hzero).mp

/-- A frame stays reserved while nobody gives it back. -/
theorem used_run {p : PmmState} {calls : List PmmCall} (h : Admits pmmStep Owned p calls) {i : ℕ}
    (hi : testBit p.bitmap i = true) (hkept : .free (i * blockSize) ∉ calls) :
    testBit (run pmmStep p calls).bitmap i = true := by
  induction calls generalizing p with
  | nil => exact hi
  | cons c calls ih =>
    refine ih h.2 ?_ (fun hmem => hkept (List.mem_cons_of_mem _ hmem))
    cases c with
    | alloc => exact used_mono p hi
    | free addr =>
      obtain ⟨haligned, -, -⟩ := h.1
      have hne : i ≠ addr / blockSize := by
        rintro rfl
        rw [Nat.div_mul_cancel (Nat.dvd_of_mod_eq_zero haligned)] at hkept
        exact hkept List.mem_cons_self
      rw [pmmStep, pmmFreeBlock, testBit_clearBit, decide_eq_false hne, hi]
      rfl

/-- **The bitmap refines a set of free frames.**  A run is one of the pool of free frames; each call takes
or gives back one frame; frame `0` stays reserved; and what is handed out twice was given back in between. -/
theorem bitmap_refines_free_set (p : PmmState) (calls : List PmmCall)
    (h : Admits pmmStep Owned p calls) :
    (∃ events, PoolRun (pool p) events (pool (run pmmStep p calls)) ∧
        transcript p calls = events.map answered) ∧
      (∀ before after, calls = before ++ .alloc :: after → TakesLeast (run pmmStep p before)) ∧
      (∀ before addr after, calls = before ++ .free addr :: after →
        freeSet (pmmFreeBlock (run pmmStep p before) addr) =
          insert (addr / blockSize) (freeSet (run pmmStep p before))) ∧
      (∀ before after, calls = before ++ after → testBit p.bitmap 0 = true → .free 0 ∉ before →
        testBit (run pmmStep p before).bitmap 0 = true) ∧
      (∀ before middle after a, calls = before ++ .alloc :: (middle ++ .alloc :: after) → a ≠ 0 →
        (pmmAllocBlock (run pmmStep p before)).1 = a →
        (pmmAllocBlock (run pmmStep p (before ++ .alloc :: middle))).1 = a → .free a ∈ middle) := by
  refine ⟨poolRun_run p calls h, fun _ _ _ => takesLeast _, fun _ _ _ _ => freeSet_free _ _, ?_, ?_⟩
  · rintro before after rfl hzero hkept
    apply used_run ((admits_append p before after).mp h).1 hzero
    rw [Nat.zero_mul]
    exact hkept
  · rintro before middle after a rfl h0 rfl hsame
    have hrest := ((admits_append p before _).mp h).2
    rw [show before ++ .alloc :: middle = before ++ ([.alloc] ++ middle) from rfl, run_append,
      run_append] at hsame
    rw [show .alloc :: (middle ++ .alloc :: after) = (.alloc :: (middle ++ [.alloc])) ++ after from by simp,
      admits_append] at hrest
    exact freed_between hrest.1 h0 hsame

theorem bitmap_refines_free_set_smallPmm :
    Admits pmmStep Owned smallPmm [.alloc, .free 4096, .alloc] ∧
      TakesLeast (run pmmStep smallPmm [.alloc, .free 4096]) ∧ PmmCall.free 4096 ∈ [PmmCall.free 4096] := by
  have hcalls : Admits pmmStep Owned smallPmm [.alloc, .free 4096, .alloc] :=
    ⟨trivial, ⟨by decide, by decide, by decide⟩, trivial, trivial⟩
  obtain ⟨-, htakes, -, -, htwice⟩ := bitmap_refines_free_set smallPmm _ hcalls
  exact ⟨hcalls, htakes [.alloc, .free 4096] [] rfl,
    htwice [] [.free 4096] [] 4096 rfl (by decide) (by decide) (by decide)⟩

end OsEojin.Pmm
