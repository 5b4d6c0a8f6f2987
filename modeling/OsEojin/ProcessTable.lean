import OsEojin.Process

/-!
# The process-table invariant

What `schedule` selects, and what every event keeps.

* `scheduleLoop_above`: the search, started at the current slot of a table whose slot `0` is ready,
  ends within its budget on the first ready slot above, or on slot `0` when there is none;
* `schedule_spec`: `schedule` as one equation, with the selected slot described on the state before;
* `TableOk` and `tableOk_step`: the invariant and its step lemma;
* `process_table_invariant`: the invariant, the absorbing dead state and the unused bail-out, along
  every run from `init_multitasking`.
-/

namespace OsEojin.Process

open OsEojin.Lib OsEojin.Lib.Runs OsEojin.Lib.ByteMemory OsEojin.Pmm

/-! ### Slots after the elementary updates -/

theorem slot_natCast (s : Scheduler) (i : ℕ) : s.slot (i : ℤ) = s.processes i := by
  simp [Scheduler.slot]

theorem saveContext_currentPid (s : Scheduler) (rsp : ℕ) :
    (saveContext s rsp).currentPid = s.currentPid := by
  simp only [saveContext]
  split <;> rfl

theorem saveContext_processCount (s : Scheduler) (rsp : ℕ) :
    (saveContext s rsp).processCount = s.processCount := by
  simp only [saveContext]
  split <;> rfl

theorem saveContext_currentPml4 (s : Scheduler) (rsp : ℕ) :
    (saveContext s rsp).currentPml4 = s.currentPml4 := by
  simp only [saveContext]
  split <;> rfl

theorem saveContext_kernelPml4 (s : Scheduler) (rsp : ℕ) :
    (saveContext s rsp).kernelPml4 = s.kernelPml4 := by
  simp only [saveContext]
  split <;> rfl

/-- `saveContext` only touches the current slot. -/
theorem saveContext_of_ne (s : Scheduler) (rsp i : ℕ) (h : i ≠ s.currentPid.toNat) :
    (saveContext s rsp).processes i = s.processes i := by
  simp only [saveContext]
  split
  · rfl
  · exact Function.update_of_ne h _ _

/-- A dead current process is left as it is. -/
theorem saveContext_dead (s : Scheduler) (rsp : ℕ) (h : (s.slot s.currentPid).state = .dead) :
    saveContext s rsp = s := by
  simp only [saveContext, h, ↓reduceIte]

/-- A running current process becomes ready, with the interrupted stack pointer. -/
theorem saveContext_running (s : Scheduler) (rsp : ℕ)
    (h : (s.slot s.currentPid).state = .running) :
    (saveContext s rsp).processes s.currentPid.toNat
      = { s.processes s.currentPid.toNat with rsp := rsp, state := .ready } := by
  simp only [saveContext, h]
  exact Function.update_self _ _ _

theorem switchTo_processes (s : Scheduler) (n i : ℕ) :
    (switchTo s n).processes i
      = if i = n then { s.processes n with state := .running } else s.processes i := by
  simp only [switchTo, Scheduler.setSlot, slot_natCast, Int.toNat_natCast]
  by_cases h : i = n
  · subst h
    simp
  · simp [h]

@[simp] theorem switchTo_currentPid (s : Scheduler) (next : ℤ) :
    (switchTo s next).currentPid = next := rfl

@[simp] theorem switchTo_processCount (s : Scheduler) (next : ℤ) :
    (switchTo s next).processCount = s.processCount := rfl

@[simp] theorem switchTo_kernelPml4 (s : Scheduler) (next : ℤ) :
    (switchTo s next).kernelPml4 = s.kernelPml4 := rfl

theorem switchTo_currentPml4 (s : Scheduler) (n : ℕ) :
    (switchTo s n).currentPml4
      = if (s.processes n).pml4 ≠ 0 then (s.processes n).pml4 else s.currentPml4 := by
  simp [switchTo, Scheduler.setSlot, Scheduler.slot]

theorem switchTo_tssRsp0 (s : Scheduler) (n : ℕ) :
    (switchTo s n).tssRsp0
      = if (s.processes n).kernelStackTop ≠ 0 then (s.processes n).kernelStackTop
        else s.tssRsp0 := by
  simp [switchTo, Scheduler.setSlot, Scheduler.slot]

/-! ### What the search selects -/

/-- The slot round robin owes the processor to, on the state before the call: the first ready slot
above the current one, or the shell when there is none. -/
def Selected (s : Scheduler) (n : ℕ) : Prop :=
  (s.currentPid < n ∧ n < s.processCount ∧ (s.processes n).state = .ready ∧
      ∀ k : ℕ, s.currentPid < k → k < n → (s.processes k).state ≠ .ready) ∨
    (n = 0 ∧ ∀ k : ℕ, s.currentPid < k → k < s.processCount → (s.processes k).state ≠ .ready)

/-- **The search ends.**  From any slot `next` not below the current one, with slot `0` ready, the
search stops within `process_count - next` iterations on the first ready slot above `next`, or wraps
around to slot `0`. -/
theorem scheduleLoop_above (s : Scheduler) (h0 : (s.processes 0).state = .ready) :
    ∀ (budget next : ℕ), s.currentPid ≤ next → next < s.processCount →
      s.processCount - next ≤ budget →
      ∃ n : ℕ, scheduleLoop s budget next = some (n : ℤ) ∧ (s.processes n).state = .ready ∧
        ((next < n ∧ n < s.processCount ∧
            ∀ k : ℕ, next < k → k < n → (s.processes k).state ≠ .ready) ∨
          (n = 0 ∧ ∀ k : ℕ, next < k → k < s.processCount → (s.processes k).state ≠ .ready)) := by
  intro budget
  induction budget with
  | zero =>
    intro next _ hlt hb
    omega
  | succ budget ih =>
    intro next hcur hlt hb
    by_cases hwrap : next + 1 ≥ s.processCount
    · -- the index wraps to the shell's slot, which is ready
      have hnext : nextSlot s next = ((0 : ℕ) : ℤ) := by
        rw [nextSlot, if_pos (by omega)]
        rfl
      refine ⟨0, ?_, h0, Or.inr ⟨rfl, fun k hk hk' => by omega⟩⟩
      simp only [scheduleLoop, hnext, slot_natCast, h0]
      simp
    · have hnext : nextSlot s next = ((next + 1 : ℕ) : ℤ) := by
        rw [nextSlot, if_neg (by omega)]
        push_cast
        rfl
      by_cases hready : (s.processes (next + 1)).state = .ready
      · refine ⟨next + 1, ?_, hready, Or.inl ⟨by omega, by omega, fun k hk hk' => by omega⟩⟩
        simp only [scheduleLoop, hnext, slot_natCast, hready]
        simp
      · have hne : ((next + 1 : ℕ) : ℤ) ≠ s.currentPid := by
          push_cast
          omega
        obtain ⟨n, hn, hst, hsel⟩ := ih (next + 1) (by push_cast; omega) (by omega) (by omega)
        have hgap : ∀ k : ℕ, next < k → k ≤ next + 1 → (s.processes k).state ≠ .ready := by
          intro k hk hk'
          rw [show k = next + 1 from by omega]
          exact hready
        refine ⟨n, ?_, hst, ?_⟩
        · rw [scheduleLoop, hnext, slot_natCast]
          simp only [ne_eq, hready, not_false_eq_true, hne, and_self, ↓reduceIte]
          exact hn
        · cases hsel with
          | inl h =>
            left
            refine ⟨by omega, h.2.1, fun k hk hk' => ?_⟩
            by_cases hle : k ≤ next + 1
            · exact hgap k hk hle
            · exact h.2.2 k (by omega) hk'
          | inr h =>
            right
            refine ⟨h.1, fun k hk hk' => ?_⟩
            by_cases hle : k ≤ next + 1
            · exact hgap k hk hle
            · exact h.2 k (by omega) hk'

/-! ### The state a call of `schedule` finds -/

/-- What both callers of `schedule` establish: the table's bounds, a live shell, and a current slot
that is running or has just been killed. -/
structure Schedulable (s : Scheduler) : Prop where
  count_le : s.processCount ≤ maxProcesses
  cur_nonneg : 0 ≤ s.currentPid
  cur_lt : s.currentPid < s.processCount
  others : ∀ i : ℕ, i < s.processCount → (i : ℤ) ≠ s.currentPid → (s.processes i).state ≠ .running
  current : (s.slot s.currentPid).state = .running ∨ (s.slot s.currentPid).state = .dead
  shell : (s.processes 0).state = .ready ∨ (s.processes 0).state = .running

variable {s : Scheduler}

/-- After the save the shell's slot is ready, whether or not it was the one interrupted. -/
theorem Schedulable.shell_saved (h : Schedulable s) (rsp : ℕ) :
    ((saveContext s rsp).processes 0).state = .ready := by
  by_cases hcur : s.currentPid = 0
  · have hrun : (s.slot s.currentPid).state = .running := by
      cases h.current with
      | inl hr => exact hr
      | inr hd =>
        have h0 : (s.processes 0).state = .dead := by
          rw [hcur] at hd
          exact hd
        cases h.shell with
        | inl hs => rw [hs] at h0; cases h0
        | inr hs => rw [hs] at h0; cases h0
    have := saveContext_running s rsp hrun
    rw [hcur] at this
    rw [show (0 : ℤ).toNat = 0 from rfl] at this
    rw [this]
  · have hne : (0 : ℕ) ≠ s.currentPid.toNat := by
      have := h.cur_nonneg
      omega
    rw [saveContext_of_ne s rsp 0 hne]
    cases h.shell with
    | inl hs => exact hs
    | inr hs =>
      refine absurd hs (h.others 0 ?_ (by omega))
      have := h.cur_lt
      have := h.cur_nonneg
      omega

/-- The search of a call from a schedulable state succeeds, on the slot round robin owes. -/
theorem Schedulable.scheduleLoop_eq (h : Schedulable s) (rsp : ℕ) :
    ∃ n : ℕ, n < s.processCount ∧ Selected s n ∧
      ((saveContext s rsp).processes n).state = .ready ∧
      scheduleLoop (saveContext s rsp) (maxProcesses + 1) (saveContext s rsp).currentPid
        = some (n : ℤ) := by
  have hnn := h.cur_nonneg
  have hlt := h.cur_lt
  have hle := h.count_le
  have hcur : ((s.currentPid.toNat : ℕ) : ℤ) = s.currentPid := Int.toNat_of_nonneg hnn
  have hsame : ∀ k : ℕ, s.currentPid < k → (saveContext s rsp).processes k = s.processes k := by
    intro k hk
    exact saveContext_of_ne s rsp k (by omega)
  obtain ⟨n, hn, hst, hsel⟩ := scheduleLoop_above (saveContext s rsp) (h.shell_saved rsp)
    (maxProcesses + 1) s.currentPid.toNat
    (by rw [saveContext_currentPid]; omega) (by rw [saveContext_processCount]; omega)
    (by rw [saveContext_processCount]; omega)
  rw [saveContext_processCount] at hsel
  refine ⟨n, ?_, ?_, hst, ?_⟩
  · cases hsel with
    | inl h1 => exact h1.2.1
    | inr h1 => omega
  · cases hsel with
    | inl h1 =>
      left
      refine ⟨by omega, h1.2.1, ?_, fun k hk hk' => ?_⟩
      · rw [← hsame n (by omega)]
        exact hst
      · rw [← hsame k hk]
        exact h1.2.2 k (by omega) hk'
    | inr h1 =>
      right
      refine ⟨h1.1, fun k hk hk' => ?_⟩
      rw [← hsame k hk]
      exact h1.2 k (by omega) hk'
  · rw [saveContext_currentPid, ← hcur]
    exact hn

/-- **`schedule` in one equation.**  Neither the bail-out nor the fallback is taken: the call switches
to the slot round robin owes, and returns that slot's saved stack pointer. -/
theorem Schedulable.schedule_spec (h : Schedulable s) (rsp : ℕ) :
    ∃ n : ℕ, n < s.processCount ∧ Selected s n ∧
      ((saveContext s rsp).processes n).state = .ready ∧
      schedule s rsp = (((saveContext s rsp).processes n).rsp, switchTo (saveContext s rsp) n) := by
  obtain ⟨n, hn, hsel, hst, hloop⟩ := h.scheduleLoop_eq rsp
  refine ⟨n, hn, hsel, hst, ?_⟩
  have hfall : fallback (saveContext s rsp) n = n := by
    rw [fallback, if_neg]
    rw [slot_natCast, hst]
    simp
  simp only [schedule, hloop, hfall, switchTo_currentPid, slot_natCast, switchTo_processes]
  simp

/-! ### The invariant -/

/-- The process-table invariant. -/
structure TableOk (s : Scheduler) : Prop where
  count_pos : 1 ≤ s.processCount
  count_le : s.processCount ≤ maxProcesses
  cur_nonneg : 0 ≤ s.currentPid
  cur_lt : s.currentPid < s.processCount
  running_iff : ∀ i : ℕ, i < s.processCount →
    ((s.processes i).state = .running ↔ (i : ℤ) = s.currentPid)
  shell : (s.processes 0).state = .ready ∨ (s.processes 0).state = .running
  dead_lt : ∀ i : ℕ, (s.processes i).state = .dead → i < s.processCount

theorem TableOk.current_running (h : TableOk s) : (s.slot s.currentPid).state = .running := by
  have hcur : ((s.currentPid.toNat : ℕ) : ℤ) = s.currentPid := Int.toNat_of_nonneg h.cur_nonneg
  have hlt := h.cur_lt
  exact (h.running_iff s.currentPid.toNat (by omega)).mpr hcur

theorem TableOk.schedulable (h : TableOk s) : Schedulable s where
  count_le := h.count_le
  cur_nonneg := h.cur_nonneg
  cur_lt := h.cur_lt
  others := fun i hi hne hrun => hne ((h.running_iff i hi).mp hrun)
  current := Or.inl h.current_running
  shell := h.shell

theorem killCurrentProcess_of_nonneg (h : 0 ≤ s.currentPid) :
    killCurrentProcess s = s.setSlot s.currentPid { s.slot s.currentPid with state := .dead } := by
  rw [killCurrentProcess, if_neg (by omega)]

theorem killCurrentProcess_of_ne (h : 0 ≤ s.currentPid) (i : ℕ) (hi : (i : ℤ) ≠ s.currentPid) :
    (killCurrentProcess s).processes i = s.processes i := by
  rw [killCurrentProcess_of_nonneg h]
  exact Function.update_of_ne (by omega) _ _

theorem killCurrentProcess_currentPid (s : Scheduler) :
    (killCurrentProcess s).currentPid = s.currentPid := by
  simp only [killCurrentProcess]
  split <;> rfl

theorem killCurrentProcess_processCount (s : Scheduler) :
    (killCurrentProcess s).processCount = s.processCount := by
  simp only [killCurrentProcess]
  split <;> rfl

theorem killCurrentProcess_current (h : 0 ≤ s.currentPid) :
    (killCurrentProcess s).processes s.currentPid.toNat
      = { s.processes s.currentPid.toNat with state := .dead } := by
  rw [killCurrentProcess_of_nonneg h]
  exact Function.update_self _ _ _

/-- Killing any process but the shell leaves a schedulable table. -/
theorem TableOk.schedulable_kill (h : TableOk s) (hpid : 1 ≤ s.currentPid) :
    Schedulable (killCurrentProcess s) := by
  have hnn := h.cur_nonneg
  constructor
  · rw [killCurrentProcess_processCount]
    exact h.count_le
  · rw [killCurrentProcess_currentPid]
    exact hnn
  · rw [killCurrentProcess_currentPid, killCurrentProcess_processCount]
    exact h.cur_lt
  · intro i hi hne
    rw [killCurrentProcess_currentPid] at hne
    rw [killCurrentProcess_processCount] at hi
    rw [killCurrentProcess_of_ne hnn i hne]
    exact fun hrun => hne ((h.running_iff i hi).mp hrun)
  · right
    rw [killCurrentProcess_currentPid]
    show ((killCurrentProcess s).processes s.currentPid.toNat).state = .dead
    rw [killCurrentProcess_current hnn]
  · rw [killCurrentProcess_of_ne hnn 0 (by omega)]
    exact h.shell

theorem TableOk.dead_lt_kill (h : TableOk s) (i : ℕ)
    (hd : ((killCurrentProcess s).processes i).state = .dead) :
    i < (killCurrentProcess s).processCount := by
  rw [killCurrentProcess_processCount]
  by_cases hic : (i : ℤ) = s.currentPid
  · have := h.cur_lt
    omega
  · rw [killCurrentProcess_of_ne h.cur_nonneg i hic] at hd
    exact h.dead_lt i hd

/-- A call of `schedule` re-establishes the invariant from any schedulable state. -/
theorem Schedulable.tableOk_schedule (h : Schedulable s) (hd : ∀ i : ℕ, (s.processes i).state = .dead →
    i < s.processCount) (rsp : ℕ) : TableOk (schedule s rsp).2 := by
  obtain ⟨n, hn, -, hready, heq⟩ := h.schedule_spec rsp
  have hle := h.count_le
  have hsaved : ∀ i : ℕ, i < s.processCount → ((saveContext s rsp).processes i).state ≠ .running := by
    intro i hi
    by_cases hic : (i : ℤ) = s.currentPid
    · have hti : i = s.currentPid.toNat := by omega
      cases h.current with
      | inl hr =>
        rw [hti, saveContext_running s rsp hr]
        simp
      | inr hdead =>
        rw [saveContext_dead s rsp hdead, hti]
        have : (s.processes s.currentPid.toNat).state = .dead := hdead
        rw [this]
        simp
    · rw [saveContext_of_ne s rsp i (by have := h.cur_nonneg; omega)]
      exact h.others i hi hic
  rw [heq]
  constructor
  · rw [switchTo_processCount, saveContext_processCount]
    omega
  · rw [switchTo_processCount, saveContext_processCount]
    exact hle
  · simp
  · rw [switchTo_currentPid, switchTo_processCount, saveContext_processCount]
    exact_mod_cast hn
  · intro i hi
    rw [switchTo_processCount, saveContext_processCount] at hi
    rw [switchTo_processes, switchTo_currentPid]
    by_cases hin : i = n
    · simp [hin]
    · have hne : (i : ℤ) ≠ (n : ℤ) := by exact_mod_cast hin
      simp only [hin, ↓reduceIte, hne, iff_false]
      exact hsaved i hi
  · rw [switchTo_processes]
    by_cases h0 : 0 = n
    · simp [h0]
    · simp only [h0, ↓reduceIte]
      exact Or.inl (h.shell_saved rsp)
  · intro i
    rw [switchTo_processes, switchTo_processCount, saveContext_processCount]
    by_cases hin : i = n
    · simp [hin]
    · simp only [hin, ↓reduceIte]
      by_cases hic : i = s.currentPid.toNat
      · intro _
        have := h.cur_lt
        have := h.cur_nonneg
        omega
      · rw [saveContext_of_ne s rsp i hic]
        exact hd i

/-- Filling the slot at `process_count` keeps the invariant, whether or not the count moves. -/
theorem TableOk.update_free (h : TableOk s) {s' : Scheduler} {p : ProcessEntry}
    (hp : p.state = .ready) (hslots : s'.processes = Function.update s.processes s.processCount p)
    (hcur : s'.currentPid = s.currentPid)
    (hcount : s'.processCount = s.processCount ∨
      (s'.processCount = s.processCount + 1 ∧ s.processCount < maxProcesses)) : TableOk s' := by
  have hpos := h.count_pos
  have hlt := h.cur_lt
  have hold : ∀ i : ℕ, i ≠ s.processCount → s'.processes i = s.processes i := by
    intro i hi
    rw [hslots, Function.update_of_ne hi]
  have hnew : s'.processes s.processCount = p := by
    rw [hslots, Function.update_self]
  have hcle := h.count_le
  constructor
  · omega
  · omega
  · rw [hcur]
    exact h.cur_nonneg
  · rw [hcur]
    omega
  · intro i hi
    rw [hcur]
    by_cases hic : i = s.processCount
    · rw [hic, hnew, hp]
      have : (s.processCount : ℤ) ≠ s.currentPid := by omega
      simp [this]
    · rw [hold i hic]
      exact h.running_iff i (by omega)
  · rw [hold 0 (by omega)]
    exact h.shell
  · intro i hd
    by_cases hic : i = s.processCount
    · rw [hic, hnew, hp] at hd
      cases hd
    · rw [hold i hic] at hd
      have := h.dead_lt i hd
      omega

theorem createKernelProcess_cases (s : Scheduler) (entry : ℕ) :
    createKernelProcess s entry = s ∨
      (s.processCount < maxProcesses ∧ ∃ p : ProcessEntry,
        p.state = .ready ∧ p.pml4 = s.kernelPml4 ∧ p.kernelStackTop ≠ 0 ∧
        (createKernelProcess s entry).processes = Function.update s.processes s.processCount p ∧
        (createKernelProcess s entry).processCount = s.processCount + 1) := by
  by_cases hfull : maxProcesses ≤ s.processCount
  · left
    rw [createKernelProcess, if_pos hfull]
  · right
    refine ⟨by omega, ?_⟩
    rw [createKernelProcess, if_neg hfull]
    exact ⟨_, rfl, rfl, by simp [stackSize], rfl, rfl⟩

theorem createKernelProcess_globals (s : Scheduler) (entry : ℕ) :
    (createKernelProcess s entry).currentPid = s.currentPid ∧
      (createKernelProcess s entry).kernelPml4 = s.kernelPml4 ∧
      (createKernelProcess s entry).currentPml4 = s.currentPml4 := by
  simp only [createKernelProcess]
  split <;> exact ⟨rfl, rfl, rfl⟩

/-- Everything `create_user_process` can do: nothing, a slot claimed but not counted, a process. -/
theorem createUserProcess_cases (s : Scheduler) (entry pml4 : ℕ) :
    createUserProcess s entry pml4 = s ∨
      (s.processCount < maxProcesses ∧ ∃ p : ProcessEntry, p.state = .ready ∧
        (createUserProcess s entry pml4).processes = Function.update s.processes s.processCount p ∧
        ((createUserProcess s entry pml4).processCount = s.processCount ∨
          ((createUserProcess s entry pml4).processCount = s.processCount + 1 ∧
            p.pml4 = pml4 ∧ p.kernelStackTop ≠ 0))) := by
  by_cases hfull : maxProcesses ≤ s.processCount
  · left
    rw [createUserProcess, if_pos hfull]
  · right
    refine ⟨by omega, ?_⟩
    rw [createUserProcess, if_neg hfull]
    dsimp only
    by_cases huser : (pmmAllocBlock s.pmm).1 = 0
    · rw [if_pos huser]
      exact ⟨_, rfl, rfl, Or.inl rfl⟩
    · rw [if_neg huser]
      by_cases hkernel : (pmmAllocBlock (pmmAllocBlock s.pmm).2).1 = 0
      · rw [if_pos hkernel]
        exact ⟨_, rfl, rfl, Or.inl rfl⟩
      · rw [if_neg hkernel]
        exact ⟨_, rfl, rfl, Or.inr ⟨rfl, rfl, by simp [stackSize]⟩⟩

theorem createUserProcess_globals (s : Scheduler) (entry pml4 : ℕ) :
    (createUserProcess s entry pml4).currentPid = s.currentPid ∧
      (createUserProcess s entry pml4).kernelPml4 = s.kernelPml4 ∧
      (createUserProcess s entry pml4).currentPml4 = s.currentPml4 := by
  simp only [createUserProcess]
  split
  · exact ⟨rfl, rfl, rfl⟩
  · split
    · exact ⟨rfl, rfl, rfl⟩
    · split <;> exact ⟨rfl, rfl, rfl⟩

/-- **The step lemma.** -/
theorem tableOk_step (s : Scheduler) (e : Event) (h : TableOk s) (hi : Issued s e) :
    TableOk (step s e) := by
  cases e with
  | createUser entry pml4 =>
    show TableOk (createUserProcess s entry pml4)
    cases createUserProcess_cases s entry pml4 with
    | inl heq => rw [heq]; exact h
    | inr hex =>
      obtain ⟨hlt, p, hp, hslots, hcount⟩ := hex
      refine h.update_free hp hslots (createUserProcess_globals s entry pml4).1 ?_
      cases hcount with
      | inl hc => exact Or.inl hc
      | inr hc => exact Or.inr ⟨hc.1, hlt⟩
  | createKernel entry =>
    show TableOk (createKernelProcess s entry)
    cases createKernelProcess_cases s entry with
    | inl heq => rw [heq]; exact h
    | inr hex =>
      obtain ⟨hlt, p, hp, -, -, hslots, hcount⟩ := hex
      exact h.update_free hp hslots (createKernelProcess_globals s entry).1 (Or.inr ⟨hcount, hlt⟩)
  | tick rsp => exact h.schedulable.tableOk_schedule h.dead_lt rsp
  | exit rsp =>
    exact (h.schedulable_kill hi).tableOk_schedule h.dead_lt_kill rsp
  | alloc => exact ⟨h.1, h.2, h.3, h.4, h.5, h.6, h.7⟩

theorem tableOk_boot (pmm : PmmState) (mem : Memory) (kernelPml4 tssRsp0 : ℕ) :
    TableOk (boot pmm mem kernelPml4 tssRsp0) := by
  constructor
  · exact le_rfl
  · show 1 ≤ maxProcesses
    decide
  · exact le_rfl
  · show (0 : ℤ) < ((1 : ℕ) : ℤ)
    decide
  · intro i hi
    have h0 : i = 0 := Nat.lt_one_iff.mp hi
    subst h0
    simp [boot, initMultitasking]
  · right
    rfl
  · intro i hd
    by_cases h0 : i = 0
    · subst h0
      exact Nat.one_pos
    · simp only [boot, initMultitasking, Function.update_of_ne h0] at hd
      split at hd <;> cases hd

/-! ### Dead processes -/

/-- A dead slot other than the current one survives a call of `schedule`, and is not selected. -/
theorem Schedulable.dead_schedule (h : Schedulable s) (rsp i : ℕ)
    (hd : (s.processes i).state = .dead) :
    ((schedule s rsp).2.processes i).state = .dead ∧ (schedule s rsp).2.currentPid ≠ i := by
  obtain ⟨n, hn, -, hready, heq⟩ := h.schedule_spec rsp
  have hsaved : ((saveContext s rsp).processes i).state = .dead := by
    by_cases hic : i = s.currentPid.toNat
    · have hdead : (s.slot s.currentPid).state = .dead := by
        rw [hic] at hd
        exact hd
      rw [saveContext_dead s rsp hdead]
      exact hd
    · rw [saveContext_of_ne s rsp i hic]
      exact hd
  have hne : i ≠ n := by
    intro hin
    rw [hin, hready] at hsaved
    cases hsaved
  rw [heq]
  refine ⟨?_, ?_⟩
  · rw [switchTo_processes, if_neg hne]
    exact hsaved
  · rw [switchTo_currentPid]
    intro hni
    exact hne (by omega)

/-- **Dead is absorbing, one event.** -/
theorem dead_step (s : Scheduler) (e : Event) (h : TableOk s) (hi : Issued s e) (i : ℕ)
    (hd : (s.processes i).state = .dead) :
    ((step s e).processes i).state = .dead ∧ (step s e).currentPid ≠ i := by
  have hlt := h.dead_lt i hd
  have hcur : s.currentPid ≠ i := by
    intro hc
    have hrun := (h.running_iff i hlt).mpr hc.symm
    rw [hd] at hrun
    cases hrun
  cases e with
  | createUser entry pml4 =>
    show ((createUserProcess s entry pml4).processes i).state = .dead ∧
      (createUserProcess s entry pml4).currentPid ≠ i
    rw [(createUserProcess_globals s entry pml4).1]
    refine ⟨?_, hcur⟩
    cases createUserProcess_cases s entry pml4 with
    | inl heq => rw [heq]; exact hd
    | inr hex =>
      obtain ⟨-, p, -, hslots, -⟩ := hex
      rw [hslots, Function.update_of_ne (by omega)]
      exact hd
  | createKernel entry =>
    show ((createKernelProcess s entry).processes i).state = .dead ∧
      (createKernelProcess s entry).currentPid ≠ i
    rw [(createKernelProcess_globals s entry).1]
    refine ⟨?_, hcur⟩
    cases createKernelProcess_cases s entry with
    | inl heq => rw [heq]; exact hd
    | inr hex =>
      obtain ⟨-, p, -, -, -, hslots, -⟩ := hex
      rw [hslots, Function.update_of_ne (by omega)]
      exact hd
  | tick rsp => exact h.schedulable.dead_schedule rsp i hd
  | exit rsp =>
    refine (h.schedulable_kill hi).dead_schedule rsp i ?_
    rw [killCurrentProcess_of_ne h.cur_nonneg i (Ne.symm hcur)]
    exact hd
  | alloc => exact ⟨hd, hcur⟩

/-! ### The main theorem -/

/-- The events that run `schedule`. -/
def Event.schedules : Event → Prop
  | .tick _ => True
  | .exit _ => True
  | _ => False

/-- Whether the event's call of `schedule` leaves through its `loop_count` bail-out. -/
def bailsOut (s : Scheduler) : Event → Bool
  | .tick rsp => (scheduleLoop (saveContext s rsp) (maxProcesses + 1) s.currentPid).isNone
  | .exit rsp =>
    (scheduleLoop (saveContext (killCurrentProcess s) rsp) (maxProcesses + 1) s.currentPid).isNone
  | _ => false

theorem bailsOut_eq_false (s : Scheduler) (e : Event) (h : TableOk s) (hi : Issued s e) :
    bailsOut s e = false := by
  cases e with
  | tick rsp =>
    obtain ⟨n, -, -, -, hloop⟩ := h.schedulable.scheduleLoop_eq rsp
    rw [saveContext_currentPid] at hloop
    simp [bailsOut, hloop]
  | exit rsp =>
    obtain ⟨n, -, -, -, hloop⟩ := (h.schedulable_kill hi).scheduleLoop_eq rsp
    rw [saveContext_currentPid, killCurrentProcess_currentPid] at hloop
    simp [bailsOut, hloop]
  | createUser entry pml4 => rfl
  | createKernel entry => rfl
  | alloc => rfl

/-- The invariant along a run from `init_multitasking`. -/
theorem tableOk_run (pmm : PmmState) (mem : Memory) (kernelPml4 tssRsp0 : ℕ) (es : List Event)
    (hes : Admits step Issued (boot pmm mem kernelPml4 tssRsp0) es) :
    TableOk (run step (boot pmm mem kernelPml4 tssRsp0) es) :=
  run_invariant tableOk_step _ (tableOk_boot pmm mem kernelPml4 tssRsp0) es hes

/-- Dead is absorbing along a run. -/
theorem dead_run (s : Scheduler) (h : TableOk s) (es : List Event) (hes : Admits step Issued s es)
    (i : ℕ) (hd : (s.processes i).state = .dead) :
    ((run step s es).processes i).state = .dead ∧ (run step s es).currentPid ≠ i := by
  induction es generalizing s with
  | nil =>
    refine ⟨hd, fun hc => ?_⟩
    have hrun := (h.running_iff i (h.dead_lt i hd)).mpr hc.symm
    rw [hd] at hrun
    cases hrun
  | cons e es ih =>
    exact ih (step s e) (tableOk_step s e h hes.1) hes.2 (dead_step s e h hes.1 i hd).1

/-- **The process table along every run.**  From `init_multitasking`, through any interleaving of
creations (successful or not), ticks and exits: the count and the current slot stay in range; after
every call of `schedule` the running slots below the count are exactly the current one; a dead slot
stays dead and is never current again; the bail-out of the search is never taken. -/
theorem process_table_invariant (pmm : PmmState) (mem : Memory) (kernelPml4 tssRsp0 : ℕ)
    (es : List Event) (hes : Admits step Issued (boot pmm mem kernelPml4 tssRsp0) es) :
    (1 ≤ (run step (boot pmm mem kernelPml4 tssRsp0) es).processCount ∧
      (run step (boot pmm mem kernelPml4 tssRsp0) es).processCount ≤ 16 ∧
      0 ≤ (run step (boot pmm mem kernelPml4 tssRsp0) es).currentPid ∧
      (run step (boot pmm mem kernelPml4 tssRsp0) es).currentPid
        < (run step (boot pmm mem kernelPml4 tssRsp0) es).processCount) ∧
    (∀ fs e, es = fs ++ [e] → e.schedules →
      ∀ i : ℕ, i < (run step (boot pmm mem kernelPml4 tssRsp0) es).processCount →
        (((run step (boot pmm mem kernelPml4 tssRsp0) es).processes i).state = .running ↔
          (i : ℤ) = (run step (boot pmm mem kernelPml4 tssRsp0) es).currentPid)) ∧
    (∀ fs gs, es = fs ++ gs → ∀ i : ℕ,
      ((run step (boot pmm mem kernelPml4 tssRsp0) fs).processes i).state = .dead →
      ((run step (boot pmm mem kernelPml4 tssRsp0) es).processes i).state = .dead ∧
        (run step (boot pmm mem kernelPml4 tssRsp0) es).currentPid ≠ i) ∧
    (∀ fs e gs, es = fs ++ e :: gs →
      bailsOut (run step (boot pmm mem kernelPml4 tssRsp0) fs) e = false) := by
  have hok := tableOk_run pmm mem kernelPml4 tssRsp0 es hes
  refine ⟨⟨hok.count_pos, hok.count_le, hok.cur_nonneg, hok.cur_lt⟩, ?_, ?_, ?_⟩
  · intro fs e _ _ i hi
    exact hok.running_iff i hi
  · intro fs gs heq i hd
    subst heq
    obtain ⟨hfs, hgs⟩ := (admits_append _ fs gs).mp hes
    rw [run_append]
    exact dead_run _ (tableOk_run pmm mem kernelPml4 tssRsp0 fs hfs) gs hgs i hd
  · intro fs e gs heq
    subst heq
    obtain ⟨hfs, hgs⟩ := (admits_append _ fs (e :: gs)).mp hes
    exact bailsOut_eq_false _ e (tableOk_run pmm mem kernelPml4 tssRsp0 fs hfs) hgs.1

/-- The exited process of a small run is dead and the shell is back. -/
theorem process_table_invariant_exit :
    Admits step Issued smallBoot launchAndExit ∧
      ((run step smallBoot launchAndExit).processes 1).state = .dead ∧
      (run step smallBoot launchAndExit).currentPid ≠ 1 := by
  have hes : Admits step Issued smallBoot launchAndExit :=
    ⟨trivial, trivial, by show (1 : ℤ) ≤ _; decide, trivial⟩
  exact ⟨hes, (process_table_invariant smallPmm (fun _ => 0) 0x2000 0 launchAndExit hes).2.2.1
    launchAndExit [] rfl 1 (by decide)⟩

end OsEojin.Process
