import OsEojin.ProcessTable

/-!
# Context switches: the saved stack pointer and the loaded address space

A resumed process must find the stack pointer of its own last interruption and the page tables of its
own address space, both of which may lie arbitrarily far back in the run.  The past is kept in a
`Ledger` beside the run: for every pid the argument of the last call of `schedule` made while that pid
was current, the frame its creator stored, and the address space it was created with.

* `ContextOk` / `contextOk_step`: every live process that is not current has in its slot the stack
  pointer the ledger owes it;
* `schedule_resumes_saved_context`: the value `schedule` returns, and the kernel stack in the TSS;
* `SpaceOk` / `spaceOk_step`: every created slot holds its own address space, but the shell's holds `0`;
* `follows_iff`: one call of `schedule` leaves the right page tables loaded exactly when it does not go
  back to the shell from another address space;
* `address_space_follows_iff`: the same along every run.
-/

namespace OsEojin.Process

open OsEojin.Lib OsEojin.Lib.Runs OsEojin.Lib.ByteMemory OsEojin.Pmm

/-! ### The ledger -/

/-- What a run owes to each pid. -/
structure Ledger where
  lastArg : ℕ → Option ℕ
  frame : ℕ → ℕ
  space : ℕ → ℕ

/-- The ledger at boot: nobody was interrupted yet, and the shell owns the kernel's page tables. -/
def Ledger.initial (kernelPml4 : ℕ) : Ledger := ⟨fun _ => none, fun _ => 0, fun _ => kernelPml4⟩

/-- The creation of slot `process_count`, when the event really added it. -/
def Ledger.created (L : Ledger) (s s' : Scheduler) (space : ℕ) : Ledger :=
  if s'.processCount = s.processCount then L
  else { L with
    frame := Function.update L.frame s.processCount (s'.processes s.processCount).rsp
    space := Function.update L.space s.processCount space }

/-- The call `schedule(rsp)` made while `current_pid` was current. -/
def Ledger.interrupted (L : Ledger) (s : Scheduler) (rsp : ℕ) : Ledger :=
  { L with lastArg := Function.update L.lastArg s.currentPid.toNat (some rsp) }

/-- One entry of the ledger; `s` is the state before the event. -/
def Ledger.note (L : Ledger) (s : Scheduler) (e : Event) : Ledger :=
  match e with
  | .createUser _ pml4 => L.created s (step s e) pml4
  | .createKernel _ => L.created s (step s e) s.kernelPml4
  | .tick rsp => L.interrupted s rsp
  | .exit rsp => L.interrupted s rsp
  | .alloc => L

/-- The ledger of a run from boot. -/
def ledger (pmm : PmmState) (mem : Memory) (kernelPml4 tssRsp0 : ℕ) (es : List Event) : Ledger :=
  trace step Ledger.note (boot pmm mem kernelPml4 tssRsp0) (Ledger.initial kernelPml4) es

/-- The stack pointer owed to `pid`: its last interruption, or its creator's frame. -/
def Ledger.owed (L : Ledger) (pid : ℕ) : ℕ := (L.lastArg pid).getD (L.frame pid)

/-- The value the event's call of `schedule` returns. -/
def returned (s : Scheduler) : Event → Option ℕ
  | .tick rsp => some (schedule s rsp).1
  | .exit rsp => some (schedule (killCurrentProcess s) rsp).1
  | _ => none

/-! ### Saved contexts -/

/-- Every live process that is not current has the stack pointer it is owed, every created slot has a
kernel stack, and slots not yet created have no past. -/
structure ContextOk (s : Scheduler) (L : Ledger) : Prop where
  table : TableOk s
  rsp_eq : ∀ i : ℕ, i < s.processCount → (i : ℤ) ≠ s.currentPid → (s.processes i).state ≠ .dead →
    (s.processes i).rsp = L.owed i
  stack : ∀ i : ℕ, 1 ≤ i → i < s.processCount → (s.processes i).kernelStackTop ≠ 0
  fresh : ∀ i : ℕ, s.processCount ≤ i → L.lastArg i = none

variable {s : Scheduler} {L : Ledger}

theorem contextOk_boot (pmm : PmmState) (mem : Memory) (kernelPml4 tssRsp0 : ℕ) :
    ContextOk (boot pmm mem kernelPml4 tssRsp0) (Ledger.initial kernelPml4) := by
  refine ⟨tableOk_boot pmm mem kernelPml4 tssRsp0, ?_, ?_, fun _ _ => rfl⟩
  · intro i hi hne
    have h0 : i = 0 := Nat.lt_one_iff.mp hi
    subst h0
    exact absurd rfl hne
  · intro i hi hlt
    have h0 : i < 1 := hlt
    omega

/-- Filling the free slot keeps every older context; when the count moves, the new slot owes its
frame. -/
theorem ContextOk.created (h : ContextOk s L) {s' : Scheduler} {p : ProcessEntry} (space : ℕ)
    (htable : TableOk s') (hslots : s'.processes = Function.update s.processes s.processCount p)
    (hcur : s'.currentPid = s.currentPid)
    (hcount : s'.processCount = s.processCount ∨
      (s'.processCount = s.processCount + 1 ∧ p.kernelStackTop ≠ 0)) :
    ContextOk s' (L.created s s' space) := by
  have hold : ∀ i : ℕ, i < s.processCount → s'.processes i = s.processes i := by
    intro i hi
    rw [hslots, Function.update_of_ne (by omega)]
  cases hcount with
  | inl hc =>
    rw [Ledger.created, if_pos hc]
    refine ⟨htable, ?_, ?_, fun i hi => h.fresh i (by omega)⟩
    · intro i hi hne
      rw [hc] at hi
      rw [hold i hi]
      exact h.rsp_eq i hi (by rwa [hcur] at hne)
    · intro i h1 hi
      rw [hc] at hi
      rw [hold i hi]
      exact h.stack i h1 hi
  | inr hc =>
    have hnew : s'.processes s.processCount = p := by
      rw [hslots, Function.update_self]
    rw [Ledger.created, if_neg (by omega)]
    refine ⟨htable, ?_, ?_, fun i hi => h.fresh i (by omega)⟩
    · intro i hi hne hd
      rcases Nat.lt_or_ge i s.processCount with hlt | hge
      · rw [hold i hlt] at hd ⊢
        rw [h.rsp_eq i hlt (by rwa [hcur] at hne) hd]
        simp only [Ledger.owed, Function.update_of_ne (show i ≠ s.processCount from by omega)]
      · have hi' : i = s.processCount := by omega
        subst hi'
        simp only [Ledger.owed, h.fresh s.processCount le_rfl, Option.getD_none,
          Function.update_self]
    · intro i h1 hi
      rcases Nat.lt_or_ge i s.processCount with hlt | hge
      · rw [hold i hlt]
        exact h.stack i h1 hlt
      · have hi' : i = s.processCount := by omega
        rw [hi', hnew]
        exact hc.2

/-- **One call of `schedule`.**  From a schedulable state whose waiting contexts are right, the value
returned is the one the ledger owes after noting the call, the TSS gets the stack of the chosen
process, and the contexts stay right. -/
theorem ContextOk.schedule_call {s₀ : Scheduler} (h : ContextOk s₀ L) (hs : Schedulable s)
    (hcur : s.currentPid = s₀.currentPid) (hcount : s.processCount = s₀.processCount)
    (hslots : ∀ i : ℕ, (i : ℤ) ≠ s₀.currentPid → s.processes i = s₀.processes i)
    (htop : ∀ i : ℕ, (s.processes i).kernelStackTop = (s₀.processes i).kernelStackTop)
    (hdead : ∀ i : ℕ, (s.processes i).state = .dead → i < s.processCount) (rsp : ℕ) :
    ((schedule s rsp).1 = (L.interrupted s₀ rsp).owed (schedule s rsp).2.currentPid.toNat ∧
      (1 ≤ (schedule s rsp).2.currentPid → (schedule s rsp).2.tssRsp0
        = ((schedule s rsp).2.slot (schedule s rsp).2.currentPid).kernelStackTop)) ∧
    ContextOk (schedule s rsp).2 (L.interrupted s₀ rsp) := by
  have htable := hs.tableOk_schedule hdead rsp
  obtain ⟨n, hn, -, hready, heq⟩ := hs.schedule_spec rsp
  have hnn := hs.cur_nonneg
  have hlt := hs.cur_lt
  -- the saved context of a live slot is what the ledger owes once the call is noted
  have howed : ∀ i : ℕ, i < s.processCount → ((saveContext s rsp).processes i).state ≠ .dead →
      ((saveContext s rsp).processes i).rsp = (L.interrupted s₀ rsp).owed i := by
    intro i hi hd
    by_cases hic : i = s.currentPid.toNat
    · cases hs.current with
      | inl hrun =>
        rw [hic, saveContext_running s rsp hrun]
        simp [Ledger.owed, Ledger.interrupted, hcur]
      | inr hdd =>
        rw [saveContext_dead s rsp hdd, hic] at hd
        exact absurd hdd hd
    · rw [saveContext_of_ne s rsp i hic] at hd ⊢
      have hne : (i : ℤ) ≠ s₀.currentPid := by omega
      rw [hslots i hne] at hd ⊢
      rw [h.rsp_eq i (by omega) hne hd]
      have hne' : i ≠ s₀.currentPid.toNat := by omega
      simp only [Ledger.owed, Ledger.interrupted, Function.update_of_ne hne']
  have htops : ∀ i : ℕ, ((saveContext s rsp).processes i).kernelStackTop
      = (s₀.processes i).kernelStackTop := by
    intro i
    rw [← htop i]
    by_cases hic : i = s.currentPid.toNat
    · cases hs.current with
      | inl hrun => rw [hic, saveContext_running s rsp hrun]
      | inr hdd => rw [saveContext_dead s rsp hdd]
    · rw [saveContext_of_ne s rsp i hic]
  rw [heq] at htable ⊢
  refine ⟨⟨?_, ?_⟩, htable, ?_, ?_, ?_⟩
  · rw [switchTo_currentPid, Int.toNat_natCast]
    exact howed n hn (by rw [hready]; simp)
  · intro h1
    rw [switchTo_currentPid] at h1
    have hne : (s₀.processes n).kernelStackTop ≠ 0 := h.stack n (by omega) (by omega)
    rw [switchTo_tssRsp0, switchTo_currentPid, slot_natCast, switchTo_processes, htops]
    simp [hne, htops]
  · intro i hi hne hd
    rw [switchTo_processCount, saveContext_processCount] at hi
    rw [switchTo_currentPid] at hne
    have hin : i ≠ n := by omega
    rw [switchTo_processes, if_neg hin] at hd ⊢
    exact howed i hi hd
  · intro i h1 hi
    rw [switchTo_processCount, saveContext_processCount, hcount] at hi
    have hne := h.stack i h1 hi
    rw [switchTo_processes]
    by_cases hin : i = n
    · rw [if_pos hin]
      show ((saveContext s rsp).processes n).kernelStackTop ≠ 0
      rw [htops, ← hin]
      exact hne
    · rw [if_neg hin, htops]
      exact hne
  · intro i hi
    rw [switchTo_processCount, saveContext_processCount, hcount] at hi
    have hne : i ≠ s₀.currentPid.toNat := by omega
    simp only [Ledger.interrupted, Function.update_of_ne hne]
    exact h.fresh i hi

/-- What the two scheduling events have in common: the state `schedule` is called on agrees with the
state before the event everywhere but in the current slot's state. -/
theorem ContextOk.scheduling (h : ContextOk s L) {e : Event} (he : e.schedules) (hi : Issued s e) :
    returned s e = some ((L.note s e).owed (step s e).currentPid.toNat) ∧
      (1 ≤ (step s e).currentPid →
        (step s e).tssRsp0 = ((step s e).slot (step s e).currentPid).kernelStackTop) ∧
      ContextOk (step s e) (L.note s e) := by
  have hok := h.table
  cases e with
  | createUser entry pml4 => exact he.elim
  | createKernel entry => exact he.elim
  | alloc => exact he.elim
  | tick rsp =>
    have hsched := h.schedule_call hok.schedulable rfl rfl (fun _ _ => rfl) (fun _ => rfl) hok.dead_lt rsp
    exact ⟨congrArg some hsched.1.1, hsched.1.2, hsched.2⟩
  | exit rsp =>
    have htop : ∀ i : ℕ, ((killCurrentProcess s).processes i).kernelStackTop
        = (s.processes i).kernelStackTop := by
      intro i
      by_cases hic : (i : ℤ) = s.currentPid
      · rw [show i = s.currentPid.toNat from by omega, killCurrentProcess_current hok.cur_nonneg]
      · rw [killCurrentProcess_of_ne hok.cur_nonneg i hic]
    have hsched := h.schedule_call (hok.schedulable_kill hi) (killCurrentProcess_currentPid s)
      (killCurrentProcess_processCount s) (killCurrentProcess_of_ne hok.cur_nonneg) htop hok.dead_lt_kill rsp
    exact ⟨congrArg some hsched.1.1, hsched.1.2, hsched.2⟩

/-- **The step lemma for contexts.** -/
theorem contextOk_step (h : ContextOk s L) (e : Event) (hi : Issued s e) :
    ContextOk (step s e) (L.note s e) := by
  have htable := tableOk_step s e h.table hi
  cases e with
  | createUser entry pml4 =>
    show ContextOk (createUserProcess s entry pml4)
      (L.created s (createUserProcess s entry pml4) pml4)
    cases createUserProcess_cases s entry pml4 with
    | inl heq =>
      rw [heq, Ledger.created, if_pos rfl]
      exact h
    | inr hex =>
      obtain ⟨-, p, -, hslots, hcount⟩ := hex
      refine h.created pml4 htable hslots (createUserProcess_globals s entry pml4).1 ?_
      cases hcount with
      | inl hc => exact Or.inl hc
      | inr hc => exact Or.inr ⟨hc.1, hc.2.2⟩
  | createKernel entry =>
    show ContextOk (createKernelProcess s entry)
      (L.created s (createKernelProcess s entry) s.kernelPml4)
    cases createKernelProcess_cases s entry with
    | inl heq =>
      rw [heq, Ledger.created, if_pos rfl]
      exact h
    | inr hex =>
      obtain ⟨-, p, -, -, htop, hslots, hcount⟩ := hex
      exact h.created s.kernelPml4 htable hslots (createKernelProcess_globals s entry).1
        (Or.inr ⟨hcount, htop⟩)
  | tick rsp => exact (h.scheduling (e := .tick rsp) trivial hi).2.2
  | exit rsp => exact (h.scheduling (e := .exit rsp) trivial hi).2.2
  | alloc => exact ⟨htable, h.rsp_eq, h.stack, h.fresh⟩

/-- The contexts along a run from boot. -/
theorem contextOk_run (pmm : PmmState) (mem : Memory) (kernelPml4 tssRsp0 : ℕ) (es : List Event)
    (hes : Admits step Issued (boot pmm mem kernelPml4 tssRsp0) es) :
    ContextOk (run step (boot pmm mem kernelPml4 tssRsp0) es)
      (ledger pmm mem kernelPml4 tssRsp0 es) := by
  -- induction from the right: the ledger of `es ++ [e]` is one note beyond the ledger of `es`
  induction es using List.reverseRecOn with
  | nil => exact contextOk_boot pmm mem kernelPml4 tssRsp0
  | append_singleton es e ih =>
    obtain ⟨hes', he⟩ := (admits_concat _ es e).mp hes
    rw [ledger, trace_concat, run_concat]
    exact contextOk_step (ih hes') e he

/-- **A resumed process finds its own context.**  Along every run from `init_multitasking`, a call of
`schedule` that makes `p` current returns the argument of the last call made while `p` was current, or
the frame its creator stored when `p` has never run; and for `p ≥ 1` the TSS holds `p`'s kernel stack. -/
theorem schedule_resumes_saved_context (pmm : PmmState) (mem : Memory) (kernelPml4 tssRsp0 : ℕ)
    (es : List Event) (e : Event) (he : e.schedules)
    (hes : Admits step Issued (boot pmm mem kernelPml4 tssRsp0) (es ++ [e])) :
    returned (run step (boot pmm mem kernelPml4 tssRsp0) es) e
      = some ((ledger pmm mem kernelPml4 tssRsp0 (es ++ [e])).owed
          (run step (boot pmm mem kernelPml4 tssRsp0) (es ++ [e])).currentPid.toNat) ∧
    (1 ≤ (run step (boot pmm mem kernelPml4 tssRsp0) (es ++ [e])).currentPid →
      (run step (boot pmm mem kernelPml4 tssRsp0) (es ++ [e])).tssRsp0
        = ((run step (boot pmm mem kernelPml4 tssRsp0) (es ++ [e])).slot
            (run step (boot pmm mem kernelPml4 tssRsp0) (es ++ [e])).currentPid).kernelStackTop) := by
  obtain ⟨hes', hi⟩ := (admits_concat _ es e).mp hes
  have h := (contextOk_run pmm mem kernelPml4 tssRsp0 es hes').scheduling he hi
  rw [ledger, trace_concat, run_concat]
  exact ⟨h.1, h.2.1⟩

/-- After the user process of a small run exits, the shell resumes where the first tick took it. -/
theorem schedule_resumes_shell :
    returned (run step smallBoot [.createUser 0x10000000 0x5000, .tick 0x9000]) (.exit 0x8000)
      = some 0x9000 := by
  have h := (schedule_resumes_saved_context smallPmm (fun _ => 0) 0x2000 0
    [.createUser 0x10000000 0x5000, .tick 0x9000] (.exit 0x8000) trivial
    ⟨trivial, trivial, by show (1 : ℤ) ≤ _; decide, trivial⟩).1
  exact h.trans (by decide)

/-! ### Address spaces -/

/-- The page tables loaded are those of the current process. -/
def Follows (s : Scheduler) (L : Ledger) : Prop := s.currentPml4 = L.space s.currentPid.toNat

/-- The condition, on the state a call of `schedule` finds, under which it does not return to the
shell from another address space: the kernel's tables are loaded already, or some process above the
current one is ready. -/
def SpaceKept (s : Scheduler) : Prop :=
  s.currentPml4 = s.kernelPml4 ∨
    ∃ k : ℕ, s.currentPid < k ∧ k < s.processCount ∧ (s.processes k).state = .ready

/-- The side condition of these runs: exits come from pids `≥ 1`, and `exec` has already returned when
`vmm_create_user_pml4` gave it no page table. -/
def Launched (s : Scheduler) (e : Event) : Prop :=
  Issued s e ∧ ∀ entry pml4, e = .createUser entry pml4 → pml4 ≠ 0

/-- Every created slot holds the address space it was created with; the shell's slot holds `0`. -/
structure SpaceOk (s : Scheduler) (L : Ledger) : Prop where
  table : TableOk s
  kernel_ne : s.kernelPml4 ≠ 0
  shell : (s.processes 0).pml4 = 0
  shell_space : L.space 0 = s.kernelPml4
  created : ∀ i : ℕ, 1 ≤ i → i < s.processCount →
    (s.processes i).pml4 = L.space i ∧ L.space i ≠ 0

theorem spaceOk_boot (pmm : PmmState) (mem : Memory) (kernelPml4 tssRsp0 : ℕ) (hk : kernelPml4 ≠ 0) :
    SpaceOk (boot pmm mem kernelPml4 tssRsp0) (Ledger.initial kernelPml4) := by
  refine ⟨tableOk_boot pmm mem kernelPml4 tssRsp0, hk, rfl, rfl, ?_⟩
  intro i h1 hi
  have h0 : i < 1 := hi
  omega

theorem saveContext_pml4 (s : Scheduler) (rsp i : ℕ) :
    ((saveContext s rsp).processes i).pml4 = (s.processes i).pml4 := by
  by_cases hic : i = s.currentPid.toNat
  · simp only [saveContext]
    split
    · rfl
    · rw [hic]
      simp [Scheduler.setSlot, Scheduler.slot]
  · rw [saveContext_of_ne s rsp i hic]

/-- **One call of `schedule`.**  The tables loaded afterwards are the current process's exactly when
`SpaceKept` holds before. -/
theorem SpaceOk.follows_schedule {s₀ : Scheduler} (h : SpaceOk s₀ L) (hs : Schedulable s)
    (hcur : s.currentPid = s₀.currentPid) (hcount : s.processCount = s₀.processCount)
    (hkernel : s.kernelPml4 = s₀.kernelPml4) (hloaded : s.currentPml4 = s₀.currentPml4)
    (hslots : ∀ i : ℕ, (i : ℤ) ≠ s₀.currentPid → s.processes i = s₀.processes i)
    (hpml4 : ∀ i : ℕ, (s.processes i).pml4 = (s₀.processes i).pml4)
    (hdead : ∀ i : ℕ, (s.processes i).state = .dead → i < s.processCount) (rsp : ℕ) :
    (Follows (schedule s rsp).2 (L.interrupted s₀ rsp) ↔ SpaceKept s₀) ∧
      SpaceOk (schedule s rsp).2 (L.interrupted s₀ rsp) := by
  have htable := hs.tableOk_schedule hdead rsp
  obtain ⟨n, hn, hsel, -, heq⟩ := hs.schedule_spec rsp
  have hnn := hs.cur_nonneg
  have hready : ∀ k : ℕ, s.currentPid < k → s.processes k = s₀.processes k := by
    intro k hk
    exact hslots k (by omega)
  have htables : ∀ i : ℕ, ((saveContext s rsp).processes i).pml4 = (s₀.processes i).pml4 := by
    intro i
    rw [saveContext_pml4, hpml4]
  rw [heq] at htable ⊢
  refine ⟨?_, htable, ?_, ?_, ?_, ?_⟩
  · have hspace : (L.interrupted s₀ rsp).space = L.space := rfl
    rw [Follows, switchTo_currentPid, Int.toNat_natCast, switchTo_currentPml4, htables, hspace,
      saveContext_currentPml4, hloaded]
    cases hsel with
    | inl habove =>
      -- a process above was ready: its own tables are loaded
      obtain ⟨hlt, hlt', hst, -⟩ := habove
      obtain ⟨hp, hp0⟩ := h.created n (by omega) (by omega)
      rw [hp, if_pos hp0]
      refine ⟨fun _ => Or.inr ⟨n, by omega, by omega, ?_⟩, fun _ => rfl⟩
      rw [← hready n hlt]
      exact hst
    | inr hhome =>
      -- back to the shell, whose slot names no tables: what was loaded stays loaded
      obtain ⟨h0, hnone⟩ := hhome
      subst h0
      rw [h.shell, h.shell_space, if_neg (by simp)]
      refine ⟨Or.inl, fun hkept => ?_⟩
      cases hkept with
      | inl hk => exact hk
      | inr hk =>
        obtain ⟨k, hk1, hk2, hk3⟩ := hk
        refine absurd ?_ (hnone k (by omega) (by omega))
        rw [hready k (by omega)]
        exact hk3
  · rw [switchTo_kernelPml4, saveContext_kernelPml4, hkernel]
    exact h.kernel_ne
  · rw [switchTo_processes]
    by_cases h0 : 0 = n
    · rw [if_pos h0, ← h0]
      show ((saveContext s rsp).processes 0).pml4 = 0
      rw [htables]
      exact h.shell
    · rw [if_neg h0, htables]
      exact h.shell
  · rw [switchTo_kernelPml4, saveContext_kernelPml4, hkernel]
    exact h.shell_space
  · intro i h1 hi
    rw [switchTo_processCount, saveContext_processCount, hcount] at hi
    have hc := h.created i h1 hi
    rw [switchTo_processes]
    by_cases hin : i = n
    · rw [if_pos hin]
      show ((saveContext s rsp).processes n).pml4 = L.space i ∧ L.space i ≠ 0
      rw [htables, ← hin]
      exact hc
    · rw [if_neg hin, htables]
      exact hc

/-- Both scheduling events at once. -/
theorem SpaceOk.scheduling (h : SpaceOk s L) {e : Event} (he : e.schedules) (hi : Issued s e) :
    (Follows (step s e) (L.note s e) ↔ SpaceKept s) ∧ SpaceOk (step s e) (L.note s e) := by
  have hok := h.table
  cases e with
  | createUser entry pml4 => exact he.elim
  | createKernel entry => exact he.elim
  | alloc => exact he.elim
  | tick rsp =>
    exact h.follows_schedule hok.schedulable rfl rfl rfl rfl (fun _ _ => rfl) (fun _ => rfl)
      hok.dead_lt rsp
  | exit rsp =>
    have hkill := killCurrentProcess_of_nonneg hok.cur_nonneg
    refine h.follows_schedule (hok.schedulable_kill hi) (killCurrentProcess_currentPid s)
      (killCurrentProcess_processCount s) (by rw [hkill]; rfl) (by rw [hkill]; rfl)
      (killCurrentProcess_of_ne hok.cur_nonneg) ?_ (hok.dead_lt_kill) rsp
    intro i
    by_cases hic : (i : ℤ) = s.currentPid
    · rw [show i = s.currentPid.toNat from by omega, killCurrentProcess_current hok.cur_nonneg]
    · rw [killCurrentProcess_of_ne hok.cur_nonneg i hic]

/-- Filling the free slot with its own address space. -/
theorem SpaceOk.created_slot (h : SpaceOk s L) {s' : Scheduler} {p : ProcessEntry} {space : ℕ}
    (htable : TableOk s') (hslots : s'.processes = Function.update s.processes s.processCount p)
    (hkernel : s'.kernelPml4 = s.kernelPml4)
    (hcount : s'.processCount = s.processCount ∨
      (s'.processCount = s.processCount + 1 ∧ p.pml4 = space ∧ space ≠ 0)) :
    SpaceOk s' (L.created s s' space) := by
  have hpos := h.table.count_pos
  have hold : ∀ i : ℕ, i < s.processCount → s'.processes i = s.processes i := by
    intro i hi
    rw [hslots, Function.update_of_ne (by omega)]
  have hshell : (s'.processes 0).pml4 = 0 := by
    rw [hold 0 (by omega)]
    exact h.shell
  cases hcount with
  | inl hc =>
    rw [Ledger.created, if_pos hc]
    refine ⟨htable, by rw [hkernel]; exact h.kernel_ne, hshell, by rw [hkernel]; exact h.shell_space, ?_⟩
    intro i h1 hi
    rw [hold i (by omega)]
    exact h.created i h1 (by omega)
  | inr hc =>
    rw [Ledger.created, if_neg (by omega)]
    refine ⟨htable, by rw [hkernel]; exact h.kernel_ne, hshell, ?_, ?_⟩
    · rw [hkernel, ← h.shell_space]
      exact Function.update_of_ne (by omega) _ _
    · intro i h1 hi
      by_cases hlt : i < s.processCount
      · rw [hold i hlt]
        simp only [Function.update_of_ne (show i ≠ s.processCount from by omega)]
        exact h.created i h1 hlt
      · have hi' : i = s.processCount := by omega
        rw [hi', hslots]
        simp only [Function.update_self]
        exact hc.2

/-- **The step lemma for address spaces.** -/
theorem spaceOk_step (h : SpaceOk s L) (e : Event) (hi : Launched s e) :
    SpaceOk (step s e) (L.note s e) := by
  have htable := tableOk_step s e h.table hi.1
  cases e with
  | createUser entry pml4 =>
    show SpaceOk (createUserProcess s entry pml4) (L.created s (createUserProcess s entry pml4) pml4)
    cases createUserProcess_cases s entry pml4 with
    | inl heq =>
      rw [heq, Ledger.created, if_pos rfl]
      exact h
    | inr hex =>
      obtain ⟨-, p, -, hslots, hcount⟩ := hex
      refine h.created_slot htable hslots (createUserProcess_globals s entry pml4).2.1 ?_
      cases hcount with
      | inl hc => exact Or.inl hc
      | inr hc => exact Or.inr ⟨hc.1, hc.2.1, hi.2 entry pml4 rfl⟩
  | createKernel entry =>
    show SpaceOk (createKernelProcess s entry)
      (L.created s (createKernelProcess s entry) s.kernelPml4)
    cases createKernelProcess_cases s entry with
    | inl heq =>
      rw [heq, Ledger.created, if_pos rfl]
      exact h
    | inr hex =>
      obtain ⟨-, p, -, hpml4, -, hslots, hcount⟩ := hex
      exact h.created_slot htable hslots (createKernelProcess_globals s entry).2.1
        (Or.inr ⟨hcount, hpml4, h.kernel_ne⟩)
  | tick rsp => exact (h.scheduling (e := .tick rsp) trivial hi.1).2
  | exit rsp => exact (h.scheduling (e := .exit rsp) trivial hi.1).2
  | alloc => exact ⟨htable, h.kernel_ne, h.shell, h.shell_space, h.created⟩

/-- The address spaces along a run from boot. -/
theorem spaceOk_run (pmm : PmmState) (mem : Memory) (kernelPml4 tssRsp0 : ℕ) (hk : kernelPml4 ≠ 0)
    (es : List Event) (hes : Admits step Launched (boot pmm mem kernelPml4 tssRsp0) es) :
    SpaceOk (run step (boot pmm mem kernelPml4 tssRsp0) es)
      (ledger pmm mem kernelPml4 tssRsp0 es) := by
  induction es using List.reverseRecOn with
  | nil => exact spaceOk_boot pmm mem kernelPml4 tssRsp0 hk
  | append_singleton es e ih =>
    obtain ⟨hes', he⟩ := (admits_concat _ es e).mp hes
    rw [ledger, trace_concat, run_concat]
    exact spaceOk_step (ih hes') e he

/-- One scheduling event in the middle of a run. -/
theorem follows_iff (pmm : PmmState) (mem : Memory) (kernelPml4 tssRsp0 : ℕ) (hk : kernelPml4 ≠ 0)
    (es : List Event) (e : Event) (he : e.schedules)
    (hes : Admits step Launched (boot pmm mem kernelPml4 tssRsp0) (es ++ [e])) :
    Follows (run step (boot pmm mem kernelPml4 tssRsp0) (es ++ [e]))
        (ledger pmm mem kernelPml4 tssRsp0 (es ++ [e])) ↔
      SpaceKept (run step (boot pmm mem kernelPml4 tssRsp0) es) := by
  obtain ⟨hes', hi⟩ := (admits_concat _ es e).mp hes
  rw [ledger, trace_concat, run_concat]
  exact ((spaceOk_run pmm mem kernelPml4 tssRsp0 hk es hes').scheduling he hi.1).1

/-- **The address space follows the process exactly when no switch goes home from elsewhere.**  Along
every run of creations, ticks and exits from boot, the tables loaded after every call of `schedule`
are those of the process made current if and only if every call finds the kernel's tables loaded or a
ready process above the current one. -/
theorem address_space_follows_iff (pmm : PmmState) (mem : Memory) (kernelPml4 tssRsp0 : ℕ)
    (hk : kernelPml4 ≠ 0) (es : List Event)
    (hes : Admits step Launched (boot pmm mem kernelPml4 tssRsp0) es) :
    (∀ fs e gs, es = fs ++ e :: gs → e.schedules →
      Follows (run step (boot pmm mem kernelPml4 tssRsp0) (fs ++ [e]))
        (ledger pmm mem kernelPml4 tssRsp0 (fs ++ [e]))) ↔
    (∀ fs e gs, es = fs ++ e :: gs → e.schedules →
      SpaceKept (run step (boot pmm mem kernelPml4 tssRsp0) fs)) := by
  have hstep : ∀ fs e gs, es = fs ++ e :: gs → e.schedules →
      (Follows (run step (boot pmm mem kernelPml4 tssRsp0) (fs ++ [e]))
          (ledger pmm mem kernelPml4 tssRsp0 (fs ++ [e])) ↔
        SpaceKept (run step (boot pmm mem kernelPml4 tssRsp0) fs)) := by
    intro fs e gs heq he
    apply follows_iff pmm mem kernelPml4 tssRsp0 hk fs e he
    rw [heq, show fs ++ e :: gs = (fs ++ [e]) ++ gs from by simp] at hes
    exact ((admits_append _ (fs ++ [e]) gs).mp hes).1
  constructor
  · intro h fs e gs heq he
    exact (hstep fs e gs heq he).mp (h fs e gs heq he)
  · intro h fs e gs heq he
    exact (hstep fs e gs heq he).mpr (h fs e gs heq he)

/-- While the user process is the one switched to, the condition holds and its tables are loaded. -/
theorem address_space_follows_user :
    Follows (run step smallBoot [.createUser 0x10000000 0x5000, .tick 0x9000])
      (ledger smallPmm (fun _ => 0) 0x2000 0 [.createUser 0x10000000 0x5000, .tick 0x9000]) := by
  refine (address_space_follows_iff smallPmm (fun _ => 0) 0x2000 0 (by decide)
    [.createUser 0x10000000 0x5000, .tick 0x9000] ?_).mpr ?_
    [.createUser 0x10000000 0x5000] (.tick 0x9000) [] rfl trivial
  · refine ⟨⟨trivial, ?_⟩, ⟨trivial, ?_⟩, trivial⟩
    · rintro entry pml4 ⟨⟩
      decide
    · rintro entry pml4 ⟨⟩
  · -- the run has one scheduling event, and it is taken with the kernel's tables still loaded
    intro fs e gs heq he
    left
    match fs, heq with
    | [], heq =>
      obtain ⟨rfl, -⟩ := List.cons.inj heq
      exact he.elim
    | [_], heq =>
      obtain ⟨rfl, -⟩ := List.cons.inj heq
      rfl
    | _ :: _ :: fs, heq => simp at heq

/-- **The shell runs on a user process's page tables.**  One user process, one tick to it, one tick
back: the shell is current, the user's tables are still loaded. -/
theorem shell_keeps_user_tables :
    Admits step Launched smallBoot [.createUser 0x10000000 0x5000, .tick 0x9000, .tick 0x8000] ∧
      (run step smallBoot [.createUser 0x10000000 0x5000, .tick 0x9000, .tick 0x8000]).currentPid = 0 ∧
      ¬ Follows (run step smallBoot [.createUser 0x10000000 0x5000, .tick 0x9000, .tick 0x8000])
        (ledger smallPmm (fun _ => 0) 0x2000 0
          [.createUser 0x10000000 0x5000, .tick 0x9000, .tick 0x8000]) := by
  refine ⟨⟨⟨trivial, ?_⟩, ⟨trivial, ?_⟩, ⟨trivial, ?_⟩, trivial⟩, by decide, ?_⟩
  · rintro entry pml4 ⟨⟩
    decide
  · rintro entry pml4 ⟨⟩
  · rintro entry pml4 ⟨⟩
  · show ¬ _ = _
    decide

end OsEojin.Process
