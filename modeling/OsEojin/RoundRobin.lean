import OsEojin.Lib.Rotation
import OsEojin.ProcessTable

/-!
# Round robin

Between two creations or exits, `schedule` hands the processor from one live process to the next.

* `scheduleLoop_eq_find`: the search visits the slots behind the current one, and this one last;
* `Turning`, `turning_step`: what every event keeps, whoever exits;
* `schedule_turn`: one call moves to the first of the turns;
* `round_robin`: a round of calls, from any reachable table.
-/

namespace OsEojin.Process

open OsEojin.Lib OsEojin.Lib.Runs OsEojin.Lib.Rotation OsEojin.Lib.ByteMemory OsEojin.Pmm

/-! ### The search -/

/-- Every slot of the list is the one the search comes to after its predecessor. -/
def Searched (s : Scheduler) : ℤ → List ℕ → Prop
  | _, [] => True
  | next, n :: l => nextSlot s next = n ∧ Searched s n l

/-- Where the search stops. -/
def stops (s : Scheduler) (n : ℕ) : Bool :=
  decide ((s.processes n).state = .ready) || decide ((n : ℤ) = s.currentPid)

theorem scheduleLoop_eq_find {s : Scheduler} {l : List ℕ} :
    ∀ {budget : ℕ} {next : ℤ}, Searched s next l → l.length ≤ budget → (∃ n ∈ l, stops s n = true) →
      scheduleLoop s budget next = (l.find? (stops s)).map fun n => (n : ℤ) := by
  induction l with
  | nil =>
    intro budget next _ _ hstop
    obtain ⟨n, hn, -⟩ := hstop
    cases hn
  | cons n l ih =>
    intro budget next hsearched hlength hstop
    cases budget with
    | zero => exact absurd hlength (Nat.not_succ_le_zero _)
    | succ budget =>
      rw [scheduleLoop, hsearched.1, slot_natCast]
      by_cases hn : stops s n = true
      · have hleave : ¬ ((s.processes n).state ≠ .ready ∧ (n : ℤ) ≠ s.currentPid) := by
          rintro ⟨hready, hcur⟩
          simp [stops, hready, hcur] at hn
        rw [if_neg hleave, List.find?_cons_of_pos hn]
        rfl
      · have hstay : (s.processes n).state ≠ .ready ∧ (n : ℤ) ≠ s.currentPid := by
          simpa [stops] using hn
        rw [if_pos hstay, List.find?_cons_of_neg hn]
        apply ih hsearched.2 (Nat.le_of_succ_le_succ hlength)
        obtain ⟨x, hx, hstops⟩ := hstop
        cases List.mem_cons.mp hx with
        | inl heq =>
          rw [heq] at hstops
          exact absurd hstops hn
        | inr htail => exact ⟨x, htail, hstops⟩

/-- The slots in the order of the search. -/
theorem searched_order {s : Scheduler} {c : ℕ} (hc : c < s.processCount) :
    Searched s c (order s.processCount c) := by
  have hstep : ∀ (l : List ℕ) (next : ℕ), next % s.processCount = next →
      (∀ j (hj : j < l.length), l[j] = (j + (next + 1)) % s.processCount) → Searched s next l := by
    intro l
    induction l with
    | nil =>
      intro next _ _
      trivial
    | cons n l ih =>
      intro next hnext hget
      have hlt : next < s.processCount := by
        rw [← hnext]
        exact Nat.mod_lt _ (by omega)
      have hn : n = (next + 1) % s.processCount := by
        have hfirst := hget 0 (Nat.succ_pos _)
        rw [List.getElem_cons_zero, Nat.zero_add] at hfirst
        exact hfirst
      refine ⟨?_, ih n ?_ ?_⟩
      · rw [nextSlot, hn]
        by_cases hwrap : next + 1 = s.processCount
        · rw [if_pos (by omega), hwrap, Nat.mod_self]
          rfl
        · rw [if_neg (by omega), Nat.mod_eq_of_lt (by omega)]
          rfl
      · rw [hn, Nat.mod_mod]
      · intro j hj
        have htail := hget (j + 1) (Nat.succ_lt_succ hj)
        rw [List.getElem_cons_succ] at htail
        rw [htail, hn, show j + ((next + 1) % s.processCount + 1) = j + 1 + (next + 1) % s.processCount from by omega,
          Nat.add_mod_mod]
  exact hstep _ c (Nat.mod_eq_of_lt hc) fun j hj => order_getElem hj

/-! ### What every event keeps -/

/-- What `schedule` finds, whether the current process was killed or not. -/
structure Interrupted (s : Scheduler) : Prop where
  count_le : s.processCount ≤ maxProcesses
  cur_nonneg : 0 ≤ s.currentPid
  cur_lt : s.currentPid < s.processCount
  others : ∀ i : ℕ, i < s.processCount → (i : ℤ) ≠ s.currentPid → (s.processes i).state ≠ .running

/-- What it leaves: the current process is the one that runs. -/
structure Turning (s : Scheduler) : Prop extends Interrupted s where
  current : (s.processes s.currentPid.toNat).state = .running

section Turn

variable {s : Scheduler}

theorem Interrupted.cur_toNat (h : Interrupted s) : ((s.currentPid.toNat : ℕ) : ℤ) = s.currentPid :=
  Int.toNat_of_nonneg h.cur_nonneg

theorem Interrupted.toNat_lt (h : Interrupted s) : s.currentPid.toNat < s.processCount := by
  have hlt := h.cur_lt
  have hnonneg := h.cur_nonneg
  omega

/-- The search ends: it comes back to the current slot. -/
theorem Interrupted.scheduleLoop_find (h : Interrupted s) (rsp : ℕ) :
    ∃ n : ℕ, n < s.processCount ∧
      (order s.processCount s.currentPid.toNat).find? (stops (saveContext s rsp)) = some n ∧
      scheduleLoop (saveContext s rsp) (maxProcesses + 1) (saveContext s rsp).currentPid = some (n : ℤ) := by
  have hcount := saveContext_processCount s rsp
  have hcur := saveContext_currentPid s rsp
  have hlt : s.currentPid.toNat < (saveContext s rsp).processCount := by
    rw [hcount]
    exact h.toNat_lt
  have hsearched := searched_order hlt
  have hmem : s.currentPid.toNat ∈ order s.processCount s.currentPid.toNat := mem_order.mpr h.toNat_lt
  have hback : stops (saveContext s rsp) s.currentPid.toNat = true := by
    rw [stops, hcur, h.cur_toNat]
    simp
  have hlength : (order (saveContext s rsp).processCount s.currentPid.toNat).length ≤ maxProcesses + 1 := by
    rw [order_length, hcount]
    exact Nat.le_succ_of_le h.count_le
  have hloop := scheduleLoop_eq_find hsearched hlength ⟨_, by rw [hcount]; exact hmem, hback⟩
  obtain ⟨n, hn⟩ := Option.isSome_iff_exists.mp (List.find?_isSome.mpr ⟨_, hmem, hback⟩)
  rw [hcount, hn, h.cur_toNat, ← hcur] at hloop
  exact ⟨n, mem_order.mp (List.mem_of_find?_eq_some hn), hn, hloop⟩

/-- **`schedule`** switches to a slot below the count. -/
theorem Interrupted.schedule_switches (h : Interrupted s) (rsp : ℕ) :
    ∃ n : ℕ, n < s.processCount ∧ (schedule s rsp).2 = switchTo (saveContext s rsp) n := by
  obtain ⟨n, hn, -, hloop⟩ := h.scheduleLoop_find rsp
  have hfall : fallback (saveContext s rsp) n = (0 : ℕ) ∨ fallback (saveContext s rsp) n = n := by
    rw [fallback]
    split
    · split
      · exact Or.inl rfl
      · exact Or.inr rfl
    · exact Or.inr rfl
  simp only [schedule, hloop]
  cases hfall with
  | inl hzero => exact ⟨0, by omega, by rw [hzero]⟩
  | inr hsame => exact ⟨n, hn, by rw [hsame]⟩

/-- Nobody runs once the context is saved. -/
theorem Interrupted.saved_not_running (h : Interrupted s) (rsp : ℕ) {i : ℕ} (hi : i < s.processCount) :
    ((saveContext s rsp).processes i).state ≠ .running := by
  by_cases hic : i = s.currentPid.toNat
  · rw [hic, saveContext]
    split
    · rename_i hdead
      intro hrun
      rw [Scheduler.slot, hrun] at hdead
      cases hdead
    · dsimp only [Scheduler.setSlot]
      rw [Function.update_self]
      dsimp only
      split
      · intro hrun
        cases hrun
      · assumption
  · rw [saveContext_of_ne s rsp i hic]
    apply h.others i hi
    have hcur := h.cur_toNat
    omega

theorem Interrupted.turning (h : Interrupted s) (rsp : ℕ) : Turning (schedule s rsp).2 := by
  obtain ⟨n, hn, heq⟩ := h.schedule_switches rsp
  rw [heq]
  refine ⟨⟨?_, Int.natCast_nonneg n, ?_, ?_⟩, ?_⟩
  · rw [switchTo_processCount, saveContext_processCount]
    exact h.count_le
  · rw [switchTo_currentPid, switchTo_processCount, saveContext_processCount]
    exact Int.ofNat_lt.mpr hn
  · intro i hi hne
    rw [switchTo_processCount, saveContext_processCount] at hi
    rw [switchTo_currentPid] at hne
    rw [switchTo_processes, if_neg fun hin => hne (congrArg _ hin)]
    exact h.saved_not_running rsp hi
  · rw [switchTo_currentPid, Int.toNat_natCast, switchTo_processes, if_pos rfl]

/-- Filling the slot at `process_count` changes no turn. -/
theorem Turning.update_free (h : Turning s) {s' : Scheduler} {p : ProcessEntry} (hp : p.state = .ready)
    (hslots : s'.processes = Function.update s.processes s.processCount p)
    (hcur : s'.currentPid = s.currentPid)
    (hcount : s'.processCount = s.processCount ∨
      (s'.processCount = s.processCount + 1 ∧ s.processCount < maxProcesses)) : Turning s' := by
  have hlt := h.cur_lt
  have hle := h.count_le
  have hnonneg := h.cur_nonneg
  have hold : ∀ i : ℕ, i ≠ s.processCount → s'.processes i = s.processes i := by
    intro i hi
    rw [hslots, Function.update_of_ne hi]
  refine ⟨⟨by omega, by omega, by omega, ?_⟩, ?_⟩
  · intro i hi hne
    by_cases hic : i = s.processCount
    · rw [hic, hslots, Function.update_self, hp]
      intro hrun
      cases hrun
    · rw [hold i hic]
      exact h.others i (by omega) (by omega)
  · rw [hcur, hold _ (by omega)]
    exact h.current

theorem Turning.interrupted_kill (h : Turning s) : Interrupted (killCurrentProcess s) := by
  refine ⟨?_, ?_, ?_, ?_⟩
  · rw [killCurrentProcess_processCount]
    exact h.count_le
  · rw [killCurrentProcess_currentPid]
    exact h.cur_nonneg
  · rw [killCurrentProcess_currentPid, killCurrentProcess_processCount]
    exact h.cur_lt
  · intro i hi hne
    rw [killCurrentProcess_processCount] at hi
    rw [killCurrentProcess_currentPid] at hne
    rw [killCurrentProcess_of_ne h.cur_nonneg i hne]
    exact h.others i hi hne

/-- **The step lemma**: any event, whoever exits. -/
theorem turning_step (s : Scheduler) (e : Event) (h : Turning s) : Turning (step s e) := by
  cases e with
  | createUser entry pml4 =>
    show Turning (createUserProcess s entry pml4)
    cases createUserProcess_cases s entry pml4 with
    | inl heq =>
      rw [heq]
      exact h
    | inr hex =>
      obtain ⟨hlt, p, hp, hslots, hcount⟩ := hex
      refine h.update_free hp hslots (createUserProcess_globals s entry pml4).1 ?_
      cases hcount with
      | inl hc => exact Or.inl hc
      | inr hc => exact Or.inr ⟨hc.1, hlt⟩
  | createKernel entry =>
    show Turning (createKernelProcess s entry)
    cases createKernelProcess_cases s entry with
    | inl heq =>
      rw [heq]
      exact h
    | inr hex =>
      obtain ⟨hlt, p, hp, -, -, hslots, hcount⟩ := hex
      exact h.update_free hp hslots (createKernelProcess_globals s entry).1 (Or.inr ⟨hcount, hlt⟩)
  | tick rsp => exact h.toInterrupted.turning rsp
  | exit rsp => exact h.interrupted_kill.turning rsp
  | alloc => exact ⟨⟨h.count_le, h.cur_nonneg, h.cur_lt, h.others⟩, h.current⟩

end Turn

theorem turning_boot (pmm : PmmState) (mem : Memory) (kernelPml4 tssRsp0 : ℕ) :
    Turning (boot pmm mem kernelPml4 tssRsp0) := by
  refine ⟨⟨?_, le_rfl, ?_, ?_⟩, rfl⟩
  · show 1 ≤ maxProcesses
    decide
  · show (0 : ℤ) < ((1 : ℕ) : ℤ)
    decide
  · intro i hi hne
    have hzero : i = 0 := Nat.lt_one_iff.mp hi
    rw [hzero] at hne
    exact absurd rfl hne

/-! ### The turns -/

/-- Ready or running. -/
def isLive (s : Scheduler) (i : ℕ) : Bool :=
  decide ((s.processes i).state = .ready) || decide ((s.processes i).state = .running)

section Round

variable {s : Scheduler}

/-- After the save the search stops at the live processes. -/
theorem Turning.stops_saved (h : Turning s) (rsp : ℕ) {i : ℕ} (hi : i < s.processCount) :
    stops (saveContext s rsp) i = isLive s i := by
  have hcur := h.cur_toNat
  rw [stops, isLive, saveContext_currentPid]
  by_cases hic : i = s.currentPid.toNat
  · rw [hic, hcur, h.current]
    simp
  · have hne : (i : ℤ) ≠ s.currentPid := by omega
    rw [saveContext_of_ne s rsp i hic]
    simp [hne, h.others i hi hne]

/-- **One call** moves to the first of the turns. -/
theorem Turning.schedule_turn (h : Turning s) (rsp : ℕ) :
    ∃ n : ℕ, (turns s.processCount s.currentPid.toNat (isLive s)).head? = some n ∧
      (schedule s rsp).2 = switchTo (saveContext s rsp) n := by
  obtain ⟨n, hn, hfind, hloop⟩ := h.toInterrupted.scheduleLoop_find rsp
  have hsame : (order s.processCount s.currentPid.toNat).find? (stops (saveContext s rsp)) =
      (order s.processCount s.currentPid.toNat).find? (isLive s) := by
    rw [← List.head?_filter, ← List.head?_filter]
    congr 1
    exact List.filter_congr fun i hi => h.stops_saved rsp (mem_order.mp hi)
  have hready : ((saveContext s rsp).processes n).state = .ready := by
    have hrun := saveContext_running s rsp h.current
    have hcur := h.cur_toNat
    have hstop := List.find?_some hfind
    simp only [stops, saveContext_currentPid, Bool.or_eq_true, decide_eq_true_eq] at hstop
    cases hstop with
    | inl hready => exact hready
    | inr hback =>
      rw [show n = s.currentPid.toNat from by omega, hrun]
  have hfall : fallback (saveContext s rsp) n = n := by
    rw [fallback, if_neg]
    rintro ⟨-, hnot⟩
    rw [slot_natCast] at hnot
    exact hnot hready
  refine ⟨n, ?_, ?_⟩
  · rw [turns, List.head?_filter, ← hsame, hfind]
  · simp only [schedule, hloop, hfall]

/-- It changes neither the count nor who is live. -/
theorem Turning.live_schedule (h : Turning s) (rsp : ℕ) :
    (schedule s rsp).2.processCount = s.processCount ∧
      ∀ i, i < s.processCount → isLive (schedule s rsp).2 i = isLive s i := by
  obtain ⟨n, hn, heq⟩ := h.schedule_turn rsp
  have hlive : isLive s n = true := (mem_turns.mp (List.mem_of_head? hn)).2
  rw [heq]
  refine ⟨by rw [switchTo_processCount, saveContext_processCount], ?_⟩
  intro i hi
  by_cases hin : i = n
  · rw [hin, hlive, isLive, switchTo_processes, if_pos rfl]
    simp
  · rw [isLive, switchTo_processes, if_neg hin, ← h.stops_saved rsp hi, stops, saveContext_currentPid]
    have hnot := h.toInterrupted.saved_not_running rsp hi
    by_cases hic : i = s.currentPid.toNat
    · have hrun := saveContext_running s rsp h.current
      rw [hic, hrun]
      simp
    · have hcur := h.cur_toNat
      have hne : (i : ℤ) ≠ s.currentPid := by omega
      simp [hnot, hne]

end Round

/-- `t` comes from `s` by calls of `schedule` alone. -/
structure SameTurns (s t : Scheduler) : Prop extends Turning t where
  count : t.processCount = s.processCount
  live : ∀ i, i < s.processCount → isLive t i = isLive s i

theorem SameTurns.schedule {s t : Scheduler} (h : SameTurns s t) (rsp : ℕ) :
    SameTurns s (schedule t rsp).2 ∧
      (turns s.processCount t.currentPid.toNat (isLive s)).head? =
        some (schedule t rsp).2.currentPid.toNat := by
  obtain ⟨hcount, hlive⟩ := h.toTurning.live_schedule rsp
  obtain ⟨n, hn, heq⟩ := h.toTurning.schedule_turn rsp
  refine ⟨⟨h.toInterrupted.turning rsp, hcount.trans h.count, ?_⟩, ?_⟩
  · intro i hi
    rw [hlive i (by rw [h.count]; exact hi), h.live i hi]
  · have hsame : turns s.processCount t.currentPid.toNat (isLive s) =
        turns t.processCount t.currentPid.toNat (isLive t) := by
      rw [h.count]
      exact List.filter_congr fun i hi => (h.live i (mem_order.mp hi)).symm
    rw [hsame, hn, heq, switchTo_currentPid, Int.toNat_natCast]

theorem SameTurns.run {s : Scheduler} (h : Turning s) (rsps : List ℕ) :
    SameTurns s (run (fun t rsp => (Process.schedule t rsp).2) s rsps) :=
  run_invariant (C := fun _ _ => True) (fun _ rsp ht _ => (ht.schedule rsp).1) s ⟨h, rfl, fun _ _ => rfl⟩ rsps
    (admits_of_forall (fun _ _ => trivial) _ rsps)

/-- The current process comes last. -/
theorem SameTurns.last {s t : Scheduler} (h : SameTurns s t) :
    (turns s.processCount t.currentPid.toNat (isLive s)).getLast? = some t.currentPid.toNat := by
  have hlt := h.toNat_lt
  rw [h.count] at hlt
  apply turns_last hlt
  rw [← h.live _ hlt, isLive, h.current]
  rfl

theorem turning_run (pmm : PmmState) (mem : Memory) (kernelPml4 tssRsp0 : ℕ) (es : List Event) :
    Turning (run step (boot pmm mem kernelPml4 tssRsp0) es) :=
  run_invariant (C := fun _ _ => True) (fun s e h _ => turning_step s e h) _
    (turning_boot pmm mem kernelPml4 tssRsp0) es (admits_of_forall (fun _ _ => trivial) _ es)

/-- The processes that `schedule` comes to, one call for each saved stack pointer. -/
def scheduled (s : Scheduler) (rsps : List ℕ) : List ℕ :=
  visits (fun s rsp => (schedule s rsp).2) (fun s => s.currentPid.toNat) s rsps

/-- **Round robin.**  From every reachable table the live processes get the processor one after the other, in
ascending order from the one behind the current process on, which comes last; nobody else does. -/
theorem round_robin (pmm : PmmState) (mem : Memory) (kernelPml4 tssRsp0 : ℕ) (es : List Event) :
    let s := run step (boot pmm mem kernelPml4 tssRsp0) es
    let live := (List.range s.processCount).filter (isLive s)
    let round := turns s.processCount s.currentPid.toNat (isLive s)
    isLive s s.currentPid.toNat = true ∧ 1 ≤ live.length ∧
      round.Perm live ∧ round.Nodup ∧ round.getLast? = some s.currentPid.toNat ∧
      ∀ rsps : List ℕ, rsps.length = live.length →
        scheduled s rsps = round ∧
          (run (fun s rsp => (schedule s rsp).2) s rsps).currentPid = s.currentPid ∧
          ∀ n ∈ scheduled s rsps, (s.processes n).state ≠ .dead := by
  intro s live round
  have hturning : Turning s := turning_run pmm mem kernelPml4 tssRsp0 es
  have hself : SameTurns s s := ⟨hturning, rfl, fun _ _ => rfl⟩
  have hperm : round.Perm live := turns_perm _ _ _
  have hlast : round.getLast? = some s.currentPid.toNat := hself.last
  have hcurrent : isLive s s.currentPid.toNat = true := (mem_turns.mp (List.mem_of_getLast? hlast)).2
  have hpos : 1 ≤ live.length := by
    rw [← hperm.length_eq]
    exact List.length_pos_of_mem (List.mem_of_getLast? hlast)
  refine ⟨hcurrent, hpos, hperm, turns_nodup _ _ _, hlast, ?_⟩
  intro rsps hlength
  rw [← hperm.length_eq] at hlength
  have hround := visits_eq_turns (I := SameTurns s) (fun t rsp ht => ht.schedule rsp) rsps s hself
  obtain ⟨hvisits, hrun⟩ := hround hlength.le
  have hall : scheduled s rsps = round := by
    rw [scheduled, hvisits, hlength]
    exact List.take_length
  refine ⟨hall, ?_, ?_⟩
  · -- behind the process it ends with the turns are those from before, so it is the one that was current
    have hend := SameTurns.run hturning rsps
    have hback := hend.last
    rw [hrun, hlength, List.rotate_length, hlast] at hback
    have hcur := hturning.cur_toNat
    have hcur' := hend.cur_toNat
    rw [← hcur, ← hcur', Option.some.inj hback]
  · intro n hn hdead
    rw [hall] at hn
    have hlive := (mem_turns.mp hn).2
    rw [isLive, hdead] at hlive
    cases hlive

/-- The shell and one user process take turns. -/
theorem round_robin_user :
    scheduled (run step smallBoot [.createUser 0x10000000 0x5000]) [0x9000, 0x8000] = [1, 0] := by
  have hround := round_robin smallPmm (fun _ => 0) 0x2000 0 [.createUser 0x10000000 0x5000]
  have hturns : turns (run step smallBoot [.createUser 0x10000000 0x5000]).processCount
      (run step smallBoot [.createUser 0x10000000 0x5000]).currentPid.toNat
      (isLive (run step smallBoot [.createUser 0x10000000 0x5000])) = [1, 0] := by decide
  rw [← hturns]
  exact (hround.2.2.2.2.2 [0x9000, 0x8000] (by decide)).1

end OsEojin.Process
