import OsEojin.Lib.Runs
import OsEojin.Lib.ByteMemory
import OsEojin.Pmm

/-!
# Processes and the round-robin scheduler

`src/kernel/process/process.c`: a table of sixteen slots, two ways to fill one, the exit path and the
context switch.  `vmm_switch_pml4` and `set_tss_rsp0` are one assignment each, so the page-table base
and the TSS stack are fields of the state.  Console output is left out.

* `initMultitasking`, `createKernelProcess`, `createUserProcess`, `killCurrentProcess`, `schedule`: the
  five functions, statement by statement;
* `scheduleLoop`: the `do … while` search, `none` standing for its `loop_count` bail-out;
* `Event`, `step`: what can happen between two instructions of the shell: a creation, a timer tick, an
  exit system call, an allocation by another client of the PMM.
-/

namespace OsEojin.Process

open OsEojin.Lib OsEojin.Lib.ByteMemory OsEojin.Pmm

/-- `MAX_PROCESSES` of `process.h`. -/
def maxProcesses : ℕ := 16

/-- `STACK_SIZE` of `process.h`. -/
def stackSize : ℕ := 4096

/-- `process_state_t`. -/
inductive ProcessState where
  | ready
  | running
  | waiting
  | dead
  deriving DecidableEq, Repr

/-- `process_t`. -/
structure ProcessEntry where
  rsp : ℕ
  pid : ℕ
  state : ProcessState
  stackBase : ℕ
  kernelStackBase : ℕ
  kernelStackTop : ℕ
  pml4 : ℕ
  deriving DecidableEq, Repr

/-- A slot of the zero-initialised table (`PROCESS_READY` is the enumeration's `0`). -/
def zeroProcess : ProcessEntry := ⟨0, 0, .ready, 0, 0, 0, 0⟩

/-- The globals the scheduler reads and writes. -/
structure Scheduler where
  processes : ℕ → ProcessEntry
  currentPid : ℤ
  processCount : ℕ
  currentPml4 : ℕ
  kernelPml4 : ℕ
  tssRsp0 : ℕ
  pmm : PmmState
  mem : Memory

namespace Scheduler

/-- The slot `processes[pid]`. -/
def slot (s : Scheduler) (pid : ℤ) : ProcessEntry := s.processes pid.toNat

/-- Overwrite the slot `processes[pid]`. -/
def setSlot (s : Scheduler) (pid : ℤ) (p : ProcessEntry) : Scheduler :=
  { s with processes := Function.update s.processes pid.toNat p }

end Scheduler

/-! ### Creation -/

/-- `init_multitasking`. -/
def initMultitasking (s : Scheduler) : Scheduler :=
  let waiting : ℕ → ProcessEntry := fun i =>
    if i < maxProcesses then { s.processes i with state := .waiting } else s.processes i
  { s with
    processes := Function.update waiting 0 { waiting 0 with pid := 0, state := .running }
    processCount := 1
    currentPid := 0 }

/-- One `rsp -= 8; *rsp = v` of the hand-built trap frames. -/
def push (f : ℕ × Memory) (v : ℕ) : ℕ × Memory := (f.1 - 8, writeLe f.2 (f.1 - 8) 8 v)

/-- The trap frame both creators build: `iretq` words, error code and vector, sixteen registers. -/
def trapFrame (ss rsp rflags cs rip : ℕ) : List ℕ :=
  [ss, rsp, rflags, cs, rip, 0, 0] ++ List.replicate 16 0

/-- `create_kernel_process`; the result of `pmm_alloc_block` is used unchecked. -/
def createKernelProcess (s : Scheduler) (entry : ℕ) : Scheduler :=
  if maxProcesses ≤ s.processCount then s
  else
    let stack := (pmmAllocBlock s.pmm).1
    let top := stack + stackSize
    let frame := (trapFrame 0x10 top 0x202 0x08 entry).foldl push (top, s.mem)
    { s with
      processes := Function.update s.processes s.processCount
        { rsp := frame.1, pid := s.processCount, state := .ready, stackBase := stack,
          kernelStackBase := stack, kernelStackTop := top, pml4 := s.kernelPml4 }
      processCount := s.processCount + 1
      pmm := (pmmAllocBlock s.pmm).2
      mem := frame.2 }

/-- `create_user_process`.  The slot is claimed before the two stacks are allocated: a failed
allocation leaves `pid` and `PROCESS_READY` behind in a slot past `process_count`. -/
def createUserProcess (s : Scheduler) (entry pml4PhysAddr : ℕ) : Scheduler :=
  if maxProcesses ≤ s.processCount then s
  else
    let p : ProcessEntry := { s.processes s.processCount with pid := s.processCount, state := .ready }
    let claim (p : ProcessEntry) : ℕ → ProcessEntry := Function.update s.processes s.processCount p
    let user := pmmAllocBlock s.pmm
    if user.1 = 0 then { s with processes := claim p, pmm := user.2 }
    else
      let p := { p with stackBase := user.1 }
      let kernel := pmmAllocBlock user.2
      if kernel.1 = 0 then { s with processes := claim p, pmm := kernel.2 }
      else
        let top := kernel.1 + stackSize
        let frame := (trapFrame 0x1B (user.1 + stackSize) 0x202 0x23 entry).foldl push (top, s.mem)
        { s with
          processes := claim { p with
            rsp := frame.1, kernelStackBase := kernel.1, kernelStackTop := top,
            pml4 := pml4PhysAddr }
          processCount := s.processCount + 1
          pmm := kernel.2
          mem := frame.2 }

/-! ### Exit and context switch -/

/-- `kill_current_process`. -/
def killCurrentProcess (s : Scheduler) : Scheduler :=
  if s.currentPid = -1 then s
  else s.setSlot s.currentPid { s.slot s.currentPid with state := .dead }

/-- The part of `schedule` that saves the interrupted context. -/
def saveContext (s : Scheduler) (currentRsp : ℕ) : Scheduler :=
  let p := s.slot s.currentPid
  if p.state = .dead then s
  else s.setSlot s.currentPid
    { p with rsp := currentRsp, state := if p.state = .running then .ready else p.state }

/-- The successor slot of the search: `next++; if (next >= process_count) next = 0;`. -/
def nextSlot (s : Scheduler) (next : ℤ) : ℤ :=
  if next + 1 ≥ s.processCount then 0 else next + 1

/-- The `do … while` search of `schedule` with `budget` iterations left; `none` is the
`loop_count > MAX_PROCESSES + 1` exit. -/
def scheduleLoop (s : Scheduler) : ℕ → ℤ → Option ℤ
  | 0, _ => none
  | budget + 1, next =>
    let next' := nextSlot s next
    if (s.slot next').state ≠ .ready ∧ next' ≠ s.currentPid then scheduleLoop s budget next'
    else some next'

/-- The fallback to the shell when the search came back to a process that is not ready. -/
def fallback (s : Scheduler) (next : ℤ) : ℤ :=
  if next = s.currentPid ∧ (s.slot next).state ≠ .ready then
    if (s.slot 0).state = .ready ∨ (s.slot 0).state = .running then 0 else next
  else next

/-- The tail of `schedule`: mark the chosen slot, load its page tables and its kernel stack. -/
def switchTo (s : Scheduler) (next : ℤ) : Scheduler :=
  let s₁ := { s.setSlot next { s.slot next with state := .running } with currentPid := next }
  let p := s₁.slot next
  { s₁ with
    currentPml4 := if p.pml4 ≠ 0 then p.pml4 else s₁.currentPml4
    tssRsp0 := if p.kernelStackTop ≠ 0 then p.kernelStackTop else s₁.tssRsp0 }

/-- `schedule`: the stack pointer to resume and the state it leaves. -/
def schedule (s : Scheduler) (currentRsp : ℕ) : ℕ × Scheduler :=
  let saved := saveContext s currentRsp
  match scheduleLoop saved (maxProcesses + 1) saved.currentPid with
  | none => (currentRsp, saved)
  | some next =>
    let s' := switchTo saved (fallback saved next)
    ((s'.slot s'.currentPid).rsp, s')

/-! ### Events -/

/-- What can happen to the process table. -/
inductive Event where
  | createUser (entry pml4 : ℕ)
  | createKernel (entry : ℕ)
  | tick (rsp : ℕ)
  | exit (rsp : ℕ)
  | alloc
  deriving DecidableEq, Repr

/-- One event.  `exit` is the system call of `isr_handler`: kill, then schedule. -/
def step (s : Scheduler) : Event → Scheduler
  | .createUser entry pml4 => createUserProcess s entry pml4
  | .createKernel entry => createKernelProcess s entry
  | .tick rsp => (schedule s rsp).2
  | .exit rsp => (schedule (killCurrentProcess s) rsp).2
  | .alloc => { s with pmm := (pmmAllocBlock s.pmm).2 }

/-- The state the scheduler starts from: the zero-initialised table, the kernel's page tables loaded
by `vmm_init`, then `init_multitasking`. -/
def boot (pmm : PmmState) (mem : Memory) (kernelPml4 tssRsp0 : ℕ) : Scheduler :=
  initMultitasking
    { processes := fun _ => zeroProcess, currentPid := -1, processCount := 0,
      currentPml4 := kernelPml4, kernelPml4 := kernelPml4, tssRsp0 := tssRsp0, pmm := pmm, mem := mem }

/-- The side condition of every run here: only a process with `pid ≥ 1` issues the exit call. -/
def Issued (s : Scheduler) : Event → Prop
  | .exit _ => 1 ≤ s.currentPid
  | _ => True

/-! ### A small machine -/

/-- The small machine at boot, its kernel page table in block `2`. -/
def smallBoot : Scheduler := boot smallPmm (fun _ => 0) 0x2000 0

/-- A user process is launched, gets the processor, and exits. -/
def launchAndExit : List Event := [.createUser 0x10000000 0x5000, .tick 0x9000, .exit 0x8000]

end OsEojin.Process
