import OsEojin.ExecStaging
import OsEojin.ProcessTable

/-!
# An `exec` that fails

`exec` of `src/kernel/kernel.c` goes through the allocations of the PML4, the pages, the tables and the
two stacks, and returns at the first that fails.  No path calls `pmm_free_block`, so what was taken stays
taken; the process table is as it was, when no page of the file is mapped over the kernel.

* `execUser`: the whole command on the scheduler's state, `create_user_process` included;
* `allocates_execUser`: it takes blocks, the one of the PML4 first, and gives none back;
* `failed_exec_leaks_nothing_iff`: a failed `exec` leaves the free blocks as they were only when there
  were none.
-/

namespace OsEojin.Process

open OsEojin.Lib.ByteMemory OsEojin.Pmm OsEojin.Vmm OsEojin.Exec

/-! ### The command -/

/-- The memory side of the state. -/
def Scheduler.vm (s : Scheduler) : VmState := ⟨s.mem, s.pmm, s.kernelPml4, s.currentPml4⟩

/-- The state with another memory side. -/
def Scheduler.withVm (s : Scheduler) (vm : VmState) : Scheduler :=
  { s with mem := vm.mem, pmm := vm.pmm, kernelPml4 := vm.kernelPml4, currentPml4 := vm.currentPml4 }

/-- **`exec`** of a file with these bytes: the address space, then the process. -/
def execUser (s : Scheduler) (image : List UInt8) (fileSize : ℕ) : Scheduler :=
  match exec s.vm image fileSize with
  | (none, vm) => s.withVm vm
  | (some (entryPoint, procPml4), vm) => createUserProcess (s.withVm vm) entryPoint procPml4

/-- The table up to `process_count`, the count and the current process are the same. -/
structure KeepsProcesses (s s' : Scheduler) : Prop where
  processes : ∀ i, i < s.processCount → s'.processes i = s.processes i
  processCount : s'.processCount = s.processCount
  currentPid : s'.currentPid = s.currentPid

/-- **Nothing is leaked**: the free blocks are the same, and the processes. -/
structure LeaksNothing (s s' : Scheduler) : Prop extends KeepsProcesses s s' where
  free : freeBlocks s'.pmm = freeBlocks s.pmm

/-! ### `create_user_process` -/

theorem allocates_createUserProcess (s : Scheduler) (entry pml4 : ℕ) :
    Allocates s.pmm (createUserProcess s entry pml4).pmm := by
  have huser := allocates_alloc s.pmm
  have hkernel := huser.trans (allocates_alloc (pmmAllocBlock s.pmm).2)
  rw [createUserProcess]
  split
  · exact Allocates.refl _
  · simp only
    split
    · exact huser
    · split
      · exact hkernel
      · exact hkernel

theorem createUserProcess_keeps {s : Scheduler} {entry pml4 : ℕ}
    (h : (createUserProcess s entry pml4).processCount = s.processCount) :
    KeepsProcesses s (createUserProcess s entry pml4) := by
  refine ⟨?_, h, (createUserProcess_globals s entry pml4).1⟩
  intro i hi
  cases createUserProcess_cases s entry pml4 with
  | inl heq => rw [heq]
  | inr hslot =>
    obtain ⟨-, p, -, hslots, -⟩ := hslot
    rw [hslots, Function.update_of_ne (Nat.ne_of_lt hi)]

/-! ### The whole command -/

section ExecUser

variable (s : Scheduler) (image : List UInt8) (fileSize : ℕ)

/-- **`exec` only takes blocks**, and it asks for the one of the PML4. -/
theorem allocates_execUser : Allocates (pmmAllocBlock s.pmm).2 (execUser s image fileSize).pmm := by
  have hexec := allocates_exec s.vm image fileSize
  rw [execUser]
  generalize exec s.vm image fileSize = r at hexec ⊢
  rcases r with ⟨_ | ⟨entryPoint, procPml4⟩, vm⟩
  · exact hexec
  · exact hexec.trans (allocates_createUserProcess (s.withVm vm) entryPoint procPml4)

/-- Without a new process the table is as it was. -/
theorem execUser_keeps (h : (execUser s image fileSize).processCount = s.processCount) :
    KeepsProcesses s (execUser s image fileSize) := by
  rw [execUser] at h ⊢
  generalize exec s.vm image fileSize = r at h ⊢
  rcases r with ⟨_ | ⟨entryPoint, procPml4⟩, vm⟩
  · exact ⟨fun _ _ => rfl, rfl, rfl⟩
  · have hkeeps : KeepsProcesses (s.withVm vm) (createUserProcess (s.withVm vm) entryPoint procPml4) :=
      createUserProcess_keeps h
    exact ⟨hkeeps.processes, hkeeps.processCount, hkeeps.currentPid⟩

/-- A full table takes no process. -/
theorem execUser_full (h : maxProcesses ≤ s.processCount) :
    (execUser s image fileSize).processCount = s.processCount := by
  rw [execUser]
  rcases exec s.vm image fileSize with ⟨_ | ⟨entryPoint, procPml4⟩, vm⟩
  · rfl
  · simp only
    rw [createUserProcess, if_pos (show maxProcesses ≤ (s.withVm vm).processCount from h)]
    rfl

end ExecUser

/-- **A failed `exec` leaks nothing exactly when nothing was free**: the process table is kept, and the free
blocks only when there were none to take.  The table and the bitmap are the kernel's own memory, which no page of
the file is taken to cover. -/
theorem failed_exec_leaks_nothing_iff (s : Scheduler) (image : List UInt8) (fileSize : ℕ)
    (hfailed : (execUser s image fileSize).processCount = s.processCount) :
    KeepsProcesses s (execUser s image fileSize) ∧
      (LeaksNothing s (execUser s image fileSize) ↔ freeBlocks s.pmm = ∅) := by
  have hkeeps := execUser_keeps s image fileSize hfailed
  have halloc := allocates_execUser s image fileSize
  refine ⟨hkeeps, ?_⟩
  constructor
  · intro hnothing
    by_contra hfree
    exact freeBlocks_ne_of_alloc hfree halloc hnothing.free
  · intro hnone
    refine ⟨hkeeps, ?_⟩
    have hsub := freeBlocks_subset ((allocates_alloc _).trans halloc)
    rw [hnone] at hsub ⊢
    exact Finset.subset_empty.mp hsub

/-! ### A full table -/

/-- A machine of 64 blocks with sixteen processes. -/
def fullTable : Scheduler where
  processes := fun _ => zeroProcess
  currentPid := 0
  processCount := 16
  currentPml4 := 0
  kernelPml4 := 0
  tssRsp0 := 0
  pmm := smallPmm
  mem := fun _ => 0

theorem fullTable_free : freeBlocks fullTable.pmm ≠ ∅ := by
  have hmem : 1 ∈ freeBlocks smallPmm := Finset.mem_filter.mpr ⟨by decide, by decide⟩
  exact Finset.ne_empty_of_mem hmem

theorem failed_exec_leaks_nothing_iff_fullTable :
    (execUser fullTable [0x90] 1).processCount = fullTable.processCount ∧
      KeepsProcesses fullTable (execUser fullTable [0x90] 1) ∧
      (LeaksNothing fullTable (execUser fullTable [0x90] 1) ↔ freeBlocks fullTable.pmm = ∅) := by
  have hfailed := execUser_full fullTable [0x90] 1 (by decide)
  exact ⟨hfailed, failed_exec_leaks_nothing_iff fullTable [0x90] 1 hfailed⟩

/-- **With sixteen processes `exec` fails after it has loaded the file**, and keeps its blocks. -/
theorem failed_exec_keeps_blocks :
    (execUser fullTable [0x90] 1).processCount = fullTable.processCount ∧
      freeBlocks (execUser fullTable [0x90] 1).pmm ≠ freeBlocks fullTable.pmm :=
  ⟨execUser_full fullTable [0x90] 1 (by decide),
    freeBlocks_ne_of_alloc fullTable_free (allocates_execUser fullTable [0x90] 1)⟩

end OsEojin.Process
