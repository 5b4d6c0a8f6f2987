import OsEojin.ContextSwitch
import OsEojin.InterruptFrame
import OsEojin.PmmInit

/-!
# Preemption: a resumed process finds its registers

The stub of `interrupt.asm`, `isr_handler` of `isr.c`, the scheduler of `process.c` and the frames on the kernel
stacks, as one machine.  Between its interrupts a process computes; an interrupt pushes a frame on the kernel
stack of the process it hits; while it is handled, kernel code runs (the shell's commands too, which the keyboard
handler calls); at the end the stub pops the frame that `isr_handler` returned.

* `Machine`, `Event`, `step`: the machine; `isrHandler`: which frame is resumed;
* `Allowed`: computation leaves the frames of suspended processes alone, the kernel's stack has room for a frame,
  and the shell does not exit;
* `ledger`: for each pid the registers it was last interrupted with, or was created with;
* `stacks_disjoint`, `frame_after_deliver`, `MachineOk.schedule_call`: stacks, pushes and switches;
* `resumed_with_saved_context`: whoever is resumed, at any point of any such run, gets its registers back.
-/

namespace OsEojin.Multitasking

open OsEojin.Lib OsEojin.Lib.Runs OsEojin.Lib.ByteMemory OsEojin.Lib.WordStack OsEojin.Pmm OsEojin.Interrupt
open OsEojin.Process (Scheduler TableOk Schedulable schedule killCurrentProcess createUserProcess saveContext
  switchTo maxProcesses stackSize trapFrame zeroProcess)

/-! ### The machine -/

/-- An interrupt is being handled, with `registers_t` at `frame`, or none is. -/
inductive Mode where
  | running
  | handling (frame : UInt64)
  deriving DecidableEq

/-- The processor with its memory, and the globals of `process.c`; the memory of `sched` is not used. -/
structure Machine where
  cpu : Cpu
  sched : Scheduler
  mode : Mode

/-- The kernel's globals with the memory of the processor. -/
def Machine.kernel (m : Machine) : Scheduler := { m.sched with mem := m.cpu.mem }

/-- Where the processor starts to push: on the stack of the TSS when it comes from ring 3, at the next multiple of
16 in any case. -/
def deliverySp (c : Cpu) (tssRsp0 : ℕ) : UInt64 :=
  let sp := if c.cs &&& 3 = 3 then UInt64.ofNat tssRsp0 else c.rsp
  sp - sp % 16

/-- `isr_handler`: the stack pointer to resume and the scheduler it leaves; `none` where it stops in `hlt` with
interrupts disabled.  What it prints, the acknowledgements it sends and the tick counter are left out. -/
def isrHandler (s : Scheduler) (r : UInt64) (mem : Memory) : Option (UInt64 × Scheduler) :=
  let regs := registersAt mem r
  if regs.intNo = 32 then some (UInt64.ofNat (schedule s r.toNat).1, (schedule s r.toNat).2)
  else if regs.intNo = 33 then some (r, s)
  else if regs.intNo = 0 then some (r, s)
  else if regs.intNo = 8 ∨ regs.intNo = 13 ∨ regs.intNo = 14 then none
  else if regs.intNo = 128 then
    if regs.rax = 0 then
      some (UInt64.ofNat (schedule (killCurrentProcess s) r.toNat).1, (schedule (killCurrentProcess s) r.toNat).2)
    else some (r, s)
  else some (r, s)

/-- What can happen: code runs, of a process or of a handler; an interrupt is taken; `exec` creates a process;
somebody allocates a page; `isr_handler` returns. -/
inductive Event where
  | compute (c : Cpu)
  | deliver (v : Vector) (errorCode : UInt64)
  | createUser (entry : UInt64) (pml4 : ℕ)
  | alloc
  | leave

/-- One event; `ret` is the return address of the stub's call.  While an interrupt is handled no other is taken. -/
def step (ret : UInt64) (m : Machine) : Event → Machine
  | .compute c => { m with cpu := c }
  | .deliver v errorCode =>
    match m.mode with
    | .handling _ => m
    | .running =>
      let c := atHandler ret m.cpu v (deliverySp m.cpu m.sched.tssRsp0) errorCode
      { m with cpu := c, mode := .handling (c.regs .rdi) }
  | .createUser entry pml4 =>
    let s := createUserProcess m.kernel entry.toNat pml4
    { m with cpu := { m.cpu with mem := s.mem }, sched := s }
  | .alloc => { m with sched := { m.sched with pmm := (pmmAllocBlock m.sched.pmm).2 } }
  | .leave =>
    match m.mode with
    | .running => m
    | .handling r =>
      match isrHandler m.sched r m.cpu.mem with
      | none => m
      | some (next, s) => ⟨restore (setReg m.cpu .rax next), s, .running⟩

/-- `init_multitasking` on the boot stack: the code running is the shell's. -/
def boot (c : Cpu) (pmm : PmmState) (kernelPml4 tssRsp0 : ℕ) : Machine :=
  ⟨c, Process.boot pmm c.mem kernelPml4 tssRsp0, .running⟩

/-! ### Contexts and stacks -/

/-- What a process owns of the processor.  The stub restores `es`, `fs` and `gs` from the selector in `ds`. -/
structure Context where
  regs : Reg → UInt64
  rip : UInt64
  rflags : UInt64
  rsp : UInt64
  cs : UInt16
  ss : UInt16
  ds : UInt16

def contextOf (c : Cpu) : Context := ⟨c.regs, c.rip, c.rflags, c.rsp, c.cs, c.ss, c.ds⟩

/-- The context `create_user_process` prepares. -/
def initialContext (entry userStackTop : UInt64) : Context :=
  ⟨fun _ => 0, entry, 0x202, userStackTop, 0x23, 0x1B, 0⟩

/-- The size of a frame in bytes, and of all the stub pushes before the first instruction of `isr_handler`. -/
def frameSize : ℕ := 184

def pushedSize : ℕ := 200

/-- The frame at `a` holds the context. -/
def FrameAt (m : Memory) (a : UInt64) (x : Context) : Prop :=
  ∃ d intNo errCode, d.toUInt16 = x.ds ∧ Holds m a
    (frameWords d x.regs intNo errCode x.rip x.cs.toUInt64 x.rflags x.rsp x.ss.toUInt64)

/-- The stack pointer `loader.asm` leaves. -/
def bootStackTop : ℕ := 0x90000

/-- The kernel stack of a process: the shell's is the boot stack, everybody else's a page. -/
def stackTop (s : Scheduler) (pid : ℕ) : ℕ := if pid = 0 then bootStackTop else (s.processes pid).kernelStackTop

def stackLow (s : Scheduler) (pid : ℕ) : ℕ := if pid = 0 then 0 else (s.processes pid).kernelStackTop - stackSize

/-- `pid` is alive and its registers are in memory, not in the processor. -/
def Waiting (m : Machine) (pid : ℕ) : Prop :=
  pid < m.sched.processCount ∧ (m.sched.processes pid).state ≠ .dead ∧
    ((pid : ℤ) ≠ m.sched.currentPid ∨ m.mode ≠ .running)

/-- Where its frame is: at the saved stack pointer, or where the interrupt being handled has put it. -/
def frameAddr (m : Machine) (pid : ℕ) : UInt64 :=
  match m.mode with
  | .running => UInt64.ofNat (m.sched.processes pid).rsp
  | .handling r => if (pid : ℤ) = m.sched.currentPid then r else UInt64.ofNat (m.sched.processes pid).rsp

/-- An interrupt finds room for its pushes on the kernel stack of the process it hits.  From ring 3 that stack is
empty; in ring 0 it is the stack in use. -/
def HasRoom (m : Machine) : Prop :=
  if m.cpu.cs &&& 3 = 3 then 1 ≤ m.sched.currentPid
  else stackLow m.sched m.sched.currentPid.toNat + pushedSize ≤ (deliverySp m.cpu m.sched.tssRsp0).toNat ∧
    (deliverySp m.cpu m.sched.tssRsp0).toNat ≤ stackTop m.sched m.sched.currentPid.toNat

/-- The side condition of the runs: no code writes into the frame of a waiting process, an interrupt finds room,
and only processes other than the shell issue the exit call. -/
def Allowed (m : Machine) : Event → Prop
  | .compute c => ∀ pid, Waiting m pid → ∀ x, (frameAddr m pid).toNat ≤ x →
      x < (frameAddr m pid).toNat + frameSize → c.mem x = m.cpu.mem x
  | .deliver _ _ => m.mode = .running → HasRoom m
  | .createUser _ _ => True
  | .alloc => True
  | .leave => ∀ r, m.mode = .handling r → (registersAt m.cpu.mem r).intNo = 128 →
      (registersAt m.cpu.mem r).rax = 0 → 1 ≤ m.sched.currentPid

/-- What a run owes to each pid. -/
def note (L : ℕ → Context) (m : Machine) : Event → ℕ → Context
  | .deliver _ _ =>
    if m.mode = .running then Function.update L m.sched.currentPid.toNat (contextOf m.cpu) else L
  | .createUser entry pml4 =>
    let s := createUserProcess m.kernel entry.toNat pml4
    if s.processCount = m.sched.processCount then L
    else Function.update L m.sched.processCount
      (initialContext entry (UInt64.ofNat ((s.processes m.sched.processCount).stackBase + stackSize)))
  | _ => L

/-- The ledger of a run from `init_multitasking`: the context of each pid's last interruption, or the one it was
created with. -/
def ledger (ret : UInt64) (c : Cpu) (pmm : PmmState) (kernelPml4 tssRsp0 : ℕ) (events : List Event) : ℕ → Context :=
  trace (step ret) note (boot c pmm kernelPml4 tssRsp0) (fun _ => contextOf c) events

/-! ### What the pushes write -/

/-- `n` words below `sp` have been pushed, and nothing else in memory has changed. -/
structure Pushed (m : Memory) (sp n : ℕ) (c : Cpu) : Prop where
  rsp : c.rsp.toNat + 8 * n = sp
  mem : ∀ x, x < sp - 8 * n ∨ sp ≤ x → c.mem x = m x

section Pushes

variable {m : Memory} {sp n : ℕ} {c : Cpu}

theorem Pushed.push (h : Pushed m sp n c) (hroom : 8 * (n + 1) ≤ sp) (v : UInt64) :
    Pushed m sp (n + 1) (push c v) := by
  have hrsp := h.rsp
  have hsub : (c.rsp - 8).toNat = c.rsp.toNat - 8 := by
    have h8 : (c.rsp - 8).toNat = (2 ^ 64 - 8 + c.rsp.toNat) % 2 ^ 64 := UInt64.toNat_sub c.rsp 8
    have hlt := UInt64.toNat_lt c.rsp
    omega
  refine ⟨?_, ?_⟩
  · show (c.rsp - 8).toNat + 8 * (n + 1) = sp
    rw [hsub]
    omega
  · intro x hx
    show writeLe c.mem (c.rsp - 8).toNat 8 v.toNat x = m x
    rw [hsub, writeLe, if_neg (by omega)]
    exact h.mem x (by omega)

theorem Pushed.congr (h : Pushed m sp n c) {c' : Cpu} (hrsp : c'.rsp = c.rsp) (hmem : c'.mem = c.mem) :
    Pushed m sp n c' := by
  refine ⟨?_, ?_⟩
  · rw [hrsp]
    exact h.rsp
  · rw [hmem]
    exact h.mem

theorem Pushed.cli (h : Pushed m sp n c) : Pushed m sp n (cli c) := h.congr rfl rfl

theorem Pushed.setReg (h : Pushed m sp n c) (r : Reg) (v : UInt64) : Pushed m sp n (setReg c r v) :=
  h.congr rfl rfl

theorem Pushed.loadSegments (h : Pushed m sp n c) : Pushed m sp n (loadSegments c) := h.congr rfl rfl

theorem Pushed.pushRegs (rs : List Reg) : ∀ {n : ℕ} {c : Cpu}, Pushed m sp n c → 8 * (n + rs.length) ≤ sp →
    Pushed m sp (n + rs.length) (rs.foldl pushReg c) := by
  induction rs with
  | nil =>
    intro n c h _
    exact h
  | cons r rs ih =>
    intro n c h hroom
    rw [List.length_cons] at hroom ⊢
    rw [List.foldl_cons, show n + (rs.length + 1) = n + 1 + rs.length from by omega]
    exact ih (h.push (by omega) (c.regs r)) (by omega)

/-- The processor and the macro push seven words. -/
theorem pushed_isr (c : Cpu) (v : Vector) (sp errorCode : UInt64) (hroom : 56 ≤ sp.toNat) :
    Pushed c.mem sp.toNat 7 (isr v (deliver c v sp errorCode)) := by
  have h₀ : Pushed c.mem sp.toNat 0 { c with rsp := sp } := ⟨rfl, fun _ _ => rfl⟩
  have h₁ := h₀.push (by omega) c.ss.toUInt64
  have h₂ := h₁.push (by omega) c.rsp
  have h₃ := h₂.push (by omega) c.rflags
  have h₄ := h₃.push (by omega) c.cs.toUInt64
  have h₅ := h₄.push (by omega) c.rip
  cases hv : v.hasErrorCode with
  | true =>
    rw [isr, deliver, hv, if_pos rfl, if_pos rfl]
    have h₆ := h₅.push (by omega) errorCode
    exact h₆.cli.push (by omega) v.number
  | false =>
    have hfalse : ¬ false = true := by decide
    rw [isr, deliver, hv, if_neg hfalse, if_neg hfalse]
    have h₆ := h₅.cli.push (by omega) 0
    exact h₆.push (by omega) v.number

theorem pushed_saveFrame (h : Pushed m sp 7 c) (hroom : frameSize ≤ sp) : Pushed m sp 23 (saveFrame c) := by
  have hregs := h.pushRegs pushOrder (show 8 * 22 ≤ sp by rw [frameSize] at hroom; omega)
  rw [saveFrame]
  set c' := pushOrder.foldl pushReg c
  have hmov : Pushed m sp 22 (movAx c' c'.ds) := hregs.setReg .rax _
  have hds := hmov.push (show 8 * 23 ≤ sp by rw [frameSize] at hroom; omega) ((movAx c' c'.ds).regs .rax)
  exact (hds.setReg .rax _).loadSegments

/-- **At the handler**: the frame is the 184 bytes below the stack pointer the processor started from, and only
the 200 bytes below it have been written. -/
theorem pushed_atHandler (ret : UInt64) (c : Cpu) (v : Vector) {sp : UInt64} (errorCode : UInt64)
    (hroom : pushedSize ≤ sp.toNat) :
    ((atHandler ret c v sp errorCode).regs .rdi).toNat + frameSize = sp.toNat ∧
      ∀ x, x < sp.toNat - pushedSize ∨ sp.toNat ≤ x → (atHandler ret c v sp errorCode).mem x = c.mem x := by
  have hroom' := hroom
  simp only [pushedSize] at hroom'
  have h := pushed_saveFrame (pushed_isr c v sp errorCode (by omega)) (by rw [frameSize]; omega)
  rw [atHandler]
  set c' := saveFrame (isr v (deliver c v sp errorCode)) with hc'
  have hrsp := h.rsp
  rw [callHandler, frameSize, pushedSize]
  split
  · have hcall := (h.setReg .rdi c'.rsp).push (by omega) ret
    refine ⟨?_, fun x hx => hcall.mem x (by omega)⟩
    rw [push_regs, setReg_self]
    omega
  · have hdummy := h.push (by omega) (c'.regs .rax)
    have hback : (push c' (c'.regs .rax)).rsp + 8 = c'.rsp := sub_add_word c'.rsp
    have hcall := (hdummy.setReg .rdi ((push c' (c'.regs .rax)).rsp + 8)).push (by omega) ret
    refine ⟨?_, fun x hx => hcall.mem x (by omega)⟩
    dsimp only
    rw [push_regs, setReg_self, pushReg, hback]
    omega

end Pushes

/-! ### Frames -/

theorem length_frameWords (d : UInt64) (g : Reg → UInt64) (intNo errCode rip cs rflags rsp ss : UInt64) :
    (frameWords d g intNo errCode rip cs rflags rsp ss).length = 23 := rfl

/-- Outside its 184 bytes memory may change. -/
theorem frameAt_congr {m m' : Memory} {a : UInt64} {x : Context} (h : FrameAt m a x)
    (hlen : a.toNat + frameSize ≤ 2 ^ 64)
    (hsame : ∀ y, a.toNat ≤ y → y < a.toNat + frameSize → m' y = m y) : FrameAt m' a x := by
  obtain ⟨d, intNo, errCode, hd, hw⟩ := h
  refine ⟨d, intNo, errCode, hd, holds_congr hw ?_ ?_⟩
  · rw [length_frameWords]
    exact hlen
  · rw [length_frameWords]
    exact hsame

theorem toNat_align (a : UInt64) : (a - a % 16).toNat = a.toNat / 16 * 16 := by
  have h16 : (16 : UInt64).toNat = 16 := rfl
  have hmod : (a % 16).toNat = a.toNat % 16 := by rw [UInt64.toNat_mod, h16]
  have hsub : (a - a % 16).toNat = (2 ^ 64 - (a % 16).toNat + a.toNat) % 2 ^ 64 := UInt64.toNat_sub a (a % 16)
  have hlt := UInt64.toNat_lt a
  rw [hsub, hmod]
  omega

theorem aligned_deliverySp (c : Cpu) (tssRsp0 : ℕ) : Aligned (deliverySp c tssRsp0) := by
  rw [deliverySp, Aligned, toNat_align]
  omega

/-- **An interrupt saves the context.** -/
theorem frame_after_deliver (ret : UInt64) (c : Cpu) (v : Vector) (tssRsp0 : ℕ) (errorCode : UInt64) :
    FrameAt (atHandler ret c v (deliverySp c tssRsp0) errorCode).mem
      ((atHandler ret c v (deliverySp c tssRsp0) errorCode).regs .rdi) (contextOf c) :=
  ⟨_, _, _, toUInt16_withLow _ _, holds_atHandler ret c v _ errorCode (aligned_deliverySp c tssRsp0)⟩

theorem restore_mem (c : Cpu) : (restore c).mem = c.mem := rfl

theorem restore_ds (c : Cpu) : (restore c).ds = (wordAt c.mem (c.regs .rax)).toUInt16 := by
  have hds : (restore c).ds = ((popReg { c with rsp := c.regs .rax } .rax).regs .rax).toUInt16 := rfl
  rw [hds, popReg_self]

/-- **The stub's way back loads it.** -/
theorem contextOf_restore {c : Cpu} {x : Context} (h : FrameAt c.mem (c.regs .rax) x) :
    contextOf (restore c) = x := by
  obtain ⟨d, intNo, errCode, hd, hw⟩ := h
  obtain ⟨hregs, hrip, hcs, hflags, hrsp, hss⟩ := restore_spec hw
  have hds : (restore c).ds = x.ds := by
    rw [restore_ds, hw.1, hd]
  rw [contextOf, hregs, hrip, hcs, hflags, hrsp, hss, hds, UInt16.toUInt16_toUInt64, UInt16.toUInt16_toUInt64]

/-! ### Kernel stacks -/

/-- The blocks the boot stack lies in are not handed out. -/
def BootStackReserved (p : PmmState) : Prop := ∀ j, j * blockSize < bootStackTop → testBit p.bitmap j = true

/-- `init_pmm` reserves the first 32 MB, and an allocation gives nothing back. -/
theorem bootStackReserved_of_init {ram : Bitmap} {entries : List MemoryMapEntry} {p : PmmState}
    (h : Allocates (initPmm ram entries) p) : BootStackReserved p := by
  intro j hj
  refine h.later.used j ?_
  rw [testBit_initPmm]
  left
  rw [reservedBlocks]
  simp only [blockSize, bootStackTop] at hj ⊢
  omega

/-- Every process but the shell has a page of its own for its kernel stack. -/
structure StacksOk (s : Scheduler) : Prop where
  page : ∀ pid, 1 ≤ pid → pid < s.processCount → ∃ b, (s.processes pid).kernelStackTop = b * blockSize + stackSize ∧
    bootStackTop ≤ b * blockSize ∧ b < s.pmm.totalBlocks ∧ testBit s.pmm.bitmap b = true
  distinct : ∀ pid pid', 1 ≤ pid → pid < s.processCount → 1 ≤ pid' → pid' < s.processCount → pid ≠ pid' →
    (s.processes pid).kernelStackTop ≠ (s.processes pid').kernelStackTop
  reserved : BootStackReserved s.pmm

/-- The 184 bytes at `a` lie in the kernel stack of the process. -/
def OnStackOf (s : Scheduler) (pid : ℕ) (a : UInt64) : Prop :=
  stackLow s pid ≤ a.toNat ∧ a.toNat + frameSize ≤ stackTop s pid

section Stacks

variable {s : Scheduler}

/-- **Kernel stacks do not overlap.** -/
theorem stacks_disjoint (h : StacksOk s) {pid pid' : ℕ} (hp : pid < s.processCount) (hp' : pid' < s.processCount)
    (hne : pid ≠ pid') : stackTop s pid ≤ stackLow s pid' ∨ stackTop s pid' ≤ stackLow s pid := by
  by_cases h0 : pid = 0
  · obtain ⟨b, htop, hlow, -⟩ := h.page pid' (by omega) hp'
    rw [stackTop, if_pos h0, stackLow, if_neg (by omega), htop]
    omega
  · by_cases h0' : pid' = 0
    · obtain ⟨b, htop, hlow, -⟩ := h.page pid (by omega) hp
      rw [stackTop, if_neg h0, stackLow, if_pos h0', stackTop, if_pos h0', stackLow, if_neg h0, htop]
      omega
    · obtain ⟨b, htop, -⟩ := h.page pid (by omega) hp
      obtain ⟨b', htop', -⟩ := h.page pid' (by omega) hp'
      have hdiff := h.distinct pid pid' (by omega) hp (by omega) hp' hne
      rw [htop, htop'] at hdiff
      rw [stackTop, if_neg h0, stackLow, if_neg h0', stackTop, if_neg h0', stackLow, if_neg h0, htop, htop']
      simp only [blockSize, stackSize] at hdiff ⊢
      omega

theorem stackTop_lt (h : StacksOk s) {pid : ℕ} (hp : pid < s.processCount) : stackTop s pid < 2 ^ 64 := by
  rw [stackTop]
  split
  · decide
  · obtain ⟨b, htop, -, hb, -⟩ := h.page pid (by omega) hp
    have := s.pmm.total_lt
    rw [htop, blockSize, stackSize]
    omega

end Stacks

/-! ### Creation -/

/-- The frame built by hand is below the top it starts from. -/
theorem pushes_outside (vs : List ℕ) : ∀ f : ℕ × Memory, 8 * vs.length ≤ f.1 →
    (vs.foldl Process.push f).1 = f.1 - 8 * vs.length ∧
      ∀ x, x < f.1 - 8 * vs.length ∨ f.1 ≤ x → (vs.foldl Process.push f).2 x = f.2 x := by
  induction vs with
  | nil =>
    intro f _
    exact ⟨rfl, fun _ _ => rfl⟩
  | cons v vs ih =>
    intro f hroom
    rw [List.length_cons] at hroom
    have hfst : (Process.push f v).1 = f.1 - 8 := rfl
    obtain ⟨h1, h2⟩ := ih (Process.push f v) (by rw [hfst]; omega)
    rw [hfst] at h1 h2
    rw [List.foldl_cons, List.length_cons]
    refine ⟨by rw [h1]; omega, ?_⟩
    intro x hx
    rw [h2 x (by omega)]
    show writeLe f.2 (f.1 - 8) 8 v x = f.2 x
    rw [writeLe, if_neg (by omega)]

/-- It holds the context a new process starts with. -/
theorem frameAt_trapFrame (mem : Memory) {page rsp : ℕ} (entry : UInt64) (halign : page % 4096 = 0)
    (hpage : page + 4096 < 2 ^ 64) (hrsp : rsp < 2 ^ 64) :
    FrameAt ((trapFrame 0x1B rsp 0x202 0x23 entry.toNat).foldl Process.push (page + stackSize, mem)).2
      (UInt64.ofNat ((trapFrame 0x1B rsp 0x202 0x23 entry.toNat).foldl Process.push (page + stackSize, mem)).1)
      (initialContext entry (UInt64.ofNat rsp)) :=
  ⟨0, 0, 0, rfl, holds_trapFrame halign hpage (by decide) hrsp (by decide)⟩

/-- **What `create_user_process` does**: nothing that matters, or a new process whose frame is at the top of a page
that was free, and which is otherwise the only change in memory. -/
theorem createUserProcess_spec (s : Scheduler) (entry : UInt64) (pml4 : ℕ) :
    (createUserProcess s entry.toNat pml4).tssRsp0 = s.tssRsp0 ∧
    (createUserProcess s entry.toNat pml4).pmm.totalBlocks = s.pmm.totalBlocks ∧
    (∀ j, testBit s.pmm.bitmap j = true → testBit (createUserProcess s entry.toNat pml4).pmm.bitmap j = true) ∧
    (∀ pid, pid < s.processCount → (createUserProcess s entry.toNat pml4).processes pid = s.processes pid) ∧
    ((createUserProcess s entry.toNat pml4).processCount = s.processCount ∧
        (createUserProcess s entry.toNat pml4).mem = s.mem ∨
      (createUserProcess s entry.toNat pml4).processCount = s.processCount + 1 ∧
      ∃ b p, (createUserProcess s entry.toNat pml4).processes s.processCount = p ∧
        b < s.pmm.totalBlocks ∧ testBit s.pmm.bitmap b = false ∧
        testBit (createUserProcess s entry.toNat pml4).pmm.bitmap b = true ∧
        p.kernelStackTop = b * blockSize + stackSize ∧ p.rsp = b * blockSize + stackSize - frameSize ∧
        FrameAt (createUserProcess s entry.toNat pml4).mem (UInt64.ofNat p.rsp)
          (initialContext entry (UInt64.ofNat (p.stackBase + stackSize))) ∧
        ∀ x, x < b * blockSize ∨ b * blockSize + stackSize ≤ x →
          (createUserProcess s entry.toNat pml4).mem x = s.mem x) := by
  by_cases hfull : maxProcesses ≤ s.processCount
  · rw [createUserProcess, if_pos hfull]
    exact ⟨rfl, rfl, fun _ h => h, fun _ _ => rfl, Or.inl ⟨rfl, rfl⟩⟩
  · by_cases huser : (pmmAllocBlock s.pmm).1 = 0
    · have heq : createUserProcess s entry.toNat pml4 = { s with
          processes := Function.update s.processes s.processCount
            { s.processes s.processCount with pid := s.processCount, state := .ready }
          pmm := (pmmAllocBlock s.pmm).2 } := by
        rw [createUserProcess, if_neg hfull]
        exact if_pos huser
      rw [heq]
      refine ⟨rfl, pmmAllocBlock_totalBlocks _, fun j hj => used_mono _ hj, ?_, Or.inl ⟨rfl, rfl⟩⟩
      intro pid hpid
      exact Function.update_of_ne (by omega) _ _
    · by_cases hkernel : (pmmAllocBlock (pmmAllocBlock s.pmm).2).1 = 0
      · have heq : createUserProcess s entry.toNat pml4 = { s with
            processes := Function.update s.processes s.processCount
              { s.processes s.processCount with
                pid := s.processCount, state := .ready, stackBase := (pmmAllocBlock s.pmm).1 }
            pmm := (pmmAllocBlock (pmmAllocBlock s.pmm).2).2 } := by
          rw [createUserProcess, if_neg hfull]
          simp only [if_neg huser, if_pos hkernel]
        rw [heq]
        refine ⟨rfl, ?_, fun j hj => used_mono _ (used_mono _ hj), ?_, Or.inl ⟨rfl, rfl⟩⟩
        · show (pmmAllocBlock (pmmAllocBlock s.pmm).2).2.totalBlocks = s.pmm.totalBlocks
          rw [pmmAllocBlock_totalBlocks, pmmAllocBlock_totalBlocks]
        · intro pid hpid
          exact Function.update_of_ne (by omega) _ _
      · set stack := (pmmAllocBlock s.pmm).1 with hstack
        set page := (pmmAllocBlock (pmmAllocBlock s.pmm).2).1 with hpage
        set frame := (trapFrame 0x1B (stack + stackSize) 0x202 0x23 entry.toNat).foldl Process.push
          (page + stackSize, s.mem) with hframe
        set p : Process.ProcessEntry :=
          { s.processes s.processCount with
            rsp := frame.1, pid := s.processCount, state := .ready, stackBase := stack,
            kernelStackBase := page, kernelStackTop := page + stackSize, pml4 := pml4 } with hp
        have heq : createUserProcess s entry.toNat pml4 = { s with
            processes := Function.update s.processes s.processCount p
            processCount := s.processCount + 1
            pmm := (pmmAllocBlock (pmmAllocBlock s.pmm).2).2
            mem := frame.2 } := by
          rw [createUserProcess, if_neg hfull]
          simp only [← hstack, ← hpage, if_neg huser, if_neg hkernel, ← hframe, ← hp]
        obtain ⟨b, hb, hlt, hfree, -, hpmm⟩ := pmmAllocBlock_fresh _ hkernel
        rw [← hpage] at hb
        rw [pmmAllocBlock_totalBlocks] at hlt
        have hpushed := pushes_outside (trapFrame 0x1B (stack + stackSize) 0x202 0x23 entry.toNat)
          (page + stackSize, s.mem) (show 8 * 23 ≤ page + stackSize by rw [stackSize]; omega)
        have hlen : (trapFrame 0x1B (stack + stackSize) 0x202 0x23 entry.toNat).length = 23 := rfl
        rw [← hframe, hlen] at hpushed
        have hbelow := pmmAllocBlock_below (pmmAllocBlock s.pmm).2
        have hbelow' : stack + stackSize < 2 ^ 64 := by
          rw [stackSize]
          exact pmmAllocBlock_below s.pmm
        rw [← hpage] at hbelow
        dsimp only at hpushed
        have hframeAt : FrameAt frame.2 (UInt64.ofNat frame.1) (initialContext entry (UInt64.ofNat (stack + stackSize))) := by
          have hpage4096 : page % 4096 = 0 := pmmAllocBlock_aligned _
          clear_value page stack
          rw [hframe]
          exact frameAt_trapFrame s.mem entry hpage4096 hbelow hbelow'
        have hrsp : p.rsp = frame.1 := rfl
        have hbase : p.stackBase = stack := rfl
        have htop : p.kernelStackTop = page + stackSize := rfl
        clear_value p frame
        rw [heq]
        refine ⟨rfl, ?_, fun j hj => used_mono _ (used_mono _ hj), ?_, Or.inr ⟨rfl, b, p, ?_, hlt, ?_, ?_, ?_, ?_, ?_,
          ?_⟩⟩
        · show (pmmAllocBlock (pmmAllocBlock s.pmm).2).2.totalBlocks = s.pmm.totalBlocks
          rw [pmmAllocBlock_totalBlocks, pmmAllocBlock_totalBlocks]
        · intro pid hpid
          exact Function.update_of_ne (by omega) _ _
        · exact Function.update_self _ _ _
        · by_contra hused
          rw [Bool.not_eq_false] at hused
          rw [used_mono s.pmm hused] at hfree
          cases hfree
        · show testBit (pmmAllocBlock (pmmAllocBlock s.pmm).2).2.bitmap b = true
          rw [hpmm]
          simp [testBit_setBit]
        · rw [htop, hb]
        · rw [hrsp, hpushed.1, hb, frameSize]
        · rw [hrsp, hbase]
          exact hframeAt
        · intro x hx
          rw [← hb] at hx
          have hframeSize : 8 * 23 ≤ stackSize := by decide
          have hout : x < page + stackSize - 8 * 23 ∨ page + stackSize ≤ x := by omega
          exact hpushed.2 x hout

/-! ### The invariant -/

/-- The process table and the kernel stacks are in order, the TSS names the current process's stack, and every
waiting process has its context in a frame on its own stack. -/
structure MachineOk (m : Machine) (L : ℕ → Context) : Prop where
  table : TableOk m.sched
  kernelStacks : StacksOk m.sched
  tss : 1 ≤ m.sched.currentPid →
    m.sched.tssRsp0 = (m.sched.processes m.sched.currentPid.toNat).kernelStackTop
  waiting : ∀ pid, Waiting m pid → OnStackOf m.sched pid (frameAddr m pid) ∧
    FrameAt m.cpu.mem (frameAddr m pid) (L pid)

section Steps

variable {m : Machine} {L : ℕ → Context} {ret : UInt64}

theorem machineOk_boot (c : Cpu) {pmm : PmmState} (hpmm : BootStackReserved pmm) (kernelPml4 tssRsp0 : ℕ)
    (L : ℕ → Context) : MachineOk (boot c pmm kernelPml4 tssRsp0) L := by
  have hcount : (boot c pmm kernelPml4 tssRsp0).sched.processCount = 1 := rfl
  have hcur : (boot c pmm kernelPml4 tssRsp0).sched.currentPid = 0 := rfl
  refine ⟨Process.tableOk_boot pmm c.mem kernelPml4 tssRsp0, ⟨?_, ?_, hpmm⟩, ?_, ?_⟩
  · intro pid h1 hlt
    omega
  · intro pid pid' h1 hlt
    omega
  · intro h1
    omega
  · intro pid h
    obtain ⟨hlt, -, hcase⟩ := h
    cases hcase with
    | inl hne => omega
    | inr hmode => exact absurd rfl hmode

/-- A frame on one stack keeps its words when another stack, or nothing, is written. -/
theorem MachineOk.frame_kept (h : MachineOk m L) {pid : ℕ} (hw : Waiting m pid) {mem : Memory}
    (hsame : ∀ x, stackLow m.sched pid ≤ x → x < stackTop m.sched pid → mem x = m.cpu.mem x) :
    FrameAt mem (frameAddr m pid) (L pid) := by
  obtain ⟨⟨hlow, htop⟩, hframe⟩ := h.waiting pid hw
  have hlt := stackTop_lt h.kernelStacks hw.1
  refine frameAt_congr hframe (by omega) ?_
  intro x hx hx'
  exact hsame x (by omega) (by omega)

theorem current_toNat (h : TableOk m.sched) : ((m.sched.currentPid.toNat : ℕ) : ℤ) = m.sched.currentPid :=
  Int.toNat_of_nonneg h.cur_nonneg

/-- From ring 3 an interrupt starts at the top of the process's kernel stack. -/
theorem MachineOk.room (h : MachineOk m L) (hroom : HasRoom m) :
    stackLow m.sched m.sched.currentPid.toNat + pushedSize ≤ (deliverySp m.cpu m.sched.tssRsp0).toNat ∧
      (deliverySp m.cpu m.sched.tssRsp0).toNat ≤ stackTop m.sched m.sched.currentPid.toNat := by
  rw [HasRoom] at hroom
  split at hroom
  · rename_i hring
    have hcur := current_toNat h.table
    have hlt := h.table.cur_lt
    obtain ⟨b, htop, -, hb, -⟩ := h.kernelStacks.page m.sched.currentPid.toNat (by omega) (by omega)
    have htotal := m.sched.pmm.total_lt
    have hsp : (deliverySp m.cpu m.sched.tssRsp0).toNat = b * blockSize + stackSize := by
      rw [deliverySp, if_pos hring, h.tss hroom, htop, toNat_align, UInt64.toNat_ofNat', blockSize, stackSize]
      omega
    have h0 : ¬ m.sched.currentPid.toNat = 0 := by omega
    rw [hsp, stackLow, if_neg h0, stackTop, if_neg h0, htop]
    simp only [stackSize, pushedSize]
    omega
  · exact hroom

/-- Kernel code and processes that keep off the frames keep the invariant. -/
theorem machineOk_compute (h : MachineOk m L) {c : Cpu} (hc : Allowed m (.compute c)) :
    MachineOk (step ret m (.compute c)) L := by
  refine ⟨h.table, h.kernelStacks, h.tss, ?_⟩
  intro pid hw
  obtain ⟨hon, hframe⟩ := h.waiting pid hw
  have hlt := stackTop_lt h.kernelStacks hw.1
  refine ⟨hon, frameAt_congr hframe ?_ (hc pid hw)⟩
  have := hon.2
  show (frameAddr m pid).toNat + frameSize ≤ 2 ^ 64
  omega

/-- **An interrupt** saves the context of the process it hits and leaves the other frames alone. -/
theorem machineOk_deliver (h : MachineOk m L) {v : Vector} {errorCode : UInt64}
    (hroom : Allowed m (.deliver v errorCode)) :
    MachineOk (step ret m (.deliver v errorCode)) (note L m (.deliver v errorCode)) := by
  cases hmode : m.mode with
  | handling r =>
    have hstep : step ret m (.deliver v errorCode) = m := by rw [step, hmode]
    have hnote : note L m (.deliver v errorCode) = L := by
      rw [note, if_neg (by rw [hmode]; simp)]
    rw [hstep, hnote]
    exact h
  | running =>
    obtain ⟨hlow, htop⟩ := h.room (hroom hmode)
    have hcur := current_toNat h.table
    have hcurlt := h.table.cur_lt
    set sp := deliverySp m.cpu m.sched.tssRsp0 with hsp
    set c := atHandler ret m.cpu v sp errorCode with hc
    obtain ⟨hrdi, hsame⟩ := pushed_atHandler ret m.cpu v errorCode (show pushedSize ≤ sp.toNat by omega)
    rw [← hc] at hrdi hsame
    have hstep : step ret m (.deliver v errorCode) = ⟨c, m.sched, .handling (c.regs .rdi)⟩ := by
      rw [step, hmode]
    have hnote : note L m (.deliver v errorCode)
        = Function.update L m.sched.currentPid.toNat (contextOf m.cpu) := if_pos hmode
    rw [hstep, hnote]
    refine ⟨h.table, h.kernelStacks, h.tss, ?_⟩
    intro pid hw
    by_cases hpid : pid = m.sched.currentPid.toNat
    · have hpid' : (pid : ℤ) = m.sched.currentPid := by omega
      have haddr : frameAddr ⟨c, m.sched, .handling (c.regs .rdi)⟩ pid = c.regs .rdi := if_pos hpid'
      rw [haddr, hpid, Function.update_self]
      refine ⟨⟨?_, ?_⟩, frame_after_deliver ret m.cpu v m.sched.tssRsp0 errorCode⟩
      · show stackLow m.sched m.sched.currentPid.toNat ≤ (c.regs .rdi).toNat
        simp only [frameSize, pushedSize] at hrdi hlow
        omega
      · show (c.regs .rdi).toNat + frameSize ≤ stackTop m.sched m.sched.currentPid.toNat
        omega
    · have hpid' : ¬ (pid : ℤ) = m.sched.currentPid := by omega
      have haddr : frameAddr ⟨c, m.sched, .handling (c.regs .rdi)⟩ pid = frameAddr m pid := by
        rw [frameAddr, frameAddr, hmode]
        exact if_neg hpid'
      have hw' : Waiting m pid := ⟨hw.1, hw.2.1, Or.inl hpid'⟩
      have hapart := stacks_disjoint h.kernelStacks hw.1
        (show m.sched.currentPid.toNat < m.sched.processCount by omega) hpid
      rw [haddr, Function.update_of_ne hpid]
      refine ⟨(h.waiting pid hw').1, h.frame_kept hw' ?_⟩
      intro x hx hx'
      exact hsame x (by omega)

theorem tableOk_kernel (h : TableOk m.sched) : TableOk m.kernel := ⟨h.1, h.2, h.3, h.4, h.5, h.6, h.7⟩

/-- **A creation** puts the new frame on a stack of its own. -/
theorem machineOk_createUser (h : MachineOk m L) (entry : UInt64) (pml4 : ℕ) :
    MachineOk (step ret m (.createUser entry pml4)) (note L m (.createUser entry pml4)) := by
  have htable := Process.tableOk_step m.kernel (.createUser entry.toNat pml4) (tableOk_kernel h.table) trivial
  have hglobals := (Process.createUserProcess_globals m.kernel entry.toNat pml4).1
  obtain ⟨htss, htotal, hused, hslots, hcase⟩ := createUserProcess_spec m.kernel entry pml4
  have hpos := h.table.count_pos
  have hcurlt := h.table.cur_lt
  have hcurnn := h.table.cur_nonneg
  set s := createUserProcess m.kernel entry.toNat pml4 with hs
  have hstep : step ret m (.createUser entry pml4) = ⟨{ m.cpu with mem := s.mem }, s, m.mode⟩ := rfl
  have hcount : m.kernel.processCount = m.sched.processCount := rfl
  have hcur : s.currentPid = m.sched.currentPid := hglobals
  have hslots' : ∀ pid, pid < m.sched.processCount → s.processes pid = m.sched.processes pid := hslots
  -- processes that were there before have the stacks and the frames they had
  have hstack : ∀ pid, pid < m.sched.processCount →
      stackTop s pid = stackTop m.sched pid ∧ stackLow s pid = stackLow m.sched pid := by
    intro pid hpid
    rw [stackTop, stackTop, stackLow, stackLow, hslots' pid hpid]
    exact ⟨rfl, rfl⟩
  have hwait : ∀ pid, pid < m.sched.processCount → Waiting ⟨{ m.cpu with mem := s.mem }, s, m.mode⟩ pid →
      Waiting m pid ∧ frameAddr ⟨{ m.cpu with mem := s.mem }, s, m.mode⟩ pid = frameAddr m pid := by
    intro pid hpid hw
    obtain ⟨-, hd, hc⟩ := hw
    rw [hcur] at hc
    rw [hslots' pid hpid] at hd
    refine ⟨⟨hpid, hd, hc⟩, ?_⟩
    rw [frameAddr, frameAddr, hslots' pid hpid, hcur]
  have hreserved : BootStackReserved s.pmm := fun j hj => hused j (h.kernelStacks.reserved j hj)
  have hold : ∀ pid, 1 ≤ pid → pid < m.sched.processCount → ∃ b,
      (s.processes pid).kernelStackTop = b * blockSize + stackSize ∧ bootStackTop ≤ b * blockSize ∧
        b < s.pmm.totalBlocks ∧ testBit s.pmm.bitmap b = true := by
    intro pid h1 hpid
    obtain ⟨b, htop, hlow, hb, hbit⟩ := h.kernelStacks.page pid h1 hpid
    refine ⟨b, ?_, hlow, ?_, hused b hbit⟩
    · rw [hslots' pid hpid]
      exact htop
    · rw [htotal]
      exact hb
  rw [hstep]
  cases hcase with
  | inl hsame =>
    obtain ⟨hn, hmem⟩ := hsame
    rw [hcount] at hn
    have hnote : note L m (.createUser entry pml4) = L := if_pos hn
    rw [hnote]
    refine ⟨htable, ⟨?_, ?_, hreserved⟩, ?_, ?_⟩
    · intro pid h1 hpid
      have hpid' : pid < s.processCount := hpid
      exact hold pid h1 (by omega)
    · intro pid pid' h1 hpid h1' hpid' hne
      rw [hn] at hpid hpid'
      rw [hslots' pid hpid, hslots' pid' hpid']
      exact h.kernelStacks.distinct pid pid' h1 hpid h1' hpid' hne
    · intro h1
      have htss' : s.tssRsp0 = m.sched.tssRsp0 := htss
      show s.tssRsp0 = (s.processes s.currentPid.toNat).kernelStackTop
      rw [htss', hcur, hslots' _ (by omega)]
      exact h.tss (by rw [← hcur]; exact h1)
    · intro pid hw
      have hpid : pid < m.sched.processCount := by
        rw [← hn]
        exact hw.1
      obtain ⟨hw', haddr⟩ := hwait pid hpid hw
      obtain ⟨hon, -⟩ := h.waiting pid hw'
      rw [haddr]
      refine ⟨?_, h.frame_kept hw' ?_⟩
      · rw [OnStackOf, (hstack pid hpid).1, (hstack pid hpid).2]
        exact hon
      · intro x _ _
        show s.mem x = m.cpu.mem x
        rw [hmem]
        rfl
  | inr hnew =>
    obtain ⟨hn, b, p, hp, hb, hfree, hbit, htop, hrsp, hframe, hmem⟩ := hnew
    rw [hcount] at hn hp
    have hfree' : testBit m.sched.pmm.bitmap b = false := hfree
    have hlow : bootStackTop ≤ b * blockSize := by
      by_contra hlt
      rw [h.kernelStacks.reserved b (by omega)] at hfree'
      cases hfree'
    have hpages : ∀ pid, pid < m.sched.processCount →
        stackTop m.sched pid ≤ b * blockSize ∨ b * blockSize + stackSize ≤ stackLow m.sched pid := by
      intro pid hpid
      by_cases h0 : pid = 0
      · rw [stackTop, if_pos h0]
        exact Or.inl hlow
      · obtain ⟨b', htop', -, -, hbit'⟩ := h.kernelStacks.page pid (by omega) hpid
        have hbb : b ≠ b' := by
          intro he
          rw [he, hbit'] at hfree'
          cases hfree'
        rw [stackTop, if_neg h0, stackLow, if_neg h0, htop']
        simp only [blockSize, stackSize]
        omega
    have hnote : note L m (.createUser entry pml4) = Function.update L m.sched.processCount
        (initialContext entry (UInt64.ofNat (p.stackBase + stackSize))) := by
      have hgrew : ¬ s.processCount = m.sched.processCount := by omega
      rw [← hp]
      exact if_neg hgrew
    rw [hnote]
    refine ⟨htable, ⟨?_, ?_, hreserved⟩, ?_, ?_⟩
    · intro pid h1 hpid
      have hpid' : pid < s.processCount := hpid
      by_cases hlast : pid = m.sched.processCount
      · refine ⟨b, by rw [hlast, hp, htop], hlow, ?_, hbit⟩
        rw [htotal]
        exact hb
      · exact hold pid h1 (by omega)
    · -- the new page differs from every stack there was
      have hdiff : ∀ pid, 1 ≤ pid → pid < m.sched.processCount →
          (s.processes pid).kernelStackTop ≠ (s.processes m.sched.processCount).kernelStackTop := by
        intro pid h1 hpid heq
        have hpage := hpages pid hpid
        have h0 : ¬ pid = 0 := by omega
        obtain ⟨b', htop', -⟩ := h.kernelStacks.page pid h1 hpid
        rw [hslots' pid hpid, hp, htop] at heq
        rw [stackTop, if_neg h0, stackLow, if_neg h0, heq] at hpage
        simp only [stackSize] at hpage
        omega
      intro pid pid' h1 hpid h1' hpid' hne
      have hlt : pid < s.processCount := hpid
      have hlt' : pid' < s.processCount := hpid'
      by_cases hlast : pid = m.sched.processCount
      · rw [hlast]
        exact (hdiff pid' h1' (by omega)).symm
      · by_cases hlast' : pid' = m.sched.processCount
        · rw [hlast']
          exact hdiff pid h1 (by omega)
        · rw [hslots' pid (by omega), hslots' pid' (by omega)]
          exact h.kernelStacks.distinct pid pid' h1 (by omega) h1' (by omega) hne
    · intro h1
      have htss' : s.tssRsp0 = m.sched.tssRsp0 := htss
      show s.tssRsp0 = (s.processes s.currentPid.toNat).kernelStackTop
      rw [htss', hcur, hslots' _ (by omega)]
      exact h.tss (by rw [← hcur]; exact h1)
    · intro pid hw
      by_cases hlast : pid = m.sched.processCount
      · have htotal' := m.sched.pmm.total_lt
        have hb' : b < m.sched.pmm.totalBlocks := hb
        have haddr : frameAddr ⟨{ m.cpu with mem := s.mem }, s, m.mode⟩ pid = UInt64.ofNat p.rsp := by
          rw [hlast, frameAddr, hp, hcur]
          have hother : ¬ ((m.sched.processCount : ℕ) : ℤ) = m.sched.currentPid := by omega
          cases m.mode with
          | running => rfl
          | handling r => exact if_neg hother
        have hnat : (UInt64.ofNat p.rsp).toNat = b * blockSize + stackSize - frameSize := by
          rw [UInt64.toNat_ofNat', hrsp, blockSize, stackSize, frameSize]
          omega
        have h0 : ¬ pid = 0 := by omega
        rw [haddr, hlast, Function.update_self]
        refine ⟨?_, hframe⟩
        rw [hlast] at h0
        rw [OnStackOf, hnat, stackLow, if_neg h0, stackTop, if_neg h0, hp, htop]
        simp only [stackSize, frameSize]
        omega
      · have hlt : pid < s.processCount := hw.1
        have hpid : pid < m.sched.processCount := by omega
        obtain ⟨hw', haddr⟩ := hwait pid hpid hw
        obtain ⟨hon, -⟩ := h.waiting pid hw'
        rw [haddr, Function.update_of_ne hlast]
        refine ⟨?_, h.frame_kept hw' ?_⟩
        · rw [OnStackOf, (hstack pid hpid).1, (hstack pid hpid).2]
          exact hon
        · intro x hx hx'
          have hapart := hpages pid hpid
          exact hmem x (by omega)

theorem machineOk_alloc (h : MachineOk m L) : MachineOk (step ret m .alloc) L := by
  have ht := h.table
  refine ⟨⟨ht.1, ht.2, ht.3, ht.4, ht.5, ht.6, ht.7⟩, ⟨?_, h.kernelStacks.distinct, ?_⟩, h.tss, h.waiting⟩
  · intro pid h1 hpid
    obtain ⟨b, htop, hlow, hb, hbit⟩ := h.kernelStacks.page pid h1 hpid
    refine ⟨b, htop, hlow, ?_, used_mono _ hbit⟩
    show b < (pmmAllocBlock m.sched.pmm).2.totalBlocks
    rw [pmmAllocBlock_totalBlocks]
    exact hb
  · intro j hj
    exact used_mono _ (h.kernelStacks.reserved j hj)

/-! ### The switch -/

theorem saveContext_pmm (s : Scheduler) (rsp : ℕ) : (saveContext s rsp).pmm = s.pmm := by
  simp only [saveContext]
  split <;> rfl

theorem saveContext_kernelStackTop {s : Scheduler} (hs : Schedulable s) (rsp pid : ℕ) :
    ((saveContext s rsp).processes pid).kernelStackTop = (s.processes pid).kernelStackTop := by
  by_cases hpid : pid = s.currentPid.toNat
  · cases hs.current with
    | inl hrun => rw [hpid, Process.saveContext_running s rsp hrun]
    | inr hdead => rw [Process.saveContext_dead s rsp hdead]
  · rw [Process.saveContext_of_ne s rsp pid hpid]

/-- **A call of `schedule`** at the end of an interrupt, on the table as it is or with the current process killed:
the stack pointer it returns is the frame of a waiting process, which is current from now on; the others keep
their frames. -/
theorem MachineOk.schedule_call (h : MachineOk m L) {r : UInt64} (hmode : m.mode = .handling r) {s : Scheduler}
    (hs : Schedulable s) (hcur : s.currentPid = m.sched.currentPid)
    (hcount : s.processCount = m.sched.processCount) (hpmm : s.pmm = m.sched.pmm)
    (hslots : ∀ pid : ℕ, (pid : ℤ) ≠ m.sched.currentPid → s.processes pid = m.sched.processes pid)
    (htops : ∀ pid : ℕ, (s.processes pid).kernelStackTop = (m.sched.processes pid).kernelStackTop)
    (hdead : ∀ pid : ℕ, (s.processes pid).state = .dead → pid < s.processCount) :
    ∃ n : ℕ, Waiting m n ∧ UInt64.ofNat (schedule s r.toNat).1 = frameAddr m n ∧
      (schedule s r.toNat).2.currentPid = n ∧
      ∀ c : Cpu, c.mem = m.cpu.mem → MachineOk ⟨c, (schedule s r.toNat).2, .running⟩ L := by
  have htable := hs.tableOk_schedule hdead r.toNat
  obtain ⟨n, hn, -, hready, heq⟩ := hs.schedule_spec r.toNat
  have hcurm := current_toNat h.table
  have hr : UInt64.ofNat r.toNat = r := UInt64.ofNat_toNat
  rw [heq] at htable ⊢
  -- a saved slot that is alive: the interrupted process at `r`, everybody else where it was
  have hsaved : ∀ pid : ℕ, ((saveContext s r.toNat).processes pid).state ≠ .dead →
      (m.sched.processes pid).state ≠ .dead ∧
        UInt64.ofNat ((saveContext s r.toNat).processes pid).rsp = frameAddr m pid := by
    intro pid hd
    rw [frameAddr, hmode]
    by_cases hpid : (pid : ℤ) = m.sched.currentPid
    · have hpid' : pid = s.currentPid.toNat := by omega
      have hrunning := h.table.current_running
      cases hs.current with
      | inl hrun =>
        rw [hpid', Process.saveContext_running s r.toNat hrun, hcur]
        refine ⟨?_, ?_⟩
        · show (m.sched.slot m.sched.currentPid).state ≠ .dead
          rw [hrunning]
          simp
        · show UInt64.ofNat r.toNat = if _ then _ else _
          rw [if_pos hcurm, hr]
      | inr hdd =>
        rw [Process.saveContext_dead s r.toNat hdd, hpid'] at hd
        exact absurd hdd hd
    · have hpid' : pid ≠ s.currentPid.toNat := by
        have := hs.cur_nonneg
        omega
      rw [Process.saveContext_of_ne s r.toNat pid hpid', hslots pid hpid] at hd ⊢
      exact ⟨hd, (if_neg hpid).symm⟩
  have htop' : ∀ pid : ℕ, ((switchTo (saveContext s r.toNat) n).processes pid).kernelStackTop
      = (m.sched.processes pid).kernelStackTop := by
    intro pid
    rw [Process.switchTo_processes, ← htops pid, ← saveContext_kernelStackTop hs r.toNat pid]
    split
    · rename_i he
      rw [he]
    · rfl
  have hpmm' : (switchTo (saveContext s r.toNat) n).pmm = m.sched.pmm := by
    show (saveContext s r.toNat).pmm = m.sched.pmm
    rw [saveContext_pmm, hpmm]
  have hcount' : (switchTo (saveContext s r.toNat) n).processCount = m.sched.processCount := by
    rw [Process.switchTo_processCount, Process.saveContext_processCount, hcount]
  have hstack : ∀ pid, stackTop (switchTo (saveContext s r.toNat) n) pid = stackTop m.sched pid ∧
      stackLow (switchTo (saveContext s r.toNat) n) pid = stackLow m.sched pid := by
    intro pid
    rw [stackTop, stackTop, stackLow, stackLow, htop' pid]
    exact ⟨rfl, rfl⟩
  have hnlive : ((saveContext s r.toNat).processes n).state ≠ .dead := by
    rw [hready]
    simp
  refine ⟨n, ⟨by omega, (hsaved n hnlive).1, Or.inr (by rw [hmode]; simp)⟩, (hsaved n hnlive).2, rfl, ?_⟩
  intro c hmem
  refine ⟨htable, ⟨?_, ?_, ?_⟩, ?_, ?_⟩
  · intro pid h1 hpid
    rw [htop', hpmm']
    exact h.kernelStacks.page pid h1 (by rw [← hcount']; exact hpid)
  · intro pid pid' h1 hpid h1' hpid'
    rw [htop', htop']
    exact h.kernelStacks.distinct pid pid' h1 (by rw [← hcount']; exact hpid) h1' (by rw [← hcount']; exact hpid')
  · rw [hpmm']
    exact h.kernelStacks.reserved
  · intro h1
    have hn1 : 1 ≤ n := by
      rw [Process.switchTo_currentPid] at h1
      omega
    obtain ⟨b, htop, -⟩ := h.kernelStacks.page n hn1 (by omega)
    have hne : (m.sched.processes n).kernelStackTop ≠ 0 := by
      rw [htop, stackSize]
      omega
    have hsave : ((saveContext s r.toNat).processes n).kernelStackTop = (m.sched.processes n).kernelStackTop := by
      rw [saveContext_kernelStackTop hs, htops]
    show (switchTo (saveContext s r.toNat) n).tssRsp0 = _
    rw [Process.switchTo_tssRsp0, Process.switchTo_currentPid, Int.toNat_natCast, htop' n, hsave, if_pos hne]
  · intro pid hw
    obtain ⟨hlt, hd, hother⟩ := hw
    have hpn : pid ≠ n := by
      cases hother with
      | inl hne =>
        rw [Process.switchTo_currentPid] at hne
        intro he
        exact hne (by rw [he])
      | inr hrun => exact absurd rfl hrun
    have hslot : (switchTo (saveContext s r.toNat) n).processes pid = (saveContext s r.toNat).processes pid := by
      rw [Process.switchTo_processes, if_neg hpn]
    have haddr : frameAddr ⟨c, switchTo (saveContext s r.toNat) n, .running⟩ pid
        = UInt64.ofNat ((saveContext s r.toNat).processes pid).rsp := by
      show UInt64.ofNat ((switchTo (saveContext s r.toNat) n).processes pid).rsp = _
      rw [hslot]
    have hd' : ((switchTo (saveContext s r.toNat) n).processes pid).state ≠ .dead := hd
    rw [hslot] at hd'
    obtain ⟨halive, hrsp⟩ := hsaved pid hd'
    have hw' : Waiting m pid := ⟨by rw [← hcount']; exact hlt, halive, Or.inr (by rw [hmode]; simp)⟩
    obtain ⟨hon, hframe⟩ := h.waiting pid hw'
    rw [haddr, hrsp]
    refine ⟨?_, ?_⟩
    · rw [OnStackOf, (hstack pid).1, (hstack pid).2]
      exact hon
    · show FrameAt c.mem (frameAddr m pid) (L pid)
      rw [hmem]
      exact hframe

/-- **What `isr_handler` returns** is the frame of a waiting process, current from now on. -/
theorem MachineOk.isrHandler_call (h : MachineOk m L) {r : UInt64} (hmode : m.mode = .handling r)
    (hexit : Allowed m .leave) {next : UInt64} {s : Scheduler}
    (hret : isrHandler m.sched r m.cpu.mem = some (next, s)) :
    ∃ n : ℕ, Waiting m n ∧ next = frameAddr m n ∧ s.currentPid = n ∧
      ∀ c : Cpu, c.mem = m.cpu.mem → MachineOk ⟨c, s, .running⟩ L := by
  have hcur := current_toNat h.table
  have hcurlt := h.table.cur_lt
  -- the interrupted process itself goes on
  have hback : ∃ n : ℕ, Waiting m n ∧ r = frameAddr m n ∧ m.sched.currentPid = n ∧
      ∀ c : Cpu, c.mem = m.cpu.mem → MachineOk ⟨c, m.sched, .running⟩ L := by
    have hrun : (m.sched.processes m.sched.currentPid.toNat).state = .running := h.table.current_running
    refine ⟨m.sched.currentPid.toNat, ⟨by omega, by rw [hrun]; simp, Or.inr (by rw [hmode]; simp)⟩, ?_, hcur.symm,
      ?_⟩
    · rw [frameAddr, hmode]
      exact (if_pos hcur).symm
    · intro c hmem
      refine ⟨h.table, h.kernelStacks, h.tss, ?_⟩
      intro pid hw
      have hne : (pid : ℤ) ≠ m.sched.currentPid := hw.2.2.resolve_right fun hrun => hrun rfl
      have hw' : Waiting m pid := ⟨hw.1, hw.2.1, Or.inl hne⟩
      have haddr : frameAddr ⟨c, m.sched, .running⟩ pid = frameAddr m pid := by
        rw [frameAddr, frameAddr, hmode]
        exact (if_neg hne).symm
      rw [haddr]
      show OnStackOf m.sched pid _ ∧ FrameAt c.mem _ _
      rw [hmem]
      exact h.waiting pid hw'
  have hkilltop : ∀ pid : ℕ, ((killCurrentProcess m.sched).processes pid).kernelStackTop
      = (m.sched.processes pid).kernelStackTop := by
    intro pid
    by_cases hpid : (pid : ℤ) = m.sched.currentPid
    · rw [show pid = m.sched.currentPid.toNat by omega, Process.killCurrentProcess_current h.table.cur_nonneg]
    · rw [Process.killCurrentProcess_of_ne h.table.cur_nonneg pid hpid]
  have hkillpmm : (killCurrentProcess m.sched).pmm = m.sched.pmm := by
    rw [Process.killCurrentProcess_of_nonneg h.table.cur_nonneg]
    rfl
  rw [isrHandler] at hret
  split at hret
  · -- the timer
    obtain ⟨rfl, rfl⟩ := Prod.mk.inj (Option.some.inj hret)
    exact h.schedule_call hmode h.table.schedulable rfl rfl rfl (fun _ _ => rfl) (fun _ => rfl) h.table.dead_lt
  · split at hret
    · obtain ⟨rfl, rfl⟩ := Prod.mk.inj (Option.some.inj hret)
      exact hback
    · split at hret
      · obtain ⟨rfl, rfl⟩ := Prod.mk.inj (Option.some.inj hret)
        exact hback
      · split at hret
        · cases hret
        · split at hret
          · rename_i hcall
            split at hret
            · -- the exit call
              rename_i hrax
              obtain ⟨rfl, rfl⟩ := Prod.mk.inj (Option.some.inj hret)
              have hpid := hexit r hmode hcall hrax
              exact h.schedule_call hmode (h.table.schedulable_kill hpid)
                (Process.killCurrentProcess_currentPid m.sched) (Process.killCurrentProcess_processCount m.sched)
                hkillpmm (Process.killCurrentProcess_of_ne h.table.cur_nonneg) hkilltop h.table.dead_lt_kill
            · obtain ⟨rfl, rfl⟩ := Prod.mk.inj (Option.some.inj hret)
              exact hback
          · obtain ⟨rfl, rfl⟩ := Prod.mk.inj (Option.some.inj hret)
            exact hback

/-- An interrupt returns: it is being handled, and not in one of the handlers that halt. -/
def Returns (m : Machine) : Prop := ∃ r, m.mode = .handling r ∧ (isrHandler m.sched r m.cpu.mem).isSome = true

/-- **The end of an interrupt** loads the context of the process that goes on. -/
theorem machineOk_leave (h : MachineOk m L) (hexit : Allowed m .leave) :
    MachineOk (step ret m .leave) L ∧
      (Returns m → contextOf (step ret m .leave).cpu = L (step ret m .leave).sched.currentPid.toNat) := by
  cases hmode : m.mode with
  | running =>
    have hstep : step ret m .leave = m := by rw [step, hmode]
    rw [hstep]
    refine ⟨h, ?_⟩
    intro hret
    obtain ⟨r, hr, -⟩ := hret
    rw [hmode] at hr
    cases hr
  | handling r =>
    cases hisr : isrHandler m.sched r m.cpu.mem with
    | none =>
      have hstep : step ret m .leave = m := by
        rw [step, hmode]
        dsimp only
        rw [hisr]
      rw [hstep]
      refine ⟨h, ?_⟩
      intro hret
      obtain ⟨r', hr', hsome⟩ := hret
      rw [hmode] at hr'
      rw [← Mode.handling.inj hr', hisr] at hsome
      cases hsome
    | some p =>
      obtain ⟨next, s⟩ := p
      have hstep : step ret m .leave = ⟨restore (setReg m.cpu .rax next), s, .running⟩ := by
        rw [step, hmode]
        dsimp only
        rw [hisr]
      obtain ⟨n, hw, hnext, hcur, hok⟩ := h.isrHandler_call hmode hexit hisr
      rw [hstep]
      refine ⟨hok _ (restore_mem _), fun _ => ?_⟩
      have hframe := (h.waiting n hw).2
      have hrax : (setReg m.cpu .rax next).regs .rax = frameAddr m n := (setReg_self _ _ _).trans hnext
      rw [← hrax] at hframe
      show contextOf (restore (setReg m.cpu .rax next)) = L s.currentPid.toNat
      rw [hcur, Int.toNat_natCast]
      exact contextOf_restore hframe

/-- **The step lemma.** -/
theorem machineOk_step (h : MachineOk m L) {e : Event} (he : Allowed m e) : MachineOk (step ret m e) (note L m e) := by
  cases e with
  | compute c => exact machineOk_compute h he
  | deliver v errorCode => exact machineOk_deliver h he
  | createUser entry pml4 => exact machineOk_createUser h entry pml4
  | alloc => exact machineOk_alloc h
  | leave => exact (machineOk_leave h he).1

end Steps

/-! ### Runs -/

section Run

variable (ret : UInt64) (c : Cpu) (pmm : PmmState) (kernelPml4 tssRsp0 : ℕ)

theorem machineOk_run (hpmm : BootStackReserved pmm) (events : List Event)
    (hevents : Admits (step ret) Allowed (boot c pmm kernelPml4 tssRsp0) events) :
    MachineOk (run (step ret) (boot c pmm kernelPml4 tssRsp0) events)
      (ledger ret c pmm kernelPml4 tssRsp0 events) := by
  induction events using List.reverseRecOn with
  | nil => exact machineOk_boot c hpmm kernelPml4 tssRsp0 _
  | append_singleton es e ih =>
    obtain ⟨hes, he⟩ := (admits_concat _ es e).mp hevents
    rw [ledger, trace_concat, run_concat]
    exact machineOk_step (ih hes) he

/-- **Preemption is transparent** as long as nobody breaks it.  All memory is open to every process, so the run is
one in which no code stores into the frame of a waiting process, each interrupt finds room on the kernel stack it
is taken on, and only pids from 1 on issue the exit call (`Allowed`), from `init_multitasking` with the blocks of
the boot stack reserved.  Then, when an interrupt returns, the processor holds exactly the general registers,
instruction and stack pointer, flags and segment selectors that the process now current had when it was last
interrupted, or that its creator gave it; and its kernel stack overlaps no other process's. -/
theorem resumed_with_saved_context (hpmm : BootStackReserved pmm) (events : List Event)
    (hevents : Admits (step ret) Allowed (boot c pmm kernelPml4 tssRsp0) (events ++ [.leave]))
    (hret : Returns (run (step ret) (boot c pmm kernelPml4 tssRsp0) events)) :
    contextOf (run (step ret) (boot c pmm kernelPml4 tssRsp0) (events ++ [.leave])).cpu
      = ledger ret c pmm kernelPml4 tssRsp0 events
          (run (step ret) (boot c pmm kernelPml4 tssRsp0) (events ++ [.leave])).sched.currentPid.toNat ∧
    ∀ pid pid', pid < (run (step ret) (boot c pmm kernelPml4 tssRsp0) events).sched.processCount →
      pid' < (run (step ret) (boot c pmm kernelPml4 tssRsp0) events).sched.processCount → pid ≠ pid' →
      stackTop (run (step ret) (boot c pmm kernelPml4 tssRsp0) events).sched pid
          ≤ stackLow (run (step ret) (boot c pmm kernelPml4 tssRsp0) events).sched pid' ∨
        stackTop (run (step ret) (boot c pmm kernelPml4 tssRsp0) events).sched pid'
          ≤ stackLow (run (step ret) (boot c pmm kernelPml4 tssRsp0) events).sched pid := by
  obtain ⟨hes, he⟩ := (admits_concat _ events .leave).mp hevents
  have h := machineOk_run ret c pmm kernelPml4 tssRsp0 hpmm events hes
  refine ⟨?_, fun pid pid' hp hp' hne => stacks_disjoint h.kernelStacks hp hp' hne⟩
  rw [run_concat]
  exact (machineOk_leave h he).2 hret

end Run

/-- A machine whose first 640 KB are reserved. -/
def lowReserved : PmmState := ⟨fun w => if w < 5 then BitVec.allOnes 32 else 0, 320, by decide⟩

/-- A user process is created, runs from the first tick to the second, and the shell goes on where the first tick
took it. -/
def twoTicks : List Event := [.createUser 0x10000000 0x6000, .deliver .irq0 0, .leave, .deliver .irq0 0]

theorem twoTicks_admitted :
    Admits (step 0x100456) Allowed (boot smallCpu lowReserved 0x5000 0) (twoTicks ++ [.leave]) := by
  refine ⟨trivial, ?_, ?_, ?_, ?_, trivial⟩
  · intro _
    rw [HasRoom]
    decide +kernel
  · intro r hr hcall
    have hframe : (step 0x100456 (step 0x100456 (boot smallCpu lowReserved 0x5000 0) (.createUser 0x10000000 0x6000))
        (.deliver .irq0 0)).mode = .handling 0x8f38 := by decide +kernel
    rw [hframe] at hr
    rw [← Mode.handling.inj hr] at hcall
    exact absurd hcall (by decide +kernel)
  · intro _
    rw [HasRoom]
    decide +kernel
  · intro _ _ _ _
    decide +kernel

theorem resumed_with_saved_context_small :
    contextOf (run (step 0x100456) (boot smallCpu lowReserved 0x5000 0) (twoTicks ++ [.leave])).cpu
      = contextOf smallCpu := by
  have hreserved : BootStackReserved lowReserved := by
    intro j hj
    have hlt : j < 144 := by
      simp only [blockSize, bootStackTop] at hj
      omega
    have hall : ∀ i < 144, testBit lowReserved.bitmap i = true := by decide +kernel
    exact hall j hlt
  have h := (resumed_with_saved_context 0x100456 smallCpu lowReserved 0x5000 0 hreserved twoTicks twoTicks_admitted
    ⟨0xa1f48, by decide +kernel, by decide +kernel⟩).1
  have hcur : (run (step 0x100456) (boot smallCpu lowReserved 0x5000 0) (twoTicks ++ [.leave])).sched.currentPid.toNat
      = 0 := by decide +kernel
  rw [hcur] at h
  rw [h]
  -- the last note for the shell is the one of the first tick
  have hone : (run (step 0x100456) (boot smallCpu lowReserved 0x5000 0) (twoTicks.take 3)).sched.currentPid.toNat = 1 := by
    decide +kernel
  have hrunning : (run (step 0x100456) (boot smallCpu lowReserved 0x5000 0) (twoTicks.take 3)).mode = .running := by
    decide +kernel
  have hlast : ledger 0x100456 smallCpu lowReserved 0x5000 0 twoTicks 0
      = ledger 0x100456 smallCpu lowReserved 0x5000 0 (twoTicks.take 3) 0 := by
    have hsplit : twoTicks = twoTicks.take 3 ++ [.deliver .irq0 0] := rfl
    rw [hsplit, ledger, trace_concat, note, if_pos hrunning, hone]
    exact Function.update_of_ne (by decide) _ _
  rw [hlast]
  rfl

end OsEojin.Multitasking
