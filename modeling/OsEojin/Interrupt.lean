import OsEojin.Lib.WordStack

/-!
# The interrupt stub

`src/kernel/interrupt.asm`, instruction by instruction, and `registers_t` of `src/kernel/isr.c`, the C view of
the words it pushes.  `isr_handler` is a parameter: any change of the processor and of memory between the `call`
and its return, with its result in `rax`.  The flags `test` and `add` set are not tracked; nothing reads them but
the `jz` after the `test`, and `iretq` loads all flags anew.

* `Reg`, `Cpu`: the registers; `push`, `popReg`, `movAx`, `loadSegments`, `iretq`: the instructions;
* `Vector`, `deliver`: what the processor pushes; `isr`: the three macros;
* `saveFrame`, `callHandler`, `restore`, `isrCommonStub`: the stub up to the alignment test, the call, and the way
  back;
* `Registers`, `registersAt`: `registers_t` at an address.
-/

namespace OsEojin.Interrupt

open OsEojin.Lib.ByteMemory OsEojin.Lib.WordStack

/-- The fifteen general registers but the stack pointer. -/
inductive Reg where
  | rax | rbx | rcx | rdx | rbp | rsi | rdi
  | r8 | r9 | r10 | r11 | r12 | r13 | r14 | r15
  deriving DecidableEq, Repr

structure Cpu where
  regs : Reg → UInt64
  rsp : UInt64
  rip : UInt64
  rflags : UInt64
  cs : UInt16
  ss : UInt16
  ds : UInt16
  es : UInt16
  fs : UInt16
  gs : UInt16
  mem : Memory

/-! ### Instructions -/

def push (c : Cpu) (v : UInt64) : Cpu :=
  { c with rsp := (pushWord (c.rsp, c.mem) v).1, mem := (pushWord (c.rsp, c.mem) v).2 }

def setReg (c : Cpu) (r : Reg) (v : UInt64) : Cpu := { c with regs := Function.update c.regs r v }

def pushReg (c : Cpu) (r : Reg) : Cpu := push c (c.regs r)

def popReg (c : Cpu) (r : Reg) : Cpu := { setReg c r (wordAt c.mem c.rsp) with rsp := c.rsp + 8 }

/-- `x` with its low sixteen bits replaced. -/
def withLow (x : UInt64) (v : UInt16) : UInt64 := UInt64.ofNat (x.toNat / 65536 * 65536 + v.toNat)

def movAx (c : Cpu) (v : UInt16) : Cpu := setReg c .rax (withLow (c.regs .rax) v)

/-- `mov ds, ax` and the same for `es`, `fs` and `gs`. -/
def loadSegments (c : Cpu) : Cpu :=
  { c with
    ds := (c.regs .rax).toUInt16
    es := (c.regs .rax).toUInt16
    fs := (c.regs .rax).toUInt16
    gs := (c.regs .rax).toUInt16 }

def cli (c : Cpu) : Cpu := { c with rflags := c.rflags &&& ~~~0x200 }

def sti (c : Cpu) : Cpu := { c with rflags := c.rflags ||| 0x200 }

def iretq (c : Cpu) : Cpu :=
  { c with
    rip := wordAt c.mem c.rsp
    cs := (wordAt c.mem (c.rsp + 8)).toUInt16
    rflags := wordAt c.mem (c.rsp + 16)
    rsp := wordAt c.mem (c.rsp + 24)
    ss := (wordAt c.mem (c.rsp + 32)).toUInt16 }

@[simp] theorem push_regs (c : Cpu) (v : UInt64) : (push c v).regs = c.regs := rfl

@[simp] theorem push_ds (c : Cpu) (v : UInt64) : (push c v).ds = c.ds := rfl

@[simp] theorem setReg_self (c : Cpu) (r : Reg) (v : UInt64) : (setReg c r v).regs r = v := by
  simp [setReg]

@[simp] theorem movAx_rax (c : Cpu) (v : UInt16) : (movAx c v).regs .rax = withLow (c.regs .rax) v :=
  setReg_self c .rax _

@[simp] theorem popReg_self (c : Cpu) (r : Reg) : (popReg c r).regs r = wordAt c.mem c.rsp :=
  setReg_self c r _

theorem popReg_of_ne (c : Cpu) {r x : Reg} (h : x ≠ r) : (popReg c r).regs x = c.regs x := by
  simp [popReg, setReg, h]

/-! ### Entry -/

/-- The handlers the file defines. -/
inductive Vector where
  | isr0 | isr8 | isr13 | isr14 | isr128 | irq0 | irq1
  deriving DecidableEq, Repr

def Vector.number : Vector → UInt64
  | .isr0 => 0
  | .isr8 => 8
  | .isr13 => 13
  | .isr14 => 14
  | .isr128 => 128
  | .irq0 => 32
  | .irq1 => 33

/-- `ISR_ERRCODE`: the processor has pushed an error code. -/
def Vector.hasErrorCode : Vector → Bool
  | .isr8 => true
  | .isr13 => true
  | .isr14 => true
  | _ => false

/-- The processor switches to the stack at `sp` and pushes `SS`, `RSP`, `RFLAGS`, `CS`, `RIP` and, for some
vectors, an error code. -/
def deliver (c : Cpu) (v : Vector) (sp errorCode : UInt64) : Cpu :=
  let c' := [c.ss.toUInt64, c.rsp, c.rflags, c.cs.toUInt64, c.rip].foldl push { c with rsp := sp }
  if v.hasErrorCode then push c' errorCode else c'

/-- `ISR_NOERRCODE`, `ISR_ERRCODE` and `IRQ`. -/
def isr (v : Vector) (c : Cpu) : Cpu :=
  if v.hasErrorCode then push (cli c) v.number else push (push (cli c) 0) v.number

/-- The order of the stub's pushes. -/
def pushOrder : List Reg :=
  [.r15, .r14, .r13, .r12, .r11, .r10, .r9, .r8, .rdi, .rsi, .rbp, .rdx, .rcx, .rbx, .rax]

/-- The order of its pops. -/
def popOrder : List Reg :=
  [.rax, .rbx, .rcx, .rdx, .rbp, .rsi, .rdi, .r8, .r9, .r10, .r11, .r12, .r13, .r14, .r15]

/-- `isr_common_stub` up to the alignment test. -/
def saveFrame (c : Cpu) : Cpu :=
  let c := pushOrder.foldl pushReg c
  let c := pushReg (movAx c c.ds) .rax
  loadSegments (movAx c 0x10)

variable (ret : UInt64)

/-- The two branches of the call; `ret` is its return address. -/
def callHandler (c : Cpu) : Cpu :=
  if c.rsp &&& 0xf = 0 then push (setReg c .rdi c.rsp) ret
  else
    let c := pushReg c .rax
    push (setReg c .rdi (c.rsp + 8)) ret

/-- The last three instructions: drop vector and error code, and return from the interrupt. -/
def leave (c : Cpu) : Cpu := iretq (sti { c with rsp := c.rsp + 16 })

/-- `isr_common_stub` from the return of `isr_handler` on. -/
def restore (c : Cpu) : Cpu :=
  let c := { c with rsp := c.regs .rax }
  let c := loadSegments (popReg c .rax)
  leave (popOrder.foldl popReg c)

/-- `isr_common_stub`. -/
def isrCommonStub (isrHandler : Cpu → Cpu) (c : Cpu) : Cpu :=
  restore (isrHandler (callHandler ret (saveFrame c)))

/-! ### The C view -/

/-- `registers_t`. -/
structure Registers where
  ds : UInt64
  rax : UInt64
  rbx : UInt64
  rcx : UInt64
  rdx : UInt64
  rbp : UInt64
  rsi : UInt64
  rdi : UInt64
  r8 : UInt64
  r9 : UInt64
  r10 : UInt64
  r11 : UInt64
  r12 : UInt64
  r13 : UInt64
  r14 : UInt64
  r15 : UInt64
  intNo : UInt64
  errCode : UInt64
  rip : UInt64
  cs : UInt64
  rflags : UInt64
  rsp : UInt64
  ss : UInt64
  deriving DecidableEq, Repr

/-- `*r`: the members in the order of their declaration, eight bytes each. -/
def registersAt (m : Memory) (r : UInt64) : Registers where
  ds := wordAt m r
  rax := wordAt m (r + 8)
  rbx := wordAt m (r + 16)
  rcx := wordAt m (r + 24)
  rdx := wordAt m (r + 32)
  rbp := wordAt m (r + 40)
  rsi := wordAt m (r + 48)
  rdi := wordAt m (r + 56)
  r8 := wordAt m (r + 64)
  r9 := wordAt m (r + 72)
  r10 := wordAt m (r + 80)
  r11 := wordAt m (r + 88)
  r12 := wordAt m (r + 96)
  r13 := wordAt m (r + 104)
  r14 := wordAt m (r + 112)
  r15 := wordAt m (r + 120)
  intNo := wordAt m (r + 128)
  errCode := wordAt m (r + 136)
  rip := wordAt m (r + 144)
  cs := wordAt m (r + 152)
  rflags := wordAt m (r + 160)
  rsp := wordAt m (r + 168)
  ss := wordAt m (r + 176)

end OsEojin.Interrupt
