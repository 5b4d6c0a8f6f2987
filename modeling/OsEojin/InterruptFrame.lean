import OsEojin.Interrupt
import OsEojin.Process

/-!
# The four descriptions of the interrupt frame agree

The frame of an interrupt is written down as the pushes of the stub, as its pops, as `registers_t`, and as the
two frames `process.c` builds by hand.  Here it is one list of words, `frameWords`, and each description is
compared with that list.

* `onStack_saveFrame`, `holds_callHandler`: the pushes; `restore_spec`: the pops;
* `registersAt_eq`: the C view;
* `holds_createUserProcess`, `holds_createKernelProcess`: the frames built by hand;
* `interrupt_frame_agreement`: what `isr_handler` sees and what the stub resumes.
-/

namespace OsEojin.Interrupt

open OsEojin.Lib.ByteMemory OsEojin.Lib.WordStack OsEojin.Pmm OsEojin.Process

/-- The twenty-three words of a frame, from the stack pointer up. -/
def frameWords (d : UInt64) (g : Reg → UInt64) (intNo errCode rip cs rflags rsp ss : UInt64) : List UInt64 :=
  d :: (popOrder.map g ++ [intNo, errCode, rip, cs, rflags, rsp, ss])

/-! ### Pushes -/

/-- The words on top of the stack. -/
structure OnStack (c : Cpu) (ws : List UInt64) : Prop where
  aligned : Aligned c.rsp
  holds : Holds c.mem c.rsp ws

variable {c : Cpu} {ws : List UInt64}

theorem OnStack.push (h : OnStack c ws) (hlen : ws.length < 2 ^ 61) (v : UInt64) :
    OnStack (push c v) (v :: ws) :=
  ⟨aligned_sub h.aligned, holds_push h.aligned hlen h.holds v⟩

/-- Induction on the registers pushed; the pushes change no register. -/
theorem OnStack.pushRegs (rs : List Reg) : ∀ {c : Cpu} {ws : List UInt64}, OnStack c ws →
    rs.length + ws.length < 2 ^ 61 →
    OnStack (rs.foldl pushReg c) (rs.reverse.map c.regs ++ ws) ∧
      (rs.foldl pushReg c).regs = c.regs ∧ (rs.foldl pushReg c).ds = c.ds := by
  induction rs with
  | nil =>
    intro c ws h _
    exact ⟨h, rfl, rfl⟩
  | cons r rs ih =>
    intro c ws h hlen
    rw [List.length_cons] at hlen
    have hpush : OnStack (pushReg c r) (c.regs r :: ws) := h.push (by omega) (c.regs r)
    obtain ⟨hstack, hregs, hds⟩ := ih hpush (by rw [List.length_cons]; omega)
    rw [List.foldl_cons, List.reverse_cons, List.map_append, List.append_assoc]
    exact ⟨hstack, hregs, hds⟩

theorem OnStack.congr {c' : Cpu} (h : OnStack c ws) (hrsp : c'.rsp = c.rsp) (hmem : c'.mem = c.mem) :
    OnStack c' ws := by
  refine ⟨?_, ?_⟩
  · rw [hrsp]
    exact h.aligned
  · rw [hrsp, hmem]
    exact h.holds

theorem OnStack.cli (h : OnStack c ws) : OnStack (cli c) ws := h.congr rfl rfl

/-- What the processor and the macro push. -/
theorem onStack_isr (c : Cpu) (v : Vector) {sp : UInt64} (hsp : Aligned sp) (errorCode : UInt64) :
    OnStack (isr v (deliver c v sp errorCode))
      [v.number, if v.hasErrorCode then errorCode else 0, c.rip, c.cs.toUInt64, c.rflags, c.rsp,
        c.ss.toUInt64] := by
  have h₀ : OnStack { c with rsp := sp } [] := ⟨hsp, trivial⟩
  have h₁ := h₀.push (by simp) c.ss.toUInt64
  have h₂ := h₁.push (by simp) c.rsp
  have h₃ := h₂.push (by simp) c.rflags
  have h₄ := h₃.push (by simp) c.cs.toUInt64
  have h₅ := h₄.push (by simp) c.rip
  cases hv : v.hasErrorCode with
  | true =>
    rw [isr, deliver, hv, if_pos rfl, if_pos rfl, if_pos rfl]
    have h₆ := h₅.push (by simp) errorCode
    exact h₆.cli.push (by simp) v.number
  | false =>
    have hfalse : ¬ false = true := by decide
    rw [isr, deliver, hv, if_neg hfalse, if_neg hfalse, if_neg hfalse]
    have h₆ := h₅.cli.push (by simp) 0
    exact h₆.push (by simp) v.number

/-- The word with the data segment in it. -/
theorem OnStack.pushDs (h : OnStack c ws) (hlen : ws.length < 2 ^ 61) :
    OnStack (loadSegments (movAx (pushReg (movAx c c.ds) .rax) 0x10)) (withLow (c.regs .rax) c.ds :: ws) := by
  have hmov : OnStack (movAx c c.ds) ws := h.congr rfl rfl
  have hpush := hmov.push hlen ((movAx c c.ds).regs .rax)
  rw [movAx_rax] at hpush
  refine hpush.congr ?_ ?_
  · rw [← movAx_rax]
    rfl
  · rw [← movAx_rax]
    rfl

theorem onStack_saveFrame (h : OnStack c ws) (hlen : ws.length < 2 ^ 60) :
    OnStack (saveFrame c) (withLow (c.regs .rax) c.ds :: (popOrder.map c.regs ++ ws)) := by
  have hreverse : pushOrder.reverse = popOrder := rfl
  have hcount : pushOrder.length = 15 := rfl
  have hcount' : popOrder.length = 15 := rfl
  obtain ⟨hregs, hsame, hds⟩ := h.pushRegs pushOrder (by rw [hcount]; omega)
  rw [hreverse] at hregs
  have hframe := hregs.pushDs (by rw [List.length_append, List.length_map, hcount']; omega)
  rw [hsame] at hframe
  rw [saveFrame, ← hds]
  exact hframe

/-- **At the call**, in both alignment branches, `rdi` points to the frame. -/
theorem holds_callHandler (ret : UInt64) (h : OnStack c ws) (hlen : ws.length < 2 ^ 60) :
    Holds (callHandler ret c).mem ((callHandler ret c).regs .rdi) ws := by
  rw [callHandler]
  split
  · have hret := (h.push (by omega) ret).holds.2
    have hback : (push c ret).rsp + 8 = c.rsp := sub_add_word c.rsp
    have hrdi : (push (setReg c .rdi c.rsp) ret).regs .rdi = c.rsp := setReg_self c .rdi c.rsp
    rw [hback] at hret
    rw [hrdi]
    exact hret
  · have hdummy := h.push (by omega) (c.regs .rax)
    have hret := (hdummy.push (by rw [List.length_cons]; omega) ret).holds.2.2
    have hback : (push (push c (c.regs .rax)) ret).rsp + 8 + 8 = c.rsp :=
      (congrArg (· + 8) (sub_add_word (push c (c.regs .rax)).rsp)).trans (sub_add_word c.rsp)
    have hrdi : (push (setReg (pushReg c .rax) .rdi ((pushReg c .rax).rsp + 8)) ret).regs .rdi = c.rsp :=
      (setReg_self (pushReg c .rax) .rdi _).trans (sub_add_word c.rsp)
    rw [hback] at hret
    dsimp only
    rw [hrdi]
    exact hret

/-! ### Pops -/

/-- Induction on the registers popped. -/
theorem popRegs (g : Reg → UInt64) (rest : List UInt64) (rs : List Reg) : ∀ c : Cpu, rs.Nodup →
    Holds c.mem c.rsp (rs.map g ++ rest) →
    (∀ r, (rs.foldl popReg c).regs r = if r ∈ rs then g r else c.regs r) ∧
      Holds (rs.foldl popReg c).mem (rs.foldl popReg c).rsp rest := by
  induction rs with
  | nil =>
    intro c _ h
    exact ⟨fun r => by simp, h⟩
  | cons r rs ih =>
    intro c hnodup h
    obtain ⟨hr, hnodup⟩ := List.nodup_cons.mp hnodup
    obtain ⟨hregs, hrest⟩ := ih (popReg c r) hnodup h.2
    refine ⟨?_, hrest⟩
    intro x
    rw [List.foldl_cons, hregs]
    by_cases hx : x = r
    · rw [hx, if_neg hr, if_pos List.mem_cons_self, popReg_self]
      exact h.1
    · rw [popReg_of_ne c hx]
      simp [hx]

theorem mem_popOrder (r : Reg) : r ∈ popOrder := by
  cases r <;> decide

/-- The words `iretq` finds below vector and error code. -/
theorem leave_spec {intNo errCode rip cs rflags rsp ss : UInt64}
    (h : Holds c.mem c.rsp [intNo, errCode, rip, cs, rflags, rsp, ss]) :
    (leave c).rip = rip ∧ (leave c).cs = cs.toUInt16 ∧ (leave c).rflags = rflags ∧ (leave c).rsp = rsp ∧
      (leave c).ss = ss.toUInt16 := by
  have hwords : ∀ i w, [intNo, errCode, rip, cs, rflags, rsp, ss][i]? = some w →
      wordAt c.mem (c.rsp + UInt64.ofNat (8 * i)) = w := fun i w hi => holds_getElem h hi
  have hoffset : ∀ k : UInt64, c.rsp + 16 + k = c.rsp + (16 + k) := fun k => UInt64.add_assoc _ _ _
  refine ⟨hwords 2 rip rfl, ?_, ?_, ?_, ?_⟩
  · show (wordAt c.mem (c.rsp + 16 + 8)).toUInt16 = cs.toUInt16
    rw [hoffset]
    exact congrArg _ (hwords 3 cs rfl)
  · show wordAt c.mem (c.rsp + 16 + 16) = rflags
    rw [hoffset]
    exact hwords 4 rflags rfl
  · show wordAt c.mem (c.rsp + 16 + 24) = rsp
    rw [hoffset]
    exact hwords 5 rsp rfl
  · show (wordAt c.mem (c.rsp + 16 + 32)).toUInt16 = ss.toUInt16
    rw [hoffset]
    exact congrArg _ (hwords 6 ss rfl)

/-- **The return** loads the words of the frame `rax` points to. -/
theorem restore_spec {d intNo errCode rip cs rflags rsp ss : UInt64} {g : Reg → UInt64}
    (h : Holds c.mem (c.regs .rax) (frameWords d g intNo errCode rip cs rflags rsp ss)) :
    (restore c).regs = g ∧ (restore c).rip = rip ∧ (restore c).cs = cs.toUInt16 ∧
      (restore c).rflags = rflags ∧ (restore c).rsp = rsp ∧ (restore c).ss = ss.toUInt16 := by
  obtain ⟨hregs, hrest⟩ := popRegs g [intNo, errCode, rip, cs, rflags, rsp, ss] popOrder
    (loadSegments (popReg { c with rsp := c.regs .rax } .rax)) (by decide) h.2
  refine ⟨?_, leave_spec hrest⟩
  funext r
  exact (hregs r).trans (if_pos (mem_popOrder r))

/-! ### The C view -/

/-- **`registers_t`** names the words. -/
theorem registersAt_eq {m : Memory} {r d intNo errCode rip cs rflags rsp ss : UInt64} {g : Reg → UInt64}
    (h : Holds m r (frameWords d g intNo errCode rip cs rflags rsp ss)) :
    registersAt m r =
      { ds := d, rax := g .rax, rbx := g .rbx, rcx := g .rcx, rdx := g .rdx, rbp := g .rbp, rsi := g .rsi,
        rdi := g .rdi, r8 := g .r8, r9 := g .r9, r10 := g .r10, r11 := g .r11, r12 := g .r12, r13 := g .r13,
        r14 := g .r14, r15 := g .r15, intNo := intNo, errCode := errCode, rip := rip, cs := cs, rflags := rflags,
        rsp := rsp, ss := ss } := by
  have hwords : ∀ i w, (frameWords d g intNo errCode rip cs rflags rsp ss)[i]? = some w →
      wordAt m (r + UInt64.ofNat (8 * i)) = w := fun i w hi => holds_getElem h hi
  rw [registersAt, Registers.mk.injEq]
  exact ⟨h.1, hwords 1 _ rfl, hwords 2 _ rfl, hwords 3 _ rfl, hwords 4 _ rfl, hwords 5 _ rfl, hwords 6 _ rfl,
    hwords 7 _ rfl, hwords 8 _ rfl, hwords 9 _ rfl, hwords 10 _ rfl, hwords 11 _ rfl, hwords 12 _ rfl,
    hwords 13 _ rfl, hwords 14 _ rfl, hwords 15 _ rfl, hwords 16 _ rfl, hwords 17 _ rfl, hwords 18 _ rfl,
    hwords 19 _ rfl, hwords 20 _ rfl, hwords 21 _ rfl, hwords 22 _ rfl⟩

theorem toUInt16_withLow (x : UInt64) (v : UInt16) : (withLow x v).toUInt16 = v := by
  have hv := UInt16.toNat_lt v
  apply UInt16.toNat_inj.mp
  rw [UInt64.toNat_toUInt16, withLow, UInt64.toNat_ofNat']
  omega

/-! ### Frames built by hand -/

/-- The pushes of `process.c` are pushes of the machine. -/
theorem push_eq_pushWord {f : ℕ × Memory} {v : ℕ} (hlo : 8 ≤ f.1) (hhi : f.1 < 2 ^ 64) (hv : v < 2 ^ 64) :
    (UInt64.ofNat (Process.push f v).1, (Process.push f v).2)
      = pushWord (UInt64.ofNat f.1, f.2) (UInt64.ofNat v) := by
  have hword : (UInt64.ofNat v).toNat = v := by
    rw [UInt64.toNat_ofNat', Nat.mod_eq_of_lt hv]
  have hsub : (UInt64.ofNat f.1 - 8).toNat = f.1 - 8 := by
    have h8 : (8 : UInt64).toNat = 8 := rfl
    rw [UInt64.toNat_sub, UInt64.toNat_ofNat', h8]
    omega
  have hptr : UInt64.ofNat (f.1 - 8) = UInt64.ofNat f.1 - 8 := by
    rw [← hsub, UInt64.ofNat_toNat]
  rw [Process.push, pushWord, hsub, hword, hptr]

theorem pushes_eq_pushWord (vs : List ℕ) : ∀ f : ℕ × Memory, 8 * vs.length ≤ f.1 → f.1 < 2 ^ 64 →
    (∀ v ∈ vs, v < 2 ^ 64) →
    (UInt64.ofNat (vs.foldl Process.push f).1, (vs.foldl Process.push f).2)
      = (vs.map UInt64.ofNat).foldl pushWord (UInt64.ofNat f.1, f.2) := by
  induction vs with
  | nil =>
    intro f _ _ _
    rfl
  | cons v vs ih =>
    intro f hlo hhi hv
    rw [List.length_cons] at hlo
    have hfst : (Process.push f v).1 = f.1 - 8 := rfl
    rw [List.foldl_cons, ih (Process.push f v) (by omega) (by omega) fun w hw => hv w (List.mem_cons_of_mem v hw),
      push_eq_pushWord (by omega) hhi (hv v List.mem_cons_self)]
    rfl

/-- **A frame built by hand** below the top of a page. -/
theorem holds_trapFrame {mem : Memory} {page ss rsp cs : ℕ} {entry : UInt64} (halign : page % 4096 = 0)
    (hpage : page + 4096 < 2 ^ 64) (hss : ss < 2 ^ 64) (hrsp : rsp < 2 ^ 64) (hcs : cs < 2 ^ 64) :
    Holds ((trapFrame ss rsp 0x202 cs entry.toNat).foldl Process.push (page + 4096, mem)).2
      (UInt64.ofNat ((trapFrame ss rsp 0x202 cs entry.toNat).foldl Process.push (page + 4096, mem)).1)
      (frameWords 0 (fun _ => 0) 0 0 entry (UInt64.ofNat cs) 0x202 (UInt64.ofNat rsp) (UInt64.ofNat ss)) := by
  have hlength : (trapFrame ss rsp 0x202 cs entry.toNat).length = 23 := rfl
  have hwords : ∀ v ∈ trapFrame ss rsp 0x202 cs entry.toNat, v < 2 ^ 64 := by
    have hentry := UInt64.toNat_lt entry
    intro v hv
    simp only [trapFrame, List.mem_append, List.mem_cons, List.not_mem_nil, or_false, List.mem_replicate] at hv
    omega
  have heq := pushes_eq_pushWord (trapFrame ss rsp 0x202 cs entry.toNat) (page + 4096, mem)
    (by rw [hlength]; dsimp only; omega) hpage hwords
  have htop : Aligned (UInt64.ofNat (page + 4096)) := by
    rw [Aligned, UInt64.toNat_ofNat']
    omega
  have hheld := holds_pushes ((trapFrame ss rsp 0x202 cs entry.toNat).map UInt64.ofNat)
    (UInt64.ofNat (page + 4096), mem) [] htop (by rw [List.length_map, hlength]; decide) trivial
  rw [← heq] at hheld
  dsimp only at hheld
  have hreverse : ((trapFrame ss rsp 0x202 cs entry.toNat).map UInt64.ofNat).reverse ++ []
      = frameWords 0 (fun _ => 0) 0 0 entry (UInt64.ofNat cs) 0x202 (UInt64.ofNat rsp) (UInt64.ofNat ss) := by
    have hentry : UInt64.ofNat entry.toNat = entry := UInt64.ofNat_toNat
    simp [trapFrame, frameWords, popOrder, hentry, List.replicate]
  rw [hreverse] at hheld
  exact hheld

theorem pmmAllocBlock_below (p : PmmState) : (pmmAllocBlock p).1 + 4096 < 2 ^ 64 := by
  have htotal := p.total_lt
  cases pmmAllocBlock_cases p with
  | inl hsome =>
    obtain ⟨i, hi, -, -, heq⟩ := hsome
    rw [heq]
    show i * 4096 + 4096 < 2 ^ 64
    omega
  | inr hnone =>
    rw [hnone.2]
    show 0 + 4096 < 2 ^ 64
    omega

/-- The frame of a user process. -/
theorem holds_createUserProcess {s : Scheduler} {entry : UInt64} {pml4 : ℕ}
    (h : (createUserProcess s entry.toNat pml4).processCount = s.processCount + 1) :
    Holds (createUserProcess s entry.toNat pml4).mem
      (UInt64.ofNat ((createUserProcess s entry.toNat pml4).processes s.processCount).rsp)
      (frameWords 0 (fun _ => 0) 0 0 entry 0x23 0x202
        (UInt64.ofNat (((createUserProcess s entry.toNat pml4).processes s.processCount).stackBase + 4096)) 0x1B) := by
  have hcount : ¬ maxProcesses ≤ s.processCount := by
    intro hle
    rw [createUserProcess, if_pos hle] at h
    omega
  have huser : ¬ (pmmAllocBlock s.pmm).1 = 0 := by
    intro h0
    simp only [createUserProcess, if_neg hcount, if_pos h0] at h
    omega
  have hkernel : ¬ (pmmAllocBlock (pmmAllocBlock s.pmm).2).1 = 0 := by
    intro h0
    simp only [createUserProcess, if_neg hcount, if_neg huser, if_pos h0] at h
    omega
  simp only [createUserProcess, if_neg hcount, if_neg huser, if_neg hkernel, Function.update_self]
  exact holds_trapFrame (pmmAllocBlock_aligned _) (pmmAllocBlock_below _) (by decide)
    (pmmAllocBlock_below s.pmm) (by decide)

/-- The frame of a kernel process. -/
theorem holds_createKernelProcess {s : Scheduler} {entry : UInt64}
    (h : (createKernelProcess s entry.toNat).processCount = s.processCount + 1) :
    Holds (createKernelProcess s entry.toNat).mem
      (UInt64.ofNat ((createKernelProcess s entry.toNat).processes s.processCount).rsp)
      (frameWords 0 (fun _ => 0) 0 0 entry 0x08 0x202
        (UInt64.ofNat ((createKernelProcess s entry.toNat).processes s.processCount).kernelStackTop) 0x10) := by
  have hcount : ¬ maxProcesses ≤ s.processCount := by
    intro hle
    rw [createKernelProcess, if_pos hle] at h
    omega
  simp only [createKernelProcess, if_neg hcount, Function.update_self]
  exact holds_trapFrame (pmmAllocBlock_aligned _) (pmmAllocBlock_below _) (by decide)
    (pmmAllocBlock_below s.pmm) (by decide)

/-! ### Agreement -/

/-- The members in order. -/
def Registers.words (r : Registers) : List UInt64 :=
  [r.ds, r.rax, r.rbx, r.rcx, r.rdx, r.rbp, r.rsi, r.rdi, r.r8, r.r9, r.r10, r.r11, r.r12, r.r13, r.r14, r.r15,
    r.intNo, r.errCode, r.rip, r.cs, r.rflags, r.rsp, r.ss]

theorem holds_words (m : Memory) (r : UInt64) : Holds m r (registersAt m r).words := by
  simp [Registers.words, registersAt, Holds, UInt64.add_assoc]

/-- Two memories with the same `registers_t` at `r` hold the same frame there. -/
theorem holds_of_registersAt {m m' : Memory} {r : UInt64} (hw : Holds m r ws) (hlen : ws.length = 23)
    (h : registersAt m' r = registersAt m r) : Holds m' r ws := by
  have hwords : ws = (registersAt m r).words := holds_unique hw (holds_words m r) hlen
  rw [hwords, ← h]
  exact holds_words m' r

section Agreement

variable (ret : UInt64) (isrHandler : Cpu → Cpu) (c : Cpu) (v : Vector) (sp errorCode : UInt64)

/-- The interrupted processor at the first instruction of `isr_handler`. -/
def atHandler : Cpu := callHandler ret (saveFrame (isr v (deliver c v sp errorCode)))

/-- The processor after the interrupt. -/
def resumed : Cpu := isrCommonStub ret isrHandler (isr v (deliver c v sp errorCode))

theorem isr_deliver_regs : (isr v (deliver c v sp errorCode)).regs = c.regs := by
  rw [isr, deliver]
  split
  · simp [cli]
  · simp [cli]

theorem isr_deliver_ds : (isr v (deliver c v sp errorCode)).ds = c.ds := by
  rw [isr, deliver]
  split
  · simp [cli]
  · simp [cli]

/-- The frame at the handler holds the interrupted processor. -/
theorem holds_atHandler (hsp : Aligned sp) :
    Holds (atHandler ret c v sp errorCode).mem ((atHandler ret c v sp errorCode).regs .rdi)
      (frameWords (withLow (c.regs .rax) c.ds) c.regs v.number (if v.hasErrorCode then errorCode else 0) c.rip
        c.cs.toUInt64 c.rflags c.rsp c.ss.toUInt64) := by
  have hsaved := onStack_saveFrame (onStack_isr c v hsp errorCode) (by simp)
  rw [isr_deliver_regs, isr_deliver_ds] at hsaved
  exact holds_callHandler ret hsaved (by simp [frameWords, popOrder])

end Agreement

/-- **The descriptions of the interrupt frame agree.**  For every processor state, vector and stack pointer, on
either side of the alignment test: `isr_handler` finds each register under its name in the `registers_t` it is
given (the selector `ds` in the low bits of its word); when it returns that pointer and leaves the structure as it
is, the stub resumes the interrupted processor; when it returns the `rsp` of a process that was just created and
whose frame is in memory, the stub starts that process at its entry, in its ring, on its stack and with zeroed
registers. -/
theorem interrupt_frame_agreement (ret : UInt64) (isrHandler : Cpu → Cpu) (c : Cpu) (v : Vector)
    (sp errorCode : UInt64) (hsp : sp.toNat % 8 = 0) :
    (registersAt (atHandler ret c v sp errorCode).mem ((atHandler ret c v sp errorCode).regs .rdi) =
      { ds := withLow (c.regs .rax) c.ds, rax := c.regs .rax, rbx := c.regs .rbx, rcx := c.regs .rcx,
        rdx := c.regs .rdx, rbp := c.regs .rbp, rsi := c.regs .rsi, rdi := c.regs .rdi, r8 := c.regs .r8,
        r9 := c.regs .r9, r10 := c.regs .r10, r11 := c.regs .r11, r12 := c.regs .r12, r13 := c.regs .r13,
        r14 := c.regs .r14, r15 := c.regs .r15, intNo := v.number,
        errCode := if v.hasErrorCode then errorCode else 0, rip := c.rip, cs := c.cs.toUInt64, rflags := c.rflags,
        rsp := c.rsp, ss := c.ss.toUInt64 } ∧
      (withLow (c.regs .rax) c.ds).toUInt16 = c.ds) ∧
    ((isrHandler (atHandler ret c v sp errorCode)).regs .rax = (atHandler ret c v sp errorCode).regs .rdi →
      registersAt (isrHandler (atHandler ret c v sp errorCode)).mem ((atHandler ret c v sp errorCode).regs .rdi)
        = registersAt (atHandler ret c v sp errorCode).mem ((atHandler ret c v sp errorCode).regs .rdi) →
      (resumed ret isrHandler c v sp errorCode).regs = c.regs ∧
        (resumed ret isrHandler c v sp errorCode).rip = c.rip ∧
        (resumed ret isrHandler c v sp errorCode).cs = c.cs ∧
        (resumed ret isrHandler c v sp errorCode).rflags = c.rflags ∧
        (resumed ret isrHandler c v sp errorCode).rsp = c.rsp ∧
        (resumed ret isrHandler c v sp errorCode).ss = c.ss) ∧
    (∀ (s : Scheduler) (entry : UInt64) (pml4 : ℕ),
      (createUserProcess s entry.toNat pml4).processCount = s.processCount + 1 →
      (isrHandler (atHandler ret c v sp errorCode)).regs .rax
        = UInt64.ofNat ((createUserProcess s entry.toNat pml4).processes s.processCount).rsp →
      registersAt (isrHandler (atHandler ret c v sp errorCode)).mem
          (UInt64.ofNat ((createUserProcess s entry.toNat pml4).processes s.processCount).rsp)
        = registersAt (createUserProcess s entry.toNat pml4).mem
          (UInt64.ofNat ((createUserProcess s entry.toNat pml4).processes s.processCount).rsp) →
      (resumed ret isrHandler c v sp errorCode).rip = entry ∧
        (resumed ret isrHandler c v sp errorCode).cs = 0x23 ∧
        (resumed ret isrHandler c v sp errorCode).ss = 0x1B ∧
        (resumed ret isrHandler c v sp errorCode).rflags = 0x202 ∧
        (resumed ret isrHandler c v sp errorCode).rsp = UInt64.ofNat
          (((createUserProcess s entry.toNat pml4).processes s.processCount).stackBase + 4096) ∧
        ∀ r, (resumed ret isrHandler c v sp errorCode).regs r = 0) ∧
    ∀ (s : Scheduler) (entry : UInt64),
      (createKernelProcess s entry.toNat).processCount = s.processCount + 1 →
      (isrHandler (atHandler ret c v sp errorCode)).regs .rax
        = UInt64.ofNat ((createKernelProcess s entry.toNat).processes s.processCount).rsp →
      registersAt (isrHandler (atHandler ret c v sp errorCode)).mem
          (UInt64.ofNat ((createKernelProcess s entry.toNat).processes s.processCount).rsp)
        = registersAt (createKernelProcess s entry.toNat).mem
          (UInt64.ofNat ((createKernelProcess s entry.toNat).processes s.processCount).rsp) →
      (resumed ret isrHandler c v sp errorCode).rip = entry ∧
        (resumed ret isrHandler c v sp errorCode).cs = 0x08 ∧
        (resumed ret isrHandler c v sp errorCode).ss = 0x10 ∧
        (resumed ret isrHandler c v sp errorCode).rflags = 0x202 ∧
        (resumed ret isrHandler c v sp errorCode).rsp = UInt64.ofNat
          ((createKernelProcess s entry.toNat).processes s.processCount).kernelStackTop ∧
        ∀ r, (resumed ret isrHandler c v sp errorCode).regs r = 0 := by
  have hframe := holds_atHandler ret c v sp errorCode hsp
  refine ⟨⟨registersAt_eq hframe, toUInt16_withLow _ _⟩, ?_, ?_, ?_⟩
  · intro hrax hkept
    have hheld := holds_of_registersAt hframe rfl hkept
    rw [← hrax] at hheld
    obtain ⟨hregs, hrip, hcs, hflags, hrsp, hss⟩ := restore_spec hheld
    exact ⟨hregs, hrip, hcs.trans (UInt16.toUInt16_toUInt64 c.cs), hflags, hrsp,
      hss.trans (UInt16.toUInt16_toUInt64 c.ss)⟩
  · intro s entry pml4 hcreated hrax hkept
    have hheld := holds_of_registersAt (holds_createUserProcess hcreated) rfl hkept
    rw [← hrax] at hheld
    obtain ⟨hregs, hrip, hcs, hflags, hrsp, hss⟩ := restore_spec hheld
    exact ⟨hrip, hcs, hss, hflags, hrsp, fun r => congrFun hregs r⟩
  · intro s entry hcreated hrax hkept
    have hheld := holds_of_registersAt (holds_createKernelProcess hcreated) rfl hkept
    rw [← hrax] at hheld
    obtain ⟨hregs, hrip, hcs, hflags, hrsp, hss⟩ := restore_spec hheld
    exact ⟨hrip, hcs, hss, hflags, hrsp, fun r => congrFun hregs r⟩

/-- A kernel-mode processor with zeroed registers. -/
def smallCpu : Cpu where
  regs := fun _ => 0
  rsp := 0x8ff8
  rip := 0x100123
  rflags := 0x246
  cs := 0x08
  ss := 0x10
  ds := 0x10
  es := 0x10
  fs := 0x10
  gs := 0x10
  mem := fun _ => 0

/-- A handler that returns `rsp` and leaves the memory `mem`. -/
def switching (rsp : UInt64) (mem : Memory) (c : Cpu) : Cpu := { setReg c .rax rsp with mem := mem }

theorem switching_rax (rsp : UInt64) (mem : Memory) (c : Cpu) : (switching rsp mem c).regs .rax = rsp :=
  setReg_self c .rax rsp

theorem registersAt_switching (rsp : UInt64) (mem : Memory) (c : Cpu) (r : UInt64) :
    registersAt (switching rsp mem c).mem r = registersAt mem r := rfl

/-- A timer interrupt that resumes what it interrupted, and one that starts a new user process. -/
theorem interrupt_frame_agreement_small :
    (resumed 0x100456 (fun c => setReg c .rax (c.regs .rdi)) smallCpu .irq0 0x8ff0 0).rip = 0x100123 ∧
      (resumed 0x100456 (switching
        (UInt64.ofNat ((createUserProcess smallBoot (0x10000000 : UInt64).toNat 0x5000).processes
          smallBoot.processCount).rsp)
        (createUserProcess smallBoot (0x10000000 : UInt64).toNat 0x5000).mem) smallCpu .irq0 0x8ff8 0).rip
        = 0x10000000 := by
  have hcreated : (createUserProcess smallBoot (0x10000000 : UInt64).toNat 0x5000).processCount
      = smallBoot.processCount + 1 := by decide
  constructor
  · have h := interrupt_frame_agreement 0x100456 (fun c => setReg c .rax (c.regs .rdi)) smallCpu .irq0 0x8ff0 0
      (by decide)
    exact (h.2.1 (setReg_self _ _ _) rfl).2.1
  · have h := interrupt_frame_agreement 0x100456 (switching
      (UInt64.ofNat ((createUserProcess smallBoot (0x10000000 : UInt64).toNat 0x5000).processes
        smallBoot.processCount).rsp)
      (createUserProcess smallBoot (0x10000000 : UInt64).toNat 0x5000).mem) smallCpu .irq0 0x8ff8 0 (by decide)
    exact (h.2.2.1 smallBoot 0x10000000 0x5000 hcreated (switching_rax _ _ _) (registersAt_switching _ _ _ _)).1

end OsEojin.Interrupt
