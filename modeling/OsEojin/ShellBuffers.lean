import OsEojin.Shell
import OsEojin.Lib.Notes
import Mathlib.Tactic.IntervalCases

/-!
# The buffers of the shell

`user_input` of `src/kernel/kernel.c` copies words and numbers into arrays on its stack: the command, the
word behind it, the text of a number.  `get_next_token`, `strcpy` and `hex_to_ascii` (`utils.c`) are not told
how long these arrays are.  Here the shell is written with every store it makes to them; without the stores
it is the shell of `OsEojin.Shell`.

* `getNextToken`, `strcpy`, `hexToAscii`: the stores of the three functions;
* `userInput`: the shell, `forget_userInput` its tie to the one without stores;
* `allInside_string`, `allInside_hexToAscii`: when one call stays inside its array;
* `shell_buffers_iff`: when a line does.
-/

namespace OsEojin.ShellBuffers

open OsEojin.Lib.Programs OsEojin.Lib.Programs.Program OsEojin.Ata OsEojin.Fat
open OsEojin.Shell (ExecRequest Outcome prompt fileNotFound loadLoop)

/-! ### Stores -/

/-- The arrays of `user_input`, and the block of 512 bytes that `write` gets from the heap. -/
inductive Local
  | command
  | arg
  | filename
  | dirname
  | sizeBuf
  | number
  | block
  deriving DecidableEq

/-- Their sizes. -/
def Local.size : Local → ℕ
  | command => 32
  | arg => 128
  | filename => 32
  | dirname => 32
  | sizeBuf => 16
  | number => 32
  | block => 512

/-- `buffer[index] = value`. -/
structure Store where
  buffer : Local
  index : ℕ
  value : UInt8

/-- The store is inside its array. -/
def Store.Inside (w : Store) : Prop := w.index < w.buffer.size

/-- Kernel code with its stores to the arrays. -/
abbrev Buffered := Noted Call Call.Res Store

/-- The stores in their order. -/
def storeAll : List Store → Buffered Unit
  | [] => pure ()
  | w :: ws => do
    note w
    storeAll ws

/-- The stores of a string from `j` on, with the NUL behind it. -/
def stringStores (b : Local) : ℕ → List UInt8 → List Store
  | j, [] => [⟨b, j, 0⟩]
  | j, c :: cs => ⟨b, j, c⟩ :: stringStores b (j + 1) cs

/-- `get_next_token(input, buffer, &offset)`. -/
def getNextToken (b : Local) (input : List UInt8) (offset : ℕ) : Buffered (Option (List UInt8) × ℕ) :=
  match Shell.getNextToken input offset with
  | (none, i) => pure (none, i)
  | (some token, i) => do
    storeAll (stringStores b 0 token)
    pure (some token, i)

/-- `strcpy(dest, src)`. -/
def strcpy (b : Local) (src : List UInt8) : Buffered Unit := storeAll (stringStores b 0 src)

/-- The digit that round `i` of `hex_to_ascii` stores. -/
def hexDigit (n i : ℕ) : UInt8 := (text "0123456789abcdef").getD (n / 16 ^ i % 16) 0

/-- The stores of `hex_to_ascii`: the digits come last digit first. -/
def hexStores (b : Local) (n : ℕ) : List Store :=
  [⟨b, 0, 48⟩, ⟨b, 1, 120⟩] ++ ((List.range 16).map fun i => ⟨b, 17 - i, hexDigit n i⟩) ++ [⟨b, 18, 0⟩]

/-- `hex_to_ascii(n, str)`, and the string it leaves in the array. -/
def hexToAscii (b : Local) (n : ℕ) : Buffered (List UInt8) := do
  storeAll (hexStores b n)
  pure (Fat.hexToAscii n)

/-- The stores spell the string that is handed on. -/
theorem hexStores_spell (b : Local) (n : ℕ) {w : Store} (hw : w ∈ hexStores b n) :
    w.buffer = b ∧ w.value = (Fat.hexToAscii n ++ [0]).getD w.index 0 := by
  rw [hexStores, List.mem_append, List.mem_append, List.mem_map] at hw
  obtain (hfront | ⟨i, hi, rfl⟩) | hnul := hw
  · obtain rfl | rfl : w = ⟨b, 0, 48⟩ ∨ w = ⟨b, 1, 120⟩ := by simpa using hfront
    · exact ⟨rfl, rfl⟩
    · exact ⟨rfl, rfl⟩
  · have hlt := List.mem_range.mp hi
    refine ⟨rfl, ?_⟩
    interval_cases i <;> rfl
  · rw [List.mem_singleton] at hnul
    subst hnul
    exact ⟨rfl, rfl⟩

theorem stringStores_spell (b : Local) (j : ℕ) (cs : List UInt8) {w : Store} (hw : w ∈ stringStores b j cs) :
    w.buffer = b ∧ j ≤ w.index ∧ w.value = (cs ++ [0]).getD (w.index - j) 0 := by
  induction cs generalizing j with
  | nil =>
    obtain rfl : w = ⟨b, j, 0⟩ := List.mem_singleton.mp hw
    exact ⟨rfl, le_rfl, by simp⟩
  | cons c cs ih =>
    cases List.mem_cons.mp hw with
    | inl hfirst =>
      subst hfirst
      exact ⟨rfl, le_rfl, by simp⟩
    | inr hrest =>
      obtain ⟨hbuffer, hle, hvalue⟩ := ih (j + 1) hrest
      refine ⟨hbuffer, by omega, ?_⟩
      rw [hvalue, show w.index - j = w.index - (j + 1) + 1 by omega]
      rfl

/-! ### The shell -/

/-- `write`. -/
def cmdWrite (input : List UInt8) (offset : ℕ) : Buffered Unit := do
  let buf ← lift (kmalloc 512)
  let (arg, _) ← getNextToken .arg input offset
  strcpy .block (arg.getD (text "TEST_DATA_DEFAULT"))
  let buf := { buf with data := Shell.writeData (arg.getD (text "TEST_DATA_DEFAULT")) }
  lift (kprint (text "Writing to LBA 200: "))
  lift (kprint (cString (Shell.takeBytes buf.data 512)))
  lift (kprint (text "\n"))
  lift (ataWriteSector 200 buf)
  lift (kfree buf)
  lift (kprint (text "Write Done.\n"))

/-- `exec` up to the creation of the process. -/
def cmdExec (g : Globals) (fuel : ℕ) (filename : List UInt8) : Buffered (Option ExecRequest) := do
  match ← lift (fatFindFile g fuel filename) with
  | some entry =>
    let buf ← lift (kmalloc 512)
    if buf.ptr = 0 then
      lift (kprint (text "exec: Memory allocation failed\n"))
      pure none
    else
      let (buf, image) ← lift (loadLoop g fuel entry.fileSize entry.firstClusterLow buf [])
      lift (kfree buf)
      lift (kprint (text "Loaded "))
      let size ← hexToAscii .sizeBuf entry.fileSize
      lift (kprint size)
      lift (kprint (text " bytes at 0x4000000\n"))
      lift (kprint (text "Spawning Process for "))
      lift (kprint filename)
      lift (kprint (text "...\n"))
      pure (some ⟨filename, entry.fileSize, image⟩)
  | none =>
    lift (fileNotFound filename)
    pure none

/-- `alloc`. -/
def cmdAlloc : Buffered Unit := do
  let ptr ← lift (Program.perform Call.pmmAllocBlock : Kernel ℕ)
  if ptr = 0 then lift (kprint (text "Allocation Failed (Out of Memory)\n"))
  else
    lift (kprint (text "Allocated at: "))
    let address ← hexToAscii .number ptr
    lift (kprint address)
    lift (kprint (text "\n"))

/-- One labelled allocation of `heap_test`. -/
def heapTestAlloc (label : String) : Buffered Buffer := do
  let a ← lift (kmalloc 64)
  lift (kprint (text label))
  let address ← hexToAscii .number a.ptr
  lift (kprint address)
  lift (kprint (text "\n"))
  pure a

/-- `heap_test`. -/
def cmdHeapTest : Buffered Unit := do
  let a ← heapTestAlloc "Alloc A: "
  let b ← heapTestAlloc "Alloc B: "
  let c ← heapTestAlloc "Alloc C: "
  lift (kprint (text "Free B...\n"))
  lift (kfree b)
  let d ← heapTestAlloc "Alloc D: "
  if d.ptr = b.ptr then lift (kprint (text "Heap Test Passed! (Address Reused)\n"))
  else lift (kprint (text "Heap Test Failed (Address Not Reused)\n"))
  lift (kfree a)
  lift (kfree c)
  lift (kfree d)

/-- A command that reads one word into an array, or prints its usage. -/
def withArg (b : Local) (usage : String) (input : List UInt8) (offset : ℕ)
    (body : List UInt8 → Kernel Unit) : Buffered Unit := do
  match (← getNextToken b input offset).1 with
  | some word => lift (body word)
  | none => lift (kprint (text usage))

/-- The branch of a command that leaves the globals as they are. -/
def branch (g : Globals) (command input : List UInt8) (offset fuel : ℕ) : Buffered Unit :=
  if command = text "help" then lift Shell.cmdHelp
  else if command = text "clear" then lift (.perform Call.clearScreen)
  else if command = text "shutdown" ∨ command = text "halt" then lift Shell.cmdShutdown
  else if command = text "memory" then lift (.perform Call.printMemoryMap)
  else if command = text "echo" then do
    lift (kprint (cString ((input.drop offset).dropWhile fun c => c == 32)))
    lift (kprint (text "\n"))
  else if command = text "write" then cmdWrite input offset
  else if command = text "read" then lift Shell.cmdRead
  else if command = text "ls" then lift (fatList g fuel)
  else if command = text "cat" then
    withArg .filename "Usage: cat <filename>\n" input offset (Shell.cmdCat g fuel)
  else if command = text "touch" then
    withArg .filename "Usage: touch <filename>\n" input offset (Shell.cmdTouch g fuel)
  else if command = text "mkdir" then
    withArg .dirname "Usage: mkdir <dirname>\n" input offset fun word => do
      let _ ← Shell.cmdMkdir g fuel word
      pure ()
  else if command = text "rm" then
    withArg .filename "Usage: rm <filename>\n" input offset fun word => do
      let _ ← fatDeleteFile g fuel word
      pure ()
  else if command = text "rmdir" then
    withArg .dirname "Usage: rmdir <dirname>\n" input offset fun word => do
      let _ ← fatDeleteDir g fuel word
      pure ()
  else if command = text "alloc" then cmdAlloc
  else if command = text "heap_test" then cmdHeapTest
  else do
    lift (kprint (text "Unknown command: "))
    lift (kprint (cString input))
    lift (kprint (text "\n"))

/-- `user_input(input)`. -/
def userInput (g : Globals) (fuel : ℕ) (input : List UInt8) : Buffered Outcome := do
  match ← getNextToken .command input 0 with
  | (none, _) =>
    lift (prompt g)
    pure ⟨g, none⟩
  | (some command, offset) =>
    if command = text "mount" then
      let g ← lift (fatInit g)
      lift (prompt g)
      pure ⟨g, none⟩
    else if command = text "cd" then
      match (← getNextToken .dirname input offset).1 with
      | some dirname =>
        let g ← lift (fatChangeDir g fuel dirname)
        lift (prompt g)
        pure ⟨g, none⟩
      | none =>
        lift (kprint (text "Usage: cd <dirname>\n"))
        lift (prompt g)
        pure ⟨g, none⟩
    else if command = text "exec" then
      match (← getNextToken .filename input offset).1 with
      | some filename =>
        match ← cmdExec g fuel filename with
        | some request => pure ⟨g, some request⟩
        | none =>
          lift (prompt g)
          pure ⟨g, none⟩
      | none =>
        lift (kprint (text "Usage: exec <filename>\n"))
        lift (prompt g)
        pure ⟨g, none⟩
    else
      branch g command input offset fuel
      lift (prompt g)
      pure ⟨g, none⟩

/-! ### Without the stores -/

theorem forget_storeAll (ws : List Store) : forget (storeAll ws) = pure () := by
  induction ws with
  | nil => rfl
  | cons w ws ih => exact ih

theorem forget_getNextToken (b : Local) (input : List UInt8) (offset : ℕ) :
    forget (getNextToken b input offset) = pure (Shell.getNextToken input offset) := by
  rw [getNextToken]
  generalize Shell.getNextToken input offset = r
  obtain ⟨token, i⟩ := r
  cases token with
  | none => rfl
  | some token =>
    dsimp only
    rw [forget_bind, forget_storeAll]
    rfl

theorem forget_hexToAscii (b : Local) (n : ℕ) : forget (hexToAscii b n) = pure (Fat.hexToAscii n) := by
  rw [hexToAscii, forget_bind, forget_storeAll]
  rfl

/-- Nothing is left of a first part that only stores. -/
theorem pure_bind_eq {α β : Type} (a : α) (f : α → Kernel β) : (pure a >>= f : Kernel β) = f a := rfl

theorem forget_cmdWrite (input : List UInt8) (offset : ℕ) :
    forget (cmdWrite input offset) = Shell.cmdWrite (Shell.getNextToken input offset).1 := by
  rw [cmdWrite, Shell.cmdWrite]
  simp only [forget_bind, forget_lift, forget_getNextToken, strcpy, forget_storeAll, pure_bind_eq]

theorem forget_cmdExec (g : Globals) (fuel : ℕ) (filename : List UInt8) :
    forget (cmdExec g fuel filename) = Shell.cmdExec g fuel filename := by
  rw [cmdExec, Shell.cmdExec, forget_bind, forget_lift]
  congr 1
  funext found
  cases found with
  | none =>
    dsimp only
    rw [forget_bind, forget_lift]
    rfl
  | some entry =>
    dsimp only
    rw [forget_bind, forget_lift]
    congr 1
    funext buf
    by_cases hptr : buf.ptr = 0
    · rw [if_pos hptr, if_pos hptr, forget_bind, forget_lift]
      rfl
    · rw [if_neg hptr, if_neg hptr]
      simp only [forget_bind, forget_lift, forget_hexToAscii, pure_bind_eq, forget_pure]

theorem forget_cmdAlloc : forget cmdAlloc = Shell.cmdAlloc := by
  rw [cmdAlloc, Shell.cmdAlloc, forget_bind, forget_lift]
  congr 1
  funext ptr
  by_cases hptr : ptr = 0
  · rw [if_pos hptr, if_pos hptr, forget_lift]
  · rw [if_neg hptr, if_neg hptr]
    simp only [forget_bind, forget_lift, forget_hexToAscii, pure_bind_eq]

theorem forget_heapTestAlloc (label : String) : forget (heapTestAlloc label) = Shell.heapTestAlloc label := by
  rw [heapTestAlloc, Shell.heapTestAlloc]
  simp only [forget_bind, forget_lift, forget_hexToAscii, pure_bind_eq, forget_pure]

theorem forget_ite {α : Type} (c : Prop) [Decidable c] (p q : Buffered α) :
    forget (if c then p else q) = if c then forget p else forget q := by
  split <;> rfl

theorem forget_cmdHeapTest : forget cmdHeapTest = Shell.cmdHeapTest := by
  rw [cmdHeapTest, Shell.cmdHeapTest]
  simp only [forget_bind, forget_lift, forget_heapTestAlloc, forget_ite]

theorem forget_withArg (b : Local) (usage : String) (input : List UInt8) (offset : ℕ)
    (body : List UInt8 → Kernel Unit) :
    forget (withArg b usage input offset body) =
      Shell.withArg usage (Shell.getNextToken input offset).1 body := by
  rw [withArg, forget_bind, forget_getNextToken, pure_bind_eq]
  cases (Shell.getNextToken input offset).1 with
  | none => exact forget_lift _
  | some word => exact forget_lift _

theorem forget_branch (g : Globals) (command input : List UInt8) (offset fuel : ℕ) :
    forget (branch g command input offset fuel) = Shell.branch g command input offset fuel := by
  rw [branch, Shell.branch]
  simp only [forget_ite, forget_lift, forget_bind, forget_cmdWrite, forget_withArg, forget_cmdAlloc,
    forget_cmdHeapTest]

/-- **Without its stores the shell is the one of `OsEojin.Shell`.** -/
theorem forget_userInput (g : Globals) (fuel : ℕ) (input : List UInt8) :
    forget (userInput g fuel input) = Shell.userInput g fuel input := by
  rw [userInput, Shell.userInput, forget_bind, forget_getNextToken, pure_bind_eq]
  generalize Shell.getNextToken input 0 = r
  obtain ⟨command, offset⟩ := r
  cases command with
  | none =>
    dsimp only
    rw [forget_bind, forget_lift]
    rfl
  | some command =>
    dsimp only
    simp only [forget_ite, forget_bind, forget_lift, forget_getNextToken, pure_bind_eq, forget_branch,
      forget_pure]
    congr 2
    · cases (Shell.getNextToken input offset).1 with
      | none => simp only [forget_bind, forget_lift, forget_pure]
      | some dirname => simp only [forget_bind, forget_lift, forget_pure]
    · congr 1
      cases (Shell.getNextToken input offset).1 with
      | none => simp only [forget_bind, forget_lift, forget_pure]
      | some filename =>
        dsimp only
        rw [forget_bind, forget_cmdExec]
        congr 1
        funext request
        cases request with
        | none => simp only [forget_bind, forget_lift, forget_pure]
        | some request => rfl

/-! ### Staying inside -/

section Inside

variable {σ : Type} (h : (o : Call) → σ → Option (o.Res × σ))

/-- Every store of the run is inside its array. -/
def AllInside {α : Type} (p : Buffered α) (s : σ) : Prop := AllNotes h Store.Inside p s

/-- The next word, if there is one, fits into the array. -/
def TokenFits (b : Local) (input : List UInt8) (offset : ℕ) : Prop :=
  ∀ token, (Shell.getNextToken input offset).1 = some token → token.length < b.size

variable {h} {s : σ} {b : Local} {input : List UInt8} {offset : ℕ}

theorem allInside_storeAll {ws : List Store} : AllInside h (storeAll ws) s ↔ ∀ w ∈ ws, w.Inside := by
  induction ws with
  | nil => exact ⟨fun _ w hw => absurd hw List.not_mem_nil, fun _ => allNotes_pure ()⟩
  | cons w ws ih =>
    rw [storeAll, AllInside, allNotes_pure_bind (forget_note w), allNotes_note, List.forall_mem_cons]
    exact and_congr Iff.rfl ih

/-- The NUL is the last store of a string. -/
theorem inside_stringStores (b : Local) (j : ℕ) (cs : List UInt8) :
    (∀ w ∈ stringStores b j cs, w.Inside) ↔ j + cs.length < b.size := by
  induction cs generalizing j with
  | nil => exact List.forall_mem_singleton
  | cons c cs ih =>
    rw [stringStores, List.forall_mem_cons, ih, Store.Inside, List.length_cons]
    dsimp only
    omega

theorem allInside_strcpy {src : List UInt8} : AllInside h (strcpy b src) s ↔ src.length < b.size := by
  rw [strcpy, allInside_storeAll, inside_stringStores, Nat.zero_add]

/-- **`get_next_token`** stays inside when the word is shorter than the array. -/
theorem allInside_getNextToken : AllInside h (getNextToken b input offset) s ↔ TokenFits b input offset := by
  rw [getNextToken, TokenFits]
  generalize Shell.getNextToken input offset = r
  obtain ⟨token, i⟩ := r
  cases token with
  | none =>
    constructor
    · intro _ token htoken
      cases htoken
    · exact fun _ => allNotes_pure _
  | some token =>
    dsimp only
    rw [AllInside, allNotes_bind]
    constructor
    · rintro ⟨hstores, -⟩ token' htoken
      obtain rfl := Option.some.inj htoken
      have hlen := (inside_stringStores b 0 token).mp (allInside_storeAll.mp hstores)
      omega
    · intro hfits
      have hlen := hfits token rfl
      exact ⟨allInside_storeAll.mpr ((inside_stringStores b 0 token).mpr (by omega)),
        fun r _ => allNotes_pure _⟩

/-- **`hex_to_ascii`** stores 19 bytes. -/
theorem allInside_hexToAscii {n : ℕ} : AllInside h (hexToAscii b n) s ↔ 18 < b.size := by
  have hstores : (∀ w ∈ hexStores b n, w.Inside) ↔ 18 < b.size := by
    rw [hexStores, List.forall_mem_append, List.forall_mem_append, List.forall_mem_cons,
      List.forall_mem_singleton, List.forall_mem_singleton, List.forall_mem_map]
    constructor
    · exact fun hall => hall.2
    · intro hsize
      refine ⟨⟨⟨?_, ?_⟩, ?_⟩, hsize⟩
      · exact lt_trans (by decide : 0 < 18) hsize
      · exact lt_trans (by decide : 1 < 18) hsize
      · intro i _
        exact lt_of_le_of_lt (show 17 - i ≤ 18 by omega) hsize
  rw [hexToAscii, AllInside, allNotes_bind]
  constructor
  · exact fun hall => hstores.mp (allInside_storeAll.mp hall.1)
  · exact fun hsize => ⟨allInside_storeAll.mpr (hstores.mpr hsize), fun r _ => allNotes_pure _⟩

theorem allInside_getNextToken_bind {α : Type} {f : Option (List UInt8) × ℕ → Buffered α} :
    AllInside h (getNextToken b input offset >>= f) s ↔
      TokenFits b input offset ∧ AllInside h (f (Shell.getNextToken input offset)) s := by
  rw [← allInside_getNextToken (h := h) (s := s)]
  exact allNotes_pure_bind (forget_getNextToken b input offset)

theorem allInside_hexToAscii_bind {α : Type} {n : ℕ} {f : List UInt8 → Buffered α} :
    AllInside h (hexToAscii b n >>= f) s ↔ 18 < b.size ∧ AllInside h (f (Fat.hexToAscii n)) s := by
  rw [← allInside_hexToAscii (h := h) (s := s)]
  exact allNotes_pure_bind (forget_hexToAscii b n)

/-! ### The commands -/

/-- A word is not longer than its line. -/
theorem token_length {token : List UInt8} (htoken : (Shell.getNextToken input offset).1 = some token) :
    token.length ≤ input.length := by
  rw [Shell.getNextToken] at htoken
  dsimp only at htoken
  split at htoken
  · cases htoken
  · obtain rfl := Option.some.inj htoken
    refine le_trans (List.takeWhile_prefix _).length_le ?_
    rw [List.length_drop]
    omega

/-- `write`: the word goes to `arg[128]` and from there to a block of 512 bytes. -/
theorem allInside_cmdWrite (hline : input.length ≤ 255) :
    AllInside h (cmdWrite input offset) s ↔
      ∀ r, h (.kmalloc 512) s = some r → TokenFits .arg input offset := by
  have hblock : ((Shell.getNextToken input offset).1.getD (text "TEST_DATA_DEFAULT")).length < 512 := by
    cases htoken : (Shell.getNextToken input offset).1 with
    | none => decide
    | some token =>
      have hlen := token_length htoken
      rw [Option.getD_some]
      omega
  rw [cmdWrite, AllInside, allNotes_lift_bind, kmalloc, run_perform]
  refine forall_congr' fun r => imp_congr_right fun _ => ?_
  refine allInside_getNextToken_bind.trans (and_iff_left ?_)
  refine (allNotes_pure_bind (forget_storeAll _)).mpr ⟨allInside_strcpy.mpr hblock, ?_⟩
  iterate 5 refine allNotes_lift_bind.mpr fun _ _ => ?_
  exact allNotes_lift _

/-- A command with one word. -/
theorem allInside_withArg {usage : String} {body : List UInt8 → Kernel Unit} :
    AllInside h (withArg b usage input offset body) s ↔ TokenFits b input offset := by
  refine allInside_getNextToken_bind.trans (and_iff_left ?_)
  cases (Shell.getNextToken input offset).1 with
  | none => exact allNotes_lift _
  | some word => exact allNotes_lift _

theorem allInside_cmdAlloc : AllInside h cmdAlloc s := by
  refine allNotes_lift_bind.mpr fun r _ => ?_
  by_cases hptr : r.1 = 0
  · rw [if_pos hptr]
    exact allNotes_lift _
  · rw [if_neg hptr]
    refine allNotes_lift_bind.mpr fun _ _ => ?_
    refine allInside_hexToAscii_bind.mpr ⟨by decide, ?_⟩
    exact allNotes_lift_bind.mpr fun _ _ => allNotes_lift _

theorem allInside_heapTestAlloc (label : String) : AllInside h (heapTestAlloc label) s := by
  iterate 2 refine allNotes_lift_bind.mpr fun _ _ => ?_
  refine allInside_hexToAscii_bind.mpr ⟨by decide, ?_⟩
  iterate 2 refine allNotes_lift_bind.mpr fun _ _ => ?_
  exact allNotes_pure _

theorem allInside_cmdHeapTest : AllInside h cmdHeapTest s := by
  iterate 3 refine allNotes_bind.mpr ⟨allInside_heapTestAlloc _, fun _ _ => ?_⟩
  iterate 2 refine allNotes_lift_bind.mpr fun _ _ => ?_
  refine allNotes_bind.mpr ⟨allInside_heapTestAlloc _, fun d _ => ?_⟩
  split
  · iterate 3 refine allNotes_lift_bind.mpr fun _ _ => ?_
    exact allNotes_lift _
  · iterate 3 refine allNotes_lift_bind.mpr fun _ _ => ?_
    exact allNotes_lift _

/-! ### `exec` -/

/-- `exec` as far as the message with the file's size: `true` when it comes there. -/
def execLoad (g : Globals) (fuel : ℕ) (filename : List UInt8) : Kernel Bool := do
  match ← fatFindFile g fuel filename with
  | some entry =>
    let buf ← kmalloc 512
    if buf.ptr = 0 then pure false
    else
      let (buf, _) ← loadLoop g fuel entry.fileSize entry.firstClusterLow buf []
      kfree buf
      kprint (text "Loaded ")
      pure true
  | none => pure false

/-- **`exec`** leaves `size_buf[16]` whenever it has loaded a file. -/
theorem allInside_cmdExec {g : Globals} {fuel : ℕ} {filename : List UInt8} :
    AllInside h (cmdExec g fuel filename) s ↔ ∀ s', run h (execLoad g fuel filename) s ≠ some (true, s') := by
  rw [cmdExec, AllInside, allNotes_lift_bind]
  constructor
  · intro hall s' hload
    rw [execLoad, run_bind_eq_some] at hload
    obtain ⟨found, s₁, hfind, hload⟩ := hload
    have hall := hall (found, s₁) hfind
    cases found with
    | none => cases hload
    | some entry =>
      obtain ⟨buf, s₂, hmalloc, hload⟩ := (run_bind_eq_some h).mp hload
      have hall := allNotes_lift_bind.mp hall (buf, s₂) hmalloc
      dsimp only at hall hload
      by_cases hptr : buf.ptr = 0
      · rw [if_pos hptr] at hload
        cases hload
      · rw [if_neg hptr] at hload hall
        obtain ⟨loaded, s₃, hloop, hload⟩ := (run_bind_eq_some h).mp hload
        have hall := allNotes_lift_bind.mp hall (loaded, s₃) hloop
        obtain ⟨_, s₄, hfree, hload⟩ := (run_bind_eq_some h).mp hload
        have hall := allNotes_lift_bind.mp hall ((), s₄) hfree
        obtain ⟨_, s₅, hprint, -⟩ := (run_bind_eq_some h).mp hload
        have hall := allNotes_lift_bind.mp hall ((), s₅) hprint
        exact absurd (allInside_hexToAscii_bind.mp hall).1 (by decide)
  · intro hnever r hfind
    obtain ⟨found, s₁⟩ := r
    cases found with
    | none => exact allNotes_lift_bind.mpr fun _ _ => allNotes_pure _
    | some entry =>
      refine allNotes_lift_bind.mpr fun r hmalloc => ?_
      by_cases hptr : r.1.ptr = 0
      · rw [if_pos hptr]
        exact allNotes_lift_bind.mpr fun _ _ => allNotes_pure _
      · rw [if_neg hptr]
        refine allNotes_lift_bind.mpr fun loaded hloop => ?_
        refine allNotes_lift_bind.mpr fun freed hfree => ?_
        refine allNotes_lift_bind.mpr fun printed hprint => ?_
        -- this far it has loaded the file
        refine absurd ?_ (hnever printed.2)
        rw [execLoad, run_bind_eq_some]
        refine ⟨some entry, s₁, hfind, (run_bind_eq_some h).mpr ⟨r.1, r.2, hmalloc, ?_⟩⟩
        dsimp only
        rw [if_neg hptr]
        refine (run_bind_eq_some h).mpr ⟨loaded.1, loaded.2, hloop, ?_⟩
        refine (run_bind_eq_some h).mpr ⟨(), freed.2, hfree, ?_⟩
        exact (run_bind_eq_some h).mpr ⟨(), printed.2, hprint, rfl⟩

/-! ### Lines -/

/-- The array of 32 bytes for the word of a command on files. -/
def wordBuffer (command : List UInt8) : Option Local :=
  if command ∈ [text "cat", text "exec", text "touch", text "rm"] then some .filename
  else if command ∈ [text "cd", text "mkdir", text "rmdir"] then some .dirname
  else none

variable (h s) in
/-- The word behind the command fits into its array.  `write` only reads it once it has its block. -/
def WordFits (command input : List UInt8) (offset : ℕ) : Prop :=
  (∀ b, wordBuffer command = some b → TokenFits b input offset) ∧
    (command = text "write" → ∀ r, h (.kmalloc 512) s = some r → TokenFits .arg input offset)

variable (h s) in
/-- **The lines that stay inside the arrays.** -/
structure LineFits (g : Globals) (input : List UInt8) : Prop where
  command : TokenFits .command input 0
  word : ∀ command offset, Shell.getNextToken input 0 = (some command, offset) →
    WordFits h s command input offset
  /-- no file is loaded by `exec` -/
  exec : ∀ offset filename fuel s', Shell.getNextToken input 0 = (some (text "exec"), offset) →
    (Shell.getNextToken input offset).1 = some filename →
    run h (execLoad g fuel filename) s ≠ some (true, s')

section Word

variable {command : List UInt8}

/-- A line with a command other than `exec`. -/
theorem lineFits_of_token {g : Globals} (htoken : Shell.getNextToken input 0 = (some command, offset))
    (hlength : command.length < Local.command.size) (hexec : command ≠ text "exec")
    (hword : WordFits h s command input offset) : LineFits h s g input where
  command := by
    intro token hsome
    rw [htoken] at hsome
    rwa [← Option.some.inj hsome]
  word := by
    intro command' offset' hsome
    obtain ⟨hcommand, rfl⟩ := Prod.mk.inj (htoken.symm.trans hsome)
    rwa [← Option.some.inj hcommand]
  exec := by
    intro offset' filename fuel s' hsome
    obtain ⟨hcommand, -⟩ := Prod.mk.inj (htoken.symm.trans hsome)
    exact absurd (Option.some.inj hcommand) hexec

/-- A command without a word. -/
theorem wordFits_of_plain (hnone : wordBuffer command = none) (hwrite : command ≠ text "write") :
    WordFits h s command input offset := by
  constructor
  · intro b hb
    rw [hnone] at hb
    cases hb
  · exact fun h => absurd h hwrite

/-- A command on files. -/
theorem wordFits_iff (hb : wordBuffer command = some b) (hwrite : command ≠ text "write") :
    WordFits h s command input offset ↔ TokenFits b input offset := by
  constructor
  · exact fun hfits => hfits.1 b hb
  · intro hfits
    refine ⟨fun b' hb' => ?_, fun h => absurd h hwrite⟩
    obtain rfl := Option.some.inj (hb.symm.trans hb')
    exact hfits

theorem wordFits_write :
    WordFits h s (text "write") input offset ↔
      ∀ r, h (.kmalloc 512) s = some r → TokenFits .arg input offset := by
  have hnone : wordBuffer (text "write") = none := by decide
  constructor
  · exact fun hfits => hfits.2 rfl
  · intro hfits
    refine ⟨fun b hb => ?_, fun _ => hfits⟩
    rw [hnone] at hb
    cases hb

variable {g : Globals} {fuel : ℕ}

/-- A branch without a word. -/
theorem branch_plain {p : Buffered Unit} (hp : AllInside h p s) (hnone : wordBuffer command = none)
    (hwrite : command ≠ text "write") : AllInside h p s ↔ WordFits h s command input offset :=
  iff_of_true hp (wordFits_of_plain hnone hwrite)

/-- The branches of the dispatch. -/
theorem allInside_branch (hline : input.length ≤ 255) (hcd : command ≠ text "cd")
    (hexec : command ≠ text "exec") :
    AllInside h (branch g command input offset fuel) s ↔ WordFits h s command input offset := by
  rw [branch]
  by_cases hhelp : command = text "help"
  · rw [if_pos hhelp, hhelp]
    exact branch_plain (allNotes_lift _) (by decide) (by decide)
  rw [if_neg hhelp]
  by_cases hclear : command = text "clear"
  · rw [if_pos hclear, hclear]
    exact branch_plain (allNotes_lift _) (by decide) (by decide)
  rw [if_neg hclear]
  by_cases hhalt : command = text "shutdown" ∨ command = text "halt"
  · rw [if_pos hhalt]
    obtain rfl | rfl := hhalt
    · exact branch_plain (allNotes_lift _) (by decide) (by decide)
    · exact branch_plain (allNotes_lift _) (by decide) (by decide)
  rw [if_neg hhalt]
  by_cases hmemory : command = text "memory"
  · rw [if_pos hmemory, hmemory]
    exact branch_plain (allNotes_lift _) (by decide) (by decide)
  rw [if_neg hmemory]
  by_cases hecho : command = text "echo"
  · rw [if_pos hecho, hecho]
    exact branch_plain (allNotes_lift_bind.mpr fun _ _ => allNotes_lift _) (by decide) (by decide)
  rw [if_neg hecho]
  by_cases hwrite : command = text "write"
  · rw [if_pos hwrite, hwrite]
    exact (allInside_cmdWrite hline).trans wordFits_write.symm
  rw [if_neg hwrite]
  by_cases hread : command = text "read"
  · rw [if_pos hread, hread]
    exact branch_plain (allNotes_lift _) (by decide) (by decide)
  rw [if_neg hread]
  by_cases hls : command = text "ls"
  · rw [if_pos hls, hls]
    exact branch_plain (allNotes_lift _) (by decide) (by decide)
  rw [if_neg hls]
  by_cases hcat : command = text "cat"
  · rw [if_pos hcat, hcat]
    exact allInside_withArg.trans (wordFits_iff (by decide) (by decide)).symm
  rw [if_neg hcat]
  by_cases htouch : command = text "touch"
  · rw [if_pos htouch, htouch]
    exact allInside_withArg.trans (wordFits_iff (by decide) (by decide)).symm
  rw [if_neg htouch]
  by_cases hmkdir : command = text "mkdir"
  · rw [if_pos hmkdir, hmkdir]
    exact allInside_withArg.trans (wordFits_iff (by decide) (by decide)).symm
  rw [if_neg hmkdir]
  by_cases hrm : command = text "rm"
  · rw [if_pos hrm, hrm]
    exact allInside_withArg.trans (wordFits_iff (by decide) (by decide)).symm
  rw [if_neg hrm]
  by_cases hrmdir : command = text "rmdir"
  · rw [if_pos hrmdir, hrmdir]
    exact allInside_withArg.trans (wordFits_iff (by decide) (by decide)).symm
  rw [if_neg hrmdir]
  have hnone : wordBuffer command = none := by
    simp only [wordBuffer, List.mem_cons, List.not_mem_nil, hcat, hexec, htouch, hrm, hcd, hmkdir, hrmdir,
      or_false, if_false]
  by_cases halloc : command = text "alloc"
  · rw [if_pos halloc]
    exact branch_plain allInside_cmdAlloc hnone hwrite
  rw [if_neg halloc]
  by_cases hheap : command = text "heap_test"
  · rw [if_pos hheap]
    exact branch_plain allInside_cmdHeapTest hnone hwrite
  rw [if_neg hheap]
  refine branch_plain ?_ hnone hwrite
  iterate 2 refine allNotes_lift_bind.mpr fun _ _ => ?_
  exact allNotes_lift _

/-- The prompt at the end. -/
theorem allInside_prompt (g : Globals) (outcome : Outcome) :
    AllInside h (lift (prompt g) >>= fun _ => pure outcome) s :=
  allNotes_lift_bind.mpr fun _ _ => allNotes_pure _

theorem allInside_userInput_none {i : ℕ} (htoken : Shell.getNextToken input 0 = (none, i)) :
    AllInside h (userInput g fuel input) s := by
  refine allInside_getNextToken_bind.mpr ⟨?_, ?_⟩
  · intro token hsome
    rw [htoken] at hsome
    cases hsome
  · rw [htoken]
    exact allInside_prompt g _

/-- **One line**, with the command it begins with. -/
theorem allInside_userInput (hline : input.length ≤ 255)
    (htoken : Shell.getNextToken input 0 = (some command, offset)) :
    AllInside h (userInput g fuel input) s ↔
      TokenFits .command input 0 ∧ WordFits h s command input offset ∧
        (command = text "exec" → ∀ filename, (Shell.getNextToken input offset).1 = some filename →
          ∀ s', run h (execLoad g fuel filename) s ≠ some (true, s')) := by
  refine allInside_getNextToken_bind.trans (and_congr Iff.rfl ?_)
  rw [htoken]
  dsimp only
  by_cases hmount : command = text "mount"
  · rw [if_pos hmount, hmount]
    refine iff_of_true (allNotes_lift_bind.mpr fun _ _ => allInside_prompt _ _) ⟨?_, ?_⟩
    · exact wordFits_of_plain (by decide) (by decide)
    · exact fun h => absurd h (by decide)
  rw [if_neg hmount]
  by_cases hcd : command = text "cd"
  · rw [if_pos hcd, hcd, wordFits_iff (b := .dirname) (by decide) (by decide)]
    refine allInside_getNextToken_bind.trans (and_congr Iff.rfl (iff_of_true ?_ ?_))
    · cases (Shell.getNextToken input offset).1 with
      | none => exact allNotes_lift_bind.mpr fun _ _ => allInside_prompt _ _
      | some dirname => exact allNotes_lift_bind.mpr fun _ _ => allInside_prompt _ _
    · exact fun h => absurd h (by decide)
  rw [if_neg hcd]
  by_cases hexec : command = text "exec"
  · rw [if_pos hexec, hexec, wordFits_iff (b := .filename) (by decide) (by decide)]
    refine allInside_getNextToken_bind.trans (and_congr Iff.rfl ?_)
    cases (Shell.getNextToken input offset).1 with
    | none =>
      refine iff_of_true (allNotes_lift_bind.mpr fun _ _ => allInside_prompt _ _) ?_
      rintro - filename hsome
      cases hsome
    | some filename =>
      refine allNotes_bind.trans ?_
      rw [and_iff_left]
      · refine allInside_cmdExec.trans ?_
        constructor
        · rintro hnever - filename' hsome
          obtain rfl := Option.some.inj hsome
          exact hnever
        · exact fun hnever => hnever rfl filename rfl
      · rintro ⟨request, s'⟩ -
        cases request with
        | none => exact allInside_prompt _ _
        | some request => exact allNotes_pure _
  · have hbranch : AllInside h (branch g command input offset fuel) s ↔ WordFits h s command input offset :=
      allInside_branch hline hcd hexec
    rw [if_neg hexec, ← hbranch, and_iff_left (fun h => absurd h hexec)]
    exact allNotes_bind.trans (and_iff_left fun _ _ => allInside_prompt _ _)

end Word

/-- **Which lines stay inside the arrays**, whatever the device, the heap and the console answer. -/
theorem shell_buffers_iff (h : (o : Call) → σ → Option (o.Res × σ)) (s : σ) (g : Globals)
    (input : List UInt8) (hline : input.length ≤ 255) :
    (∀ fuel, AllInside h (userInput g fuel input) s) ↔ LineFits h s g input := by
  cases htoken : Shell.getNextToken input 0 with
  | mk token offset =>
    cases token with
    | none =>
      refine iff_of_true (fun fuel => allInside_userInput_none htoken) ⟨?_, ?_, ?_⟩
      · intro token hsome
        rw [htoken] at hsome
        cases hsome
      · intro command offset hsome
        rw [htoken] at hsome
        cases hsome
      · intro offset filename fuel s' hsome
        rw [htoken] at hsome
        cases hsome
    | some command =>
      constructor
      · intro hall
        have hfirst := (allInside_userInput hline htoken).mp (hall 0)
        refine ⟨hfirst.1, ?_, ?_⟩
        · intro command' offset' hsome
          obtain ⟨hcommand, rfl⟩ := Prod.mk.inj (htoken.symm.trans hsome)
          obtain rfl := Option.some.inj hcommand
          exact hfirst.2.1
        · intro offset' filename fuel s' hsome hfilename
          obtain ⟨hcommand, rfl⟩ := Prod.mk.inj (htoken.symm.trans hsome)
          exact ((allInside_userInput hline htoken).mp (hall fuel)).2.2 (Option.some.inj hcommand) filename
            hfilename s'
      · intro hfits fuel
        refine (allInside_userInput hline htoken).mpr ⟨hfits.command, hfits.word _ _ htoken, ?_⟩
        rintro rfl filename hfilename s'
        exact hfits.exec offset filename fuel s' htoken hfilename

end Inside

/-! ### Two lines -/

theorem cat_tokens :
    Shell.getNextToken (text "cat readme.txt") 0 = (some (text "cat"), 3) ∧
      (Shell.getNextToken (text "cat readme.txt") 3).1 = some (text "readme.txt") := by
  decide

theorem lineFits_cat : LineFits (device fun _ => 0) (fun _ _ => 0) twoSectorRoot (text "cat readme.txt") := by
  refine lineFits_of_token cat_tokens.1 (by decide) (by decide) ?_
  rw [wordFits_iff (b := .filename) (by decide) (by decide)]
  intro word hword
  obtain rfl := Option.some.inj (cat_tokens.2.symm.trans hword)
  decide

theorem shell_buffers_cat :
    LineFits (device fun _ => 0) (fun _ _ => 0) twoSectorRoot (text "cat readme.txt") ∧
      ∀ fuel, AllInside (device fun _ => 0) (userInput twoSectorRoot fuel (text "cat readme.txt"))
        fun _ _ => 0 :=
  ⟨lineFits_cat, (shell_buffers_iff _ _ _ _ (by decide)).mpr lineFits_cat⟩

/-- A word of 32 letters fills `command[32]`, and its NUL is behind the array. -/
theorem long_command_leaves_buffer :
    ¬ AllInside (device fun _ => 0) (userInput twoSectorRoot 0 (List.replicate 32 97)) fun _ _ => 0 := by
  have htoken : Shell.getNextToken (List.replicate 32 97) 0 = (some (List.replicate 32 97), 32) := by decide
  intro hall
  have hfits := ((allInside_userInput (by decide) htoken).mp hall).1 (List.replicate 32 97) (by rw [htoken])
  exact absurd hfits (by decide)

end OsEojin.ShellBuffers
