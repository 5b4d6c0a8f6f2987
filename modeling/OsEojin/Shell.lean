import OsEojin.Fat

/-!
# The shell

`user_input` of `src/kernel/kernel.c`: the line is split at blanks, the first word picks the command and
most commands read one more word.  `exec` stages the file's bytes from `0x4000000` on and then leaves
the file system for good; here it hands back what it staged.

* `getNextToken`: the tokenizer of `utils.c`;
* `cmdWrite` … `cmdRmdir`: the branches that reach the disk;
* `userInput`: the dispatch.
-/

namespace OsEojin.Shell

open OsEojin.Lib.Programs OsEojin.Ata OsEojin.Fat

/-- `get_next_token(input, buffer, &offset)`: the next word, if there is one, and the new offset. -/
def getNextToken (input : List UInt8) (offset : ℕ) : Option (List UInt8) × ℕ :=
  let i := offset + ((input.drop offset).takeWhile fun c => c == 32).length
  if input.getD i 0 = 0 then (none, i)
  else
    let token := (input.drop i).takeWhile fun c => c != 32 && c != 0
    (some token, i + token.length)

/-- What `exec` hands to the loader: the file's name and size and the bytes staged for it. -/
structure ExecRequest where
  filename : List UInt8
  fileSize : ℕ
  image : List UInt8

/-- What a command line leaves behind. -/
structure Outcome where
  fat : Globals
  exec : Option ExecRequest

/-- The `n` first bytes of a sector. -/
def takeBytes (s : Sector) (n : ℕ) : List UInt8 := (List.range n).map (byteAt s)

/-! ### Raw sector commands -/

/-- The block `write` fills: the word, then NULs. -/
def writeData (word : List UInt8) : Sector := fun i => word.getD i 0

/-- `write`: the next word, or a default, to LBA 200. -/
def cmdWrite (arg : Option (List UInt8)) : Kernel Unit := do
  let buf ← kmalloc 512
  let buf := { buf with data := writeData (arg.getD (text "TEST_DATA_DEFAULT")) }
  kprint (text "Writing to LBA 200: ")
  kprint (cString (takeBytes buf.data 512))
  kprint (text "\n")
  ataWriteSector 200 buf
  kfree buf
  kprint (text "Write Done.\n")

/-- `read`: LBA 200 as a string. -/
def cmdRead : Kernel Unit := do
  let buf ← kmalloc 512
  let buf := { buf with data := fun _ => 0 }
  kprint (text "Reading from LBA 200...\n")
  let buf ← ataReadSector 200 buf
  kprint (text "Data: ")
  kprint (cString (takeBytes buf.data 512))
  kprint (text "\n")
  kfree buf

/-! ### Files -/

/-- The message for a name that is not in the directory. -/
def fileNotFound (filename : List UInt8) : Kernel Unit := do
  kprint (text "File not found: ")
  kprint filename
  kprint (text "\n")

/-- The print loop of `cat`. -/
def catLoop (g : Globals) : ℕ → ℕ → UInt16 → Buffer → Kernel Buffer
  | 0, _, _, _ => .hang
  | fuel + 1, size, cluster, buf =>
    if 0 < size ∧ cluster < 0xFFF8 then do
      let buf ← ataReadSector (fatLbaOfCluster g cluster) buf
      (takeBytes buf.data (min 512 size)).forM fun c => kprint (cString [c])
      let cluster ← fatNextCluster g cluster
      catLoop g fuel (size - min 512 size) cluster buf
    else pure buf

/-- `cat`. -/
def cmdCat (g : Globals) (fuel : ℕ) (filename : List UInt8) : Kernel Unit := do
  match ← fatFindFile g fuel filename with
  | some entry =>
    let buf ← kmalloc 512
    if buf.ptr = 0 then kprint (text "cat: Memory allocation failed\n")
    else
      let buf ← catLoop g fuel entry.fileSize entry.firstClusterLow buf
      kprint (text "\n")
      kfree buf
  | none => fileNotFound filename

/-- The load loop of `exec`: the bytes stored from `0x4000000` on. -/
def loadLoop (g : Globals) : ℕ → ℕ → UInt16 → Buffer → List UInt8 → Kernel (Buffer × List UInt8)
  | 0, _, _, _, _ => .hang
  | fuel + 1, size, cluster, buf, image =>
    if 0 < size ∧ cluster < 0xFFF8 then do
      let buf ← ataReadSector (fatLbaOfCluster g cluster) buf
      let copySize := if 512 < size then 512 else size
      let cluster ← fatNextCluster g cluster
      loadLoop g fuel (size - copySize) cluster buf (image ++ takeBytes buf.data copySize)
    else pure (buf, image)

/-- `exec` up to the creation of the process. -/
def cmdExec (g : Globals) (fuel : ℕ) (filename : List UInt8) : Kernel (Option ExecRequest) := do
  match ← fatFindFile g fuel filename with
  | some entry =>
    let buf ← kmalloc 512
    if buf.ptr = 0 then
      kprint (text "exec: Memory allocation failed\n")
      pure none
    else
      let (buf, image) ← loadLoop g fuel entry.fileSize entry.firstClusterLow buf []
      kfree buf
      kprint (text "Loaded ")
      kprint (hexToAscii entry.fileSize)
      kprint (text " bytes at 0x4000000\n")
      kprint (text "Spawning Process for ")
      kprint filename
      kprint (text "...\n")
      pure (some ⟨filename, entry.fileSize, image⟩)
  | none =>
    fileNotFound filename
    pure none

/-- `touch`: an entry of size and cluster 0. -/
def cmdTouch (g : Globals) (fuel : ℕ) (filename : List UInt8) : Kernel Unit := do
  if ← fatCreateEntry g fuel filename 0 0 0 then
    kprint (text "File created.\n")

/-- One of the two entries of a new directory: the name, the directory attribute and a cluster. -/
def dotEntry (name : String) (cluster : UInt16) : DirEntry := fun i =>
  if i.val < 11 then (text name).getD i 32
  else if i.val = 11 then attrDirectory
  else if i.val = 26 then lo8 cluster
  else if i.val = 27 then hi8 cluster
  else 0

/-- The first sector `mkdir` writes to a new directory's cluster. -/
def dotSector (cluster parent : UInt16) : Sector :=
  putEntry (putEntry (fun _ => 0) 0 (dotEntry "." cluster)) 1 (dotEntry ".." parent)

/-- `mkdir`; the answer says whether the entry was created. -/
def cmdMkdir (g : Globals) (fuel : ℕ) (dirname : List UInt8) : Kernel Bool := do
  let cluster ← fatAllocateCluster g
  if cluster = 0 then
    kprint (text "Disk full (No free clusters).\n")
    pure false
  else
    let buf ← kmalloc 512
    let buf := { buf with data := dotSector cluster g.currentDirCluster }
    ataWriteSector (fatLbaOfCluster g cluster) buf
    kfree buf
    if ← fatCreateEntry g fuel dirname attrDirectory cluster 0 then
      kprint (text "Directory created.\n")
      pure true
    else
      kprint (text "Failed to create entry.\n")
      pure false

/-! ### Commands that stay off the disk -/

/-- `help`. -/
def cmdHelp : Kernel Unit := do
  kprint (text "Available commands:\n")
  kprint (text "    help            - Show this list\n")
  kprint (text "    clear           - Clear the screen\n")
  kprint (text "    shutdown        - Power off the system\n")
  kprint (text "    memory          - Show Memory Map\n")
  kprint (text "    echo [message]  - Print message\n")
  kprint (text "    write [data]    - Write Data to Disk\n")
  kprint (text "    read            - Read Data from Disk\n")
  kprint (text "    mount           - Connect fat_init() and ATA Driver\n")
  kprint (text "    ls              - List Root Directory\n")
  kprint (text "    cat [file]      - Print File Content\n")
  kprint (text "    exec [file]     - Execute User Program\n")
  kprint (text "    cd [dir]        - Change Directory\n")
  kprint (text "    touch [file]    - Create Empty File\n")
  kprint (text "    mkdir [dir]     - Create Directory\n")
  kprint (text "    rm [file]       - Remove File\n")
  kprint (text "    rmdir [dir]     - Remove Directory\n")

/-- `shutdown`, `halt`: when no emulator powers off, the processor halts for good. -/
def cmdShutdown : Kernel Unit := do
  kprint (text "Shutting down...\n")
  (Program.perform (Call.outw 0xB004 0x2000) : Kernel Unit)
  (Program.perform (Call.outw 0x604 0x2000) : Kernel Unit)
  kprint (text "It is now safe to turn off your computer.\n")
  .hang

/-- `alloc`. -/
def cmdAlloc : Kernel Unit := do
  let ptr ← (Program.perform Call.pmmAllocBlock : Kernel ℕ)
  if ptr = 0 then kprint (text "Allocation Failed (Out of Memory)\n")
  else
    kprint (text "Allocated at: ")
    kprint (hexToAscii ptr)
    kprint (text "\n")

/-- One labelled allocation of `heap_test`. -/
def heapTestAlloc (label : String) : Kernel Buffer := do
  let a ← kmalloc 64
  kprint (text label)
  kprint (hexToAscii a.ptr)
  kprint (text "\n")
  pure a

/-- `heap_test`. -/
def cmdHeapTest : Kernel Unit := do
  let a ← heapTestAlloc "Alloc A: "
  let b ← heapTestAlloc "Alloc B: "
  let c ← heapTestAlloc "Alloc C: "
  kprint (text "Free B...\n")
  kfree b
  let d ← heapTestAlloc "Alloc D: "
  if d.ptr = b.ptr then kprint (text "Heap Test Passed! (Address Reused)\n")
  else kprint (text "Heap Test Failed (Address Not Reused)\n")
  kfree a
  kfree c
  kfree d

/-! ### The dispatch -/

/-- The prompt. -/
def prompt (g : Globals) : Kernel Unit := do
  kprint (text "OS_eojin:")
  kprint g.currentPath
  kprint (text "> ")

/-- A command that reads one word, or prints its usage. -/
def withArg (usage : String) (arg : Option (List UInt8)) (body : List UInt8 → Kernel Unit) :
    Kernel Unit :=
  match arg with
  | some word => body word
  | none => kprint (text usage)

/-- The branch of a command that leaves the globals as they are. -/
def branch (g : Globals) (command input : List UInt8) (offset fuel : ℕ) : Kernel Unit :=
  let arg := (getNextToken input offset).1
  if command = text "help" then cmdHelp
  else if command = text "clear" then .perform Call.clearScreen
  else if command = text "shutdown" ∨ command = text "halt" then cmdShutdown
  else if command = text "memory" then .perform Call.printMemoryMap
  else if command = text "echo" then do
    kprint (cString ((input.drop offset).dropWhile fun c => c == 32))
    kprint (text "\n")
  else if command = text "write" then cmdWrite arg
  else if command = text "read" then cmdRead
  else if command = text "ls" then fatList g fuel
  else if command = text "cat" then withArg "Usage: cat <filename>\n" arg (cmdCat g fuel)
  else if command = text "touch" then withArg "Usage: touch <filename>\n" arg (cmdTouch g fuel)
  else if command = text "mkdir" then
    withArg "Usage: mkdir <dirname>\n" arg fun word => do
      let _ ← cmdMkdir g fuel word
      pure ()
  else if command = text "rm" then
    withArg "Usage: rm <filename>\n" arg fun word => do
      let _ ← fatDeleteFile g fuel word
      pure ()
  else if command = text "rmdir" then
    withArg "Usage: rmdir <dirname>\n" arg fun word => do
      let _ ← fatDeleteDir g fuel word
      pure ()
  else if command = text "alloc" then cmdAlloc
  else if command = text "heap_test" then cmdHeapTest
  else do
    kprint (text "Unknown command: ")
    kprint (cString input)
    kprint (text "\n")

/-- `user_input(input)`. -/
def userInput (g : Globals) (fuel : ℕ) (input : List UInt8) : Kernel Outcome :=
  match getNextToken input 0 with
  | (none, _) => do
    prompt g
    pure ⟨g, none⟩
  | (some command, offset) =>
    if command = text "mount" then do
      let g ← fatInit g
      prompt g
      pure ⟨g, none⟩
    else if command = text "cd" then do
      match (getNextToken input offset).1 with
      | some dirname =>
        let g ← fatChangeDir g fuel dirname
        prompt g
        pure ⟨g, none⟩
      | none =>
        kprint (text "Usage: cd <dirname>\n")
        prompt g
        pure ⟨g, none⟩
    else if command = text "exec" then do
      match (getNextToken input offset).1 with
      | some filename =>
        match ← cmdExec g fuel filename with
        | some request => pure ⟨g, some request⟩
        | none =>
          prompt g
          pure ⟨g, none⟩
      | none =>
        kprint (text "Usage: exec <filename>\n")
        prompt g
        pure ⟨g, none⟩
    else do
      branch g command input offset fuel
      prompt g
      pure ⟨g, none⟩

/-! ### The commands on files, as lines -/

/-- A word as the tokenizer delimits it: not empty, without blanks and NULs. -/
def IsWord (word : List UInt8) : Prop := word ≠ [] ∧ ∀ c ∈ word, c ≠ 32 ∧ c ≠ 0

instance (word : List UInt8) : Decidable (IsWord word) :=
  decidable_of_iff (word ≠ [] ∧ word.all (fun c => c != 32 && c != 0) = true) (by simp [IsWord])

/-- The words of a line. -/
abbrev Word := { word : List UInt8 // IsWord word }

/-- The commands on files and directories, each with its one word. -/
inductive Command
  | cd (word : Word)
  | touch (word : Word)
  | mkdir (word : Word)
  | rm (word : Word)
  | rmdir (word : Word)

/-- The command's word. -/
def Command.word : Command → Word
  | cd w | touch w | mkdir w | rm w | rmdir w => w

/-- The command's name. -/
def Command.name : Command → List UInt8
  | cd _ => text "cd"
  | touch _ => text "touch"
  | mkdir _ => text "mkdir"
  | rm _ => text "rm"
  | rmdir _ => text "rmdir"

/-- The line a user types. -/
def Command.line (c : Command) : List UInt8 := c.name ++ 32 :: c.word.val

theorem takeWhile_word {word : List UInt8} (h : IsWord word) (rest : List UInt8)
    (hrest : rest.head?.all (fun c => c == 32) = true) :
    (word ++ rest).takeWhile (fun c => c != 32 && c != 0) = word := by
  rw [List.takeWhile_append_of_pos]
  · cases rest with
    | nil => simp
    | cons r rest =>
      have hr : r = 32 := by simpa using hrest
      simp [hr]
  · intro c hc
    simp [(h.2 c hc).1, (h.2 c hc).2]

/-- The next word is the token, whatever stands before the offset and however many blanks follow. -/
theorem getNextToken_word (front : List UInt8) (n : ℕ) {word : List UInt8} (h : IsWord word)
    (rest : List UInt8) (hrest : rest.head?.all (fun c => c == 32) = true) :
    getNextToken (front ++ (List.replicate n 32 ++ (word ++ rest))) front.length =
      (some word, front.length + n + word.length) := by
  obtain ⟨c, cs, rfl⟩ := List.exists_cons_of_ne_nil h.1
  have hc := h.2 c List.mem_cons_self
  have hskip : ((List.replicate n 32 ++ (c :: cs ++ rest)).takeWhile fun c => c == 32)
      = List.replicate n 32 := by
    rw [List.takeWhile_append_of_pos (by simp)]
    simp [hc.1]
  have hdrop : (front ++ (List.replicate n 32 ++ (c :: cs ++ rest))).drop (front.length + n)
      = c :: cs ++ rest := by
    rw [← List.append_assoc]
    exact List.drop_left' (by simp)
  have hget : (front ++ (List.replicate n 32 ++ (c :: cs ++ rest))).getD (front.length + n) 0
      = c := by
    have hhead := congrArg (fun l => l[0]?) hdrop
    simp only [List.getElem?_drop, Nat.add_zero] at hhead
    rw [List.getD_eq_getElem?_getD, hhead]
    rfl
  simp only [getNextToken, List.drop_left, hskip, List.length_replicate, hget, if_neg hc.2, hdrop,
    takeWhile_word h rest hrest]

/-- The tokens of a command line. -/
theorem line_tokens (c : Command) :
    getNextToken c.line 0 = (some c.name, c.name.length) ∧
      (getNextToken c.line c.name.length).1 = some c.word.val := by
  have hname : IsWord c.name := by
    cases c <;> simp only [Command.name] <;> decide
  constructor
  · have hfirst := getNextToken_word [] 0 hname (32 :: c.word.val) (by simp)
    simpa [Command.line] using hfirst
  · have hsecond := getNextToken_word c.name 1 c.word.property [] (by simp)
    simp only [List.replicate_one, List.append_nil, List.singleton_append] at hsecond
    rw [Command.line, hsecond]

/-- The file system and its disk. -/
abbrev FileSystem := Globals × Disk

/-- One command line, on the device. -/
def step (junk : Sector) (fuel : ℕ) (s : FileSystem) (c : Command) : Option FileSystem :=
  (execute junk (userInput s.1 fuel c.line) s.2).map fun r => (r.1.fat, r.2)

section Step

variable (junk : Sector) (fuel : ℕ) (s : FileSystem) (w : Word)

theorem execute_prompt (g : Globals) (d : Disk) : execute junk (prompt g) d = some ((), d) := rfl

/-- The dispatch of the commands that leave the globals alone. -/
theorem userInput_branch {g : Globals} {command input : List UInt8} {offset : ℕ}
    (htoken : getNextToken input 0 = (some command, offset)) (hmount : command ≠ text "mount")
    (hcd : command ≠ text "cd") (hexec : command ≠ text "exec") (d : Disk) :
    execute junk (userInput g fuel input) d =
      (execute junk (branch g command input offset fuel) d).map fun r => (⟨g, none⟩, r.2) := by
  rw [userInput, htoken]
  simp only [if_neg hmount, if_neg hcd, if_neg hexec, execute_bind, execute_prompt, Option.bind_some,
    execute_pure]
  cases execute junk (branch g command input offset fuel) d with
  | none => rfl
  | some r => rfl

theorem step_cd : step junk fuel s (.cd w) = execute junk (fatChangeDir s.1 fuel w.val) s.2 := by
  obtain ⟨hname, hword⟩ := line_tokens (.cd w)
  change getNextToken (Command.cd w).line 0 = (some (text "cd"), 2) at hname
  change (getNextToken (Command.cd w).line 2).1 = some w.val at hword
  rw [step, userInput, hname]
  simp only [if_neg (show text "cd" ≠ text "mount" from by decide), if_true, hword, execute_bind,
    execute_prompt, Option.bind_some, execute_pure]
  cases execute junk (fatChangeDir s.1 fuel w.val) s.2 with
  | none => rfl
  | some r => rfl

/-- A command that leaves the globals alone, with the branch it takes. -/
theorem step_branch (c : Command) {body : Kernel Unit} (hcd : c.name ≠ text "cd")
    (hbody : branch s.1 c.name c.line c.name.length fuel = body) :
    step junk fuel s c = (execute junk body s.2).map fun r => (s.1, r.2) := by
  have hmount : c.name ≠ text "mount" := by cases c <;> simp only [Command.name] <;> decide
  have hexec : c.name ≠ text "exec" := by cases c <;> simp only [Command.name] <;> decide
  rw [step, userInput_branch junk fuel (line_tokens c).1 hmount hcd hexec, hbody, Option.map_map]
  rfl

theorem step_touch : step junk fuel s (.touch w) =
    (execute junk (fatCreateEntry s.1 fuel w.val 0 0 0) s.2).map fun r => (s.1, r.2) := by
  have hbody : branch s.1 (text "touch") (Command.touch w).line 5 fuel = cmdTouch s.1 fuel w.val := by
    rw [branch, if_neg (by decide), if_neg (by decide), if_neg (by decide), if_neg (by decide),
      if_neg (by decide), if_neg (by decide), if_neg (by decide), if_neg (by decide), if_neg (by decide),
      if_pos rfl]
    rw [show (getNextToken (Command.touch w).line 5).1 = _ from (line_tokens (.touch w)).2]
    rfl
  rw [step_branch junk fuel s (.touch w) (by simp only [Command.name]; decide) hbody]
  simp only [cmdTouch, execute_bind]
  cases execute junk (fatCreateEntry s.1 fuel w.val 0 0 0) s.2 with
  | none => rfl
  | some r =>
    obtain ⟨created, d⟩ := r
    cases created <;> rfl

/-- A branch that drops the answer of the function it calls. -/
theorem execute_discard {α : Type} (p : Kernel α) (g : Globals) (d : Disk) :
    ((execute junk (p >>= fun _ => pure ()) d).map fun r => (g, r.2)) =
      (execute junk p d).map fun r => (g, r.2) := by
  rw [execute_bind]
  cases execute junk p d with
  | none => rfl
  | some r => rfl

theorem step_mkdir : step junk fuel s (.mkdir w) =
    (execute junk (cmdMkdir s.1 fuel w.val) s.2).map fun r => (s.1, r.2) := by
  have hbody : branch s.1 (text "mkdir") (Command.mkdir w).line 5 fuel =
      (cmdMkdir s.1 fuel w.val >>= fun _ => pure ()) := by
    rw [branch, if_neg (by decide), if_neg (by decide), if_neg (by decide), if_neg (by decide),
      if_neg (by decide), if_neg (by decide), if_neg (by decide), if_neg (by decide), if_neg (by decide),
      if_neg (by decide), if_pos rfl]
    rw [show (getNextToken (Command.mkdir w).line 5).1 = _ from (line_tokens (.mkdir w)).2]
    rfl
  rw [step_branch junk fuel s (.mkdir w) (by simp only [Command.name]; decide) hbody, execute_discard]

theorem step_rm : step junk fuel s (.rm w) =
    (execute junk (fatDeleteFile s.1 fuel w.val) s.2).map fun r => (s.1, r.2) := by
  have hbody : branch s.1 (text "rm") (Command.rm w).line 2 fuel =
      (fatDeleteFile s.1 fuel w.val >>= fun _ => pure ()) := by
    rw [branch, if_neg (by decide), if_neg (by decide), if_neg (by decide), if_neg (by decide),
      if_neg (by decide), if_neg (by decide), if_neg (by decide), if_neg (by decide), if_neg (by decide),
      if_neg (by decide), if_neg (by decide), if_pos rfl]
    rw [show (getNextToken (Command.rm w).line 2).1 = _ from (line_tokens (.rm w)).2]
    rfl
  rw [step_branch junk fuel s (.rm w) (by simp only [Command.name]; decide) hbody, execute_discard]

theorem step_rmdir : step junk fuel s (.rmdir w) =
    (execute junk (fatDeleteDir s.1 fuel w.val) s.2).map fun r => (s.1, r.2) := by
  have hbody : branch s.1 (text "rmdir") (Command.rmdir w).line 5 fuel =
      (fatDeleteDir s.1 fuel w.val >>= fun _ => pure ()) := by
    rw [branch, if_neg (by decide), if_neg (by decide), if_neg (by decide), if_neg (by decide),
      if_neg (by decide), if_neg (by decide), if_neg (by decide), if_neg (by decide), if_neg (by decide),
      if_neg (by decide), if_neg (by decide), if_neg (by decide), if_pos rfl]
    rw [show (getNextToken (Command.rmdir w).line 5).1 = _ from (line_tokens (.rmdir w)).2]
    rfl
  rw [step_branch junk fuel s (.rmdir w) (by simp only [Command.name]; decide) hbody, execute_discard]

end Step

end OsEojin.Shell
