import OsEojin.Tokens
import OsEojin.FatFaults

/-!
# The buffer of the path

`current_path` of `fat.c` is an array of 256 bytes.  `fat_change_dir` appends names of the disk to it and
strips them again, with stores that only its own arithmetic keeps inside.  Here the function works on the bytes
of memory, the array and what lies behind it, and remarks each store; without the remarks it is the function on
strings of `OsEojin.Fat`.

* `pathUp`, `pathDown`, `fatChangeDir`: the code on the bytes;
* `Sound`: a path that begins with a slash and ends inside the array;
* `warrants_fatChangeDir`, `warrants_fatChangeDirs`: one call and a sequence of them, whatever the disk answers;
* `forget_fatChangeDir`, `mayReturn_fatChangeDir_iff`: the tie to the function on strings;
* `path_buffer_safe`: the stores are inside, the path stays sound, the search finds a slash.
-/

namespace OsEojin.PathBuffer

open OsEojin.Lib.Programs OsEojin.Lib.Programs.Program OsEojin.Lib.ByteMemory OsEojin.Ata
open OsEojin.Tokens (StringAt stringIn stringIn_succ stringAt_nil stringAt_stringIn length_stringIn_le)
open OsEojin.Fat (Globals cString fatFindFile isDirectory nameBytes trimBlanks anyAnswer)

/-! ### The code on the bytes -/

/-- What is remarked: a store `current_path[index] = value` and the memory before it, where the search for a
slash ended, and a string whose NUL is not in its array. -/
inductive PathNote
  | store (path : Memory) (index : ℕ) (value : UInt8)
  | searched (found : Option ℕ)
  | unterminated

/-- File system code with its remarks. -/
abbrev PathCode := Noted Call Call.Res PathNote

/-- The store `current_path[index] = value`. -/
def put (path : Memory) (index : ℕ) (value : UInt8) : PathCode Memory := do
  note (.store path index value)
  pure (Function.update path index value)

/-- The loop of `strlen` from `len`, with so many bytes of the array left. -/
def strlenLoop (str : Memory) (len : ℕ) : ℕ → Option ℕ
  | 0 => none
  | left + 1 => if str len = 0 then some len else strlenLoop str (len + 1) left

/-- `strlen(str)` of an array of `size` bytes. -/
def strlen (str : Memory) (size : ℕ) : PathCode ℕ :=
  match strlenLoop str 0 size with
  | some len => pure len
  | none => do
    note .unterminated
    .hang

/-- The backward search for `/` from `i` on: where it ends. -/
def slashSearch (path : Memory) : ℕ → Option ℕ
  | 0 => if path 0 = 47 then some 0 else none
  | i + 1 => if path (i + 1) = 47 then some (i + 1) else slashSearch path i

/-- The path after `cd ..`. -/
def pathUp (path : Memory) : PathCode Memory := do
  let len ← strlen path 256
  if 1 < len then
    let found := slashSearch path (len - 1)
    note (.searched found)
    match found with
    | some 0 => put path 1 0
    | some i => put path i 0
    | none => pure path
  else pure path

/-- `real_name` after the copy: the eight bytes of the name, and a NUL. -/
def copyName (e : DirEntry) : Memory := fun i => if i < 8 then e.name i else 0

/-- The loop that turns trailing blanks into NULs, with so many bytes left. -/
def cutBlanks (realName : Memory) : ℕ → Memory
  | 0 => realName
  | k + 1 => if realName k = 32 then cutBlanks (Function.update realName k 0) k else realName

def realName (e : DirEntry) : Memory := cutBlanks (copyName e) 8

/-- The loop `current_path[len+i] = real_name[i]` from `i` on, with so many bytes left. -/
def appendLoop (len : ℕ) (realName : Memory) (i : ℕ) : ℕ → Memory → PathCode Memory
  | 0, path => pure path
  | n + 1, path => do
    let path ← put path (len + i) (realName i)
    appendLoop len realName (i + 1) n path

/-- The name goes behind the first `len` bytes, and a NUL behind it. -/
def appendName (path : Memory) (len dlen : ℕ) (realName : Memory) : PathCode Memory := do
  let path ← appendLoop len realName 0 dlen path
  put path (len + dlen) 0

/-- The path after a change into the directory `realName`. -/
def pathDown (path realName : Memory) : PathCode Memory := do
  let len ← strlen path 256
  let dlen ← strlen realName 9
  if len + dlen + 2 < 256 then
    if 1 < len ∧ path (len - 1) ≠ 47 then
      let path ← put path len 47
      appendName path (len + 1) dlen realName
    else appendName path len dlen realName
  else pure path

/-- What `fat_change_dir` does to the path, having found the directory `entry`. -/
def updatePath (path : Memory) (dirname : List UInt8) (entry : DirEntry) : PathCode Memory :=
  if cString dirname = text ".." then pathUp path
  else if cString dirname = text "." then pure path
  else pathDown path (realName entry)

/-- `fat_change_dir`, with the path in `path` and not in the globals. -/
def fatChangeDir (g : Globals) (fuel : ℕ) (path : Memory) (dirname : List UInt8) :
    PathCode (Globals × Memory) :=
  if !g.isFatInitialized then do
    lift (kprint (text "File system not mounted. Run 'mount' first.\n"))
    pure (g, path)
  else do
    match ← lift (fatFindFile g fuel dirname) with
    | some entry =>
      if isDirectory entry then
        lift (kprint (text "Changed directory.\n"))
        let path ← updatePath path dirname entry
        pure ({ g with currentDirCluster := entry.firstClusterLow }, path)
      else
        lift (kprint (text "Not a directory.\n"))
        pure (g, path)
    | none =>
      lift (kprint (text "Directory not found.\n"))
      pure (g, path)

/-- `char current_path[256] = "/"`, and what lies behind it in memory. -/
def initialPath (behind : Memory) : Memory :=
  fun i => if i = 0 then 47 else if i < 256 then 0 else behind i

/-- A call of `fat_change_dir`: its name, and the other globals as it finds them. -/
structure Invocation where
  globals : Globals
  fuel : ℕ
  dirname : List UInt8

/-- One call after the other.  What happens between them does not touch `current_path`. -/
def fatChangeDirs : List Invocation → Memory → PathCode Memory
  | [], path => pure path
  | c :: cs, path => do
    let r ← fatChangeDir c.globals c.fuel path c.dirname
    fatChangeDirs cs r.2

/-! ### Strings in memory -/

section Strings

variable {m : Memory} {a n : ℕ} {s : List UInt8}

theorem strlenLoop_eq (h : StringAt m a s) (hn : s.length < n) :
    strlenLoop m a n = some (a + s.length) := by
  induction s generalizing a n with
  | nil =>
    obtain ⟨n, rfl⟩ : ∃ k, n = k + 1 := ⟨n - 1, by rw [List.length_nil] at hn; omega⟩
    rw [strlenLoop]
    exact if_pos h.nul
  | cons c s ih =>
    obtain ⟨n, rfl⟩ : ∃ k, n = k + 1 := ⟨n - 1, by omega⟩
    obtain ⟨hc, hne, htail⟩ := h.uncons
    rw [strlenLoop, if_neg (hc ▸ hne), ih htail (Nat.lt_of_succ_lt_succ hn), List.length_cons,
      show a + 1 + s.length = a + (s.length + 1) by omega]

theorem strlen_eq (h : StringAt m 0 s) (hn : s.length < n) : strlen m n = pure s.length := by
  rw [strlen, strlenLoop_eq h hn, Nat.zero_add]

/-- The backward search over the bytes is the one over the string. -/
theorem slashSearch_eq (h : StringAt m 0 s) {i : ℕ} (hi : i < s.length) : slashSearch m i = Fat.slashSearch s i := by
  have hbyte : ∀ j, j ≤ i → m j = s.getD j 0 := by
    intro j hj
    have hj' := h.spells j (by omega)
    rwa [Nat.zero_add] at hj'
  induction i with
  | zero => rw [slashSearch, Fat.slashSearch, hbyte 0 le_rfl]
  | succ i ih =>
    rw [slashSearch, Fat.slashSearch, hbyte (i + 1) le_rfl,
      ih (by omega) (fun j hj => hbyte j (by omega))]

end Strings

/-! ### What the stores keep -/

/-- The path begins with a slash, and the last byte of the array is a NUL. -/
structure Sound (path : Memory) : Prop where
  slash : path 0 = 47
  nul : path 255 = 0

/-- The remarks that do no harm: a store between the two bytes, and a search that found a slash. -/
def PathNote.Safe : PathNote → Prop
  | .store path index _ => Sound path ∧ 0 < index ∧ index < 255
  | .searched found => ∃ i, found = some i
  | .unterminated => False

section Safety

variable {A : (o : Call) → o.Res → Prop} {path : Memory} {len dlen i n : ℕ}

theorem sound_initialPath (behind : Memory) : Sound (initialPath behind) := ⟨rfl, rfl⟩

theorem Sound.update (h : Sound path) (h0 : 0 < i) (hi : i < 255) (v : UInt8) : Sound (Function.update path i v) where
  slash := by rw [Function.update_of_ne (by omega), h.slash]
  nul := by rw [Function.update_of_ne (by omega), h.nul]

/-- The string in the array. -/
theorem Sound.string (h : Sound path) :
    StringAt path 0 (stringIn path 0 256) ∧ 0 < (stringIn path 0 256).length ∧ (stringIn path 0 256).length < 256 := by
  have hat : StringAt path 0 (stringIn path 0 255) := stringAt_stringIn h.nul
  have hle := length_stringIn_le path 0 255
  rw [hat.stringIn_eq (by omega)]
  refine ⟨hat, ?_, by omega⟩
  rw [stringIn_succ, if_neg (by rw [h.slash]; decide)]
  exact Nat.succ_pos _

theorem Sound.strlen (h : Sound path) : strlen path 256 = pure (stringIn path 0 256).length :=
  strlen_eq h.string.1 h.string.2.2

/-- **The search ends at a slash**: there is one at the front. -/
theorem Sound.search (h : Sound path) (i : ℕ) : ∃ j ≤ i, slashSearch path i = some j := by
  induction i with
  | zero => exact ⟨0, le_rfl, if_pos h.slash⟩
  | succ i ih =>
    rw [slashSearch]
    split_ifs with hi
    · exact ⟨i + 1, le_rfl, rfl⟩
    · obtain ⟨j, hj, hfound⟩ := ih
      exact ⟨j, by omega, hfound⟩

theorem warrants_put (h : Sound path) (h0 : 0 < i) (hi : i < 255) (v : UInt8) :
    Warrants A PathNote.Safe Sound (put path i v) :=
  (warrants_note ⟨h, h0, hi⟩).bind fun _ _ => warrants_pure (h.update h0 hi v)

/-- `cd ..` on a sound path: the search ends at some `j`, and a NUL goes there, or behind the first slash. -/
theorem Sound.pathUp_eq (h : Sound path) {s : List UInt8} (hs : stringIn path 0 256 = s) :
    ∃ j ≤ s.length - 1, slashSearch path (s.length - 1) = some j ∧
      pathUp path = if 1 < s.length then do
          note (.searched (some j))
          put path (if j = 0 then 1 else j) 0
        else pure path := by
  obtain ⟨j, hj, hfound⟩ := h.search (s.length - 1)
  refine ⟨j, hj, hfound, ?_⟩
  rw [pathUp, h.strlen, hs]
  show (if 1 < s.length then _ else _) = _
  rw [hfound]
  cases j with
  | zero => rfl
  | succ j => rfl

theorem warrants_pathUp (h : Sound path) : Warrants A PathNote.Safe Sound (pathUp path) := by
  obtain ⟨-, -, hlt⟩ := h.string
  obtain ⟨j, hj, -, hcode⟩ := h.pathUp_eq rfl
  rw [hcode]
  split_ifs with hlong hfront
  · exact (warrants_note ⟨j, rfl⟩).bind fun _ _ => warrants_put h (by decide) (by decide) 0
  · exact (warrants_note ⟨j, rfl⟩).bind fun _ _ => warrants_put h (by omega) (by omega) 0
  · exact warrants_pure h

theorem warrants_appendLoop (h : Sound path) (realName : Memory) (h0 : 0 < len) (hn : len + i + n ≤ 255) :
    Warrants A PathNote.Safe Sound (appendLoop len realName i n path) := by
  induction n generalizing path i with
  | zero => exact warrants_pure h
  | succ n ih =>
    exact (warrants_put h (by omega) (by omega) _).bind fun p hp => ih hp (by omega)

theorem warrants_appendName (h : Sound path) (realName : Memory) (h0 : 0 < len) (hn : len + dlen < 255) :
    Warrants A PathNote.Safe Sound (appendName path len dlen realName) :=
  (warrants_appendLoop h realName h0 (by omega)).bind fun _ hp => warrants_put hp (by omega) hn 0

/-- The loop over the blanks leaves the string without them. -/
theorem stringAt_cutBlanks {name : Memory} {k : ℕ} (h : name k = 0) :
    StringAt (cutBlanks name k) 0 (trimBlanks ((List.range k).map name)) := by
  induction k generalizing name with
  | zero => exact stringAt_nil h
  | succ k ih =>
    rw [cutBlanks, List.range_succ, List.map_append, List.map_singleton, trimBlanks]
    split_ifs with hblank
    · have hfront : (List.range k).map (Function.update name k 0) = (List.range k).map name := by
        refine List.map_congr_left fun i hi => Function.update_of_ne ?_ 0 name
        have hlt := List.mem_range.mp hi
        omega
      rw [List.rdropWhile_concat_pos _ _ _ (by rw [hblank]; rfl), ← trimBlanks, ← hfront]
      exact ih (Function.update_self k 0 name)
    · rw [List.rdropWhile_concat_neg _ _ _ (by rw [beq_iff_eq]; exact hblank)]
      have hall := stringAt_stringIn (m := name) (a := 0) (n := k + 1) (by rw [Nat.zero_add]; exact h)
      rw [stringIn, List.range_succ, List.map_append, List.map_singleton] at hall
      simp only [Nat.zero_add] at hall
      exact hall

/-- `real_name` holds the name of the entry without its trailing blanks. -/
theorem stringAt_realName (e : DirEntry) : StringAt (realName e) 0 (trimBlanks (nameBytes e)) := by
  have hname : nameBytes e = (List.range 8).map (copyName e) := by
    refine List.map_congr_left fun i hi => ?_
    rw [copyName, if_pos (List.mem_range.mp hi)]
  rw [hname]
  exact stringAt_cutBlanks rfl

theorem length_trimBlanks_le (bytes : List UInt8) : (trimBlanks bytes).length ≤ bytes.length :=
  (List.takeWhile_sublist _).length_le.trans (List.rdropWhile_prefix _ _).length_le

theorem length_name_lt (e : DirEntry) : (trimBlanks (nameBytes e)).length < 9 := by
  have hle := length_trimBlanks_le (nameBytes e)
  rw [nameBytes, List.length_map, List.length_range] at hle
  exact Nat.lt_succ_of_le hle

theorem strlen_realName (e : DirEntry) : strlen (realName e) 9 = pure (trimBlanks (nameBytes e)).length :=
  strlen_eq (stringAt_realName e) (length_name_lt e)

/-- Appending to a sound path, with both lengths known. -/
theorem Sound.pathDown_eq (h : Sound path) (e : DirEntry) {s t : List UInt8} (hs : stringIn path 0 256 = s)
    (ht : trimBlanks (nameBytes e) = t) :
    pathDown path (realName e) = if s.length + t.length + 2 < 256 then
        if 1 < s.length ∧ path (s.length - 1) ≠ 47 then do
          let path ← put path s.length 47
          appendName path (s.length + 1) t.length (realName e)
        else appendName path s.length t.length (realName e)
      else pure path := by
  rw [pathDown, h.strlen, strlen_realName, hs, ht]
  rfl

/-- **Appending**: the guard leaves room for the separator and the NUL. -/
theorem warrants_pathDown (h : Sound path) (e : DirEntry) :
    Warrants A PathNote.Safe Sound (pathDown path (realName e)) := by
  obtain ⟨-, hpos, -⟩ := h.string
  rw [h.pathDown_eq e rfl rfl]
  split_ifs with hroom hslash
  · exact (warrants_put h hpos (by omega) 47).bind fun p hp => warrants_appendName hp _ (by omega) (by omega)
  · exact warrants_appendName h _ hpos (by omega)
  · exact warrants_pure h

theorem warrants_updatePath (h : Sound path) (dirname : List UInt8) (e : DirEntry) :
    Warrants A PathNote.Safe Sound (updatePath path dirname e) := by
  rw [updatePath]
  split_ifs
  · exact warrants_pathUp h
  · exact warrants_pure h
  · exact warrants_pathDown h e

/-- **One call**, whatever the disk answers. -/
theorem warrants_fatChangeDir (h : Sound path) (g : Globals) (fuel : ℕ) (dirname : List UInt8) :
    Warrants A PathNote.Safe (fun r => Sound r.2) (fatChangeDir g fuel path dirname) := by
  rw [fatChangeDir]
  split
  · exact (warrants_lift _).bind fun _ _ => warrants_pure h
  · refine (warrants_lift _).bind fun found _ => ?_
    cases found with
    | none => exact (warrants_lift _).bind fun _ _ => warrants_pure h
    | some e =>
      dsimp only
      split
      · exact (warrants_lift _).bind fun _ _ => (warrants_updatePath h dirname e).bind fun p hp => warrants_pure hp
      · exact (warrants_lift _).bind fun _ _ => warrants_pure h

/-- **A sequence of calls.** -/
theorem warrants_fatChangeDirs (h : Sound path) (calls : List Invocation) :
    Warrants A PathNote.Safe Sound (fatChangeDirs calls path) := by
  induction calls generalizing path with
  | nil => exact warrants_pure h
  | cons c cs ih =>
    rw [fatChangeDirs]
    exact (warrants_fatChangeDir h c.globals c.fuel c.dirname).bind fun r hr => ih hr

end Safety

/-! ### The function on strings -/

section Strings

variable {path name : Memory} {s t : List UInt8} {len i n : ℕ}

@[simp] theorem forget_put (v : UInt8) : forget (put path i v) = pure (Function.update path i v) := rfl

/-- A NUL in a string cuts it. -/
theorem stringAt_take (h : StringAt path 0 s) (hi : i ≤ s.length) :
    StringAt (Function.update path i 0) 0 (s.take i) where
  spells := by
    intro j hj
    rw [List.length_take, Nat.min_eq_left hi] at hj
    obtain rfl | hlt := Nat.eq_or_lt_of_le hj
    · rw [Nat.zero_add, Function.update_self, List.getD_eq_default _ _ (List.length_take_le _ _)]
    · rw [Function.update_of_ne (by omega), h.spells j (by omega), List.getD_eq_getElem?_getD,
        List.getD_eq_getElem?_getD, List.getElem?_take_of_lt hlt]
  nonzero c hc := h.nonzero c (List.mem_of_mem_take hc)

/-- The memory after the rounds `i .. i + n` of the appending loop. -/
def appended (path realName : Memory) (len i n : ℕ) : Memory :=
  fun x => if len + i ≤ x ∧ x < len + i + n then realName (x - len) else path x

theorem forget_appendLoop (realName : Memory) :
    forget (appendLoop len realName i n path) = (pure (appended path realName len i n) : Kernel Memory) := by
  induction n generalizing path i with
  | zero =>
    have hnone : appended path realName len i 0 = path := funext fun x => if_neg (by omega)
    rw [hnone]
    rfl
  | succ n ih =>
    have hstep : appended (Function.update path (len + i) (realName i)) realName len (i + 1) n =
        appended path realName len i (n + 1) := by
      funext x
      rw [appended, appended]
      by_cases hx : x = len + i
      · rw [if_neg (by omega), if_pos (by omega), hx, Function.update_self, Nat.add_sub_cancel_left]
      · rw [Function.update_of_ne hx]
        exact if_congr (by omega) rfl rfl
    rw [appendLoop, forget_bind, forget_put, ← hstep]
    exact ih

/-- A string behind the bytes of another. -/
theorem stringAt_append (hfront : ∀ j < s.length, path j = s.getD j 0) (hs : ∀ c ∈ s, c ≠ 0)
    (hname : StringAt name 0 t) :
    StringAt (Function.update (appended path name s.length 0 t.length) (s.length + t.length) 0) 0 (s ++ t) where
  spells := by
    intro j hj
    rw [List.length_append] at hj
    rw [Nat.zero_add]
    obtain rfl | hlt := Nat.eq_or_lt_of_le hj
    · rw [Function.update_self, List.getD_eq_default _ _ (List.length_append ▸ le_rfl)]
    · rw [Function.update_of_ne (by omega), appended]
      by_cases hback : s.length ≤ j
      · have hbyte := hname.spells (j - s.length) (by omega)
        rw [Nat.zero_add] at hbyte
        rw [if_pos ⟨hback, hlt⟩, List.getD_append_right _ _ _ _ hback, hbyte]
      · rw [if_neg (fun hin => hback hin.1), List.getD_append _ _ _ _ (by omega), hfront j (by omega)]
  nonzero := by
    intro c hc
    obtain hc | hc := List.mem_append.mp hc
    · exact hs c hc
    · exact hname.nonzero c hc

/-- One byte behind the bytes of a string. -/
theorem getD_concat (hfront : ∀ j < s.length, path j = s.getD j 0) (c : UInt8) :
    ∀ j < (s ++ [c]).length, Function.update path s.length c j = (s ++ [c]).getD j 0 := by
  intro j hj
  rw [List.length_append, List.length_singleton] at hj
  obtain rfl | hlt := Nat.eq_or_lt_of_le (Nat.le_of_lt_succ hj)
  · rw [Function.update_self, List.getD_append_right _ _ _ _ le_rfl, Nat.sub_self]
    rfl
  · rw [Function.update_of_ne (by omega), List.getD_append _ _ _ _ hlt, hfront j hlt]

theorem forget_appendName (hfront : ∀ j < s.length, path j = s.getD j 0) (hs : ∀ c ∈ s, c ≠ 0)
    (hname : StringAt name 0 t) :
    ∃ path', forget (appendName path s.length t.length name) = (pure path' : Kernel Memory) ∧
      StringAt path' 0 (s ++ t) := by
  refine ⟨_, ?_, stringAt_append hfront hs hname⟩
  rw [appendName, forget_bind, forget_appendLoop]
  rfl

/-- `cd ..` on the bytes and on the string. -/
theorem forget_pathUp (h : Sound path) :
    ∃ path', forget (pathUp path) = (pure path' : Kernel Memory) ∧
      stringIn path' 0 256 = Fat.pathUp (stringIn path 0 256) := by
  obtain ⟨hat, hpos, hlt⟩ := h.string
  generalize hs : stringIn path 0 256 = s at hat hpos hlt
  have hcut : ∀ i ≤ s.length, stringIn (Function.update path i 0) 0 256 = s.take i := by
    intro i hi
    exact (stringAt_take hat hi).stringIn_eq (by rw [List.length_take]; omega)
  obtain ⟨j, hj, hfound, hcode⟩ := h.pathUp_eq hs
  rw [hcode, Fat.pathUp, ← slashSearch_eq hat (by omega), hfound]
  by_cases hlong : 1 < s.length
  · rw [if_pos hlong, if_pos hlong]
    cases j with
    | zero => exact ⟨_, rfl, hcut 1 (by omega)⟩
    | succ j => exact ⟨_, rfl, hcut (j + 1) (by omega)⟩
  · rw [if_neg hlong, if_neg hlong]
    exact ⟨path, rfl, hs⟩

/-- Appending on the bytes and on the string. -/
theorem forget_pathDown (h : Sound path) (e : DirEntry) :
    ∃ path', forget (pathDown path (realName e)) = (pure path' : Kernel Memory) ∧
      stringIn path' 0 256 = Fat.pathDown (stringIn path 0 256) (trimBlanks (nameBytes e)) := by
  obtain ⟨hat, hpos, hlt⟩ := h.string
  have hname := stringAt_realName e
  generalize hs : stringIn path 0 256 = s at hat hpos hlt
  generalize ht : trimBlanks (nameBytes e) = t at hname
  have hbyte : ∀ j ≤ s.length, path j = s.getD j 0 := by
    intro j hj
    have hj' := hat.spells j hj
    rwa [Nat.zero_add] at hj'
  rw [h.pathDown_eq e hs ht, Fat.pathDown, ← hbyte (s.length - 1) (by omega)]
  by_cases hroom : s.length + t.length + 2 < 256
  · rw [if_pos hroom, if_pos hroom]
    by_cases hslash : 1 < s.length ∧ path (s.length - 1) ≠ 47
    · have hfront := getD_concat (fun j hj => hbyte j hj.le) 47
      have hnonzero : ∀ c ∈ s ++ [47], c ≠ 0 := by
        intro c hc
        obtain hc | hc := List.mem_append.mp hc
        · exact hat.nonzero c hc
        · rw [List.mem_singleton.mp hc]
          decide
      obtain ⟨path', hrun, hat'⟩ := forget_appendName hfront hnonzero hname
      rw [List.append_assoc, List.singleton_append] at hat'
      rw [List.length_append, List.length_singleton] at hrun
      rw [if_pos hslash, if_pos hslash]
      exact ⟨path', hrun, hat'.stringIn_eq (by rw [List.length_append, List.length_cons]; omega)⟩
    · rw [if_neg hslash, if_neg hslash]
      obtain ⟨path', hrun, hat'⟩ := forget_appendName (fun j hj => hbyte j hj.le) hat.nonzero hname
      exact ⟨path', hrun, hat'.stringIn_eq (by rw [List.length_append]; omega)⟩
  · rw [if_neg hroom, if_neg hroom]
    exact ⟨path, rfl, hs⟩

theorem forget_updatePath (h : Sound path) (dirname : List UInt8) (e : DirEntry) :
    ∃ path', forget (updatePath path dirname e) = (pure path' : Kernel Memory) ∧
      stringIn path' 0 256 = Fat.changedPath (stringIn path 0 256) dirname e := by
  rw [updatePath, Fat.changedPath]
  split_ifs
  · exact forget_pathUp h
  · exact ⟨path, rfl, rfl⟩
  · exact forget_pathDown h e

/-- **The tie.**  Without its remarks, and with the path read as a string, the code on the bytes is the function
on strings. -/
theorem forget_fatChangeDir (h : Sound path) {g : Globals} (hg : g.currentPath = stringIn path 0 256) (fuel : ℕ)
    (dirname : List UInt8) :
    (do
      let r ← forget (fatChangeDir g fuel path dirname)
      pure { r.1 with currentPath := stringIn r.2 0 256 }) = Fat.fatChangeDir g fuel dirname := by
  have hkept : { g with currentPath := stringIn path 0 256 } = g := by rw [← hg]
  have hprint : ∀ message, (do
      let r ← forget (do lift (kprint message); pure (g, path) : PathCode (Globals × Memory))
      pure { r.1 with currentPath := stringIn r.2 0 256 }) = (do kprint message; pure g : Kernel Globals) := by
    intro message
    rw [forget_bind, forget_lift, bind_bind]
    exact congrArg (Program.bind (kprint message)) (funext fun _ => congrArg Program.ret hkept)
  rw [fatChangeDir, Fat.fatChangeDir]
  split
  · exact hprint _
  · rw [forget_bind, forget_lift, bind_bind]
    refine congrArg (Program.bind (fatFindFile g fuel dirname)) (funext fun found => ?_)
    cases found with
    | none => exact hprint _
    | some e =>
      dsimp only
      split
      · obtain ⟨path', hrun, hpath⟩ := forget_updatePath h dirname e
        rw [forget_bind, forget_lift, bind_bind]
        refine congrArg (Program.bind (kprint _)) (funext fun _ => ?_)
        rw [forget_bind, hrun, bind_bind]
        show Program.ret _ = Program.ret _
        rw [hpath, ← hg]
        rfl
      · exact hprint _

/-- **The calls return the same**: whatever the disk answers, on the bytes and on the string. -/
theorem mayReturn_fatChangeDir_iff {A : (o : Call) → o.Res → Prop} (h : Sound path) {g g' : Globals}
    (hg : g.currentPath = stringIn path 0 256) {fuel : ℕ} {dirname : List UInt8} :
    MayReturn A (Fat.fatChangeDir g fuel dirname) g' ↔
      ∃ r, MayReturn (notedAnswers A) (fatChangeDir g fuel path dirname) r ∧
        { r.1 with currentPath := stringIn r.2 0 256 } = g' := by
  rw [← forget_fatChangeDir h hg, mayReturn_bind]
  exact exists_congr fun r => and_congr mayReturn_forget Iff.rfl

end Strings

/-! ### Every run -/

/-- The path as its readers need it: a slash first, and a NUL inside the array. -/
def IsPath (path : Memory) : Prop := path 0 = 47 ∧ ∃ i < 256, path i = 0

theorem Sound.isPath {path : Memory} (h : Sound path) : IsPath path := ⟨h.slash, 255, by decide, h.nul⟩

/-- **The buffer is safe.**  Through any calls of `fat_change_dir`, with any names and whatever is read from the
disk, every store to the path is inside the array and leaves a path, the search for a slash finds one, and no
`strlen` runs out of its array. -/
theorem path_buffer_safe (behind : Memory) (calls : List Invocation) :
    (∀ path index value, MayNote anyAnswer (fatChangeDirs calls (initialPath behind)) (.store path index value) →
      index < 256 ∧ IsPath path ∧ IsPath (Function.update path index value)) ∧
    (∀ found, MayNote anyAnswer (fatChangeDirs calls (initialPath behind)) (.searched found) →
      ∃ i, found = some i) ∧
    ¬ MayNote anyAnswer (fatChangeDirs calls (initialPath behind)) .unterminated ∧
    ∀ path, MayReturn (notedAnswers anyAnswer) (fatChangeDirs calls (initialPath behind)) path → IsPath path := by
  obtain ⟨hnotes, hreturns⟩ := warrants_fatChangeDirs (A := anyAnswer) (sound_initialPath behind) calls
  refine ⟨?_, ?_, ?_, ?_⟩
  · intro path index value hnote
    obtain ⟨hsound, h0, hlt⟩ := hnotes _ hnote
    exact ⟨by omega, hsound.isPath, (hsound.update h0 hlt value).isPath⟩
  · exact fun found hnote => hnotes _ hnote
  · exact fun hnote => hnotes _ hnote
  · exact fun path hpath => (hreturns path hpath).isPath

end OsEojin.PathBuffer
