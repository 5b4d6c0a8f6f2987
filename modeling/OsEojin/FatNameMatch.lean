import OsEojin.FatListing
import OsEojin.FatPath
import OsEojin.FatCreate
import Mathlib.Data.List.GetD

/-!
# Names as they are listed and as they are looked up

`fat_list` trims the blanks of `name` and `ext` from the right; `fat_filename_match` copies both up to the
first blank from the left, into an array of 12 bytes on its stack.

* `RightPadded`: a field whose blanks all stand at its end;
* `lookup_agrees_with_listing_iff`: then, and only then, the listed name is the one that is found;
* `matchRun`: `fat_filename_match` with its accesses to the array;
* `lookup_stays_inside_iff`: when they stay inside.
-/

namespace OsEojin.Fat

open OsEojin.Lib.Programs OsEojin.Lib.Programs.Program OsEojin.Ata

variable {e : DirEntry} {bytes : List UInt8}

/-! ### Two ways to trim -/

/-- No blank stands in front of a byte that is none. -/
def RightPadded (bytes : List UInt8) : Prop := ∀ c ∈ bytes.dropWhile fun c => c != 32, c = 32

instance : DecidablePred RightPadded := fun bytes =>
  inferInstanceAs (Decidable (∀ c ∈ bytes.dropWhile fun c => c != 32, c = 32))

theorem blank_notMem_beforeBlank (bytes : List UInt8) : 32 ∉ beforeBlank bytes := by
  intro hmem
  have hne := List.mem_takeWhile_imp hmem
  exact absurd hne (by decide)

theorem rightPadded_of_no_blank (h : 32 ∉ bytes) : RightPadded bytes := by
  have hdrop : bytes.dropWhile (fun c => c != 32) = [] := by
    rw [List.dropWhile_eq_nil_iff]
    intro c hc
    rw [bne_iff_ne]
    rintro rfl
    exact h hc
  rw [RightPadded, hdrop]
  exact fun c hc => absurd hc List.not_mem_nil

theorem beforeBlank_append (bytes : List UInt8) :
    beforeBlank bytes ++ bytes.dropWhile (fun c => c != 32) = bytes :=
  List.takeWhile_append_dropWhile

/-- On a right-padded field both ways agree. -/
theorem RightPadded.trim_eq (h : RightPadded bytes) :
    bytes.rdropWhile (fun c => c == 32) = beforeBlank bytes := by
  calc bytes.rdropWhile (fun c => c == 32)
      = (beforeBlank bytes ++ bytes.dropWhile fun c => c != 32).rdropWhile (fun c => c == 32) := by
        rw [beforeBlank_append]
    _ = (beforeBlank bytes).rdropWhile (fun c => c == 32) := rdropWhile_append_blanks _ h
    _ = beforeBlank bytes := rdropWhile_of_no_blank (blank_notMem_beforeBlank bytes)

/-- On any other field trimming from the right leaves a blank. -/
theorem blank_mem_trim (h : ¬ RightPadded bytes) : 32 ∈ bytes.rdropWhile fun c => c == 32 := by
  by_contra hnone
  apply h
  have hsplit : bytes.rdropWhile (fun c => c == 32) ++ bytes.rtakeWhile (fun c => c == 32) = bytes :=
    List.rdropWhile_append_rtakeWhile
  have hblanks : ∀ c ∈ bytes.rtakeWhile (fun c => c == 32), c = 32 := by
    intro c hc
    exact beq_iff_eq.mp (List.mem_rtakeWhile_imp (p := fun b : UInt8 => b == 32) hc)
  intro c hc
  rw [← hsplit, List.dropWhile_append_of_pos] at hc
  · exact hblanks c ((List.dropWhile_sublist _).subset hc)
  · intro b hb
    rw [bne_iff_ne]
    rintro rfl
    exact hnone hb

/-- Trimming a field without NULs. -/
theorem trimBlanks_eq (h : ∀ c ∈ bytes, c ≠ 0) : trimBlanks bytes = bytes.rdropWhile fun c => c == 32 := by
  rw [trimBlanks, cString, List.takeWhile_eq_self_iff]
  intro c hc
  have hfront : (bytes.rdropWhile fun c => c == 32) <+: bytes := List.rdropWhile_prefix ..
  exact bne_iff_ne.mpr (h c (hfront.subset hc))

/-! ### The two names of an entry -/

/-- Neither field of the entry holds a NUL. -/
def NoNul (e : DirEntry) : Prop := ∀ c ∈ nameBytes e ++ extBytes e, c ≠ 0

instance : DecidablePred NoNul := fun e => inferInstanceAs (Decidable (∀ c ∈ nameBytes e ++ extBytes e, c ≠ 0))

theorem NoNul.name (h : NoNul e) : ∀ c ∈ nameBytes e, c ≠ 0 := fun c hc => h c (List.mem_append_left _ hc)

theorem NoNul.ext (h : NoNul e) : ∀ c ∈ extBytes e, c ≠ 0 := fun c hc => h c (List.mem_append_right _ hc)

theorem beforeBlank_ext_eq_nil : beforeBlank (extBytes e) = [] ↔ e.ext 0 = 32 := by
  show List.takeWhile (fun c => c != 32) [e.ext 0, e.ext 1, e.ext 2] = [] ↔ _
  rw [List.takeWhile_cons]
  by_cases h : e.ext 0 = 32
  · simp [h]
  · simp [h]

/-- With both fields right-padded the listed name is the one put together for the comparison. -/
theorem displayName_eq_matchTemp (hnul : NoNul e) (hname : RightPadded (nameBytes e))
    (hext : RightPadded (extBytes e)) : displayName e = matchTemp e := by
  rw [displayName, matchTemp, trimBlanks_eq hnul.name, trimBlanks_eq hnul.ext, hname.trim_eq, hext.trim_eq]
  by_cases h : e.ext 0 = 32
  · rw [if_pos h, if_pos (beforeBlank_ext_eq_nil.mpr h)]
  · rw [if_neg h, if_neg fun hnil => h (beforeBlank_ext_eq_nil.mp hnil)]

/-- With a blank inside a field the listed name has that blank. -/
theorem blank_mem_displayName (hnul : NoNul e)
    (h : ¬ (RightPadded (nameBytes e) ∧ RightPadded (extBytes e))) : 32 ∈ displayName e := by
  rw [displayName, List.mem_append, trimBlanks_eq hnul.name, trimBlanks_eq hnul.ext]
  by_cases hname : RightPadded (nameBytes e)
  · have hmem := blank_mem_trim fun hext => h ⟨hname, hext⟩
    rw [if_neg (List.ne_nil_of_mem hmem)]
    exact Or.inr (List.mem_cons_of_mem 46 hmem)
  · exact Or.inl (blank_mem_trim hname)

/-- The name put together for the comparison never has one. -/
theorem blank_notMem_matchTemp (e : DirEntry) : 32 ∉ matchTemp e := by
  rw [matchTemp, List.mem_append]
  rintro (hname | hext)
  · exact blank_notMem_beforeBlank _ hname
  · split at hext
    · cases hext
    · cases List.mem_cons.mp hext with
      | inl hdot => cases hdot
      | inr hext => exact blank_notMem_beforeBlank _ hext

theorem cString_matchTemp (hnul : NoNul e) : cString (matchTemp e) = matchTemp e := by
  rw [cString, List.takeWhile_eq_self_iff]
  intro c hc
  rw [bne_iff_ne]
  rw [matchTemp, List.mem_append] at hc
  rcases hc with hname | hext
  · exact hnul.name c ((List.takeWhile_sublist _).subset hname)
  · split at hext
    · cases hext
    · cases List.mem_cons.mp hext with
      | inl hdot =>
        rw [hdot]
        decide
      | inr hext => exact hnul.ext c ((List.takeWhile_sublist _).subset hext)

theorem beforeBlank_length_le (bytes : List UInt8) : (beforeBlank bytes).length ≤ bytes.length :=
  (List.takeWhile_prefix _).length_le

/-- A field loses bytes exactly when it has a blank. -/
theorem beforeBlank_length_lt_iff (bytes : List UInt8) :
    (beforeBlank bytes).length < bytes.length ↔ 32 ∈ bytes := by
  constructor
  · intro hlt
    by_contra hnone
    have hself : beforeBlank bytes = bytes := by
      rw [beforeBlank, List.takeWhile_eq_self_iff]
      intro c hc
      rw [bne_iff_ne]
      rintro rfl
      exact hnone hc
    rw [hself] at hlt
    exact lt_irrefl _ hlt
  · intro hmem
    refine lt_of_le_of_ne (beforeBlank_length_le bytes) fun hlen => ?_
    have hself : beforeBlank bytes = bytes := (List.takeWhile_prefix _).eq_of_length hlen
    rw [← hself] at hmem
    exact blank_notMem_beforeBlank bytes hmem

theorem matchTemp_length_le (e : DirEntry) : (matchTemp e).length ≤ 12 := by
  have hname8 : (beforeBlank (nameBytes e)).length ≤ 8 := beforeBlank_length_le (nameBytes e)
  have hext3 : (beforeBlank (extBytes e)).length ≤ 3 := beforeBlank_length_le (extBytes e)
  rw [matchTemp, List.length_append]
  split
  · rw [List.length_nil]
    omega
  · rw [List.length_cons]
    omega

/-- **The longest name** is the one without a blank: it takes all twelve bytes, and its NUL one more. -/
theorem matchTemp_length_lt_iff (e : DirEntry) :
    (matchTemp e).length < 12 ↔ 32 ∈ nameBytes e ++ extBytes e := by
  have hname := beforeBlank_length_lt_iff (nameBytes e)
  have hext := beforeBlank_length_lt_iff (extBytes e)
  have hname8 := beforeBlank_length_le (nameBytes e)
  have hext3 := beforeBlank_length_le (extBytes e)
  rw [show (nameBytes e).length = 8 from rfl] at hname hname8
  rw [show (extBytes e).length = 3 from rfl] at hext hext3
  rw [List.mem_append, ← hname, ← hext, matchTemp, List.length_append]
  by_cases h : e.ext 0 = 32
  · rw [if_pos h, List.length_nil, beforeBlank_ext_eq_nil.mpr h, List.length_nil]
    omega
  · rw [if_neg h, List.length_cons]
    omega

/-- The console after one line of `fat_list`: the listed name, the mark of a directory, the size. -/
theorem listed_text (junk : Sector) (d : Disk) (e : DirEntry) :
    ((listEntry e).run (console junk) ⟨d, []⟩).map (fun r => r.2.messages.reverse.flatten) =
      some (displayName e ++ (if isDirectory e then text "/" else []) ++ text "        " ++
        hexToAscii e.fileSize ++ text "\n") := by
  rw [run_listEntry, Option.map_some, List.append_nil, List.reverse_reverse, entryLine, displayName]
  by_cases hext : trimBlanks (extBytes e) = []
  · cases isDirectory e <;> simp [hext]
  · cases isDirectory e <;> simp [hext, text]

/-- **Lookup and listing agree on names** exactly where no blank stands inside a field and one stands at an end:
then a string names the entry when it is the listed name up to case. -/
theorem lookup_agrees_with_listing_iff (e : DirEntry) (hnul : NoNul e) :
    (∀ input, fatFilenameMatch e input = true ↔
        (cString input).map toUpper = (displayName e).map toUpper) ↔
      RightPadded (nameBytes e) ∧ RightPadded (extBytes e) ∧ 32 ∈ nameBytes e ++ extBytes e := by
  have hmatch : (matchTemp e).length < 12 → ∀ input, fatFilenameMatch e input = true ↔
      (cString input).map toUpper = (matchTemp e).map toUpper := by
    intro hlt input
    rw [fatFilenameMatch_of_lt (by rwa [cString_matchTemp hnul]), roomyMatch, matchLoop_iff,
      cString_matchTemp hnul, eq_comm]
  have hself : (cString (matchTemp e)).map toUpper = (matchTemp e).map toUpper := by
    rw [cString_matchTemp hnul]
  rw [← matchTemp_length_lt_iff]
  constructor
  · intro hagree
    by_cases hlt : (matchTemp e).length < 12
    · by_contra hinner
      -- the name put together for the comparison names the entry, but it is not the listed one
      have hlisted := (hagree (matchTemp e)).mp ((hmatch hlt _).mpr hself)
      rw [hself] at hlisted
      have hmem : 32 ∈ (displayName e).map toUpper :=
        List.mem_map.mpr ⟨32, blank_mem_displayName hnul fun h => hinner ⟨h.1, h.2, hlt⟩, rfl⟩
      rw [← hlisted] at hmem
      obtain ⟨c, hc, hupper⟩ := List.mem_map.mp hmem
      obtain rfl := (toUpper_eq_iff (by decide) (by decide)).mp hupper
      exact blank_notMem_matchTemp e hc
    · -- the listed name has twelve characters, and no word of twelve is found
      have hnone := mt (matchTemp_length_lt_iff e).mpr hlt
      rw [List.mem_append, not_or] at hnone
      have hlisted := displayName_eq_matchTemp hnul (rightPadded_of_no_blank hnone.1)
        (rightPadded_of_no_blank hnone.2)
      have hfound := (hagree (matchTemp e)).mpr (by rw [hself, hlisted])
      rw [fatFilenameMatch_twelve] at hfound
      · cases hfound
      · have hle := matchTemp_length_le e
        rw [cString_matchTemp hnul]
        omega
  · rintro ⟨hname, hext, hlt⟩ input
    rw [hmatch hlt, displayName_eq_matchTemp hnul hname hext]

/-- The entry of a file `KERNEL.BIN`. -/
theorem lookup_agrees_kernel_bin :
    fatFilenameMatch (fillEntry (fun _ => 0) (text "kernel.bin") 0x20 2 512) (text "Kernel.Bin") = true :=
  ((lookup_agrees_with_listing_iff (fillEntry (fun _ => 0) (text "kernel.bin") 0x20 2 512)
    (by decide +kernel)).mpr (by decide +kernel) _).mpr (by decide +kernel)

/-- **The entry that `fat_create_entry` writes for `a b`** is listed as `A B`; that name does not find it, and
`A` does. -/
theorem inner_blank_not_found :
    ¬ ∀ e, NoNul e → ∀ input, fatFilenameMatch e input = true ↔
      (cString input).map toUpper = (displayName e).map toUpper := by
  intro hagree
  have hlisted := (hagree (fillEntry (fun _ => 0) (text "a b") 0x20 2 512) (by decide +kernel) (text "A B")).mpr
    (by decide +kernel)
  exact absurd hlisted (by decide +kernel)

/-! ### The array `temp` -/

/-- An access to the array `temp`. -/
inductive TempAccess
  | write (index : ℕ) (value : UInt8)
  | read (index : ℕ)

/-- The locals of `fat_filename_match`: memory from `temp` on, and `idx`; with the accesses made to `temp`.  As the
kernel is built, the array is followed by `c2` and `c1` of the comparison and by its counter. -/
structure MatchState where
  temp : ℕ → UInt8
  idx : ℕ
  accesses : List TempAccess

/-- `temp[idx] = c`. -/
def MatchState.store (s : MatchState) (c : UInt8) : MatchState :=
  { s with temp := Function.update s.temp s.idx c, accesses := s.accesses ++ [.write s.idx c] }

/-- `temp[idx++] = c`. -/
def MatchState.push (s : MatchState) (c : UInt8) : MatchState := { s.store c with idx := s.idx + 1 }

/-- `temp[i]` is read. -/
def MatchState.read (s : MatchState) (i : ℕ) : MatchState := { s with accesses := s.accesses ++ [.read i] }

/-- The counter of the comparison is set: four bytes from `temp[14]` on. -/
def MatchState.setCounter (s : MatchState) (i : ℕ) : MatchState :=
  { s with temp := fun j => if 14 ≤ j ∧ j < 18 then UInt8.ofNat (i / 256 ^ (j - 14)) else s.temp j }

/-- `c1` and `c2` are set. -/
def MatchState.setChars (s : MatchState) (c1 c2 : UInt8) : MatchState :=
  { s with temp := Function.update (Function.update s.temp 13 c1) 12 c2 }

/-- The loop that copies `name`, and the one that copies `ext`: up to the first blank. -/
def copyField : List UInt8 → MatchState → MatchState
  | [], s => s
  | c :: cs, s => if c = 32 then s else copyField cs (s.push c)

/-- `temp` is filled. -/
def fillTemp (e : DirEntry) (s : MatchState) : MatchState :=
  let s := copyField (nameBytes e) s
  let s := if e.ext 0 = 32 then s else copyField (extBytes e) (s.push 46)
  s.store 0

/-- The comparison loop from index `i` on, with the rest of `input`. -/
def compareLoop : List UInt8 → ℕ → MatchState → Bool × MatchState
  | [], i, s =>
    let s := s.setCounter i
    -- read by the condition of the loop, and by the `return` behind it
    (s.temp i == 0, (s.read i).read i)
  | b :: bs, i, s =>
    let s := s.setCounter i
    if s.temp i = 0 then (false, (s.read i).read i)
    else
      let c1 := toUpper (s.temp i)
      let c2 := toUpper b
      let s := ((s.read i).read i).setChars c1 c2
      if c1 = c2 then compareLoop bs (i + 1) s else (false, s)

/-- `fat_filename_match` with its accesses to `temp`; `junk` is what the array held before. -/
def matchRun (junk : ℕ → UInt8) (e : DirEntry) (input : List UInt8) : Bool × MatchState :=
  compareLoop (cString input) 0 (fillTemp e ⟨junk, 0, []⟩)

/-! ### What the array holds -/

section Temp

variable {s : MatchState} {cs : List UInt8}

/-- The stores of a list of bytes from index `i` on. -/
def tempWrites (cs : List UInt8) (i : ℕ) : List TempAccess := (cs.zipIdx i).map fun p => .write p.2 p.1

theorem foldl_push_idx (cs : List UInt8) (s : MatchState) : (cs.foldl MatchState.push s).idx = s.idx + cs.length := by
  induction cs generalizing s with
  | nil => rfl
  | cons c cs ih =>
    rw [List.foldl_cons, ih, List.length_cons, MatchState.push]
    dsimp only
    omega

theorem foldl_push_accesses (cs : List UInt8) (s : MatchState) :
    (cs.foldl MatchState.push s).accesses = s.accesses ++ tempWrites cs s.idx := by
  induction cs generalizing s with
  | nil => exact (List.append_nil _).symm
  | cons c cs ih =>
    rw [List.foldl_cons, ih, MatchState.push, MatchState.store, List.append_assoc]
    rfl

theorem foldl_push_temp (cs : List UInt8) (s : MatchState) (j : ℕ) :
    (cs.foldl MatchState.push s).temp j =
      if s.idx ≤ j ∧ j < s.idx + cs.length then cs.getD (j - s.idx) 0 else s.temp j := by
  induction cs generalizing s with
  | nil =>
    rw [List.foldl_nil, List.length_nil, if_neg (by omega)]
  | cons c cs ih =>
    rw [List.foldl_cons, ih, List.length_cons]
    show (if s.idx + 1 ≤ j ∧ j < s.idx + 1 + cs.length then cs.getD (j - (s.idx + 1)) 0
      else Function.update s.temp s.idx c j) = _
    by_cases hj : j = s.idx
    · rw [if_neg (by omega), if_pos (by omega), hj, Function.update_self, Nat.sub_self, List.getD_cons_zero]
    · rw [Function.update_of_ne hj]
      by_cases hin : s.idx + 1 ≤ j ∧ j < s.idx + 1 + cs.length
      · rw [if_pos hin, if_pos (by omega), show j - s.idx = j - (s.idx + 1) + 1 from by omega,
          List.getD_cons_succ]
      · rw [if_neg hin, if_neg (by omega)]

theorem copyField_eq (bytes : List UInt8) (s : MatchState) :
    copyField bytes s = (beforeBlank bytes).foldl MatchState.push s := by
  induction bytes generalizing s with
  | nil => rfl
  | cons c cs ih =>
    rw [copyField, beforeBlank, List.takeWhile_cons]
    by_cases hc : c = 32
    · simp [hc]
    · rw [if_neg hc, if_pos (bne_iff_ne.mpr hc), ih]
      rfl

/-- **The array is filled with the name put together**, and a NUL behind it. -/
theorem fillTemp_eq (e : DirEntry) (s : MatchState) :
    fillTemp e s = ((matchTemp e).foldl MatchState.push s).store 0 := by
  rw [fillTemp, matchTemp, List.foldl_append, copyField_eq, copyField_eq]
  split <;> rfl

variable (junk : ℕ → UInt8) (e : DirEntry)

theorem fillTemp_temp {j : ℕ} (hj : j ≤ (matchTemp e).length) :
    (fillTemp e ⟨junk, 0, []⟩).temp j = (matchTemp e).getD j 0 := by
  rw [fillTemp_eq, MatchState.store]
  dsimp only
  rw [foldl_push_idx, Nat.zero_add]
  rcases Nat.eq_or_lt_of_le hj with rfl | hlt
  · rw [Function.update_self, List.getD_eq_default _ _ le_rfl]
  · rw [Function.update_of_ne (by omega), foldl_push_temp, if_pos (by dsimp only; omega)]
    rfl

theorem fillTemp_accesses :
    (fillTemp e ⟨junk, 0, []⟩).accesses = tempWrites (matchTemp e ++ [0]) 0 := by
  rw [fillTemp_eq, MatchState.store]
  dsimp only
  rw [foldl_push_idx, foldl_push_accesses, List.nil_append, tempWrites, tempWrites, List.zipIdx_append,
    List.map_append]
  rfl

end Temp

/-! ### What the comparison reads -/

section Compare

variable {t : List UInt8} {s : MatchState} {i : ℕ}

/-- The C string from a place that holds a NUL, or the list's end. -/
theorem cString_drop_nul (h : t.getD i 0 = 0) : cString (t.drop i) = [] := by
  rcases Nat.lt_or_ge i t.length with hlt | hge
  · rw [List.getD_eq_getElem _ _ hlt] at h
    rw [List.drop_eq_getElem_cons hlt, h]
    rfl
  · rw [List.drop_eq_nil_of_le hge]
    rfl

/-- A C string ends at a NUL, or with the list. -/
theorem getD_cString_length (t : List UInt8) : t.getD (cString t).length 0 = 0 := by
  induction t with
  | nil => rfl
  | cons c t ih =>
    by_cases hc : c = 0
    · rw [hc]
      rfl
    · rw [cString, List.takeWhile_cons, if_pos (bne_iff_ne.mpr hc), List.length_cons, List.getD_cons_succ]
      exact ih

/-- The C string from a place that holds anything else. -/
theorem cString_drop_cons (h : t.getD i 0 ≠ 0) :
    i < t.length ∧ cString (t.drop i) = t.getD i 0 :: cString (t.drop (i + 1)) := by
  have hlt : i < t.length := by
    by_contra hge
    exact h (List.getD_eq_default _ _ (Nat.le_of_not_lt hge))
  refine ⟨hlt, ?_⟩
  rw [List.getD_eq_getElem _ _ hlt] at h ⊢
  rw [List.drop_eq_getElem_cons hlt, cString, List.takeWhile_cons, if_pos (bne_iff_ne.mpr h)]
  rfl

/-- The counter and the two characters are behind the array. -/
theorem setCounter_temp (s : MatchState) (i : ℕ) {j : ℕ} (hj : j < 14) : (s.setCounter i).temp j = s.temp j :=
  if_neg (by omega)

theorem setChars_temp (s : MatchState) (c1 c2 : UInt8) {j : ℕ} (hj : j < 12) :
    (s.setChars c1 c2).temp j = s.temp j := by
  rw [MatchState.setChars]
  dsimp only
  rw [Function.update_of_ne (by omega), Function.update_of_ne (by omega)]

/-- One round: both strings go on, and the characters agree. -/
theorem compareLoop_cons (b : UInt8) (bs : List UInt8) (i : ℕ) (s : MatchState) :
    compareLoop (b :: bs) i s =
      if (s.setCounter i).temp i = 0 then (false, ((s.setCounter i).read i).read i)
      else if toUpper ((s.setCounter i).temp i) = toUpper b then
        compareLoop bs (i + 1)
          ((((s.setCounter i).read i).read i).setChars (toUpper ((s.setCounter i).temp i)) (toUpper b))
      else
        (false, (((s.setCounter i).read i).read i).setChars (toUpper ((s.setCounter i).temp i)) (toUpper b)) :=
  rfl

/-- The end of the input: so must the name's be. -/
theorem compareLoop_nil (i : ℕ) (s : MatchState) :
    (compareLoop [] i s).1 = ((s.setCounter i).temp i == 0) := rfl

/-- One round leaves the array alone. -/
theorem next_temp (s : MatchState) (i : ℕ) (c1 c2 : UInt8) {j : ℕ} (hj : j < 12) :
    ((((s.setCounter i).read i).read i).setChars c1 c2).temp j = s.temp j := by
  rw [setChars_temp _ _ _ hj]
  exact setCounter_temp s i (by omega)

/-- With a list and a NUL in the array the loop compares the list as a C string. -/
theorem compareLoop_result (bs : List UInt8) {k : ℕ} (hk : k < 12) (hnul : t.getD k 0 = 0)
    (htemp : ∀ j ≤ k, s.temp j = t.getD j 0) (hi : i ≤ k) :
    (compareLoop bs i s).1 = matchLoop (cString (t.drop i)) bs := by
  induction bs generalizing i s with
  | nil =>
    rw [compareLoop_nil, setCounter_temp s i (by omega), htemp i hi]
    by_cases h : t.getD i 0 = 0
    · rw [cString_drop_nul h, h]
      rfl
    · rw [(cString_drop_cons h).2]
      exact beq_false_of_ne h
  | cons b bs ih =>
    rw [compareLoop_cons, setCounter_temp s i (by omega), htemp i hi]
    by_cases h : t.getD i 0 = 0
    · rw [if_pos h, cString_drop_nul h]
      rfl
    · obtain ⟨-, hcons⟩ := cString_drop_cons h
      have hne : i ≠ k := by
        rintro rfl
        exact h hnul
      rw [if_neg h, hcons, matchLoop]
      split
      · exact ih (fun j hj => (next_temp s i _ _ (by omega)).trans (htemp j hj)) (by omega)
      · rfl

/-- The second byte of the counter ends the comparison. -/
theorem compareLoop_fifteen (bs : List UInt8) (s : MatchState) : (compareLoop bs 15 s).1 = bs.isEmpty := by
  have hcounter : (s.setCounter 15).temp 15 = 0 := rfl
  cases bs with
  | nil =>
    rw [compareLoop_nil, hcounter]
    rfl
  | cons b bs =>
    rw [compareLoop_cons, if_pos hcounter]
    rfl

/-- Its first byte is compared. -/
theorem compareLoop_fourteen (bs : List UInt8) (s : MatchState) :
    (compareLoop bs 14 s).1 = true ↔ ∃ z, bs = [z] ∧ toUpper z = 14 := by
  have hcounter : (s.setCounter 14).temp 14 = 14 := rfl
  have hupper : toUpper 14 = 14 := by decide
  cases bs with
  | nil =>
    rw [compareLoop_nil, hcounter]
    simp
  | cons z bs =>
    rw [compareLoop_cons, hcounter, if_neg (by decide), hupper]
    split
    · rename_i hz
      rw [compareLoop_fifteen, List.isEmpty_iff]
      constructor
      · rintro rfl
        exact ⟨z, rfl, hz.symm⟩
      · rintro ⟨z', heq, -⟩
        exact (List.cons.inj heq).2
    · rename_i hz
      refine iff_of_false (by simp) ?_
      rintro ⟨z', heq, hz'⟩
      rw [(List.cons.inj heq).1, hz'] at hz
      exact hz rfl

section Behind

variable {last : UInt8} (hlast : last ≠ 0) (hupper : toUpper last = last)
include hlast hupper

/-- `temp[13]` is `c1`, which stays. -/
theorem compareLoop_thirteen (bs : List UInt8) (s : MatchState) (h13 : s.temp 13 = last) :
    (compareLoop bs 13 s).1 = true ↔ ∃ y z, bs = [y, z] ∧ toUpper y = last ∧ toUpper z = 14 := by
  have htemp : (s.setCounter 13).temp 13 = last := (setCounter_temp s 13 (by decide)).trans h13
  cases bs with
  | nil =>
    rw [compareLoop_nil, htemp]
    simp [hlast]
  | cons y bs =>
    rw [compareLoop_cons, htemp, if_neg hlast, hupper]
    split
    · rename_i hy
      rw [compareLoop_fourteen]
      constructor
      · rintro ⟨z, rfl, hz⟩
        exact ⟨y, z, rfl, hy.symm, hz⟩
      · rintro ⟨y', z, heq, -, hz⟩
        exact ⟨z, (List.cons.inj heq).2, hz⟩
    · rename_i hy
      refine iff_of_false (by simp) ?_
      rintro ⟨y', z, heq, hy', -⟩
      rw [(List.cons.inj heq).1, hy'] at hy
      exact hy rfl

/-- **Behind a full name** the loop goes on with the last character, twice, and with its own counter. -/
theorem compareLoop_twelve (bs : List UInt8) (s : MatchState) (h12 : s.temp 12 = last) :
    (compareLoop bs 12 s).1 = matchBehind last bs := by
  have hkept : ∀ (s : MatchState) (c2 : UInt8), (s.setChars last c2).temp 13 = last := by
    intro s c2
    rw [MatchState.setChars]
    dsimp only
    rw [Function.update_of_ne (by decide), Function.update_self]
  have htemp : (s.setCounter 12).temp 12 = last := (setCounter_temp s 12 (by decide)).trans h12
  have hbehind : matchBehind last bs = true ↔
      ∃ x y z, bs = [x, y, z] ∧ toUpper x = last ∧ toUpper y = last ∧ toUpper z = 14 := by
    unfold matchBehind
    split
    · simp [and_assoc]
    · rename_i hne
      refine iff_of_false (by simp) ?_
      rintro ⟨x, y, z, rfl, -⟩
      exact hne x y z rfl
  rw [Bool.eq_iff_iff, hbehind]
  cases bs with
  | nil =>
    rw [compareLoop_nil, htemp]
    simp [hlast]
  | cons x bs =>
    rw [compareLoop_cons, htemp, if_neg hlast, hupper]
    split
    · rename_i hx
      rw [compareLoop_thirteen hlast hupper _ _ (hkept _ _)]
      constructor
      · rintro ⟨y, z, rfl, hy, hz⟩
        exact ⟨x, y, z, rfl, hx.symm, hy, hz⟩
      · rintro ⟨x', y, z, heq, -, hy, hz⟩
        exact ⟨y, z, (List.cons.inj heq).2, hy, hz⟩
    · rename_i hx
      refine iff_of_false (by simp) ?_
      rintro ⟨x', y, z, heq, hx', -⟩
      rw [(List.cons.inj heq).1, hx'] at hx
      exact hx rfl

end Behind

/-- A full name in the array: its characters, then what is behind them. -/
theorem compareLoop_full (bs : List UInt8) (hlength : t.length = 12) (hnul : ∀ c ∈ t, c ≠ 0)
    (htemp : ∀ j < 12, s.temp j = t.getD j 0) (hi : i ≤ 12)
    (h12 : i = 12 → s.temp 12 = toUpper (t.getD 11 0)) :
    (compareLoop bs i s).1 =
      (matchLoop (t.drop i) (bs.take (12 - i)) && matchBehind (toUpper (t.getD 11 0)) (bs.drop (12 - i))) := by
  have hmem : ∀ j < 12, t.getD j 0 ≠ 0 := by
    intro j hj
    rw [List.getD_eq_getElem _ _ (by omega)]
    exact hnul _ (List.getElem_mem _)
  induction bs generalizing i s with
  | nil =>
    rcases Nat.eq_or_lt_of_le hi with rfl | hlt
    · rw [compareLoop_twelve (toUpper_ne (hmem 11 (by decide)) (Or.inl (by decide))) (toUpper_toUpper _) [] s
        (h12 rfl), List.drop_eq_nil_of_le (by omega)]
      rfl
    · rw [compareLoop_nil, setCounter_temp s i (by omega), htemp i hlt, beq_false_of_ne (hmem i hlt),
        List.drop_eq_getElem_cons (by omega), List.take_nil]
      rfl
  | cons b bs ih =>
    rcases Nat.eq_or_lt_of_le hi with rfl | hlt
    · rw [compareLoop_twelve (toUpper_ne (hmem 11 (by decide)) (Or.inl (by decide))) (toUpper_toUpper _) _ s
        (h12 rfl), List.drop_eq_nil_of_le (by omega)]
      rfl
    · have hcut : 12 - i = 12 - (i + 1) + 1 := by omega
      have hcons : t.drop i = t.getD i 0 :: t.drop (i + 1) := by
        rw [List.drop_eq_getElem_cons (by omega), List.getD_eq_getElem _ _ (by omega)]
      rw [compareLoop_cons, setCounter_temp s i (by omega), htemp i hlt, if_neg (hmem i hlt), hcons, hcut,
        List.take_succ_cons, List.drop_succ_cons, matchLoop]
      split
      · refine ih (fun j hj => (next_temp s i _ _ hj).trans (htemp j hj)) hlt ?_
        -- `c1` of the last character is what stands behind the array
        intro hlast
        obtain rfl : i = 11 := by omega
        rename_i hupper
        rw [MatchState.setChars, hupper]
        dsimp only
        rw [Function.update_self]
      · rfl

theorem read_twice (s : MatchState) (i : ℕ) :
    ((s.read i).read i).accesses = s.accesses ++ [i, i].map TempAccess.read := by
  rw [MatchState.read, MatchState.read, List.append_assoc]
  rfl

/-- The loop reads the array, as far as a NUL in it and no further. -/
theorem compareLoop_accesses (bs : List UInt8) (i : ℕ) (s : MatchState) :
    ∃ rs : List ℕ, (compareLoop bs i s).2.accesses = s.accesses ++ rs.map TempAccess.read ∧
      ∀ k < 12, s.temp k = 0 → i ≤ k → ∀ j ∈ rs, j ≤ k := by
  have hboth : ∀ {i k : ℕ}, i ≤ k → ∀ j ∈ [i, i], j ≤ k := fun hi =>
    List.forall_mem_cons.mpr ⟨hi, List.forall_mem_singleton.mpr hi⟩
  induction bs generalizing i s with
  | nil => exact ⟨[i, i], read_twice (s.setCounter i) i, fun k _ _ hi => hboth hi⟩
  | cons b bs ih =>
    rw [compareLoop_cons]
    by_cases h0 : (s.setCounter i).temp i = 0
    · rw [if_pos h0]
      exact ⟨[i, i], read_twice (s.setCounter i) i, fun k _ _ hi => hboth hi⟩
    · rw [if_neg h0]
      split
      · obtain ⟨rs, haccesses, hle⟩ := ih (i + 1)
          ((((s.setCounter i).read i).read i).setChars (toUpper ((s.setCounter i).temp i)) (toUpper b))
        refine ⟨[i, i] ++ rs, ?_, ?_⟩
        · rw [haccesses]
          show ((((s.setCounter i).read i).read i).accesses ++ _) = _
          rw [read_twice, List.append_assoc, List.map_append]
          rfl
        · intro k hk hnul hi
          -- the NUL is still ahead
          have hne : i ≠ k := by
            rintro rfl
            rw [setCounter_temp s i (by omega)] at h0
            exact h0 hnul
          refine List.forall_mem_append.mpr ⟨hboth hi, hle k hk ?_ (by omega)⟩
          rw [setChars_temp _ _ _ hk]
          show (s.setCounter i).temp k = 0
          rw [setCounter_temp s i (by omega), hnul]
      · exact ⟨[i, i], read_twice (s.setCounter i) i, fun k _ _ hi => hboth hi⟩

end Compare

/-- **With its accesses it is the same function**, whatever the array held before. -/
theorem matchRun_result (junk : ℕ → UInt8) (e : DirEntry) (input : List UInt8) :
    (matchRun junk e input).1 = fatFilenameMatch e input := by
  have hstart : ∀ j ≤ (matchTemp e).length, (fillTemp e ⟨junk, 0, []⟩).temp j = (matchTemp e).getD j 0 :=
    fun j hj => fillTemp_temp junk e hj
  have hprefix : cString (matchTemp e) <+: matchTemp e := List.takeWhile_prefix _
  have hle := hprefix.length_le
  have hfull := matchTemp_length_le e
  rw [matchRun, fatFilenameMatch]
  by_cases hlt : (cString (matchTemp e)).length < 12
  · have hnul : (matchTemp e).getD (cString (matchTemp e)).length 0 = 0 := getD_cString_length _
    rw [if_pos hlt, compareLoop_result _ hlt hnul (fun j hj => hstart j (hj.trans hle)) (Nat.zero_le _),
      List.drop_zero]
  · -- no NUL among the twelve bytes
    have hself : cString (matchTemp e) = matchTemp e := hprefix.eq_of_length_le (by omega)
    rw [if_neg hlt, compareLoop_full (t := matchTemp e) _ (by omega) ?_ (fun j hj => hstart j (by omega))
      (Nat.zero_le _) (fun h => absurd h (by decide)), List.drop_zero, hself]
    intro c hc
    rw [← hself] at hc
    exact bne_iff_ne.mp (List.mem_takeWhile_imp (p := fun b : UInt8 => b != 0) hc)

/-- First the stores of the name and of its NUL, then reads; with a name of fewer than twelve bytes, of these. -/
theorem matchRun_accesses (junk : ℕ → UInt8) (e : DirEntry) (input : List UInt8) :
    ∃ rs : List ℕ, (matchRun junk e input).2.accesses =
      tempWrites (matchTemp e ++ [0]) 0 ++ rs.map TempAccess.read ∧
        ((matchTemp e).length < 12 → ∀ j ∈ rs, j ≤ (matchTemp e).length) := by
  have hnul : (fillTemp e ⟨junk, 0, []⟩).temp (matchTemp e).length = 0 := by
    rw [fillTemp_temp junk e le_rfl, List.getD_eq_default _ _ le_rfl]
  obtain ⟨rs, haccesses, hle⟩ := compareLoop_accesses (cString input) 0 (fillTemp e ⟨junk, 0, []⟩)
  refine ⟨rs, ?_, fun hlt => hle _ hlt hnul (Nat.zero_le _)⟩
  rw [matchRun, haccesses, fillTemp_accesses]

/-! ### Staying inside -/

/-- Every store is inside `char temp[12]`. -/
def WritesInside (accesses : List TempAccess) : Prop := ∀ i c, TempAccess.write i c ∈ accesses → i < 12

/-- Every byte read was stored before. -/
def ReadsWritten (accesses : List TempAccess) : Prop :=
  ∀ n i : ℕ, accesses[n]? = some (TempAccess.read i) →
    ∃ (m : ℕ) (c : UInt8), m < n ∧ accesses[m]? = some (TempAccess.write i c)

theorem tempWrites_getElem? (cs : List UInt8) (n : ℕ) :
    (tempWrites cs 0)[n]? = cs[n]?.map fun c => TempAccess.write n c := by
  rw [tempWrites, List.getElem?_map, List.getElem?_zipIdx, Option.map_map, Nat.zero_add]
  rfl

theorem tempWrites_length (cs : List UInt8) : (tempWrites cs 0).length = cs.length := by
  rw [tempWrites, List.length_map, List.length_zipIdx]

theorem writesInside_iff (junk : ℕ → UInt8) (e : DirEntry) (input : List UInt8) :
    WritesInside (matchRun junk e input).2.accesses ↔ (matchTemp e).length < 12 := by
  obtain ⟨rs, haccesses, -⟩ := matchRun_accesses junk e input
  rw [haccesses]
  constructor
  · -- the NUL is stored behind the name
    intro hinside
    apply hinside _ 0
    apply List.mem_append_left
    apply List.mem_of_getElem? (i := (matchTemp e).length)
    rw [tempWrites_getElem?, List.getElem?_concat_length]
    rfl
  · intro hlen i c hmem
    cases List.mem_append.mp hmem with
    | inl hwrite =>
      obtain ⟨n, hn⟩ := List.getElem?_of_mem hwrite
      rw [tempWrites_getElem?] at hn
      obtain ⟨b, hb, hwrite⟩ := Option.map_eq_some_iff.mp hn
      cases hwrite
      have hlt := (List.getElem?_eq_some_iff.mp hb).1
      rw [List.length_append, List.length_singleton] at hlt
      omega
    | inr hread =>
      obtain ⟨j, -, hread⟩ := List.mem_map.mp hread
      cases hread

theorem readsWritten (junk : ℕ → UInt8) (input : List UInt8) (hlt : (matchTemp e).length < 12) :
    ReadsWritten (matchRun junk e input).2.accesses := by
  obtain ⟨rs, haccesses, hle⟩ := matchRun_accesses junk e input
  rw [haccesses]
  intro n i hread
  have hlen : (tempWrites (matchTemp e ++ [0]) 0).length = (matchTemp e).length + 1 := by
    rw [tempWrites_length, List.length_append, List.length_singleton]
  rcases Nat.lt_or_ge n (tempWrites (matchTemp e ++ [0]) 0).length with hwrite | hge
  · rw [List.getElem?_append_left hwrite, tempWrites_getElem?] at hread
    obtain ⟨b, -, hread⟩ := Option.map_eq_some_iff.mp hread
    cases hread
  · rw [List.getElem?_append_right hge, List.getElem?_map] at hread
    obtain ⟨j, hj, hread⟩ := Option.map_eq_some_iff.mp hread
    cases hread
    have hik := hle hlt _ (List.mem_of_getElem? hj)
    have hin : i < (matchTemp e ++ [0]).length := by
      rw [List.length_append, List.length_singleton]
      omega
    refine ⟨i, (matchTemp e ++ [0])[i], by omega, ?_⟩
    rw [List.getElem?_append_left (by omega), tempWrites_getElem?, List.getElem?_eq_getElem hin]
    rfl

/-- **Lookup stays inside its array** exactly when one of the eleven bytes of name and extension is a blank. -/
theorem lookup_stays_inside_iff (junk : ℕ → UInt8) (e : DirEntry) (input : List UInt8) :
    (WritesInside (matchRun junk e input).2.accesses ∧ ReadsWritten (matchRun junk e input).2.accesses) ↔
      32 ∈ nameBytes e ++ extBytes e := by
  rw [writesInside_iff, ← matchTemp_length_lt_iff]
  exact and_iff_left_of_imp (readsWritten junk input)

/-- **A full 8.3 name**: the NUL goes to `temp[12]`. -/
theorem full_name_overruns :
    ¬ ∀ junk e input, WritesInside (matchRun junk e input).2.accesses ∧
      ReadsWritten (matchRun junk e input).2.accesses := by
  intro hall
  have hinside := (hall (fun _ => 0) (fillEntry (fun _ => 0) (text "filename.txt") 0x20 2 512) []).1
  exact absurd ((writesInside_iff _ _ _).mp hinside) (by decide +kernel)

end OsEojin.Fat
