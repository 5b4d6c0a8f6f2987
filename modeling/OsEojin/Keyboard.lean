import OsEojin.Ata
import OsEojin.Lib.Runs
import Mathlib.Data.List.Forall2

/-!
# The keyboard and its line

`keyboard_handler` (`src/drivers/keyboard.c`) collects the letters of a line in `key_buffer[256]`, a NUL
behind the last one, and hands the buffer to `user_input` on Enter.  `user_input` only reads the line.  The
handler never compares `buffer_index` with the size of the buffer.

* `keyboardHandler`: the handler, with the places it has written to;
* `keyOf`, `press`: what a scancode means, and what each key does;
* `Editor`: the line a user has typed, as a list;
* `Edits`, `edits_run`: the buffer holds that line, however long it is;
* `line_buffer_iff`: the buffer is kept exactly by the runs without a line of more than 255 letters.

What is printed on the screen is left out.
-/

namespace OsEojin.Keyboard

open OsEojin.Ata OsEojin.Lib.Runs

/-! ### The handler -/

/-- `SC_MAX`. -/
def scMax : ℕ := 57

/-- `ascii_low`. -/
def asciiLow : List UInt8 :=
  [0, 0] ++ text "1234567890-=" ++ [0, 0] ++ text "qwertyuiop[]" ++ [0, 0] ++ text "asdfghjkl;'`" ++ [0] ++
    text "\\zxcvbnm,./" ++ [0] ++ text "*" ++ [0] ++ text " "

/-- `ascii_shift`. -/
def asciiShift : List UInt8 :=
  [0, 0] ++ text "!@#$%^&*()_+" ++ [0, 0] ++ text "QWERTYUIOP\x7b\x7d" ++ [0, 0] ++ text "ASDFGHJKL:\"~" ++ [0] ++
    text "|ZXCVBNM<>?" ++ [0] ++ text "*" ++ [0] ++ text " "

example : asciiLow.length = scMax + 1 ∧ asciiShift.length = scMax + 1 := by decide

/-- The static variables of the driver.  `keyBuffer i` is the byte at `key_buffer + i`, inside the array or
not. -/
structure Driver where
  isShift : Bool
  keyBuffer : ℤ → UInt8
  bufferIndex : ℤ
  /-- the places in `key_buffer` written so far -/
  stores : List ℤ
  /-- the buffers handed to `user_input` so far -/
  submitted : List (ℤ → UInt8)

/-- The driver before the first key. -/
def start : Driver := ⟨false, fun _ => 0, 0, [], []⟩

/-- `key_buffer[i] = c`. -/
def Driver.store (k : Driver) (i : ℤ) (c : UInt8) : Driver :=
  { k with keyBuffer := Function.update k.keyBuffer i c, stores := k.stores ++ [i] }

/-- `letter`: the table's character. -/
def letterOf (isShift : Bool) (scancode : UInt8) : UInt8 :=
  (if isShift then asciiShift else asciiLow).getD scancode.toNat 0

/-- `keyboard_handler()` with the scancode that `inb(0x60)` answers. -/
def keyboardHandler (k : Driver) (scancode : UInt8) : Driver :=
  if scancode = 0x2a ∨ scancode = 0x36 then { k with isShift := true }
  else if scancode = 0xaa ∨ scancode = 0xb6 then { k with isShift := false }
  else if scancode &&& 0x80 ≠ 0 then k
  else if scMax < scancode.toNat then k
  else
    let letter := letterOf k.isShift scancode
    if letter ≠ 0 then
      let k := { k.store k.bufferIndex letter with bufferIndex := k.bufferIndex + 1 }
      k.store k.bufferIndex 0
    else if scancode = 0x0e then
      if 0 < k.bufferIndex then
        let k := { k with bufferIndex := k.bufferIndex - 1 }
        k.store k.bufferIndex 0
      else k
    else if scancode = 0x1c then
      let k := { k with submitted := k.submitted ++ [k.keyBuffer], bufferIndex := 0 }
      k.store 0 0
    else k

/-! ### Keys -/

/-- What a scancode means. -/
inductive Key
  | shift (down : Bool)
  | letter (c : UInt8)
  | backspace
  | enter
  | ignored

/-- The key of a scancode. -/
def keyOf (isShift : Bool) (scancode : UInt8) : Key :=
  if scancode = 0x2a ∨ scancode = 0x36 then .shift true
  else if scancode = 0xaa ∨ scancode = 0xb6 then .shift false
  else if scancode &&& 0x80 ≠ 0 ∨ scMax < scancode.toNat then .ignored
  else if letterOf isShift scancode ≠ 0 then .letter (letterOf isShift scancode)
  else if scancode = 0x0e then .backspace
  else if scancode = 0x1c then .enter
  else .ignored

/-- What a key does to the driver. -/
def press (k : Driver) : Key → Driver
  | .shift down => { k with isShift := down }
  | .letter c => Driver.store { k.store k.bufferIndex c with bufferIndex := k.bufferIndex + 1 }
      (k.bufferIndex + 1) 0
  | .backspace =>
    if 0 < k.bufferIndex then Driver.store { k with bufferIndex := k.bufferIndex - 1 } (k.bufferIndex - 1) 0
    else k
  | .enter => Driver.store { k with submitted := k.submitted ++ [k.keyBuffer], bufferIndex := 0 } 0 0
  | .ignored => k

/-- **The handler presses the key of the scancode.** -/
theorem keyboardHandler_eq (k : Driver) (scancode : UInt8) :
    keyboardHandler k scancode = press k (keyOf k.isShift scancode) := by
  rw [keyboardHandler, keyOf]
  by_cases hdown : scancode = 0x2a ∨ scancode = 0x36
  · rw [if_pos hdown, if_pos hdown]
    rfl
  rw [if_neg hdown, if_neg hdown]
  by_cases hup : scancode = 0xaa ∨ scancode = 0xb6
  · rw [if_pos hup, if_pos hup]
    rfl
  rw [if_neg hup, if_neg hup]
  by_cases hbreak : scancode &&& 0x80 ≠ 0
  · rw [if_pos hbreak, if_pos (Or.inl hbreak)]
    rfl
  rw [if_neg hbreak]
  by_cases hmax : scMax < scancode.toNat
  · rw [if_pos hmax, if_pos (Or.inr hmax)]
    rfl
  rw [if_neg hmax, if_neg (not_or.mpr ⟨hbreak, hmax⟩)]
  dsimp only
  by_cases hletter : letterOf k.isShift scancode ≠ 0
  · rw [if_pos hletter, if_pos hletter]
    rfl
  rw [if_neg hletter, if_neg hletter]
  by_cases hback : scancode = 0x0e
  · rw [if_pos hback, if_pos hback]
    rfl
  rw [if_neg hback, if_neg hback]
  by_cases henter : scancode = 0x1c
  · rw [if_pos henter, if_pos henter]
    rfl
  rw [if_neg henter, if_neg henter]
  rfl

/-- Letters are not NUL. -/
theorem keyOf_letter {isShift : Bool} {scancode c : UInt8} (h : keyOf isShift scancode = .letter c) :
    c ≠ 0 := by
  rw [keyOf] at h
  split_ifs at h with hdown hup hoff hletter hback henter
  obtain rfl := Key.letter.inj h
  exact hletter

/-! ### The line as a list -/

/-- **The line editor**: the letters typed since the last Enter and not erased, and the lines before. -/
structure Editor where
  shift : Bool
  line : List UInt8
  submitted : List (List UInt8)

/-- The editor before the first key. -/
def Editor.start : Editor := ⟨false, [], []⟩

/-- What a key does to the line. -/
def Editor.press (e : Editor) : Key → Editor
  | .shift down => { e with shift := down }
  | .letter c => { e with line := e.line ++ [c] }
  | .backspace => { e with line := e.line.dropLast }
  | .enter => { e with submitted := e.submitted ++ [e.line], line := [] }
  | .ignored => e

/-- One scancode. -/
def Editor.type (e : Editor) (scancode : UInt8) : Editor := e.press (keyOf e.shift scancode)

/-- The line after the scancodes. -/
def typedLine (scancodes : List UInt8) : List UInt8 := (run Editor.type Editor.start scancodes).line

/-- The buffer holds the line, with a NUL behind it. -/
structure Holds (buffer : ℤ → UInt8) (line : List UInt8) : Prop where
  letters : ∀ i : ℕ, i < line.length → buffer i = line.getD i 0
  nul : buffer line.length = 0
  nonzero : ∀ c ∈ line, c ≠ 0

/-- **The driver edits the line.** -/
structure Edits (k : Driver) (e : Editor) : Prop where
  shift : k.isShift = e.shift
  index : k.bufferIndex = e.line.length
  buffer : Holds k.keyBuffer e.line
  submitted : List.Forall₂ Holds k.submitted e.submitted

theorem holds_nil {buffer : ℤ → UInt8} (h : buffer 0 = 0) : Holds buffer [] :=
  ⟨fun i hi => absurd hi (Nat.not_lt_zero i), h, fun _ hc => absurd hc List.not_mem_nil⟩

theorem edits_start : Edits start Editor.start where
  shift := rfl
  index := rfl
  buffer := holds_nil rfl
  submitted := List.Forall₂.nil

theorem Holds.letter {buffer : ℤ → UInt8} {line : List UInt8} {c : UInt8} (h : Holds buffer line)
    (hc : c ≠ 0) :
    Holds (Function.update (Function.update buffer line.length c) (line.length + 1) 0) (line ++ [c]) where
  letters := by
    intro i hi
    rw [List.length_append, List.length_singleton] at hi
    rw [Function.update_of_ne (by omega)]
    by_cases hlast : i = line.length
    · rw [hlast, Function.update_self, List.getD_eq_getElem?_getD, List.getElem?_concat_length]
      rfl
    · rw [Function.update_of_ne (by omega), h.letters i (by omega), List.getD_eq_getElem?_getD,
        List.getD_eq_getElem?_getD, List.getElem?_append_left (by omega)]
  nul := by
    rw [List.length_append, List.length_singleton, Nat.cast_add]
    exact Function.update_self ..
  nonzero := by
    intro d hd
    cases List.mem_append.mp hd with
    | inl hold => exact h.nonzero d hold
    | inr hnew =>
      rw [List.mem_singleton.mp hnew]
      exact hc

theorem Holds.backspace {buffer : ℤ → UInt8} {line : List UInt8} (h : Holds buffer line)
    (hpos : 0 < line.length) :
    Holds (Function.update buffer (line.length - 1) 0) line.dropLast where
  letters := by
    intro i hi
    rw [List.length_dropLast] at hi
    rw [Function.update_of_ne (by omega), h.letters i (by omega), List.dropLast_eq_take,
      List.getD_eq_getElem?_getD, List.getD_eq_getElem?_getD, List.getElem?_take_of_lt hi]
  nul := by
    rw [List.length_dropLast, Nat.cast_sub hpos]
    exact Function.update_self ..
  nonzero := fun c hc => h.nonzero c (List.mem_of_mem_dropLast hc)

/-- **One key.** -/
theorem edits_press {k : Driver} {e : Editor} (h : Edits k e) {key : Key}
    (hkey : ∀ c, key = .letter c → c ≠ 0) : Edits (press k key) (e.press key) := by
  obtain ⟨hshift, hindex, hbuffer, hsubmitted⟩ := h
  cases key with
  | shift down => exact ⟨rfl, hindex, hbuffer, hsubmitted⟩
  | letter c =>
    refine ⟨hshift, ?_, ?_, hsubmitted⟩
    · show k.bufferIndex + 1 = ((e.line ++ [c]).length : ℤ)
      rw [hindex, List.length_append, List.length_singleton, Nat.cast_add, Nat.cast_one]
    · show Holds (Function.update (Function.update k.keyBuffer k.bufferIndex c) (k.bufferIndex + 1) 0)
        (e.line ++ [c])
      rw [hindex]
      exact hbuffer.letter (hkey c rfl)
  | backspace =>
    rw [press]
    by_cases hpos : 0 < k.bufferIndex
    · rw [if_pos hpos]
      have hline : 0 < e.line.length := by omega
      refine ⟨hshift, ?_, ?_, hsubmitted⟩
      · show k.bufferIndex - 1 = (e.line.dropLast.length : ℤ)
        rw [hindex, List.length_dropLast]
        omega
      · show Holds (Function.update k.keyBuffer (k.bufferIndex - 1) 0) e.line.dropLast
        rw [hindex]
        exact hbuffer.backspace hline
    · -- nothing to erase
      rw [if_neg hpos]
      have hempty : e.line = [] := List.eq_nil_of_length_eq_zero (by omega)
      refine ⟨hshift, ?_, ?_, hsubmitted⟩
      · rw [hindex, Editor.press, hempty]
        rfl
      · rw [Editor.press, hempty]
        rw [hempty] at hbuffer
        exact hbuffer
  | enter =>
    refine ⟨hshift, rfl, ?_, ?_⟩
    · apply holds_nil
      exact Function.update_self (0 : ℤ) (0 : UInt8) k.keyBuffer
    · exact List.rel_append hsubmitted (List.Forall₂.cons hbuffer List.Forall₂.nil)
  | ignored => exact ⟨hshift, hindex, hbuffer, hsubmitted⟩

theorem edits_handler {k : Driver} {e : Editor} (h : Edits k e) (scancode : UInt8) :
    Edits (keyboardHandler k scancode) (e.type scancode) := by
  rw [keyboardHandler_eq, Editor.type, ← h.shift]
  exact edits_press h fun c hc => keyOf_letter hc

/-- **Every run.**  The buffer holds the line that was typed, and `user_input` got the lines before. -/
theorem edits_run (scancodes : List UInt8) :
    Edits (run keyboardHandler start scancodes) (run Editor.type Editor.start scancodes) := by
  induction scancodes using List.reverseRecOn with
  | nil => exact edits_start
  | append_singleton scancodes scancode ih =>
    rw [run_concat, run_concat]
    exact edits_handler ih scancode

/-! ### The bounds of the buffer -/

/-- **The buffer is kept**: the index and every place written are in `key_buffer[256]`. -/
structure Bounded (k : Driver) : Prop where
  nonneg : 0 ≤ k.bufferIndex
  index : k.bufferIndex ≤ 255
  nul : k.keyBuffer k.bufferIndex = 0
  stores : ∀ i ∈ k.stores, 0 ≤ i ∧ i < 256

/-- A key writes between the start of the buffer and the end of the line. -/
theorem stores_press {k : Driver} {e : Editor} (h : Edits k e) (key : Key) {i : ℤ}
    (hi : i ∈ (press k key).stores) :
    i ∈ k.stores ∨ 0 ≤ i ∧ (i ≤ e.line.length ∨ i ≤ (e.press key).line.length) := by
  have hindex := h.index
  cases key with
  | shift down => exact Or.inl hi
  | letter c =>
    change i ∈ (k.stores ++ [k.bufferIndex]) ++ [k.bufferIndex + 1] at hi
    have hlength : (e.press (.letter c)).line.length = e.line.length + 1 := List.length_append
    simp only [List.mem_append, List.mem_singleton] at hi
    obtain (hold | rfl) | rfl := hi
    · exact Or.inl hold
    · exact Or.inr (by omega)
    · exact Or.inr (by omega)
  | backspace =>
    rw [press] at hi
    split at hi
    · change i ∈ k.stores ++ [k.bufferIndex - 1] at hi
      simp only [List.mem_append, List.mem_singleton] at hi
      obtain hold | rfl := hi
      · exact Or.inl hold
      · exact Or.inr (by omega)
    · exact Or.inl hi
  | enter =>
    change i ∈ k.stores ++ [0] at hi
    simp only [List.mem_append, List.mem_singleton] at hi
    obtain hold | rfl := hi
    · exact Or.inl hold
    · exact Or.inr (by omega)
  | ignored => exact Or.inl hi

theorem stores_run (scancodes : List UInt8)
    (h : ∀ p, p <+: scancodes → (typedLine p).length ≤ 255) {i : ℤ}
    (hi : i ∈ (run keyboardHandler start scancodes).stores) : 0 ≤ i ∧ i < 256 := by
  induction scancodes using List.reverseRecOn with
  | nil => exact absurd hi List.not_mem_nil
  | append_singleton scancodes scancode ih =>
    have hbefore := h scancodes (List.prefix_append _ _)
    have hafter := h (scancodes ++ [scancode]) List.prefix_rfl
    have hedits := edits_run scancodes
    rw [typedLine, run_concat, Editor.type] at hafter
    rw [run_concat, keyboardHandler_eq, hedits.shift] at hi
    rw [typedLine] at hbefore
    cases stores_press hedits _ hi with
    | inl hold => exact ih (fun p hp => h p (hp.trans (List.prefix_append _ _))) hold
    | inr hnew => omega

/-- **The runs that keep the line buffer**: those in which no line has more than 255 letters. -/
theorem line_buffer_iff (scancodes : List UInt8) :
    (∀ p, p <+: scancodes → Bounded (run keyboardHandler start p)) ↔
      ∀ p, p <+: scancodes → (typedLine p).length ≤ 255 := by
  constructor
  · intro h p hp
    have hindex := (edits_run p).index
    have hbound := (h p hp).index
    rw [typedLine]
    omega
  · intro h p hp
    have hedits := edits_run p
    have hlength := h p hp
    rw [typedLine] at hlength
    refine ⟨?_, ?_, ?_, fun i hi => stores_run p (fun q hq => h q (hq.trans hp)) hi⟩
    · rw [hedits.index]
      omega
    · rw [hedits.index]
      omega
    · rw [hedits.index]
      exact hedits.buffer.nul

/-- `n` presses of the key A. -/
theorem typedLine_as (n : ℕ) : typedLine (List.replicate n 0x1e) = List.replicate n 97 := by
  have hrun : run Editor.type Editor.start (List.replicate n 0x1e) = ⟨false, List.replicate n 97, []⟩ := by
    induction n with
    | zero => rfl
    | succ n ih =>
      rw [List.replicate_succ', List.replicate_succ', run_concat, ih]
      rfl
  rw [typedLine, hrun]

/-- After 256 letters the NUL is behind the buffer. -/
theorem letters_leave_buffer : ¬ Bounded (run keyboardHandler start (List.replicate 256 0x1e)) := by
  intro h
  have hbound := h.index
  have hindex := (edits_run (List.replicate 256 0x1e)).index
  have hline := typedLine_as 256
  rw [typedLine] at hline
  rw [hindex, hline, List.length_replicate] at hbound
  omega

end OsEojin.Keyboard
