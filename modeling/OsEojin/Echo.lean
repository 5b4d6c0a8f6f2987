import OsEojin.Keyboard
import OsEojin.Screen

/-!
# What is typed is what is shown

`keyboard_handler` with the calls it makes of the screen driver: a letter is printed before it is stored, Backspace
takes one off the screen when it takes one out of the buffer, and Enter starts a new row and lets `user_input` print.

* `printed`: the calls of the handler;
* `Console`, `Event`, `step`: keys, and messages that a process prints by a system call;
* `shownText`: the cells in front of the cursor, as they are in video memory;
* `screen_shows_line`: they end in the line that `key_buffer` holds, behind what was there before it.
-/

namespace OsEojin.Echo

open OsEojin.Lib.Runs OsEojin.Lib.Terminals OsEojin.Keyboard OsEojin.Screen
open OsEojin.Ata (text)
open OsEojin.Fat (cString)

/-! ### Keyboard and screen -/

/-- What `keyboard_handler` prints; `output` is what `user_input` prints when it is called. -/
def printed (k : Driver) (scancode : UInt8) (output : List Call) : List Call :=
  if scancode = 0x2a ∨ scancode = 0x36 then []
  else if scancode = 0xaa ∨ scancode = 0xb6 then []
  else if scancode &&& 0x80 ≠ 0 then []
  else if scMax < scancode.toNat then []
  else
    let letter := letterOf k.isShift scancode
    if letter ≠ 0 then [.kprint [letter, 0]]
    else if scancode = 0x0e then
      if 0 < k.bufferIndex then [.kprintBackspace] else []
    else if scancode = 0x1c then .kprint (text "\n") :: output
    else []

structure Console where
  keyboard : Driver
  screen : Vga

/-- A key, with what `user_input` will print; or a message of a process. -/
inductive Event where
  | key (scancode : UInt8) (output : List Call)
  | print (message : List UInt8)

def step (c : Console) : Event → Console
  | .key scancode output =>
    ⟨keyboardHandler c.keyboard scancode, run call c.screen (printed c.keyboard scancode output)⟩
  | .print message => { c with screen := kprint c.screen message }

/-- The line fits in `key_buffer[256]`, and processes print between lines. -/
def Allowed (c : Console) : Event → Prop
  | .key scancode _ => (∃ letter, keyOf c.keyboard.isShift scancode = .letter letter) → c.keyboard.bufferIndex < 255
  | .print _ => c.keyboard.bufferIndex = 0

/-- The cells in front of the cursor. -/
def shownText (s : Vga) : List Cell :=
  (List.range (cursorCell s.crtc)).map fun n : ℕ => ⟨s.video.mem (2 * (n : ℤ)), s.video.mem (2 * (n : ℤ) + 1)⟩

/-- A letter on the screen. -/
def cellOf (letter : UInt8) : Cell := ⟨letter, whiteOnBlack⟩

/-- What is shown when a line begins. -/
def note (begun : List Cell) (c : Console) : Event → List Cell
  | .key scancode output =>
    match keyOf c.keyboard.isShift scancode with
    | .enter => shownText (step c (.key scancode output)).screen
    | _ => begun
  | .print message => shownText (step c (.print message)).screen

/-- What was shown when the line in the making began. -/
def lineBegan (s : Vga) (events : List Event) : List Cell := trace step note ⟨start, s⟩ (shownText s) events

/-! ### One event -/

theorem printed_eq (k : Driver) (scancode : UInt8) (output : List Call) : printed k scancode output
    = match keyOf k.isShift scancode with
      | .letter c => [.kprint [c, 0]]
      | .backspace => if 0 < k.bufferIndex then [.kprintBackspace] else []
      | .enter => .kprint (text "\n") :: output
      | _ => [] := by
  rw [printed, keyOf]
  by_cases hdown : scancode = 0x2a ∨ scancode = 0x36
  · rw [if_pos hdown, if_pos hdown]
  rw [if_neg hdown, if_neg hdown]
  by_cases hup : scancode = 0xaa ∨ scancode = 0xb6
  · rw [if_pos hup, if_pos hup]
  rw [if_neg hup, if_neg hup]
  by_cases hbreak : scancode &&& 0x80 ≠ 0
  · rw [if_pos hbreak, if_pos (Or.inl hbreak)]
  rw [if_neg hbreak]
  by_cases hmax : scMax < scancode.toNat
  · rw [if_pos hmax, if_pos (Or.inr hmax)]
  rw [if_neg hmax, if_neg (not_or.mpr ⟨hbreak, hmax⟩)]
  dsimp only
  by_cases hletter : letterOf k.isShift scancode ≠ 0
  · rw [if_pos hletter, if_pos hletter]
  rw [if_neg hletter, if_neg hletter]
  by_cases hback : scancode = 0x0e
  · rw [if_pos hback, if_pos hback]
  rw [if_neg hback, if_neg hback]
  by_cases henter : scancode = 0x1c
  · rw [if_pos henter, if_pos henter]
  · rw [if_neg henter, if_neg henter]

/-- No key types a new line. -/
theorem letter_ne_newline {isShift : Bool} {scancode c : UInt8} (h : keyOf isShift scancode = .letter c) : c ≠ 10 := by
  have htable : ∀ n < 58, asciiLow.getD n 0 ≠ 10 ∧ asciiShift.getD n 0 ≠ 10 := by decide
  rw [keyOf] at h
  split_ifs at h with hdown hup hoff hletter hback henter
  obtain rfl := Key.letter.inj h
  have hbound : scancode.toNat < 58 := by
    rw [not_or] at hoff
    have hmax := hoff.2
    rw [scMax] at hmax
    omega
  rw [letterOf]
  cases isShift with
  | false => exact (htable _ hbound).1
  | true => exact (htable _ hbound).2

/-- The text in video memory is the text of the terminal. -/
theorem shownText_eq {s : Vga} {t : Terminal Cell 25 80} (h : Shows s t) : shownText s = t.before := by
  apply List.ext_getElem
  · rw [shownText, List.length_map, List.length_range, t.before_length, h.cursor]
  · intro n hn hn'
    have hcell : n < 25 * 80 := by
      have hcursor := t.cursor.isLt
      rw [t.before_length] at hn'
      omega
    have hindex : (index (Fin.divNat ⟨n, hcell⟩) (Fin.modNat ⟨n, hcell⟩)).val = n :=
      congrArg Fin.val (Terminal.index_divNat_modNat ⟨n, hcell⟩)
    have hchar := h.grid.char (Fin.divNat ⟨n, hcell⟩) (Fin.modNat ⟨n, hcell⟩)
    have hattribute := h.grid.attributeByte (Fin.divNat ⟨n, hcell⟩) (Fin.modNat ⟨n, hcell⟩)
    rw [hindex] at hchar hattribute
    simp only [shownText, List.getElem_map, List.getElem_range, Terminal.before, List.getElem_take, Terminal.text_getElem,
      hchar, hattribute]

/-- The console and the line: the buffer holds it, and the screen shows it behind `begun`, of which whole rows may
have been scrolled away. -/
structure EchoOk (begun : List Cell) (c : Console) : Prop where
  shown : ∃ t : Terminal Cell 25 80, Shows c.screen t
  line : ∃ (e : Editor) (k : ℕ), Edits c.keyboard e ∧ e.line.length ≤ 255 ∧
    shownText c.screen = begun.drop (80 * k) ++ e.line.map cellOf

section Steps

variable {begun : List Cell} {c : Console}

/-- A letter reaches the screen as one cell. -/
theorem shownText_letter {s : Vga} {t : Terminal Cell 25 80} (h : Shows s t) {letter : UInt8} (hzero : letter ≠ 0)
    (hline : letter ≠ 10) : shownText (call s (.kprint [letter, 0]))
      = if (shownText s).length = 1999 then (shownText s ++ [cellOf letter]).drop 80 else shownText s ++ [cellOf letter] := by
  have hshows := (shows_call h (.kprint [letter, 0])).1
  have hstring : cString [letter, 0] = [letter] := by
    simp [cString, hzero]
  have hput : Call.onTerminal t (.kprint [letter, 0]) = t.put blank (cellOf letter) := by
    rw [Call.onTerminal, hstring, List.foldl_cons, List.foldl_nil, typeChar, if_neg hline]
    rfl
  rw [hput] at hshows
  rw [shownText_eq hshows, shownText_eq h, t.before_put, t.before_length]
  simp only [Nat.reduceMul, Nat.reduceEqDiff]

theorem shownText_backspace {s : Vga} {t : Terminal Cell 25 80} (h : Shows s t) :
    shownText (call s .kprintBackspace) = (shownText s).dropLast := by
  have hshows : Shows (call s .kprintBackspace) (t.backspace blank) := (shows_call h .kprintBackspace).1
  rw [shownText_eq hshows, shownText_eq h, t.before_backspace]

/-- Every call leaves a screen. -/
theorem shows_calls {s : Vga} (h : ∃ t : Terminal Cell 25 80, Shows s t) (calls : List Call) :
    ∃ t : Terminal Cell 25 80, Shows (run call s calls) t := by
  induction calls generalizing s with
  | nil => exact h
  | cons c calls ih =>
    obtain ⟨t, ht⟩ := h
    exact ih ⟨_, (shows_call ht c).1⟩

/-- The line grows by a letter; below the last row the text above it loses a row. -/
theorem shown_letter {shown : List Cell} {line : List UInt8} {k : ℕ} (letter : UInt8)
    (hshown : shown = begun.drop (80 * k) ++ line.map cellOf) (hlength : line.length < 255) :
    ∃ k', (if shown.length = 1999 then (shown ++ [cellOf letter]).drop 80 else shown ++ [cellOf letter])
      = begun.drop (80 * k') ++ (line ++ [letter]).map cellOf := by
  have hmap : (line ++ [letter]).map cellOf = line.map cellOf ++ [cellOf letter] := by
    rw [List.map_append, List.map_singleton]
  by_cases hfull : shown.length = 1999
  · have habove : 80 ≤ (begun.drop (80 * k)).length := by
      rw [hshown, List.length_append, List.length_map] at hfull
      omega
    refine ⟨k + 1, ?_⟩
    rw [if_pos hfull, hshown, hmap, List.append_assoc, List.drop_append_of_le_length habove, List.drop_drop]
    rfl
  · exact ⟨k, by rw [if_neg hfull, hshown, hmap, List.append_assoc]⟩

theorem EchoOk.press (h : EchoOk begun c) (scancode : UInt8) (output : List Call)
    (hroom : Allowed c (.key scancode output)) : EchoOk (note begun c (.key scancode output)) (step c (.key scancode output)) := by
  obtain ⟨⟨t, ht⟩, e, k, hedits, hlength, htext⟩ := h
  have hedits' := edits_handler hedits scancode
  have hprinted := printed_eq c.keyboard scancode output
  refine ⟨shows_calls ⟨t, ht⟩ _, ?_⟩
  have htype : e.type scancode = e.press (keyOf c.keyboard.isShift scancode) := by rw [hedits.shift]; rfl
  rw [htype] at hedits'
  have hscreen : (step c (.key scancode output)).screen = run call c.screen (printed c.keyboard scancode output) := rfl
  cases hkey : keyOf c.keyboard.isShift scancode with
  | shift down =>
    rw [hkey] at hprinted hedits'
    simp only [note, hkey]
    refine ⟨_, k, hedits', hlength, ?_⟩
    rw [hscreen, hprinted]
    exact htext
  | letter letter =>
    rw [hkey] at hprinted hedits'
    simp only [note, hkey]
    have hless : e.line.length < 255 := by
      have hindex := hroom ⟨letter, hkey⟩
      rw [hedits.index] at hindex
      omega
    obtain ⟨k', hk'⟩ := shown_letter letter htext hless
    have hlonger : (e.press (.letter letter)).line.length ≤ 255 := by
      show (e.line ++ [letter]).length ≤ 255
      rw [List.length_append, List.length_singleton]
      omega
    refine ⟨_, k', hedits', hlonger, ?_⟩
    rw [hscreen, hprinted, run_cons, run_nil,
      shownText_letter ht (keyOf_letter hkey) (letter_ne_newline hkey), hk']
    rfl
  | backspace =>
    rw [hkey] at hprinted hedits'
    simp only [note, hkey]
    have hshorter : (e.press .backspace).line.length ≤ 255 := by
      show e.line.dropLast.length ≤ 255
      rw [List.length_dropLast]
      omega
    refine ⟨_, k, hedits', hshorter, ?_⟩
    rw [hscreen, hprinted]
    show shownText (run call c.screen (if 0 < c.keyboard.bufferIndex then [.kprintBackspace] else []))
      = begun.drop (80 * k) ++ e.line.dropLast.map cellOf
    by_cases hempty : e.line = []
    · have hindex : ¬ 0 < c.keyboard.bufferIndex := by
        rw [hedits.index, hempty]
        simp
      rw [if_neg hindex, run_nil, htext, hempty]
      rfl
    · have hindex : 0 < c.keyboard.bufferIndex := by
        rw [hedits.index]
        exact_mod_cast List.length_pos_of_ne_nil hempty
      have hmap : e.line.map cellOf ≠ [] := by simpa using hempty
      rw [if_pos hindex, run_cons, run_nil, shownText_backspace ht, htext, List.dropLast_append_of_ne_nil hmap,
        List.map_dropLast]
  | enter =>
    rw [hkey] at hedits'
    simp only [note, hkey]
    exact ⟨_, 0, hedits', Nat.zero_le _, (List.append_nil _).symm⟩
  | ignored =>
    rw [hkey] at hprinted hedits'
    simp only [note, hkey]
    refine ⟨_, k, hedits', hlength, ?_⟩
    rw [hscreen, hprinted]
    exact htext

/-- A message between two lines. -/
theorem EchoOk.print (h : EchoOk begun c) (message : List UInt8) (hempty : Allowed c (.print message)) :
    EchoOk (note begun c (.print message)) (step c (.print message)) := by
  obtain ⟨⟨t, ht⟩, e, k, hedits, hlength, -⟩ := h
  have hline : e.line = [] := by
    have hindex : c.keyboard.bufferIndex = 0 := hempty
    rw [hedits.index] at hindex
    exact List.eq_nil_of_length_eq_zero (by exact_mod_cast hindex)
  refine ⟨⟨_, (shows_call ht (.kprint message)).1⟩, e, 0, hedits, hlength, ?_⟩
  rw [hline]
  exact (List.append_nil _).symm

/-- **One event.** -/
theorem echoOk_step (h : EchoOk begun c) (e : Event) (he : Allowed c e) : EchoOk (note begun c e) (step c e) := by
  cases e with
  | key scancode output => exact h.press scancode output he
  | print message => exact h.print message he

end Steps

/-! ### Every run -/

theorem echoOk_run (s : Vga) (hs : cursorCell s.crtc < 2000) (events : List Event)
    (hevents : Admits step Allowed ⟨start, s⟩ events) :
    EchoOk (lineBegan s events) (run step ⟨start, s⟩ events) := by
  induction events using List.reverseRecOn with
  | nil => exact ⟨⟨_, shows_terminalOf s hs⟩, Editor.start, 0, edits_start, by decide, (List.append_nil _).symm⟩
  | append_singleton events e ih =>
    obtain ⟨hevents, he⟩ := (admits_concat _ events e).mp hevents
    rw [run_concat, lineBegan, trace_concat]
    exact echoOk_step (ih hevents) e he

/-- **What is typed is what is shown.**  From any screen, at any point of any run in which no line outgrows the
buffer and processes print only between lines, the cells in front of the cursor are those that were there when the
line began, up to whole rows scrolled away, and then the letters that `key_buffer` holds: no letter is shown that is
not in the buffer, none in the buffer is missing, and Backspace never erases what stood before the line. -/
theorem screen_shows_line (s : Vga) (hs : cursorCell s.crtc < 2000) (events : List Event)
    (hevents : Admits step Allowed ⟨start, s⟩ events) :
    ∃ (line : List UInt8) (k : ℕ), Holds (run step ⟨start, s⟩ events).keyboard.keyBuffer line ∧
      (run step ⟨start, s⟩ events).keyboard.bufferIndex = line.length ∧
      shownText (run step ⟨start, s⟩ events).screen
        = (lineBegan s events).drop (80 * k) ++ line.map fun letter => ⟨letter, whiteOnBlack⟩ := by
  obtain ⟨-, e, k, hedits, -, htext⟩ := echoOk_run s hs events hevents
  exact ⟨e.line, k, hedits.buffer, hedits.index, htext⟩

/-- From the last cell of the screen: two letters, the first of which scrolls, and one of them erased. -/
def twoLetters : List Event := [.key 0x26 [], .key 0x1f [], .key 0x0e []]

theorem screen_shows_line_scrolled :
    ∃ (line : List UInt8) (k : ℕ), Holds (run step ⟨start, lastCell⟩ twoLetters).keyboard.keyBuffer line ∧
      (run step ⟨start, lastCell⟩ twoLetters).keyboard.bufferIndex = line.length ∧
      shownText (run step ⟨start, lastCell⟩ twoLetters).screen
        = (lineBegan lastCell twoLetters).drop (80 * k) ++ line.map fun letter => ⟨letter, whiteOnBlack⟩ := by
  apply screen_shows_line lastCell (by decide)
  refine ⟨?_, ?_, ?_, trivial⟩
  · intro _
    decide
  · intro _
    decide
  · intro _
    decide

end OsEojin.Echo
