import OsEojin.Keyboard

/-!
# Two shift keys and one flag

The left and the right shift key share the flag `is_shift` of `keyboard_handler` (`src/drivers/keyboard.c`): each
press sets it and each release clears it.  `docs/12_keyboard_scancodes.md` wants a flag that says whether Shift is
pressed.

* `Shifts`: the two keys themselves, and which scancodes a keyboard can send;
* `tableOf`: the table the handler takes a letter from;
* `isShift_run`: the flag remembers the last shift scancode, and no more;
* `shift_works_iff`: the runs in which every letter comes from the right table.
-/

namespace OsEojin.ShiftKeys

open OsEojin.Keyboard OsEojin.Lib.Runs

/-! ### The keys -/

/-- Which shift keys are down. -/
structure Shifts where
  left : Bool
  right : Bool

/-- Some shift key is down. -/
def Shifts.Held (b : Shifts) : Prop := b.left = true ∨ b.right = true

/-- The keys after a scancode. -/
def Shifts.after (b : Shifts) (scancode : UInt8) : Shifts :=
  if scancode = 0x2a then { b with left := true }
  else if scancode = 0xaa then { b with left := false }
  else if scancode = 0x36 then { b with right := true }
  else if scancode = 0xb6 then { b with right := false }
  else b

/-- A key that is up can only be pressed, one that is down only released. -/
structure Shifts.Allows (b : Shifts) (scancode : UInt8) : Prop where
  pressLeft : scancode = 0x2a → b.left = false
  releaseLeft : scancode = 0xaa → b.left = true
  pressRight : scancode = 0x36 → b.right = false
  releaseRight : scancode = 0xb6 → b.right = true

/-- **What a keyboard sends**: the presses and releases of each shift key alternate. -/
def Consistent (b : Shifts) (scancodes : List UInt8) : Prop :=
  Admits Shifts.after Shifts.Allows b scancodes

/-- Pressing a shift key. -/
def IsPress (scancode : UInt8) : Prop := scancode = 0x2a ∨ scancode = 0x36

/-- Releasing a shift key. -/
def IsRelease (scancode : UInt8) : Prop := scancode = 0xaa ∨ scancode = 0xb6

/-- **The last shift scancode was a press.** -/
def PressedLast (scancodes : List UInt8) : Prop :=
  ∃ front press back, scancodes = front ++ press :: back ∧ IsPress press ∧
    ∀ c ∈ back, ¬ IsPress c ∧ ¬ IsRelease c

theorem pressedLast_concat (scancodes : List UInt8) (c : UInt8) :
    PressedLast (scancodes ++ [c]) ↔ IsPress c ∨ ¬ IsRelease c ∧ PressedLast scancodes := by
  constructor
  · rintro ⟨front, press, back, heq, hpress, hback⟩
    induction back using List.reverseRecOn with
    | nil =>
      obtain ⟨-, heq⟩ := List.append_inj' heq rfl
      obtain rfl := List.singleton_inj.mp heq
      exact Or.inl hpress
    | append_singleton back d _ =>
      rw [← List.cons_append, ← List.append_assoc] at heq
      obtain ⟨rfl, hlast⟩ := List.append_inj' heq rfl
      obtain rfl := List.singleton_inj.mp hlast
      refine Or.inr ⟨(hback c (List.mem_append_right _ (List.mem_singleton_self c))).2, ?_⟩
      exact ⟨front, press, back, rfl, hpress, fun d hd => hback d (List.mem_append_left _ hd)⟩
  · rintro (hpress | ⟨hrelease, front, press, back, rfl, hpress, hback⟩)
    · exact ⟨scancodes, c, [], rfl, hpress, fun d hd => absurd hd List.not_mem_nil⟩
    · by_cases hc : IsPress c
      · exact ⟨front ++ press :: back, c, [], rfl, hc, fun d hd => absurd hd List.not_mem_nil⟩
      · refine ⟨front, press, back ++ [c], ?_, hpress, ?_⟩
        · rw [List.append_assoc, List.cons_append]
        · intro d hd
          cases List.mem_append.mp hd with
          | inl hold => exact hback d hold
          | inr hnew =>
            rw [List.mem_singleton.mp hnew]
            exact ⟨hc, hrelease⟩

/-! ### The flag -/

/-- Only the shift keys change the flag. -/
theorem press_isShift (k : Driver) {key : Key} (hkey : ∀ down, key ≠ .shift down) :
    (press k key).isShift = k.isShift := by
  cases key with
  | shift down => exact absurd rfl (hkey down)
  | letter c => rfl
  | backspace =>
    rw [press]
    split <;> rfl
  | enter => rfl
  | ignored => rfl

/-- One scancode: a press sets the flag, a release clears it, any other scancode leaves it. -/
theorem isShift_handler (k : Driver) (c : UInt8) :
    (keyboardHandler k c).isShift = true ↔ IsPress c ∨ ¬ IsRelease c ∧ k.isShift = true := by
  rw [keyboardHandler_eq, keyOf]
  by_cases hdown : c = 0x2a ∨ c = 0x36
  · rw [if_pos hdown]
    exact iff_of_true rfl (Or.inl hdown)
  rw [if_neg hdown, IsPress, or_iff_right hdown]
  by_cases hup : c = 0xaa ∨ c = 0xb6
  · rw [if_pos hup]
    exact iff_of_false Bool.false_ne_true fun h => h.1 hup
  rw [if_neg hup, IsRelease, and_iff_right hup, press_isShift]
  intro down hkey
  split_ifs at hkey

/-- **The flag remembers the last shift scancode.** -/
theorem isShift_run (scancodes : List UInt8) :
    (run keyboardHandler start scancodes).isShift = true ↔ PressedLast scancodes := by
  induction scancodes using List.reverseRecOn with
  | nil =>
    refine iff_of_false Bool.false_ne_true ?_
    rintro ⟨front, press, back, heq, -⟩
    exact List.append_ne_nil_of_right_ne_nil front (List.cons_ne_nil press back) heq.symm
  | append_singleton scancodes c ih => rw [run_concat, isShift_handler, pressedLast_concat, ih]

/-- One scancode: after a press a key is down, and a scancode that is no release leaves it down. -/
theorem held_after {b : Shifts} {c : UInt8} (h : IsPress c ∨ ¬ IsRelease c ∧ b.Held) : (b.after c).Held := by
  rw [Shifts.after]
  obtain (rfl | rfl) | ⟨hup, hheld⟩ := h
  · exact Or.inl rfl
  · exact Or.inr rfl
  · split_ifs with hleft hleftUp hright hrightUp
    · exact Or.inl rfl
    · exact absurd (Or.inl hleftUp) hup
    · exact Or.inr rfl
    · exact absurd (Or.inr hrightUp) hup
    · exact hheld

/-- After a press the key is still down. -/
theorem PressedLast.held {scancodes : List UInt8} (h : PressedLast scancodes) (b : Shifts) :
    (run Shifts.after b scancodes).Held := by
  induction scancodes using List.reverseRecOn with
  | nil =>
    obtain ⟨front, press, back, heq, -⟩ := h
    exact absurd heq.symm (List.append_ne_nil_of_right_ne_nil front (List.cons_ne_nil press back))
  | append_singleton scancodes c ih =>
    rw [run_concat]
    exact held_after (((pressedLast_concat scancodes c).mp h).imp_right (And.imp_right ih))

/-! ### The tables -/

/-- The table `keyboard_handler` takes a letter from. -/
def tableOf (k : Driver) : List UInt8 := if k.isShift then asciiShift else asciiLow

theorem tableOf_eq_shift (k : Driver) : tableOf k = asciiShift ↔ k.isShift = true := by
  rw [tableOf]
  cases k.isShift with
  | false => decide
  | true => decide

/-- A scancode of a key with a character. -/
def IsLetter (scancode : UInt8) : Prop := ∃ isShift c, keyOf isShift scancode = .letter c

/-- The letter that is printed and stored is the one in the table. -/
theorem letter_of_table {k : Driver} {scancode c : UInt8} (h : keyOf k.isShift scancode = .letter c) :
    (keyboardHandler k scancode).keyBuffer k.bufferIndex = (tableOf k).getD scancode.toNat 0 := by
  have hc : c = (tableOf k).getD scancode.toNat 0 := by
    rw [keyOf] at h
    split_ifs at h
    exact (Key.letter.inj h).symm
  rw [keyboardHandler_eq, h, ← hc]
  show Function.update (Function.update k.keyBuffer k.bufferIndex c) (k.bufferIndex + 1) 0 k.bufferIndex = c
  rw [Function.update_of_ne (by omega), Function.update_self]

/-- **Shift works**: every letter of the run comes from `ascii_shift` exactly when a shift key is held down at
its press.  `b` is the keyboard before the first scancode. -/
def ShiftWorks (b : Shifts) (scancodes : List UInt8) : Prop :=
  ∀ p c, p ++ [c] <+: scancodes → IsLetter c →
    (tableOf (run keyboardHandler start p) = asciiShift ↔ (run Shifts.after b p).Held)

/-- **The runs in which Shift works**: whenever a letter is pressed with a shift key down, the last shift scancode
before it was a press. -/
theorem shift_works_iff (b : Shifts) (scancodes : List UInt8) :
    ShiftWorks b scancodes ↔
      ∀ p c, p ++ [c] <+: scancodes → IsLetter c → (run Shifts.after b p).Held → PressedLast p := by
  refine forall_congr' fun p => forall_congr' fun c => forall_congr' fun _ => forall_congr' fun _ => ?_
  rw [tableOf_eq_shift, isShift_run]
  exact ⟨Iff.mpr, fun h => ⟨fun hpressed => hpressed.held b, h⟩⟩

/-- Both shift keys down, one of them released, then the key A: a small a, although Shift is held. -/
theorem overlapping_shifts_lost :
    ¬ ∀ (b : Shifts) (scancodes : List UInt8), Consistent b scancodes → ShiftWorks b scancodes := by
  intro hall
  have hkeyboard : Consistent ⟨false, false⟩ [0x2a, 0x36, 0xaa, 0x1e] := by
    refine ⟨⟨?_, ?_, ?_, ?_⟩, ⟨?_, ?_, ?_, ?_⟩, ⟨?_, ?_, ?_, ?_⟩, ⟨?_, ?_, ?_, ?_⟩, trivial⟩ <;> decide
  have hworks := hall ⟨false, false⟩ [0x2a, 0x36, 0xaa, 0x1e] hkeyboard [0x2a, 0x36, 0xaa] 0x1e
    List.prefix_rfl ⟨false, 97, rfl⟩
  have htable := hworks.mpr (Or.inr rfl)
  rw [tableOf_eq_shift] at htable
  exact Bool.false_ne_true htable

end OsEojin.ShiftKeys
