import OsEojin.Fat
import OsEojin.Lib.Runs
import OsEojin.Lib.Terminals

/-!
# The text screen

`src/drivers/screen.c` writes characters to the 4000 bytes of video memory at `0xb8000`, two for each of 25 × 80
cells.  Where the next one goes is kept in two byte registers of the VGA controller and read back for every
character.

* `printChar`, `kprintAt`, `kprintBackspace`, `clearScreen`: the driver;
* `Shows`: the video memory and the cursor registers are a terminal's grid and cursor;
* `scroll_mem`, `cursorCell_setCursorOffset`, …: what each part of the driver leaves;
* `screen_refines_terminal`: every sequence of calls does to the screen what it does to the terminal.

Places in video memory are counted from `0xb8000`.
-/

namespace OsEojin.Screen

open OsEojin.Lib.Runs OsEojin.Lib.Terminals OsEojin.Fat

/-! ### The driver -/

/-- `MAX_ROWS`. -/
abbrev maxRows : ℕ := 25

/-- `MAX_COLS`. -/
abbrev maxCols : ℕ := 80

/-- `WHITE_ON_BLACK`. -/
def whiteOnBlack : UInt8 := 0x0f

/-- The memory around the screen, with the places written so far. -/
structure Video where
  mem : ℤ → UInt8
  stores : List ℤ

/-- `vidmem[i] = b`. -/
def Video.store (m : Video) (i : ℤ) (b : UInt8) : Video :=
  ⟨Function.update m.mem i b, m.stores ++ [i]⟩

/-- The registers of the VGA controller, and which of them is selected. -/
structure Crtc where
  index : UInt8
  registers : UInt8 → UInt8

/-- `REG_SCREEN_CTRL` and `REG_SCREEN_DATA`. -/
inductive Port
  | ctrl
  | data

/-- `outb(port, data)`. -/
def outb (v : Crtc) : Port → UInt8 → Crtc
  | .ctrl, b => { v with index := b }
  | .data, b => { v with registers := Function.update v.registers v.index b }

/-- `inb(port)`. -/
def inb (v : Crtc) : Port → UInt8
  | .ctrl => v.index
  | .data => v.registers v.index

/-- The memory and the controller. -/
structure Vga where
  video : Video
  crtc : Crtc

/-- `get_cursor_offset()`. -/
def getCursorOffset (v : Crtc) : ℤ × Crtc :=
  let v := outb v .ctrl 14
  -- `inb(REG_SCREEN_DATA) << 8`
  let offset := ((inb v .data).toNat : ℤ) * 256
  let v := outb v .ctrl 15
  let offset := offset + (inb v .data).toNat
  (offset * 2, v)

/-- `set_cursor_offset(offset)`. -/
def setCursorOffset (v : Crtc) (offset : ℤ) : Crtc :=
  let offset := offset.tdiv 2
  let v := outb v .ctrl 14
  -- `offset >> 8`, which rounds down
  let v := outb v .data (UInt8.ofInt (offset / 256))
  let v := outb v .ctrl 15
  -- `offset & 0xff`
  outb v .data (UInt8.ofInt (offset % 256))

/-- `memcpy(dest, source, nbytes)`. -/
def memcpy (m : Video) (dest source : ℤ) (nbytes : ℕ) : Video :=
  (List.range nbytes).foldl (fun (m : Video) (i : ℕ) => m.store (dest + i) (m.mem (source + i))) m

/-- The loops that write `n` blanks: the last row of `print_char`, and `clear_screen`. -/
def blankCells (m : Video) (start : ℤ) (n : ℕ) (attributeByte : UInt8) : Video :=
  (List.range n).foldl
    (fun (m : Video) (i : ℕ) => (m.store (start + i * 2) 32).store (start + i * 2 + 1) attributeByte) m

/-- One row up: the rows are copied in the order of `i = 1 … 24`, then the last one is blanked. -/
def scroll (m : Video) (attributeByte : UInt8) : Video :=
  let m := (List.range (maxRows - 1)).foldl
    (fun (m : Video) (k : ℕ) =>
      let i : ℤ := k + 1
      memcpy m ((i - 1) * maxCols * 2) (i * maxCols * 2) (maxCols * 2)) m
  blankCells m ((maxRows - 1) * maxCols * 2) maxCols attributeByte

/-- The end of `print_char`: scroll if the offset is behind the screen, then set the cursor. -/
def moveTo (m : Video) (v : Crtc) (offset : ℤ) (attributeByte : UInt8) : Vga :=
  if maxRows * maxCols * 2 ≤ offset then
    ⟨scroll m attributeByte, setCursorOffset v (offset - 2 * maxCols)⟩
  else ⟨m, setCursorOffset v offset⟩

/-- `print_char(c, col, row, attribute_byte)`. -/
def printChar (s : Vga) (c : UInt8) (col row : ℤ) (attributeByte : UInt8) : Vga :=
  let attributeByte := if attributeByte = 0 then whiteOnBlack else attributeByte
  let (offset, v) :=
    if 0 ≤ col ∧ 0 ≤ row then ((row * maxCols + col) * 2, s.crtc) else getCursorOffset s.crtc
  if c = 10 then
    let (offset, v) := getCursorOffset v
    let rows := offset.tdiv (2 * maxCols)
    moveTo s.video v ((rows + 1) * (2 * maxCols)) attributeByte
  else
    moveTo ((s.video.store offset c).store (offset + 1) attributeByte) v (offset + 2) attributeByte

/-- The loop of `kprint_at` over the message. -/
def printLoop (row : ℤ) : List UInt8 → ℤ → Vga → Vga
  | [], _, s => s
  | c :: cs, col, s =>
    if c = 0 then s
    else printLoop row cs (if 0 ≤ col then col + 1 else col) (printChar s c col row whiteOnBlack)

/-- `kprint_at(message, col, row)`. -/
def kprintAt (s : Vga) (message : List UInt8) (col row : ℤ) : Vga :=
  let s :=
    if 0 < col ∧ 0 ≤ row then { s with crtc := setCursorOffset s.crtc ((row * maxCols + col) * 2) } else s
  printLoop row message col s

/-- `kprint_backspace()`. -/
def kprintBackspace (s : Vga) : Vga :=
  let (offset, v) := getCursorOffset s.crtc
  let offset := offset - 2
  let offset := if offset < 0 then 0 else offset
  ⟨(s.video.store offset 32).store (offset + 1) 0x0f, setCursorOffset v offset⟩

/-- `kprint(message)`. -/
def kprint (s : Vga) (message : List UInt8) : Vga := kprintAt s message (-1) (-1)

/-- `clear_screen()`. -/
def clearScreen (s : Vga) : Vga :=
  ⟨blankCells s.video 0 (maxCols * maxRows) whiteOnBlack, setCursorOffset s.crtc 0⟩

/-- The calls of the rest of the kernel. -/
inductive Call
  | kprint (message : List UInt8)
  | kprintBackspace
  | clearScreen

/-- One call. -/
def call (s : Vga) : Call → Vga
  | .kprint message => kprint s message
  | .kprintBackspace => kprintBackspace s
  | .clearScreen => clearScreen s

/-! ### The terminal -/

/-- A character and its colours. -/
structure Cell where
  char : UInt8
  attributeByte : UInt8

/-- The blank of the driver. -/
def blank : Cell := ⟨32, whiteOnBlack⟩

/-- One character of a message. -/
def typeChar (t : Terminal Cell 25 80) (c : UInt8) : Terminal Cell 25 80 :=
  if c = 10 then t.newline blank else t.put blank ⟨c, whiteOnBlack⟩

/-- **What the calls are for.** -/
def Call.onTerminal (t : Terminal Cell 25 80) : Call → Terminal Cell 25 80
  | .kprint message => (cString message).foldl typeChar t
  | .kprintBackspace => t.backspace blank
  | .clearScreen => t.clear blank

/-- The cell number in the cursor registers. -/
def cursorCell (v : Crtc) : ℕ := (v.registers 14).toNat * 256 + (v.registers 15).toNat

/-- The video memory shows the grid. -/
structure ShowsGrid (mem : ℤ → UInt8) (grid : Fin 25 → Fin 80 → Cell) : Prop where
  char : ∀ r c, mem (2 * (index r c).val) = (grid r c).char
  attributeByte : ∀ r c, mem (2 * (index r c).val + 1) = (grid r c).attributeByte

/-- **The screen shows the terminal.** -/
structure Shows (s : Vga) (t : Terminal Cell 25 80) : Prop where
  grid : ShowsGrid s.video.mem t.grid
  cursor : cursorCell s.crtc = t.cursor.val

/-- The terminal on the screen. -/
def terminalOf (s : Vga) (h : cursorCell s.crtc < 2000) : Terminal Cell 25 80 where
  grid := fun r c => ⟨s.video.mem (2 * (index r c).val), s.video.mem (2 * (index r c).val + 1)⟩
  row := ⟨cursorCell s.crtc / 80, by omega⟩
  col := ⟨cursorCell s.crtc % 80, Nat.mod_lt _ (by decide)⟩

theorem shows_terminalOf (s : Vga) (h : cursorCell s.crtc < 2000) : Shows s (terminalOf s h) where
  grid := ⟨fun _ _ => rfl, fun _ _ => rfl⟩
  cursor := by
    rw [Terminal.cursor_val]
    exact (Nat.mod_add_div _ _).symm

/-! ### The cursor registers -/

theorem getCursorOffset_fst (v : Crtc) : (getCursorOffset v).1 = 2 * cursorCell v := by
  show (((v.registers 14).toNat : ℤ) * 256 + (v.registers 15).toNat) * 2 = 2 * cursorCell v
  rw [cursorCell]
  omega

theorem cursorCell_getCursorOffset (v : Crtc) : cursorCell (getCursorOffset v).2 = cursorCell v := rfl

/-- **What is written to the registers is read back.** -/
theorem cursorCell_setCursorOffset (v : Crtc) {n : ℕ} (hn : n < 65536) :
    cursorCell (setCursorOffset v (2 * n)) = n := by
  have hhalf : (2 * (n : ℤ)).tdiv 2 = n := Int.mul_tdiv_cancel_left _ (by decide)
  have hhigh : (UInt8.ofInt ((n : ℤ) / 256)).toNat = n / 256 := by
    rw [UInt8.ofInt, UInt8.toNat_ofNat']
    omega
  have hlow : (UInt8.ofInt ((n : ℤ) % 256)).toNat = n % 256 := by
    rw [UInt8.ofInt, UInt8.toNat_ofNat']
    omega
  have hregisters : ∀ high low : UInt8, cursorCell (outb (outb (outb (outb v .ctrl 14) .data high) .ctrl 15)
      .data low) = high.toNat * 256 + low.toNat := by
    intro high low
    show (Function.update (Function.update v.registers 14 high) 15 low 14).toNat * 256
      + (Function.update (Function.update v.registers 14 high) 15 low 15).toNat = _
    rw [Function.update_of_ne (by decide), Function.update_self, Function.update_self]
  rw [setCursorOffset, hhalf, hregisters, hhigh, hlow]
  omega

/-! ### The video memory -/

/-- Only the screen has been written to. -/
structure Within (m m' : Video) : Prop where
  stores : ∀ i ∈ m'.stores, i ∈ m.stores ∨ 0 ≤ i ∧ i < 4000
  mem : ∀ i, i < 0 ∨ 4000 ≤ i → m'.mem i = m.mem i

theorem Within.refl (m : Video) : Within m m := ⟨fun _ => Or.inl, fun _ _ => rfl⟩

theorem Within.trans {m m' m'' : Video} (h : Within m m') (h' : Within m' m'') : Within m m'' where
  stores := by
    intro i hi
    cases h'.stores i hi with
    | inl hold => exact h.stores i hold
    | inr hnew => exact Or.inr hnew
  mem := fun i hi => (h'.mem i hi).trans (h.mem i hi)

theorem Within.store {m m' : Video} (h : Within m m') {i : ℤ} (hi : 0 ≤ i ∧ i < 4000) (b : UInt8) :
    Within m (m'.store i b) where
  stores := by
    intro j hj
    cases List.mem_append.mp hj with
    | inl hold => exact h.stores j hold
    | inr hnew =>
      rw [List.mem_singleton.mp hnew]
      exact Or.inr hi
  mem := by
    intro j hj
    rw [← h.mem j hj]
    exact Function.update_of_ne (by omega) ..

/-- A loop all of whose rounds write to the screen only. -/
theorem within_foldl {step : Video → ℕ → Video} {n : ℕ} (hstep : ∀ m, ∀ k < n, Within m (step m k)) (m : Video) :
    Within m ((List.range n).foldl step m) := by
  refine List.foldlRecOn _ _ (Within.refl m) ?_
  intro m' h k hk
  exact h.trans (hstep m' k (List.mem_range.mp hk))

theorem within_blankCells (m : Video) {start : ℤ} {n : ℕ} (attributeByte : UInt8) (hstart : 0 ≤ start)
    (hend : start + 2 * n ≤ 4000) : Within m (blankCells m start n attributeByte) :=
  within_foldl (fun m' _ hk => ((Within.refl m').store (by omega) _).store (by omega) _) m

theorem within_scroll (m : Video) (attributeByte : UInt8) : Within m (scroll m attributeByte) := by
  rw [scroll]
  dsimp only
  refine Within.trans (within_foldl (fun m' k hk => ?_) m) (within_blankCells _ _ (by decide) (by decide))
  refine within_foldl (fun m'' j hj => (Within.refl m'').store ?_ _) m'
  simp only [maxRows, maxCols] at hk hj ⊢
  omega

theorem within_moveTo (m : Video) (v : Crtc) (offset : ℤ) (attributeByte : UInt8) :
    Within m (moveTo m v offset attributeByte).video := by
  rw [moveTo]
  split
  · exact within_scroll m attributeByte
  · exact Within.refl m

/-- Copying to lower places: each byte is read before it is written over. -/
theorem memcpy_mem (m : Video) {dest source : ℤ} {n : ℕ} (h : dest + n ≤ source) (i : ℤ) :
    (memcpy m dest source n).mem i = if dest ≤ i ∧ i < dest + n then m.mem (i - dest + source) else m.mem i := by
  induction n generalizing i with
  | zero => rw [if_neg (by omega), memcpy, List.range_zero, List.foldl_nil]
  | succ n ih =>
    have hround : (memcpy m dest source (n + 1)).mem i
        = Function.update (memcpy m dest source n).mem (dest + n) ((memcpy m dest source n).mem (source + n)) i := by
      rw [memcpy, List.range_succ, List.foldl_append]
      rfl
    rw [hround, ih (by omega) (source + n), if_neg (by omega)]
    by_cases hi : i = dest + n
    · rw [hi, Function.update_self, if_pos (by omega)]
      congr 1
      omega
    · rw [Function.update_of_ne hi, ih (by omega)]
      exact if_congr (by omega) rfl rfl

theorem blankCells_mem (m : Video) (start : ℤ) (n : ℕ) (attributeByte : UInt8) (i : ℤ) :
    (blankCells m start n attributeByte).mem i =
      if start ≤ i ∧ i < start + 2 * n then (if (i - start) % 2 = 0 then 32 else attributeByte) else m.mem i := by
  induction n with
  | zero => rw [if_neg (by omega), blankCells, List.range_zero, List.foldl_nil]
  | succ n ih =>
    have hround : (blankCells m start (n + 1) attributeByte).mem i = Function.update
        (Function.update (blankCells m start n attributeByte).mem (start + n * 2) 32) (start + n * 2 + 1)
          attributeByte i := by
      rw [blankCells, List.range_succ, List.foldl_append]
      rfl
    rw [hround]
    by_cases hattribute : i = start + n * 2 + 1
    · rw [hattribute, Function.update_self, if_pos (by omega), if_neg (by omega)]
    · rw [Function.update_of_ne hattribute]
      by_cases hchar : i = start + n * 2
      · rw [hchar, Function.update_self, if_pos (by omega), if_pos (by omega)]
      · rw [Function.update_of_ne hchar, ih]
        exact if_congr (by omega) rfl rfl

/-- After `n` rows: these rows are the ones below, the others as before. -/
theorem rows_mem (m : Video) (n : ℕ) (i : ℤ) :
    ((List.range n).foldl (fun (m : Video) (k : ℕ) =>
      memcpy m ((((k : ℤ) + 1) - 1) * maxCols * 2) (((k : ℤ) + 1) * maxCols * 2) (maxCols * 2)) m).mem i =
      if 0 ≤ i ∧ i < 160 * n then m.mem (i + 160) else m.mem i := by
  induction n generalizing i with
  | zero => rw [if_neg (by omega), List.range_zero, List.foldl_nil]
  | succ n ih =>
    have hcopy : (((n : ℤ) + 1) - 1) * maxCols * 2 + (maxCols * 2 : ℕ) ≤ ((n : ℤ) + 1) * maxCols * 2 := by
      simp only [maxCols]
      omega
    rw [List.range_succ, List.foldl_append, List.foldl_cons, List.foldl_nil, memcpy_mem _ hcopy]
    simp only [maxCols] at ih ⊢
    by_cases hrow : 160 * (n : ℤ) ≤ i ∧ i < 160 * (n : ℤ) + 160
    · rw [if_pos (by omega), ih, if_neg (by omega), if_pos (by omega)]
      congr 1
      omega
    · rw [if_neg (by omega), ih]
      exact if_congr (by omega) rfl rfl

/-- **Scrolling.** -/
theorem scroll_mem (m : Video) (attributeByte : UInt8) (i : ℤ) :
    (scroll m attributeByte).mem i =
      if 3840 ≤ i ∧ i < 4000 then (if i % 2 = 0 then 32 else attributeByte)
      else if 0 ≤ i ∧ i < 3840 then m.mem (i + 160) else m.mem i := by
  rw [scroll]
  dsimp only
  rw [blankCells_mem, rows_mem]
  simp only [maxRows, maxCols]
  refine if_congr (by omega) (if_congr (by omega) rfl rfl) (if_congr (by omega) rfl rfl)

/-! ### The refinement -/

/-- Cell `n` is written: its two bytes change, and those of no other cell. -/
theorem store_cell (m : Video) (c attributeByte : UInt8) (n k : ℕ) :
    ((m.store (2 * n) c).store (2 * n + 1) attributeByte).mem (2 * k) = (if k = n then c else m.mem (2 * k)) ∧
      ((m.store (2 * n) c).store (2 * n + 1) attributeByte).mem (2 * k + 1) =
        if k = n then attributeByte else m.mem (2 * k + 1) := by
  have hmem : ∀ i, ((m.store (2 * n) c).store (2 * n + 1) attributeByte).mem i
      = Function.update (Function.update m.mem (2 * n) c) (2 * n + 1) attributeByte i := fun _ => rfl
  rw [hmem, hmem, Function.update_of_ne (show (2 * (k : ℤ)) ≠ 2 * n + 1 by omega)]
  by_cases hk : k = n
  · rw [hk, if_pos rfl, if_pos rfl, Function.update_self, Function.update_self]
    exact ⟨rfl, rfl⟩
  · rw [if_neg hk, if_neg hk, Function.update_of_ne (by omega), Function.update_of_ne (by omega),
      Function.update_of_ne (by omega)]
    exact ⟨rfl, rfl⟩

/-- A character and its colours at the cursor. -/
theorem ShowsGrid.set {m : Video} {t : Terminal Cell 25 80} (h : ShowsGrid m.mem t.grid) (c attributeByte : UInt8)
    {offset : ℤ} (hoffset : offset = 2 * t.cursor.val) :
    ShowsGrid ((m.store offset c).store (offset + 1) attributeByte).mem (t.set ⟨c, attributeByte⟩).grid where
  char := by
    intro r c'
    rw [hoffset, (store_cell ..).1, Terminal.grid_set, apply_ite Cell.char, h.char]
    exact if_congr Fin.ext_iff.symm rfl rfl
  attributeByte := by
    intro r c'
    rw [hoffset, (store_cell ..).2, Terminal.grid_set, apply_ite Cell.attributeByte, h.attributeByte]
    exact if_congr Fin.ext_iff.symm rfl rfl

theorem ShowsGrid.scroll {m : Video} {t : Terminal Cell 25 80} (h : ShowsGrid m.mem t.grid) (attributeByte : UInt8) :
    ShowsGrid (scroll m attributeByte).mem (t.scroll ⟨32, attributeByte⟩).grid := by
  have hindex : ∀ (r : Fin 25) (c : Fin 80), (index r c).val = c.val + 80 * r.val := index_val
  have hnext : ∀ (r : Fin 25) (c : Fin 80) (hr : r.val + 1 < 25),
      (index ⟨r.val + 1, hr⟩ c).val = (index r c).val + 80 := by
    intro r c hr
    rw [hindex, hindex, Nat.mul_succ, Nat.add_assoc]
  constructor
  · intro r c
    have hrc := hindex r c
    rw [scroll_mem, Terminal.scroll]
    dsimp only
    by_cases hr : r.val + 1 < 25
    · rw [if_neg (by omega), if_pos (by omega), dif_pos hr, ← h.char, hnext]
      congr 1
    · rw [if_pos (by omega), if_pos (by omega), dif_neg hr]
  · intro r c
    have hrc := hindex r c
    rw [scroll_mem, Terminal.scroll]
    dsimp only
    by_cases hr : r.val + 1 < 25
    · rw [if_neg (by omega), if_pos (by omega), dif_pos hr, ← h.attributeByte, hnext]
      congr 1
    · rw [if_pos (by omega), if_neg (by omega), dif_neg hr]

/-- **The next row**, scrolled in if there is none. -/
theorem shows_moveTo_newline {m : Video} {t : Terminal Cell 25 80} (h : ShowsGrid m.mem t.grid) (v : Crtc)
    (attributeByte : UInt8) {offset : ℤ} (hoffset : offset = 160 * (t.row.val + 1)) :
    Shows (moveTo m v offset attributeByte) (t.newline ⟨32, attributeByte⟩) := by
  have hrow := t.row.isLt
  rw [moveTo]
  simp only [maxRows, maxCols]
  by_cases hlast : t.row.val + 1 < 25
  · obtain ⟨hgrid, hcursor⟩ := t.newline_of_lt ⟨32, attributeByte⟩ hlast
    rw [if_neg (by omega)]
    refine ⟨?_, ?_⟩
    · rw [hgrid]
      exact h
    · rw [hcursor, show offset = 2 * ((80 * (t.row.val + 1) : ℕ) : ℤ) by omega]
      exact cursorCell_setCursorOffset v (by omega)
  · obtain ⟨hgrid, hcursor⟩ := t.newline_of_last ⟨32, attributeByte⟩ (by omega)
    rw [if_pos (by omega)]
    refine ⟨?_, ?_⟩
    · rw [hgrid]
      exact h.scroll attributeByte
    · rw [hcursor, show offset - 2 * ((80 : ℕ) : ℤ) = 2 * ((80 * (25 - 1) : ℕ) : ℤ) by omega]
      exact cursorCell_setCursorOffset v (by omega)

/-- **One character.** -/
theorem shows_printChar {s : Vga} {t : Terminal Cell 25 80} (h : Shows s t) (c : UInt8) :
    Shows (printChar s c (-1) (-1) whiteOnBlack) (typeChar t c) ∧
      Within s.video (printChar s c (-1) (-1) whiteOnBlack).video := by
  have hcursor := t.cursor_val
  have hcol := t.col.isLt
  have hrow := t.row.isLt
  have hoffset := getCursorOffset_fst s.crtc
  rw [h.cursor] at hoffset
  rw [printChar, typeChar, if_neg (show ¬ whiteOnBlack = 0 by decide), if_neg (by decide)]
  dsimp only
  by_cases hc : c = 10
  · rw [if_pos hc, if_pos hc]
    refine ⟨shows_moveTo_newline h.grid _ _ ?_, within_moveTo ..⟩
    rw [getCursorOffset_fst, cursorCell_getCursorOffset, h.cursor]
    simp only [maxCols]
    rw [Int.tdiv_eq_ediv_of_nonneg (by omega)]
    omega
  · rw [if_neg hc, if_neg hc]
    have hgrid := h.grid.set c whiteOnBlack hoffset
    refine ⟨?_, (((Within.refl s.video).store (by omega) _).store (by omega) _).trans (within_moveTo ..)⟩
    by_cases hlast : t.col.val + 1 < 80
    · obtain ⟨hput, hnext⟩ := t.put_of_lt blank ⟨c, whiteOnBlack⟩ hlast
      rw [moveTo, if_neg (by simp only [maxRows, maxCols]; omega)]
      refine ⟨?_, ?_⟩
      · rw [hput]
        exact hgrid
      · rw [hnext, show (getCursorOffset s.crtc).1 + 2 = 2 * ((t.cursor.val + 1 : ℕ) : ℤ) by omega]
        exact cursorCell_setCursorOffset _ (by omega)
    · rw [t.put_of_last blank ⟨c, whiteOnBlack⟩ (by omega)]
      refine shows_moveTo_newline hgrid _ _ ?_
      show _ = 160 * ((t.row.val : ℤ) + 1)
      omega

/-- The message, character by character. -/
theorem shows_printLoop {s : Vga} {t : Terminal Cell 25 80} (h : Shows s t) (message : List UInt8) :
    Shows (printLoop (-1) message (-1) s) ((cString message).foldl typeChar t) ∧
      Within s.video (printLoop (-1) message (-1) s).video := by
  induction message generalizing s t with
  | nil => exact ⟨h, Within.refl _⟩
  | cons c cs ih =>
    rw [printLoop, cString]
    by_cases hc : c = 0
    · rw [if_pos hc, List.takeWhile_cons_of_neg (by simpa using hc)]
      exact ⟨h, Within.refl _⟩
    · rw [if_neg hc, if_neg (by decide), List.takeWhile_cons_of_pos (by simpa using hc), List.foldl_cons]
      obtain ⟨hshows, hwithin⟩ := shows_printChar h c
      obtain ⟨hrest, hwithin'⟩ := ih hshows
      exact ⟨hrest, hwithin.trans hwithin'⟩

theorem shows_kprintBackspace {s : Vga} {t : Terminal Cell 25 80} (h : Shows s t) :
    Shows (kprintBackspace s) (t.backspace blank) ∧ Within s.video (kprintBackspace s).video := by
  have hback := t.cursor_back
  have hlt := t.back.cursor.isLt
  have hoffset := getCursorOffset_fst s.crtc
  rw [h.cursor] at hoffset
  rw [kprintBackspace]
  dsimp only
  have hprev : (if (getCursorOffset s.crtc).1 - 2 < 0 then 0 else (getCursorOffset s.crtc).1 - 2)
      = 2 * (t.back.cursor.val : ℤ) := by
    split_ifs <;> omega
  rw [hprev]
  refine ⟨⟨?_, cursorCell_setCursorOffset _ (by omega)⟩,
    ((Within.refl s.video).store (by omega) _).store (by omega) _⟩
  have hgrid : ShowsGrid s.video.mem t.back.grid := by
    rw [t.grid_back]
    exact h.grid
  exact hgrid.set 32 0x0f rfl

theorem shows_clearScreen (s : Vga) (t : Terminal Cell 25 80) :
    Shows (clearScreen s) (t.clear blank) ∧ Within s.video (clearScreen s).video := by
  have hwithin : Within s.video (blankCells s.video 0 (maxCols * maxRows) whiteOnBlack) :=
    within_blankCells _ _ le_rfl (by simp only [maxRows, maxCols]; omega)
  rw [clearScreen]
  dsimp only
  refine ⟨⟨⟨?_, ?_⟩, ?_⟩, hwithin⟩
  · intro r c
    have hlt := (index r c).isLt
    rw [blankCells_mem, if_pos (by simp only [maxRows, maxCols]; omega), if_pos (by omega)]
    rfl
  · intro r c
    have hlt := (index r c).isLt
    rw [blankCells_mem, if_pos (by simp only [maxRows, maxCols]; omega), if_neg (by omega)]
    rfl
  · rw [t.cursor_clear blank]
    exact cursorCell_setCursorOffset s.crtc (n := 0) (by decide)

/-- **One call.** -/
theorem shows_call {s : Vga} {t : Terminal Cell 25 80} (h : Shows s t) (c : Call) :
    Shows (call s c) (c.onTerminal t) ∧ Within s.video (call s c).video := by
  cases c with
  | kprint message => exact shows_printLoop h message
  | kprintBackspace => exact shows_kprintBackspace h
  | clearScreen => exact shows_clearScreen s t

/-- **The screen is a terminal.**  From any screen with its cursor in one of the 2000 cells, every sequence of calls
leaves on the screen what it leaves on the terminal; the cursor offset is even and on the screen, and only the 4000
bytes of the screen have been written. -/
theorem screen_refines_terminal (s : Vga) (h : cursorCell s.crtc < 2000) (calls : List Call) :
    Shows (run call s calls) (run Call.onTerminal (terminalOf s h) calls) ∧
      (getCursorOffset (run call s calls).crtc).1 % 2 = 0 ∧
      0 ≤ (getCursorOffset (run call s calls).crtc).1 ∧ (getCursorOffset (run call s calls).crtc).1 < 4000 ∧
      Within s.video (run call s calls).video := by
  have hrun : Shows (run call s calls) (run Call.onTerminal (terminalOf s h) calls) ∧
      Within s.video (run call s calls).video := by
    induction calls using List.reverseRecOn with
    | nil => exact ⟨shows_terminalOf s h, Within.refl _⟩
    | append_singleton calls c ih =>
      obtain ⟨hshows, hwithin⟩ := ih
      obtain ⟨hshows', hwithin'⟩ := shows_call hshows c
      rw [run_concat, run_concat]
      exact ⟨hshows', hwithin.trans hwithin'⟩
  obtain ⟨hshows, hwithin⟩ := hrun
  have hlt := (run Call.onTerminal (terminalOf s h) calls).cursor.isLt
  have hoffset := getCursorOffset_fst (run call s calls).crtc
  rw [hshows.cursor] at hoffset
  exact ⟨hshows, by omega, by omega, by omega, hwithin⟩

/-- A cleared memory with the cursor in the last cell. -/
def lastCell : Vga := ⟨⟨fun _ => 0, []⟩, ⟨0, fun i => if i = 14 then 7 else 207⟩⟩

/-- Two characters, a new line and a step back. -/
def okAndBack : List Call := [.kprint (Ata.text "ok\n"), .kprintBackspace]

/-- From the last cell on: the first character and the new line scroll. -/
theorem screen_refines_terminal_last_cell :
    Shows (run call lastCell okAndBack) (run Call.onTerminal (terminalOf lastCell (by decide)) okAndBack) ∧
      Within lastCell.video (run call lastCell okAndBack).video :=
  have hrun := screen_refines_terminal lastCell (by decide) okAndBack
  ⟨hrun.1, hrun.2.2.2.2⟩

end OsEojin.Screen
