import OsEojin.IdentityMap

/-!
# The second stage of the loader

`src/boot/loader.asm` and `src/boot/long_mode_init.asm`: the loop that asks the BIOS for its memory map, and the
page tables the processor enters long mode with.

* `Bios`, `e820Loop`, `detectMemory`: the calls of `int 0x15` and the table at `0x5000`; `bootEntries`: the same
  table as `memory.c` and `pmm.c` read it;
* `setupPaging`: three tables at `0x1000`, the last one with 512 pages of 2 MB;
* `memory_map_round_trip`: `init_pmm` sees the map the BIOS reported;
* `boot_tables_identity`: the first gigabyte is mapped to itself and nothing else is, so that the switch in
  `vmm_init` moves nothing.
-/

namespace OsEojin.Loader

open OsEojin.Lib.ByteMemory OsEojin.Pmm OsEojin.Vmm

/-! ### The memory map of the BIOS -/

/-- What `int 0x15` leaves: the carry flag, `ebx` and memory. -/
structure BiosAnswer where
  carry : Bool
  ebx : UInt32
  mem : Memory

/-- The service `0xe820` of `int 0x15`, for `ebx`, `di` and the memory it finds; `es` is zero, and `edx` still holds
the signature that `stage2_start` sets once, before the loop. -/
abbrev Bios := UInt32 → UInt16 → Memory → BiosAnswer

/-- `.e820_loop`: the number of entries and memory, given fuel. -/
def e820Loop (bios : Bios) : ℕ → UInt32 → UInt16 → UInt16 → Memory → Option (UInt16 × Memory)
  | 0, _, _, _, _ => none
  | fuel + 1, ebx, di, bp, m =>
    let a := bios ebx di m
    if a.carry then some (bp, a.mem)
    else if a.ebx = 0 then some (bp + 1, a.mem)
    else e820Loop bios fuel a.ebx (di + 24) (bp + 1) a.mem

/-- The first entry, and the word in front of it with their number. -/
def mapEntries : ℕ := 0x5004

def mapCount : ℕ := 0x5000

/-- `stage2_start` sets `sp` to its own first byte: above are its instructions, below the frames of its calls. -/
def loaderStack : ℕ := 0x7e00

/-- The loop and `.e820_done`.  The loader's own instructions and stack are not in this memory: it is what they find as
long as the table ends below them. -/
def detectMemory (bios : Bios) (fuel : ℕ) (m : Memory) : Option Memory :=
  (e820Loop bios fuel 0 (UInt16.ofNat mapEntries) 0 m).map fun r => writeLe r.2 mapCount 2 r.1.toNat

/-- The `memory_map_entry_t` at `a`; nothing reads its `acpi`. -/
def entryAt (m : Memory) (a : ℕ) : MemoryMapEntry :=
  ⟨UInt64.ofNat (readLe m a 8), UInt64.ofNat (readLe m (a + 8) 8), UInt32.ofNat (readLe m (a + 16) 4)⟩

/-- `entries[0]` to `entries[n - 1]`. -/
def entriesFrom (m : Memory) : ℕ → ℕ → List MemoryMapEntry
  | _, 0 => []
  | a, n + 1 => entryAt m a :: entriesFrom m (a + 24) n

/-- The map as `init_pmm` and `print_memory_map` read it. -/
def bootEntries (m : Memory) : List MemoryMapEntry := entriesFrom m mapEntries (readLe m mapCount 2)

/-! ### The boot page tables -/

/-- `.fill_pd` with `n` entries to go. -/
def fillPd : ℕ → ℕ → ℕ → Memory → Memory
  | 0, _, _, m => m
  | n + 1, edi, eax, m => fillPd n (edi + 8) ((eax + 0x200000) % 2 ^ 32) (writeLe m edi 4 eax)

/-- `setup_paging`. -/
def setupPaging (m : Memory) : Memory :=
  let m := fill m 0x1000 (4 * (1024 * 3)) 0
  let m := writeLe m 0x1000 4 (0x2000 ||| 0b111)
  let m := writeLe m 0x2000 4 (0x3000 ||| 0b111)
  fillPd 512 0x3000 (0 ||| 0b10000111) m

/-- The value `enable_paging` loads into `cr3`. -/
def bootPml4 : ℕ := 0x1000

/-! ### What the BIOS reports -/

/-- The map of the BIOS: for each continuation value the entry it stands for and the next value. -/
abbrev BiosTable := UInt32 → Option (MemoryMapEntry × UInt32)

/-- The entries from a continuation value on; the list ends with the value 0 or with a call that fails. -/
inductive Lists (table : BiosTable) : UInt32 → List MemoryMapEntry → Prop where
  | fails {c : UInt32} (h : table c = none) : Lists table c []
  | last {c : UInt32} {e : MemoryMapEntry} (h : table c = some (e, 0)) : Lists table c [e]
  | next {c c' : UInt32} {e : MemoryMapEntry} {es : List MemoryMapEntry} (h : table c = some (e, c'))
      (h0 : c' ≠ 0) (hrest : Lists table c' es) : Lists table c (e :: es)

/-- The 24 bytes at `di` end below the loader and the `stack` bytes that a call needs on its stack. -/
def BufferFits (stack : ℕ) (di : UInt16) : Prop := di.toNat + 24 + stack ≤ loaderStack

/-- The documented behaviour of the service, where its buffer fits: it stores the entry of the continuation value at
`es:di` and returns the next value, or sets carry; the entries stored before stay. -/
structure Documented (bios : Bios) (stack : ℕ) (table : BiosTable) : Prop where
  carry : ∀ c di m, BufferFits stack di → ((bios c di m).carry = true ↔ table c = none)
  stored : ∀ c di m e c', BufferFits stack di → table c = some (e, c') →
    (bios c di m).ebx = c' ∧ entryAt (bios c di m).mem di.toNat = e
  kept : ∀ c di m x, BufferFits stack di → mapEntries ≤ x → x < di.toNat → (bios c di m).mem x = m x

/-! ### The round trip of the map -/

section Map

variable {bios : Bios} {stack : ℕ} {table : BiosTable}

theorem entryAt_congr {m m' : Memory} {a : ℕ} (h : ∀ x, a ≤ x → x < a + 24 → m' x = m x) :
    entryAt m' a = entryAt m a := by
  have h1 : readLe m' a 8 = readLe m a 8 := readLe_congr fun x hx hx' => h x hx (by omega)
  have h2 : readLe m' (a + 8) 8 = readLe m (a + 8) 8 := readLe_congr fun x hx hx' => h x (by omega) (by omega)
  have h3 : readLe m' (a + 16) 4 = readLe m (a + 16) 4 := readLe_congr fun x hx hx' => h x (by omega) (by omega)
  rw [entryAt, entryAt, h1, h2, h3]

theorem entriesFrom_congr {m m' : Memory} {a n : ℕ} (h : ∀ x, a ≤ x → x < a + 24 * n → m' x = m x) :
    entriesFrom m' a n = entriesFrom m a n := by
  induction n generalizing a with
  | zero => rfl
  | succ n ih =>
    rw [entriesFrom, entriesFrom, entryAt_congr fun x hx hx' => h x hx (by omega),
      ih fun x hx hx' => h x (by omega) (by omega)]

/-- **The loop** stores the entries one behind the other, counts them, and ends. -/
theorem e820Loop_spec (hbios : Documented bios stack table) {c : UInt32} {es : List MemoryMapEntry}
    (hes : Lists table c es) : ∀ (di bp : UInt16) (m : Memory) (fuel : ℕ), mapEntries ≤ di.toNat →
      di.toNat + 24 * (es.length + 1) + stack ≤ loaderStack → es.length < fuel →
      ∃ m', e820Loop bios fuel c di bp m = some (bp + UInt16.ofNat es.length, m') ∧
        entriesFrom m' di.toNat es.length = es ∧ ∀ x, mapEntries ≤ x → x < di.toNat → m' x = m x := by
  induction hes with
  | @fails c h =>
    intro di bp m fuel _ hroom hfuel
    have hfits : BufferFits stack di := by
      rw [List.length_nil] at hroom
      rw [BufferFits]
      omega
    cases fuel with
    | zero => simp at hfuel
    | succ fuel =>
      have hcarry := (hbios.carry c di m hfits).mpr h
      refine ⟨(bios c di m).mem, ?_, rfl, fun x hx hx' => hbios.kept c di m x hfits hx hx'⟩
      rw [e820Loop, if_pos hcarry]
      simp
  | @last c e h =>
    intro di bp m fuel _ hroom hfuel
    have hfits : BufferFits stack di := by
      rw [List.length_singleton] at hroom
      rw [BufferFits]
      omega
    cases fuel with
    | zero => simp at hfuel
    | succ fuel =>
      have hcarry : ¬ (bios c di m).carry = true := by
        rw [hbios.carry c di m hfits, h]
        simp
      obtain ⟨hebx, hentry⟩ := hbios.stored c di m e 0 hfits h
      refine ⟨(bios c di m).mem, ?_, ?_, fun x hx hx' => hbios.kept c di m x hfits hx hx'⟩
      · rw [e820Loop, if_neg hcarry, if_pos hebx]
        simp
      · rw [List.length_singleton, entriesFrom, entriesFrom, hentry]
  | @next c c' e es h h0 _ ih =>
    intro di bp m fuel hlow hroom hfuel
    rw [List.length_cons] at hroom hfuel
    have hfits : BufferFits stack di := by
      rw [BufferFits]
      omega
    cases fuel with
    | zero => simp at hfuel
    | succ fuel =>
      have hcarry : ¬ (bios c di m).carry = true := by
        rw [hbios.carry c di m hfits, h]
        simp
      obtain ⟨hebx, hentry⟩ := hbios.stored c di m e c' hfits h
      have hdi : (di + 24).toNat = di.toNat + 24 := by
        have h24 : (24 : UInt16).toNat = 24 := rfl
        rw [loaderStack] at hroom
        rw [UInt16.toNat_add, h24]
        omega
      obtain ⟨m', hloop, hread, hkept⟩ := ih (di + 24) (bp + 1) (bios c di m).mem fuel (by omega) (by omega)
        (by omega)
      rw [hdi] at hread hkept
      refine ⟨m', ?_, ?_, ?_⟩
      · rw [e820Loop, if_neg hcarry, if_neg (by rw [hebx]; exact h0), hebx, hloop, List.length_cons, UInt16.ofNat_add,
          UInt16.add_assoc, UInt16.add_comm (UInt16.ofNat es.length)]
        rfl
      · rw [List.length_cons, entriesFrom, hread, ← hentry, entryAt_congr fun x hx hx' => hkept x (by omega) hx']
      · intro x hx hx'
        rw [hkept x hx (by omega)]
        exact hbios.kept c di m x hfits hx hx'

end Map

/-! ### The boot tables -/

/-- A 32-bit store into zeros, read as an entry. -/
theorem readLe_write32 {m : Memory} {a v : ℕ} (hv : v < 2 ^ 32) (hzero : ∀ x, a ≤ x → x < a + 8 → m x = 0) :
    readLe (writeLe m a 4 v) a 8 = v := by
  have hhigh : readLe (writeLe m a 4 v) (a + 4) 4 = 0 := by
    rw [readLe_writeLe_of_disjoint (by omega)]
    exact readLe_of_zeros fun x hx hx' => hzero x (by omega) (by omega)
  rw [readLe_add _ a 4 4, readLe_writeLe_same, hhigh]
  omega

/-- The entries `.fill_pd` writes into zeros. -/
theorem readLe_fillPd (n : ℕ) : ∀ (edi eax : ℕ) (m : Memory), eax + n * 0x200000 < 2 ^ 32 →
    (∀ x, edi ≤ x → x < edi + 8 * n → m x = 0) →
    (∀ i, i < n → readLe (fillPd n edi eax m) (edi + 8 * i) 8 = eax + i * 0x200000) ∧
      ∀ x, x < edi ∨ edi + 8 * n ≤ x → fillPd n edi eax m x = m x := by
  induction n with
  | zero =>
    intro edi eax m _ _
    exact ⟨fun i hi => absurd hi (Nat.not_lt_zero i), fun _ _ => rfl⟩
  | succ n ih =>
    intro edi eax m heax hzero
    have hmod : (eax + 0x200000) % 2 ^ 32 = eax + 0x200000 := Nat.mod_eq_of_lt (by omega)
    have hsame : ∀ x, x < edi ∨ edi + 4 ≤ x → writeLe m edi 4 eax x = m x := by
      intro x hx
      rw [writeLe, if_neg (by omega)]
    obtain ⟨hread, hkept⟩ := ih (edi + 8) (eax + 0x200000) (writeLe m edi 4 eax) (by omega) (by
      intro x hx hx'
      rw [hsame x (by omega)]
      exact hzero x (by omega) (by omega))
    rw [fillPd, hmod]
    refine ⟨?_, ?_⟩
    · intro i hi
      cases i with
      | zero =>
        have hfirst := readLe_congr (n := 8) (a := edi) fun x _ hx' => hkept x (by omega)
        show readLe (fillPd n (edi + 8) (eax + 0x200000) (writeLe m edi 4 eax)) edi 8 = eax + 0 * 0x200000
        rw [hfirst, readLe_write32 (by omega) fun x hx hx' => hzero x hx (by omega), Nat.zero_mul, Nat.add_zero]
      | succ i =>
        have hi' := hread i (by omega)
        rw [show edi + 8 * (i + 1) = edi + 8 + 8 * i from by omega, hi']
        ring
    · intro x hx
      rw [hkept x (by omega), hsame x (by omega)]

section Tables

variable (m : Memory)

/-- The two upper tables have one entry, the last one 512. -/
theorem setupPaging_spec :
    (∀ i : Fin 512, entry (setupPaging m) 0x1000 i = if i = 0 then 0x2007 else 0) ∧
    (∀ i : Fin 512, entry (setupPaging m) 0x2000 i = if i = 0 then 0x3007 else 0) ∧
    (∀ i : Fin 512, entry (setupPaging m) 0x3000 i = i * 0x200000 + 0x87) ∧
    ∀ x, x < 0x1000 ∨ 0x4000 ≤ x → setupPaging m x = m x := by
  set m0 := fill m 0x1000 (4 * (1024 * 3)) 0 with hm0
  set m1 := writeLe m0 0x1000 4 0x2007 with hm1
  set m2 := writeLe m1 0x2000 4 0x3007 with hm2
  have hzero : ∀ x, 0x1000 ≤ x → x < 0x4000 → m0 x = 0 := by
    intro x hx hx'
    rw [hm0, fill, if_pos (by omega)]
  have h1 : ∀ x, x < 0x1000 ∨ 0x1004 ≤ x → m1 x = m0 x := by
    intro x hx
    rw [hm1, writeLe, if_neg (by omega)]
  have h2 : ∀ x, x < 0x2000 ∨ 0x2004 ≤ x → m2 x = m1 x := by
    intro x hx
    rw [hm2, writeLe, if_neg (by omega)]
  obtain ⟨hpd, hkept⟩ := readLe_fillPd 512 0x3000 0x87 m2 (by decide) (by
    intro x hx hx'
    rw [h2 x (by omega), h1 x (by omega)]
    exact hzero x (by omega) (by omega))
  have hset : setupPaging m = fillPd 512 0x3000 0x87 m2 := rfl
  rw [hset]
  -- below `0x3000` the upper tables are as they were before the loop
  have hupper : ∀ t : ℕ, t + 0x1000 ≤ 0x3000 → ∀ i : Fin 512, entry (fillPd 512 0x3000 0x87 m2) t i
      = readLe m2 (t + 8 * i) 8 := by
    intro t ht i
    exact readLe_congr fun x hx hx' => hkept x (by have := i.isLt; omega)
  refine ⟨?_, ?_, ?_, ?_⟩
  · intro i
    rw [hupper 0x1000 (by omega), readLe_congr fun x hx hx' => h2 x (by have := i.isLt; omega)]
    by_cases hi : i = 0
    · rw [if_pos hi, hi]
      exact readLe_write32 (by decide) fun x hx hx' => hzero x hx (by omega)
    · have hi' : (i : ℕ) ≠ 0 := fun h => hi (Fin.ext h)
      rw [if_neg hi]
      refine readLe_of_zeros fun x hx hx' => ?_
      rw [h1 x (by omega)]
      exact hzero x (by omega) (by have := i.isLt; omega)
  · intro i
    rw [hupper 0x2000 (by omega)]
    by_cases hi : i = 0
    · rw [if_pos hi, hi]
      refine readLe_write32 (by decide) fun x hx hx' => ?_
      rw [h1 x (by omega)]
      exact hzero x (by omega) (by omega)
    · have hi' : (i : ℕ) ≠ 0 := fun h => hi (Fin.ext h)
      rw [if_neg hi]
      refine readLe_of_zeros fun x hx hx' => ?_
      rw [h2 x (by omega), h1 x (by omega)]
      exact hzero x (by omega) (by have := i.isLt; omega)
  · intro i
    rw [entry, hpd i i.isLt]
    omega
  · intro x hx
    rw [hkept x (by omega), h2 x (by omega), h1 x (by omega), hm0, fill_of_notMem (by omega)]

theorem pml4Index_eq_zero_iff {v : ℕ} (hv : v < 2 ^ 48) : pml4Index v = 0 ↔ v < 2 ^ 39 := by
  rw [pml4Index, Fin.ext_iff, Fin.val_ofNat, Nat.shiftRight_eq_div_pow]
  show v / 2 ^ 39 % 512 = 0 ↔ v < 2 ^ 39
  omega

theorem pdptIndex_eq_zero_iff {v : ℕ} (hv : v < 2 ^ 39) : pdptIndex v = 0 ↔ v < 2 ^ 30 := by
  rw [pdptIndex, Fin.ext_iff, Fin.val_ofNat, Nat.shiftRight_eq_div_pow]
  show v / 2 ^ 30 % 512 = 0 ↔ v < 2 ^ 30
  omega

theorem pdIndex_val {v : ℕ} (hv : v < 2 ^ 30) : ((pdIndex v : Fin 512) : ℕ) = v / 2 ^ 21 := by
  rw [pdIndex, Fin.val_ofNat, Nat.shiftRight_eq_div_pow]
  omega

theorem tableOf_huge (i : Fin 512) : tableOf (i * 0x200000 + 0x87) = i * 0x200000 := by
  have hi := i.isLt
  rw [tableOf_eq]
  omega

theorem present_huge (i : Fin 512) : present (i * 0x200000 + 0x87) = true := by
  rw [present_iff]
  omega

theorem endsWalk_huge (i : Fin 512) : endsWalk (i * 0x200000 + 0x87) 1 = true := by
  have hlow : (i * 0x200000 + 0x87 : ℕ) % 4096 = 0x87 := by omega
  have hbit := and_flag_mod (i * 0x200000 + 0x87) (k := 7) (by decide)
  rw [hlow] at hbit
  have hhuge : (i * 0x200000 + 0x87 : ℕ) &&& pagingFlagHugePage = 0x80 := hbit.symm
  rw [endsWalk, hhuge]
  simp

theorem flags_huge (i : Fin 512) : (i * 0x200000 + 0x87 : ℕ) &&& pagingFlagsAll = pagingFlagsAll := by
  have hseven : pagingFlagsAll = 2 ^ 3 - 1 := by decide
  rw [hseven, Nat.and_two_pow_sub_one_eq_mod]
  omega

/-- The walk of an address below one gigabyte ends at a page of 2 MB. -/
theorem pageWalk_boot {v : ℕ} (hv : v < 2 ^ 30) :
    pageWalk (setupPaging m) bootPml4 v = ([0x2007, 0x3007, pdIndex v * 0x200000 + 0x87] : List ℕ) := by
  obtain ⟨hpml4, hpdpt, hpd, -⟩ := setupPaging_spec m
  have h4 : pml4Index v = 0 := (pml4Index_eq_zero_iff (by omega)).mpr (by omega)
  have h3 : pdptIndex v = 0 := (pdptIndex_eq_zero_iff (by omega)).mpr hv
  have e4 : entry (setupPaging m) 0x1000 (pml4Index v) = 0x2007 := by rw [hpml4, if_pos h4]
  have e3 : entry (setupPaging m) 0x2000 (pdptIndex v) = 0x3007 := by rw [hpdpt, if_pos h3]
  have t4 : tableOf 0x2007 = 0x2000 := by decide
  have t3 : tableOf 0x3007 = 0x3000 := by decide
  have w4 : ¬ endsWalk 0x2007 3 = true := by decide
  have w3 : ¬ endsWalk 0x3007 2 = true := by decide
  show walkFrom (setupPaging m) 0x1000 [pml4Index v, pdptIndex v, pdIndex v, ptIndex v] = _
  rw [walkFrom, e4]
  show (if endsWalk 0x2007 3 = true then _ else _) = _
  rw [if_neg w4, t4, walkFrom, e3]
  show 0x2007 :: (if endsWalk 0x3007 2 = true then _ else _) = _
  rw [if_neg w3, t3, walkFrom, hpd]
  show 0x2007 :: 0x3007 :: (if endsWalk (pdIndex v * 0x200000 + 0x87) 1 = true then _ else _) = _
  rw [if_pos (endsWalk_huge _)]

/-- Above one gigabyte the walk ends at an absent entry of one of the two upper tables. -/
theorem translate_boot_high {v : ℕ} (hv : 2 ^ 30 ≤ v) (hv' : v < 2 ^ 48) :
    Vmm.translate (setupPaging m) bootPml4 v = none := by
  obtain ⟨hpml4, hpdpt, -, -⟩ := setupPaging_spec m
  have w0 : ∀ left, endsWalk 0 left = true := fun left => by simp [endsWalk, present]
  by_cases h4 : v < 2 ^ 39
  · have e4 : entry (setupPaging m) 0x1000 (pml4Index v) = 0x2007 := by
      rw [hpml4, if_pos ((pml4Index_eq_zero_iff hv').mpr h4)]
    have h3 : ¬ pdptIndex v = 0 := fun h => by
      have := (pdptIndex_eq_zero_iff h4).mp h
      omega
    have e3 : entry (setupPaging m) 0x2000 (pdptIndex v) = 0 := by rw [hpdpt, if_neg h3]
    have t4 : tableOf 0x2007 = 0x2000 := by decide
    have w4 : ¬ endsWalk 0x2007 3 = true := by decide
    have hwalk : pageWalk (setupPaging m) bootPml4 v = [0x2007, 0] := by
      show walkFrom (setupPaging m) 0x1000 [pml4Index v, pdptIndex v, pdIndex v, ptIndex v] = _
      rw [walkFrom, e4]
      show (if endsWalk 0x2007 3 = true then _ else _) = _
      rw [if_neg w4, t4, walkFrom, e3, if_pos (w0 _)]
    rw [Vmm.translate, hwalk]
    rfl
  · have e4 : entry (setupPaging m) 0x1000 (pml4Index v) = 0 := by
      rw [hpml4, if_neg ((pml4Index_eq_zero_iff hv').not.mpr h4)]
    have hwalk : pageWalk (setupPaging m) bootPml4 v = [0] := by
      show walkFrom (setupPaging m) 0x1000 [pml4Index v, pdptIndex v, pdIndex v, ptIndex v] = _
      rw [walkFrom, e4, if_pos (w0 _)]
    rw [Vmm.translate, hwalk]

theorem translate_boot_low {v : ℕ} (hv : v < 2 ^ 30) : Vmm.translate (setupPaging m) bootPml4 v = some v := by
  rw [Vmm.translate, pageWalk_boot m hv]
  show (if present (pdIndex v * 0x200000 + 0x87) = true then _ else _) = _
  rw [if_pos (present_huge _), tableOf_huge, pdIndex_val hv]
  congr 1
  omega

end Tables

/-! ### Main results -/

/-- **The memory map arrives.**  For a BIOS that answers as documented and reports the entries `es`, however it ends
its list, with room for them and for the buffer of one more call below the loader at `0x7e00` and its stack (`stack`
bytes in a call): the loop ends, and what `init_pmm` later finds at `0x5000`, after the page tables have been written
too, is exactly `es` in the order of the BIOS; so a block above the reserved 32 MB that the bitmap covers is free after
`init_pmm` exactly if the BIOS reported it in a usable region. -/
theorem memory_map_round_trip (bios : Bios) (stack : ℕ) (table : BiosTable) (es : List MemoryMapEntry) (m : Memory)
    (fuel : ℕ) (ram : Bitmap) (hbios : Documented bios stack table) (hes : Lists table 0 es)
    (hroom : mapEntries + 24 * (es.length + 1) + stack ≤ loaderStack) (hfuel : es.length < fuel) :
    ∃ m', detectMemory bios fuel m = some m' ∧ bootEntries (setupPaging m') = es ∧
      ∀ i, reservedBlocks ≤ i → i < 8 * ((maxAddr es).toNat / blockSize / 8) →
        (testBit (initPmm ram (bootEntries (setupPaging m'))).bitmap i = false ↔ Usable es i) := by
  have hdi : (UInt16.ofNat mapEntries).toNat = mapEntries := by decide
  obtain ⟨m₁, hloop, hread, -⟩ := e820Loop_spec hbios hes (UInt16.ofNat mapEntries) 0 m fuel (by rw [hdi])
    (by rw [hdi]; exact hroom) hfuel
  rw [hdi] at hread
  have hlen : es.length < 2 ^ 16 := by
    rw [loaderStack] at hroom
    omega
  have hcount : ((0 : UInt16) + UInt16.ofNat es.length).toNat = es.length := by
    rw [UInt16.zero_add, UInt16.toNat_ofNat', Nat.mod_eq_of_lt hlen]
  have hdetect : detectMemory bios fuel m = some (writeLe m₁ mapCount 2 es.length) := by
    rw [detectMemory, hloop, Option.map_some]
    dsimp only
    rw [hcount]
  have htables := (setupPaging_spec (writeLe m₁ mapCount 2 es.length)).2.2.2
  have hentries : bootEntries (setupPaging (writeLe m₁ mapCount 2 es.length)) = es := by
    have hn : readLe (setupPaging (writeLe m₁ mapCount 2 es.length)) mapCount 2 = es.length := by
      rw [readLe_congr fun x hx hx' => htables x (Or.inr (by rw [mapCount] at hx; omega)), readLe_writeLe_same]
      exact Nat.mod_eq_of_lt hlen
    rw [bootEntries, hn, entriesFrom_congr (m := m₁), hread]
    intro x hx hx'
    rw [mapEntries] at hx
    rw [htables x (by omega), writeLe, if_neg (by rw [mapCount]; omega)]
  refine ⟨_, hdetect, hentries, ?_⟩
  intro i hres hcover
  rw [hentries, ← Bool.not_eq_true, testBit_initPmm]
  constructor
  · intro h
    by_contra hno
    exact h (Or.inr ⟨hno, Or.inl hcover⟩)
  · intro husable h
    cases h with
    | inl hlow => exact absurd hlow (Nat.not_lt.mpr hres)
    | inr hout => exact hout.1 husable

/-- A BIOS with two entries. -/
def smallTable : BiosTable := fun c =>
  if c = 0 then some (⟨0, 0x9fc00, 1⟩, 7) else if c = 7 then some (⟨0x100000, 0x3ff00000, 1⟩, 0) else none

/-- It stores base, length and type. -/
def smallBios : Bios := fun c di m =>
  match smallTable c with
  | none => ⟨true, c, m⟩
  | some (e, c') =>
    ⟨false, c', writeLe (writeLe (writeLe m di.toNat 8 e.baseAddr.toNat) (di.toNat + 8) 8 e.length.toNat)
      (di.toNat + 16) 4 e.type.toNat⟩

theorem documented_smallBios : Documented smallBios 1024 smallTable := by
  refine ⟨?_, ?_, ?_⟩
  · intro c di m _
    rw [smallBios]
    cases smallTable c <;> simp
  · intro c di m e c' _ h
    rw [smallBios, h]
    refine ⟨rfl, ?_⟩
    have h1 : e.baseAddr.toNat < 256 ^ 8 := UInt64.toNat_lt _
    have h2 : e.length.toNat < 256 ^ 8 := UInt64.toNat_lt _
    have h3 : e.type.toNat < 256 ^ 4 := UInt32.toNat_lt _
    dsimp only
    rw [entryAt, readLe_writeLe_of_disjoint (by omega), readLe_writeLe_of_disjoint (by omega), readLe_writeLe_same,
      readLe_writeLe_of_disjoint (by omega), readLe_writeLe_same, readLe_writeLe_same, Nat.mod_eq_of_lt h1,
      Nat.mod_eq_of_lt h2, Nat.mod_eq_of_lt h3, UInt64.ofNat_toNat, UInt64.ofNat_toNat, UInt32.ofNat_toNat]
  · intro c di m x _ _ hx
    rw [smallBios]
    cases smallTable c with
    | none => rfl
    | some r =>
      dsimp only
      rw [writeLe, if_neg (by omega), writeLe, if_neg (by omega), writeLe, if_neg (by omega)]

theorem memory_map_round_trip_small :
    ∃ m', detectMemory smallBios 3 (fun _ => 0xff) = some m' ∧
      bootEntries (setupPaging m') = [⟨0, 0x9fc00, 1⟩, ⟨0x100000, 0x3ff00000, 1⟩] := by
  have hlist : Lists smallTable 0 [⟨0, 0x9fc00, 1⟩, ⟨0x100000, 0x3ff00000, 1⟩] :=
    .next (show smallTable 0 = some (_, 7) from rfl) (by decide) (.last rfl)
  obtain ⟨m', hrun, hentries, -⟩ := memory_map_round_trip smallBios 1024 smallTable _ (fun _ => 0xff) 3 (fun _ => 0)
    documented_smallBios hlist (by decide) (by decide)
  exact ⟨m', hrun, hentries⟩

/-- **The boot page tables.**  Whatever memory held before, they map the first gigabyte to itself and no other
address; every entry on the way allows writes and user access.  So when `vmm_init` loads its own tables, every
address they map was mapped to the same place before. -/
theorem boot_tables_identity (m : Memory) :
    (∀ v, v < 2 ^ 48 → Vmm.translate (setupPaging m) bootPml4 v = if v < 2 ^ 30 then some v else none) ∧
    (∀ v, v < 2 ^ 30 → ∀ e ∈ pageWalk (setupPaging m) bootPml4 v, e &&& pagingFlagsAll = pagingFlagsAll) ∧
    ∀ (s : VmState) (v : ℕ), 259 ≤ (freeBelow s.pmm (2 ^ 40)).card → v < 2 ^ 48 →
      ∀ x, Vmm.translate (vmmInit s).mem (vmmInit s).kernelPml4 v = some x →
        Vmm.translate (setupPaging m) bootPml4 v = some x := by
  have hall : ∀ v, v < 2 ^ 48 → Vmm.translate (setupPaging m) bootPml4 v = if v < 2 ^ 30 then some v else none := by
    intro v hv
    split
    · rename_i hlow
      exact translate_boot_low m hlow
    · rename_i hhigh
      exact translate_boot_high m (by omega) hv
  refine ⟨hall, ?_, ?_⟩
  · intro v hv e he
    rw [pageWalk_boot m hv] at he
    simp only [List.mem_cons, List.not_mem_nil, or_false] at he
    rcases he with rfl | rfl | rfl
    · decide
    · decide
    · exact flags_huge _
  · intro s v hblocks hv x hx
    have htree := vmmInit_identityTree hblocks
    by_cases hlow : v < identityMapEnd
    · rw [htree.translate_low hlow] at hx
      rw [identityMapEnd] at hlow
      rw [hall v hv, if_pos (by omega), hx]
    · rw [htree.translate_high (by omega) hv] at hx
      cases hx

theorem boot_tables_identity_freshVm :
    Vmm.translate (setupPaging fun _ => 0xff) bootPml4 0x1234567 = some 0x1234567 := by
  have hblocks : 259 ≤ (freeBelow freshVm.pmm (2 ^ 40)).card := by
    rw [freeBelow_freshVm, Finset.card_range]
    decide
  exact (boot_tables_identity fun _ => 0xff).2.2 freshVm 0x1234567 hblocks (by decide) 0x1234567
    ((vmmInit_identityTree hblocks).translate_low (by decide))

end OsEojin.Loader
