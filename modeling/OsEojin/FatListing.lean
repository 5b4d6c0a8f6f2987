import OsEojin.DeleteScan
import OsEojin.FatGeometry

/-!
# What `fat_list` prints

The loop of `fat_list` over the sectors of the current directory, as the list of the entries whose lines it
prints, each with its slot.

* `entryLine`: the messages of one line;
* `listing`, `run_fatList`: the lines of a listing, and that they are what the console shows;
* `mem_listing_iff`: the entries listed are the live ones that are not hidden.
-/

namespace OsEojin.Fat

open OsEojin.Lib.Programs OsEojin.Lib.Programs.Program OsEojin.Ata

variable {junk : Sector} {g : Globals} {d : Disk}

/-! ### Lines -/

/-- The messages of one line of `fat_list`. -/
def entryLine (e : DirEntry) : List (List UInt8) :=
  [trimBlanks (nameBytes e)] ++
    (if trimBlanks (extBytes e) ≠ [] then [text ".", trimBlanks (extBytes e)] else []) ++
    (if isDirectory e then [text "/"] else []) ++
    [text "        ", hexToAscii e.fileSize, text "\n"]

/-- The lines of a list of entries, the last message first. -/
def printed (slots : List (ℕ × DirEntry)) : List (List UInt8) :=
  (slots.flatMap fun p => entryLine p.2).reverse

theorem printed_append (slots slots' : List (ℕ × DirEntry)) :
    printed (slots ++ slots') = printed slots' ++ printed slots := by
  rw [printed, List.flatMap_append, List.reverse_append]
  rfl

theorem run_listEntry (e : DirEntry) (ms : List (List UInt8)) :
    (listEntry e).run (console junk) ⟨d, ms⟩ = some ((), ⟨d, (entryLine e).reverse ++ ms⟩) := by
  rw [listEntry, entryLine]
  by_cases hext : trimBlanks (extBytes e) = []
  · cases hdir : isDirectory e with
    | true =>
      simp only [hext, ne_eq, not_true_eq_false, if_false, if_true]
      rfl
    | false =>
      simp only [hext, ne_eq, not_true_eq_false, if_false, Bool.false_eq_true]
      rfl
  · cases hdir : isDirectory e with
    | true =>
      simp only [hext, ne_eq, not_false_eq_true, if_true]
      rfl
    | false =>
      simp only [hext, ne_eq, not_false_eq_true, if_true, Bool.false_eq_true, if_false]
      rfl

/-! ### One sector -/

/-- An entry that is in use and not hidden. -/
def Visible (e : DirEntry) : Prop := e.name 0 ≠ 0x00 ∧ e.name 0 ≠ 0xE5 ∧ isHidden e = false

/-- The entries of sector `i` printed from entry `k` on. -/
def listedInSector (s : Sector) (i : ℕ) : ℕ → ℕ → List (ℕ × DirEntry)
  | 0, _ => []
  | n + 1, k =>
    if (entryAt s k).name 0 = 0x00 then []
    else if (entryAt s k).name 0 = 0xE5 then listedInSector s i n (k + 1)
    else if isHidden (entryAt s k) then listedInSector s i n (k + 1)
    else (16 * i + k, entryAt s k) :: listedInSector s i n (k + 1)

/-- The end mark stands in the sector, from entry `k` on. -/
def endsInSector (s : Sector) : ℕ → ℕ → Bool
  | 0, _ => false
  | n + 1, k => (entryAt s k).name 0 == 0x00 || endsInSector s n (k + 1)

theorem run_listSector (s : Sector) (i n k : ℕ) (ms : List (List UInt8)) :
    (listSector s n k).run (console junk) ⟨d, ms⟩ =
      some (endsInSector s n k, ⟨d, printed (listedInSector s i n k) ++ ms⟩) := by
  induction n generalizing k ms with
  | zero => rfl
  | succ n ih =>
    rw [listSector, listedInSector, endsInSector]
    by_cases h0 : (entryAt s k).name 0 = 0x00
    · rw [if_pos h0, if_pos h0, beq_iff_eq.mpr h0]
      rfl
    · rw [if_neg h0, if_neg h0, beq_eq_false_iff_ne.mpr h0, Bool.false_or]
      by_cases h5 : (entryAt s k).name 0 = 0xE5
      · rw [if_pos h5, if_pos h5]
        exact ih (k + 1) ms
      · rw [if_neg h5, if_neg h5]
        cases hh : isHidden (entryAt s k) with
        | true =>
          rw [if_pos rfl, if_pos rfl]
          exact ih (k + 1) ms
        | false =>
          rw [if_neg Bool.false_ne_true, if_neg Bool.false_ne_true, run_bind, run_listEntry,
            Option.bind_some]
          refine (ih (k + 1) _).trans ?_
          rw [printed, printed, List.flatMap_cons, List.reverse_append, List.append_assoc]

theorem endsInSector_eq_false {s : Sector} {n k : ℕ} :
    endsInSector s n k = false ↔ ∀ j, k ≤ j → j < k + n → (entryAt s j).name 0 ≠ 0x00 := by
  induction n generalizing k with
  | zero => exact ⟨fun _ j h1 h2 => by omega, fun _ => rfl⟩
  | succ n ih =>
    rw [endsInSector, Bool.or_eq_false_iff, beq_eq_false_iff_ne, ih]
    constructor
    · rintro ⟨hk, hrest⟩ j h1 h2
      cases Nat.eq_or_lt_of_le h1 with
      | inl heq => exact heq ▸ hk
      | inr hlt => exact hrest j hlt (by omega)
    · intro h
      exact ⟨h k le_rfl (by omega), fun j h1 h2 => h j (by omega) (by omega)⟩

/-- The entries listed of a sector: those visible in front of its end mark. -/
theorem mem_listedInSector {s : Sector} {i n k : ℕ} {p : ℕ × DirEntry} :
    p ∈ listedInSector s i n k ↔ ∃ j, k ≤ j ∧ j < k + n ∧ p = (16 * i + j, entryAt s j) ∧
      Visible (entryAt s j) ∧ ∀ m, k ≤ m → m < j → (entryAt s m).name 0 ≠ 0x00 := by
  induction n generalizing k with
  | zero =>
    refine ⟨fun h => absurd h List.not_mem_nil, ?_⟩
    rintro ⟨j, h1, h2, -⟩
    omega
  | succ n ih =>
    rw [listedInSector]
    -- passing entry `k` without a line
    have hpass : (entryAt s k).name 0 ≠ 0x00 → ¬ Visible (entryAt s k) →
        (p ∈ listedInSector s i n (k + 1) ↔ ∃ j, k ≤ j ∧ j < k + (n + 1) ∧
          p = (16 * i + j, entryAt s j) ∧ Visible (entryAt s j) ∧
          ∀ m, k ≤ m → m < j → (entryAt s m).name 0 ≠ 0x00) := by
      intro h0 hv
      rw [ih]
      constructor
      · rintro ⟨j, h1, h2, rfl, hvis, hbefore⟩
        refine ⟨j, by omega, by omega, rfl, hvis, ?_⟩
        intro m hm hmj
        cases Nat.eq_or_lt_of_le hm with
        | inl heq => exact heq ▸ h0
        | inr hlt => exact hbefore m hlt hmj
      · rintro ⟨j, h1, h2, rfl, hvis, hbefore⟩
        have hne : k ≠ j := by
          rintro rfl
          exact hv hvis
        exact ⟨j, by omega, by omega, rfl, hvis, fun m hm hmj => hbefore m (by omega) hmj⟩
    by_cases h0 : (entryAt s k).name 0 = 0x00
    · rw [if_pos h0]
      refine ⟨fun h => absurd h List.not_mem_nil, ?_⟩
      rintro ⟨j, h1, -, -, hvis, hbefore⟩
      cases Nat.eq_or_lt_of_le h1 with
      | inl heq => exact absurd (heq ▸ h0) hvis.1
      | inr hlt => exact absurd h0 (hbefore k le_rfl hlt)
    · rw [if_neg h0]
      by_cases h5 : (entryAt s k).name 0 = 0xE5
      · rw [if_pos h5]
        exact hpass h0 fun hv => hv.2.1 h5
      · rw [if_neg h5]
        cases hh : isHidden (entryAt s k) with
        | true =>
          rw [if_pos rfl]
          exact hpass h0 fun hv => by simp [hv.2.2] at hh
        | false =>
          rw [if_neg Bool.false_ne_true, List.mem_cons, ih]
          constructor
          · rintro (rfl | ⟨j, h1, h2, rfl, hvis, hbefore⟩)
            · exact ⟨k, le_rfl, by omega, rfl, ⟨h0, h5, hh⟩, fun m h1 h2 => by omega⟩
            · refine ⟨j, by omega, by omega, rfl, hvis, ?_⟩
              intro m hm hmj
              cases Nat.eq_or_lt_of_le hm with
              | inl heq => exact heq ▸ h0
              | inr hlt => exact hbefore m hlt hmj
          · rintro ⟨j, h1, h2, rfl, hvis, hbefore⟩
            cases Nat.eq_or_lt_of_le h1 with
            | inl heq => exact Or.inl (by rw [heq])
            | inr hlt =>
              exact Or.inr ⟨j, hlt, by omega, rfl, hvis, fun m hm hmj => hbefore m (by omega) hmj⟩

/-! ### The sectors of the directory -/

/-- The entries printed from sector `i` on, with their slots. -/
def listing (g : Globals) (d : Disk) : ℕ → ℕ → List (ℕ × DirEntry)
  | 0, _ => []
  | fuel + 1, i =>
    match dirLba g d g.currentDirCluster i with
    | none => []
    | some lba =>
      if endsInSector (d.get lba) 16 0 then listedInSector (d.get lba) i 16 0
      else listedInSector (d.get lba) i 16 0 ++ listing g d fuel (i + 1)

theorem run_listLoop (hf : ¬ faults g g.currentDirCluster) {last fuel i : ℕ}
    (hlast : dirLba g d g.currentDirCluster last = none) (hi : i ≤ last) (hfuel : last < i + fuel)
    (b : Buffer) (ms : List (List UInt8)) :
    (listLoop g fuel i b).run (console junk) ⟨d, ms⟩ =
      some ((), ⟨d, printed (listing g d fuel i) ++ ms⟩) := by
  induction fuel generalizing i b ms with
  | zero => omega
  | succ fuel ih =>
    rw [listLoop, listing, run_bind,
      run_console_quiet (calls_fatReadDirSector quiet_transfer g (fun _ => trivial) i b), execute_fatReadDirSector hf]
    cases hlba : dirLba g d g.currentDirCluster i with
    | none => rfl
    | some lba =>
      have hne : i ≠ last := by
        rintro rfl
        rw [hlast] at hlba
        cases hlba
      rw [Option.map_some, Option.map_some, Option.bind_some]
      simp only
      rw [run_bind, run_listSector _ i, Option.bind_some]
      cases hend : endsInSector (d.get lba) 16 0 with
      | true => rfl
      | false =>
        simp only [Bool.false_eq_true, if_false]
        rw [ih (by omega) (by omega), printed_append, List.append_assoc]

/-- The messages in front of the lines. -/
def listHeader : List (List UInt8) := [text "Filename        Size\n", text "--------------------\n"]

/-- **`fat_list`** prints its header and the lines of the listing, in a directory that ends. -/
theorem run_fatList (hm : g.isFatInitialized = true) (hf : ¬ faults g g.currentDirCluster)
    {last fuel : ℕ} (hlast : dirLba g d g.currentDirCluster last = none) (hfuel : last < fuel) :
    (fatList g fuel).run (console junk) ⟨d, []⟩ =
      some ((), ⟨d, printed (listing g d fuel 0) ++ listHeader.reverse⟩) := by
  rw [fatList, if_neg (by rw [hm]; decide)]
  exact run_listLoop hf hlast (Nat.zero_le _) (by omega) (freshBlock junk) listHeader.reverse

/-- The entries listed from sector `i` on. -/
theorem mem_listing {fuel i n : ℕ} {e : DirEntry} :
    (n, e) ∈ listing g d fuel i ↔ 16 * i ≤ n ∧ n < 16 * (i + fuel) ∧
      dirSlot g d g.currentDirCluster n = some e ∧ Visible e ∧
      ∀ m, 16 * i ≤ m → m < n → ∃ x, dirSlot g d g.currentDirCluster m = some x ∧ x.name 0 ≠ 0x00 := by
  induction fuel generalizing i with
  | zero =>
    refine ⟨fun h => absurd h List.not_mem_nil, ?_⟩
    rintro ⟨h1, h2, -⟩
    omega
  | succ fuel ih =>
    rw [listing]
    have hslot : ∀ {lba}, dirLba g d g.currentDirCluster i = some lba → ∀ j, j < 16 →
        dirSlot g d g.currentDirCluster (16 * i + j) = some (entryAt (d.get lba) j) := by
      intro lba hlba j hj
      rw [dirSlot, show (16 * i + j) / 16 = i from by omega, hlba, Option.map_some,
        show (16 * i + j) % 16 = j from by omega]
    cases hlba : dirLba g d g.currentDirCluster i with
    | none =>
      refine ⟨fun h => absurd h List.not_mem_nil, ?_⟩
      rintro ⟨h1, -, hn, -⟩
      rw [dirSlot, dirLba_none_mono hlba (show i ≤ n / 16 from by omega)] at hn
      cases hn
    | some lba =>
      -- the slots of this sector
      have hhere : (n, e) ∈ listedInSector (d.get lba) i 16 0 ↔ 16 * i ≤ n ∧ n < 16 * (i + 1) ∧
          dirSlot g d g.currentDirCluster n = some e ∧ Visible e ∧ ∀ m, 16 * i ≤ m → m < n →
            ∃ x, dirSlot g d g.currentDirCluster m = some x ∧ x.name 0 ≠ 0x00 := by
        rw [mem_listedInSector]
        constructor
        · rintro ⟨j, -, hj, heq, hvis, hbefore⟩
          obtain ⟨rfl, rfl⟩ := Prod.mk.inj heq
          refine ⟨by omega, by omega, hslot hlba j (by omega), hvis, ?_⟩
          intro m hm hmj
          have hsm := hslot hlba (m - 16 * i) (by omega)
          rw [show 16 * i + (m - 16 * i) = m from by omega] at hsm
          exact ⟨_, hsm, hbefore (m - 16 * i) (by omega) (by omega)⟩
        · rintro ⟨h1, h2, hn, hvis, hbefore⟩
          have hsn := hslot hlba (n - 16 * i) (by omega)
          rw [show 16 * i + (n - 16 * i) = n from by omega, hn] at hsn
          obtain rfl := Option.some.inj hsn
          refine ⟨n - 16 * i, by omega, by omega, ?_, hvis, ?_⟩
          · rw [show 16 * i + (n - 16 * i) = n from by omega]
          · intro m _ hm
            obtain ⟨x, hx, hx0⟩ := hbefore (16 * i + m) (by omega) (by omega)
            rw [hslot hlba m (by omega)] at hx
            rwa [Option.some.inj hx]
      cases hend : endsInSector (d.get lba) 16 0 with
      | true =>
        simp only [hend, if_true]
        rw [hhere]
        refine ⟨fun h => ⟨h.1, by omega, h.2.2⟩, ?_⟩
        rintro ⟨h1, h2, hn, hvis, hbefore⟩
        refine ⟨h1, ?_, hn, hvis, hbefore⟩
        -- the end mark of this sector stands before every later slot
        by_contra hge
        have hno : endsInSector (d.get lba) 16 0 = false := by
          rw [endsInSector_eq_false]
          intro j _ hj
          obtain ⟨x, hx, hx0⟩ := hbefore (16 * i + j) (by omega) (by omega)
          rw [hslot hlba j (by omega)] at hx
          rwa [Option.some.inj hx]
        rw [hno] at hend
        cases hend
      | false =>
        simp only [hend, Bool.false_eq_true, if_false]
        rw [List.mem_append, hhere, ih]
        rw [endsInSector_eq_false] at hend
        constructor
        · rintro (h | ⟨h1, h2, hn, hvis, hbefore⟩)
          · exact ⟨h.1, by omega, h.2.2⟩
          · refine ⟨by omega, by omega, hn, hvis, ?_⟩
            intro m hm hmn
            by_cases hlt : m < 16 * (i + 1)
            · have hsm := hslot hlba (m - 16 * i) (by omega)
              rw [show 16 * i + (m - 16 * i) = m from by omega] at hsm
              exact ⟨_, hsm, hend _ (by omega) (by omega)⟩
            · exact hbefore m (by omega) hmn
        · rintro ⟨h1, h2, hn, hvis, hbefore⟩
          by_cases hlt : n < 16 * (i + 1)
          · exact Or.inl ⟨h1, hlt, hn, hvis, hbefore⟩
          · exact Or.inr ⟨by omega, by omega, hn, hvis, fun m hm hmn => hbefore m (by omega) hmn⟩

/-- **The listing** holds the live entries that are not hidden. -/
theorem mem_listing_iff {fuel n : ℕ} {e : DirEntry} :
    (n, e) ∈ listing g d fuel 0 ↔ n < 16 * fuel ∧ isHidden e = false ∧
      Live (volume g d) g.currentDirCluster n e := by
  rw [mem_listing]
  constructor
  · rintro ⟨-, h2, hn, ⟨h0, h5, hh⟩, hbefore⟩
    exact ⟨by omega, hh, hn, h0, h5, fun m hm => hbefore m (by omega) hm⟩
  · rintro ⟨h2, hh, hn, h0, h5, hbefore⟩
    exact ⟨by omega, by omega, hn, ⟨h0, h5, hh⟩, fun m _ hm => hbefore m hm⟩

end OsEojin.Fat
