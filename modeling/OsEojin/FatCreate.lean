import OsEojin.FatMkdir
import OsEojin.DirSectors

/-!
# Creating an entry and finding it again

`fat_create_entry` reads the current directory until it meets a slot that is free, fills that slot and writes
the sector back; the address is computed a second time.  `fat_find_file` looks for the name it was given by
putting the eight and three bytes of an entry together again.

* `Geometry.dirSlot_putSlot`: a slot write changes one slot of the directory;
* `create_touches_one_slot`: the bytes of the disk a creation changes, and where;
* `Name83`, `roomyVerdict_fillEntry`: a short name survives the folding and the reading back;
* `created_names_found`: what was created is found.
-/

namespace OsEojin.Fat

open OsEojin.Lib.Programs OsEojin.Lib.Programs.Program OsEojin.Ata OsEojin.Shell OsEojin.FileReading

variable {junk : Sector} {g : Globals} {d d' : Disk} {dir c : UInt16} {fuel n i lba : ℕ} {e' : DirEntry}
  {w w' : List UInt8}

/-! ### A slot write, in one directory -/

/-- The sectors of a directory stay where they are. -/
theorem Geometry.dirLba_put (hg : Geometry g) (hdir : ValidDir g d dir) (s : Sector)
    (hlo : g.rootDirSector ≤ lba) (hhi : lba < lbaSpace) (i : ℕ) :
    dirLba g (d.put lba s) dir i = dirLba g d dir i := by
  cases hdir with
  | inl h0 => rw [h0, dirLba_root, dirLba_root]
  | inr hsub =>
    obtain ⟨l, hl⟩ := hsub
    refine dirLba_congr hg.toMounted hl ?_ i
    intro x hx
    exact hg.fatEntry_put s hlo hhi (hl.data_of_mem hx).2.2.1

/-- **A slot write changes one slot of the directory.** -/
theorem Geometry.dirSlot_putSlot (hg : Geometry g) (hdir : ValidDir g d dir)
    (hsector : dirLba g d dir (n / 16) = some lba) (m : ℕ) :
    dirSlot g (putSlot d lba (n % 16) e') dir m = if m = n then some e' else dirSlot g d dir m := by
  obtain ⟨hlo, hhi⟩ := hg.dirLba_region hdir hsector
  have hupdate := dirSlot_update (P := True) (hg.dirLba_put hdir (putEntry (d.get lba) (n % 16) e') hlo hhi)
    (fun i lba' hi => get_put _ hhi (hg.dirLba_region hdir hi).2)
    (fun i => ⟨fun hi => ⟨trivial, hg.dirLba_inj hdir hi hsector⟩, fun hi => by rw [hi.2, hsector]⟩) m
  rw [putSlot, hupdate]
  by_cases hmn : m = n
  · rw [if_pos ⟨trivial, hmn⟩, if_pos hmn]
  · rw [if_neg (fun h => hmn h.2), if_neg hmn]

/-! ### One slot of the disk -/

/-- The bytes a slot write changes. -/
theorem putSlot_apply (hlt : lba < lbaSpace) {k : ℕ} {a : ℕ} {i : Fin 512} (h : ¬ (a = lba ∧ i.val / 32 = k)) :
    putSlot d lba k e' a i = d a i := by
  rw [putSlot, Disk.put, Disk.get, Nat.mod_eq_of_lt hlt]
  by_cases ha : a = lba
  · rw [ha, Function.update_self, putEntry, if_neg fun hk => h ⟨ha, hk⟩]
  · rw [Function.update_of_ne ha]

/-- Slot `n` of the directory is free by its first byte, and it is the first such slot. -/
def FirstFreeSlot (g : Globals) (d : Disk) (c : UInt16) (n : ℕ) : Prop :=
  (∃ e, dirSlot g d c n = some e ∧ (e.name 0 = 0x00 ∨ e.name 0 = 0xE5)) ∧
    ∀ m, m < n → ∃ x, dirSlot g d c m = some x ∧ x.name 0 ≠ 0x00 ∧ x.name 0 ≠ 0xE5

/-- `lba` is the sector `fat_read_dir_sector` reads for sector `i` of the current directory, and the one it is
written back to. -/
def SameSector (junk : Sector) (g : Globals) (d : Disk) (i lba : ℕ) : Prop :=
  (∀ b, ∃ b' t, (fatReadDirSector g g.currentDirCluster i b).run (reader junk) ⟨⟨d, []⟩, []⟩ =
      some (some b', t) ∧ t.reads.getLast? = some lba) ∧
    execute junk (writeBackLba g i) d = some (lba, d)

theorem sameSector_of_dirLba (hf : ¬ faults g g.currentDirCluster)
    (h : dirLba g d g.currentDirCluster i = some lba) : SameSector junk g d i lba := by
  refine ⟨?_, execute_writeBackLba hf h⟩
  intro b
  obtain ⟨fats, hread⟩ := run_fatReadDirSector junk d hf i b
  rw [h] at hread
  exact ⟨_, _, hread, by simp⟩

/-- **Creating an entry touches one slot.**  On a well-formed volume `fat_create_entry` comes back.  If it
created the entry, the disk has changed in one slot only, the first free one of the current directory, in the
sector that was read; else it has not changed. -/
theorem create_touches_one_slot (junk : Sector) {fuel : ℕ} (hfuel : 2 ^ 24 ≤ fuel) (g : Globals) (d : Disk)
    (hok : FsOk g d) (w : List UInt8) (attr : UInt8) (cluster : UInt16) (size : ℕ) :
    ∃ r d', execute junk (fatCreateEntry g fuel w attr cluster size) d = some (r, d') ∧
      (r = true → ∃ n lba, FirstFreeSlot g d g.currentDirCluster n ∧ SameSector junk g d (n / 16) lba ∧
        ∀ a (i : Fin 512), ¬ (a = lba ∧ i.val / 32 = n % 16) → d' a i = d a i) ∧
      (r = false → d' = d) := by
  obtain ⟨p, hcwd⟩ := hok.tree.cwd
  obtain ⟨last, hlast, hnone⟩ := hok.dir_ends hcwd
  have hm := hok.geometry.initialized
  have hf := hok.geometry.not_faults g.currentDirCluster
  obtain ⟨⟨r, d'⟩, hr⟩ := execute_fatCreateEntry_total junk w hm hf (leavesAt_of_none hnone)
    (show last < fuel from by omega) attr cluster size
  refine ⟨r, d', hr, ?_⟩
  cases execute_fatCreateEntry hm hr with
  | inl hcreated =>
    obtain ⟨rfl, n, e, lba, hslot, rfl⟩ := hcreated
    refine ⟨fun _ => ⟨n, lba, ?_, sameSector_of_dirLba hf hslot.sector, ?_⟩, fun h => (by cases h)⟩
    · obtain ⟨hfree, hold, hbefore⟩ := freeSlot_spec hslot
      exact ⟨⟨e, hold, hfree⟩, hbefore⟩
    · intro a i hne
      exact putSlot_apply (hok.dirLba_region hcwd hslot.sector).2 hne
  | inr hfull =>
    obtain ⟨rfl, rfl, -⟩ := hfull
    exact ⟨fun h => (by cases h), fun _ => rfl⟩

/-- `touch d` on the empty small volume. -/
theorem create_touches_one_slot_small :
    ∃ r d', execute (fun _ => 0) (fatCreateEntry smallVolume (2 ^ 24) (text "d") 0 0 0) smallDisk =
        some (r, d') ∧
      (r = true → ∃ n lba, FirstFreeSlot smallVolume smallDisk 0 n ∧
        SameSector (fun _ => 0) smallVolume smallDisk (n / 16) lba ∧
        ∀ a (i : Fin 512), ¬ (a = lba ∧ i.val / 32 = n % 16) → d' a i = smallDisk a i) ∧
      (r = false → d' = smallDisk) :=
  create_touches_one_slot (fun _ => 0) le_rfl smallVolume smallDisk fsOk_small (text "d") 0 0 0

/-! ### Names up to case -/

theorem toUpper_eq_iff {c b : UInt8} (hb : b < 65 ∨ 90 < b) (hfix : toUpper b = b) : toUpper c = b ↔ c = b := by
  constructor
  · intro h
    by_contra hne
    exact toUpper_ne hne hb h
  · rintro rfl
    exact hfix

theorem toUpper_toUpper (c : UInt8) : toUpper (toUpper c) = toUpper c := by
  by_cases h : 97 ≤ c ∧ c ≤ 122
  · have hupper : toUpper c = c - 32 := if_pos h
    rw [hupper, toUpper, if_neg]
    rintro ⟨h1, -⟩
    rw [UInt8.le_iff_toNat_le] at h1
    rw [UInt8.le_iff_toNat_le, UInt8.le_iff_toNat_le] at h
    rw [UInt8.toNat_sub_of_le _ _ (by rw [UInt8.le_iff_toNat_le]; exact le_trans (by decide) h.1)] at h1
    have h2 : (97 : UInt8).toNat = 97 := rfl
    have h3 : (32 : UInt8).toNat = 32 := rfl
    have h4 : (122 : UInt8).toNat = 122 := rfl
    omega
  · have hsame : toUpper c = c := if_neg h
    rw [hsame, hsame]

/-- The comparison loop compares up to case. -/
theorem matchLoop_iff (a b : List UInt8) : matchLoop a b = true ↔ a.map toUpper = b.map toUpper := by
  induction a generalizing b with
  | nil =>
    cases b with
    | nil => simp [matchLoop]
    | cons y b => simp [matchLoop]
  | cons x a ih =>
    cases b with
    | nil => simp [matchLoop]
    | cons y b =>
      rw [matchLoop, List.map_cons, List.map_cons, List.cons.injEq, ← ih]
      split
      · rename_i heq
        exact ⟨fun h => ⟨heq, h⟩, fun h => h.2⟩
      · rename_i hne
        exact ⟨fun h => (by cases h), fun h => absurd h.1 hne⟩

theorem cString_length_le (l : List UInt8) : (cString l).length ≤ l.length := (List.takeWhile_sublist _).length_le

/-- Folding moves no NUL. -/
theorem map_cString (l : List UInt8) : (cString l).map toUpper = cString (l.map toUpper) := by
  rw [cString, cString, List.takeWhile_map]
  congr 2
  funext c
  rw [Function.comp_apply, Bool.eq_iff_iff, bne_iff_ne, bne_iff_ne, ne_eq, ne_eq,
    toUpper_eq_iff (by decide) (by decide)]

/-- `fat_filename_match` with an array that has room for every name and its zero. -/
def roomyMatch (e : DirEntry) (input : List UInt8) : Bool := matchLoop (cString (matchTemp e)) (cString input)

theorem roomyMatch_iff (e : DirEntry) (w : List UInt8) :
    roomyMatch e w = true ↔ cString ((matchTemp e).map toUpper) = cString (w.map toUpper) := by
  rw [roomyMatch, matchLoop_iff, map_cString, map_cString]

/-- A name of fewer than twelve characters has its zero inside the array. -/
theorem fatFilenameMatch_of_lt (h : (cString (matchTemp e')).length < 12) (w : List UInt8) :
    fatFilenameMatch e' w = roomyMatch e' w := if_pos h

theorem matchBehind_length {last : UInt8} {l : List UInt8} (h : matchBehind last l = true) : l.length = 3 := by
  unfold matchBehind at h
  split at h
  · rfl
  · cases h

/-- **What matches begins with the name**, and behind a full name it goes on for three characters. -/
theorem fatFilenameMatch_cases (h : fatFilenameMatch e' w = true) :
    ((cString (matchTemp e')).length < 12 ∧ roomyMatch e' w = true) ∨
      ((cString w).length = 15 ∧ roomyMatch e' ((cString w).take 12) = true) := by
  by_cases hlt : (cString (matchTemp e')).length < 12
  · exact Or.inl ⟨hlt, by rw [← fatFilenameMatch_of_lt hlt, h]⟩
  · right
    rw [fatFilenameMatch, if_neg hlt, Bool.and_eq_true] at h
    have hlength := matchBehind_length h.2
    rw [List.length_drop] at hlength
    refine ⟨by omega, ?_⟩
    have hself : cString ((cString w).take 12) = (cString w).take 12 := by
      rw [cString, List.takeWhile_eq_self_iff]
      intro c hc
      exact List.mem_takeWhile_imp (p := fun b : UInt8 => b != 0) (List.mem_of_mem_take hc)
    rw [roomyMatch, hself]
    exact h.1

/-- With fewer than twelve characters the built function finds what the roomy one finds, full names apart. -/
theorem fatFilenameMatch_iff (hw : (cString w).length < 12) :
    fatFilenameMatch e' w = true ↔ roomyMatch e' w = true := by
  constructor
  · intro h
    rcases fatFilenameMatch_cases h with ⟨-, hmatch⟩ | ⟨hlength, -⟩
    · exact hmatch
    · omega
  · intro h
    have hsame := (matchLoop_iff _ _).mp h
    have hlength := congrArg List.length hsame
    rw [List.length_map, List.length_map] at hlength
    rw [fatFilenameMatch_of_lt (by omega), h]

/-- **No word of twelve characters is found**, not even the name that has them. -/
theorem fatFilenameMatch_twelve (hw : (cString w).length = 12) : fatFilenameMatch e' w = false := by
  rw [Bool.eq_false_iff]
  intro h
  rcases fatFilenameMatch_cases h with ⟨hlt, hmatch⟩ | ⟨hlength, -⟩
  · have hlength := congrArg List.length ((matchLoop_iff _ _).mp hmatch)
    rw [List.length_map, List.length_map] at hlength
    omega
  · omega

theorem matchBehind_fold (last : UInt8) {l l' : List UInt8} (h : l'.map toUpper = l.map toUpper) :
    matchBehind last l' = matchBehind last l := by
  have hupper : ∀ l : List UInt8, matchBehind last l = true ↔ l.map toUpper = [last, last, 14] := by
    intro l
    unfold matchBehind
    split
    · simp [and_assoc]
    · rename_i hne
      refine iff_of_false (by decide) fun heq => ?_
      obtain ⟨x, l₁, rfl, -, heq⟩ := List.map_eq_cons_iff.mp heq
      obtain ⟨y, l₂, rfl, -, heq⟩ := List.map_eq_cons_iff.mp heq
      obtain ⟨z, l₃, rfl, -, heq⟩ := List.map_eq_cons_iff.mp heq
      exact hne x y z (by rw [List.map_eq_nil_iff.mp heq])
  rw [Bool.eq_iff_iff, hupper, hupper, h]

/-- Case does not matter. -/
theorem fatFilenameMatch_fold (e : DirEntry) (h : w'.map toUpper = w.map toUpper) :
    fatFilenameMatch e w' = fatFilenameMatch e w := by
  have hstring : (cString w').map toUpper = (cString w).map toUpper := by
    rw [map_cString, map_cString, h]
  have hloop : ∀ {t l l' : List UInt8}, l'.map toUpper = l.map toUpper → matchLoop t l' = matchLoop t l := by
    intro t l l' hl
    rw [Bool.eq_iff_iff, matchLoop_iff, matchLoop_iff, hl]
  have htake : ((cString w').take 12).map toUpper = ((cString w).take 12).map toUpper := by
    rw [List.map_take, List.map_take, hstring]
  have hdrop : ((cString w').drop 12).map toUpper = ((cString w).drop 12).map toUpper := by
    rw [List.map_drop, List.map_drop, hstring]
  rw [fatFilenameMatch, fatFilenameMatch, hloop hstring, hloop htake, matchBehind_fold _ hdrop]

/-- **Looking up a name in another case** is looking up the name. -/
theorem findVerdict_fold (h : w'.map toUpper = w.map toUpper) : findVerdict w' = findVerdict w := by
  funext e
  rw [findVerdict, findVerdict, fatFilenameMatch_fold e h]

/-- The test of `fat_find_file` with the roomy array. -/
def roomyVerdict (filename : List UInt8) (e : DirEntry) : Verdict :=
  if e.name 0 = 0x00 then .stop
  else if e.name 0 = 0xE5 then .skip
  else if isHidden e then .skip
  else if roomyMatch e filename then .hit
  else .skip

theorem roomyVerdict_stop_iff (e : DirEntry) : roomyVerdict w e = .stop ↔ e.name 0 = 0 := by
  rw [roomyVerdict]
  split <;> rename_i h0
  · simp [h0]
  · refine iff_of_false ?_ h0
    split
    · simp
    split
    · simp
    split <;> simp

/-- For fewer than twelve characters it is the test of the built function. -/
theorem roomyVerdict_eq (hw : (cString w).length < 12) : roomyVerdict w = findVerdict w := by
  funext e
  have hmatch : roomyMatch e w = fatFilenameMatch e w := by
    rw [Bool.eq_iff_iff, fatFilenameMatch_iff hw]
  rw [roomyVerdict, findVerdict, hmatch]

theorem roomyVerdict_fold (h : w'.map toUpper = w.map toUpper) : roomyVerdict w' = roomyVerdict w := by
  funext e
  have hmatch : roomyMatch e w' = roomyMatch e w := by
    rw [Bool.eq_iff_iff, roomyMatch_iff, roomyMatch_iff, h]
  rw [roomyVerdict, roomyVerdict, hmatch]

/-- `fat_find_file` with its test as a parameter. -/
def lookUp (g : Globals) (fuel : ℕ) (verdict : DirEntry → Verdict) : Kernel (Option DirEntry) :=
  if !g.isFatInitialized then do
    kprint (text "File system not mounted. Run 'mount' first.\n")
    pure none
  else do
    let buffer ← kmalloc 512
    if buffer.ptr = 0 then pure none
    else
      match ← scanDir g g.currentDirCluster true verdict fuel 0 buffer with
      | .hit _ k buffer =>
        kfree buffer
        pure (some (entryAt buffer.data k))
      | .stop buffer =>
        kfree buffer
        pure none
      | .through buffer =>
        kfree buffer
        pure none

theorem fatFindFile_eq_lookUp (g : Globals) (fuel : ℕ) (w : List UInt8) :
    fatFindFile g fuel w = lookUp g fuel (findVerdict w) := rfl

/-- `fat_find_file`, the size of its temporary array ignored. -/
def roomyFindFile (g : Globals) (fuel : ℕ) (filename : List UInt8) : Kernel (Option DirEntry) :=
  lookUp g fuel (roomyVerdict filename)

/-- For fewer than twelve characters it is `fat_find_file`. -/
theorem roomyFindFile_eq (hw : (cString w).length < 12) : roomyFindFile g fuel w = fatFindFile g fuel w := by
  rw [roomyFindFile, roomyVerdict_eq hw, fatFindFile_eq_lookUp]

/-! ### Short names -/

/-- A character of a short name: printable, no blank and no dot. -/
def NameChar (c : UInt8) : Prop := 0x21 ≤ c ∧ c ≤ 0x7E ∧ c ≠ 46

instance : DecidablePred NameChar := fun c => inferInstanceAs (Decidable (0x21 ≤ c ∧ c ≤ 0x7E ∧ c ≠ 46))

/-- **A short name**: one to eight characters, and after a dot one to three more if there is one. -/
inductive Name83 : List UInt8 → Prop
  | plain {base : List UInt8} (hbase : ∀ c ∈ base, NameChar c) (h1 : 1 ≤ base.length) (h8 : base.length ≤ 8) :
    Name83 base
  | dotted {base ext : List UInt8} (hbase : ∀ c ∈ base, NameChar c) (h1 : 1 ≤ base.length)
    (h8 : base.length ≤ 8) (hext : ∀ c ∈ ext, NameChar c) (he1 : 1 ≤ ext.length) (h3 : ext.length ≤ 3) :
    Name83 (base ++ 46 :: ext)

theorem NameChar.ne {c b : UInt8} (h : NameChar c) (hb : b < 0x21 ∨ 0x7E < b ∨ b = 46) : c ≠ b := by
  rintro rfl
  obtain ⟨h1, h2, h3⟩ := h
  rcases hb with hlt | hgt | heq
  · exact absurd hlt (UInt8.not_lt.mpr h1)
  · exact absurd hgt (UInt8.not_lt.mpr h2)
  · exact h3 heq

/-- The base name ends at the dot or at the end. -/
theorem baseName_append {base : List UInt8} (hbase : ∀ c ∈ base, NameChar c) (rest : List UInt8) :
    baseName (base ++ rest) = base ++ baseName rest := by
  rw [baseName, List.takeWhile_append_of_pos]
  · rfl
  · intro c hc
    have h0 : c ≠ 0 := (hbase c hc).ne (by decide)
    have h46 : c ≠ 46 := (hbase c hc).ne (by decide)
    simp [h0, h46]

theorem baseName_plain {base : List UInt8} (hbase : ∀ c ∈ base, NameChar c) : baseName base = base := by
  have happ := baseName_append hbase []
  rwa [List.append_nil, show baseName [] = [] from rfl, List.append_nil] at happ

theorem baseName_dotted {base : List UInt8} (hbase : ∀ c ∈ base, NameChar c) (ext : List UInt8) :
    baseName (base ++ 46 :: ext) = base := by
  rw [baseName_append hbase, show baseName (46 :: ext) = [] from rfl, List.append_nil]

/-- The base name of a short name. -/
theorem Name83.base (hw : Name83 w) :
    (∀ c ∈ baseName w, NameChar c) ∧ 1 ≤ (baseName w).length ∧ (baseName w).length ≤ 8 := by
  cases hw with
  | plain hbase h1 h8 =>
    rw [baseName_plain hbase]
    exact ⟨hbase, h1, h8⟩
  | dotted hbase h1 h8 =>
    rw [baseName_dotted hbase]
    exact ⟨hbase, h1, h8⟩

/-- Blanks at the end are trimmed, whatever stands in front of them. -/
theorem rdropWhile_append_blanks (l : List UInt8) {blanks : List UInt8} (h : ∀ c ∈ blanks, c = 32) :
    (l ++ blanks).rdropWhile (fun c => c == 32) = l.rdropWhile fun c => c == 32 := by
  rw [List.rdropWhile, List.reverse_append, List.dropWhile_append_of_pos, List.rdropWhile]
  intro c hc
  exact beq_iff_eq.mpr (h c (List.mem_reverse.mp hc))

/-- Where there is no blank, none is trimmed. -/
theorem rdropWhile_of_no_blank {l : List UInt8} (h : 32 ∉ l) : l.rdropWhile (fun c => c == 32) = l := by
  rw [List.rdropWhile_eq_self_iff]
  intro hne hlast
  have hmem := List.getLast_mem hne
  rw [beq_iff_eq.mp hlast] at hmem
  exact h hmem

/-- Blanks behind characters are cut off again. -/
theorem beforeBlank_rightpad {l : List UInt8} (h : ∀ c ∈ l, NameChar c) (n : ℕ) :
    beforeBlank ((l.map toUpper).rightpad n 32) = l.map toUpper := by
  have hblanks : ∀ m, (List.replicate m (32 : UInt8)).takeWhile (fun c => c != 32) = [] := by
    intro m
    cases m with
    | zero => rfl
    | succ m => rfl
  rw [beforeBlank, List.rightpad, List.takeWhile_append_of_pos, hblanks, List.append_nil]
  intro c hc
  obtain ⟨b, hb, rfl⟩ := List.mem_map.mp hc
  exact bne_iff_ne.mpr (toUpper_ne ((h b hb).ne (by decide)) (by decide))

section Entry

variable (old : DirEntry) (attr : UInt8) (cluster : UInt16) (size : ℕ)

/-- The name put together again by `fat_filename_match`. -/
theorem matchTemp_fillEntry (hw : Name83 w) :
    matchTemp (fillEntry old w attr cluster size) = w.map toUpper := by
  have hfield : (fillEntry old w attr cluster size).ext 0 = (shortExt w).getD 0 0 := rfl
  rw [matchTemp, nameBytes_fillEntry, extBytes_fillEntry, hfield, shortName]
  cases hw with
  | @plain base hbase h1 h8 =>
    have hname : baseName w = w := baseName_plain hbase
    have hnone : shortExt w = [32, 32, 32] := by
      rw [shortExt, hname, List.drop_eq_nil_of_le (by omega)]
      rfl
    rw [hname, List.take_of_length_le h8, beforeBlank_rightpad hbase, hnone, if_pos (by decide), List.append_nil]
  | @dotted base ext hbase h1 h8 hext he1 h3 =>
    have hname : baseName (base ++ 46 :: ext) = base := baseName_dotted hbase ext
    have hrest : shortExt (base ++ 46 :: ext) = (ext.map toUpper).rightpad 3 32 := by
      have hnul : cString ext = ext := by
        rw [cString, List.takeWhile_eq_self_iff]
        intro c hc
        exact bne_iff_ne.mpr ((hext c hc).ne (by decide))
      rw [shortExt, hname, List.drop_append, List.drop_eq_nil_of_le (by omega), List.nil_append,
        show base.length + 1 - base.length = 1 from by omega, List.drop_succ_cons, List.drop_zero, hnul,
        List.take_of_length_le h3]
    have hhead : ((ext.map toUpper).rightpad 3 32).getD 0 0 ≠ 32 := by
      cases ext with
      | nil => cases he1
      | cons x xs =>
        have hx : ((List.map toUpper (x :: xs)).rightpad 3 32).getD 0 0 = toUpper x := by
          simp [List.rightpad]
        rw [hx]
        exact toUpper_ne ((hext x List.mem_cons_self).ne (by decide)) (by decide)
    rw [hname, List.take_of_length_le h8, beforeBlank_rightpad hbase, hrest, if_neg hhead,
      beforeBlank_rightpad hext, List.map_append, List.map_cons]
    rfl

/-- The first byte of the stored name is no deletion mark. -/
theorem shortName_head_ne (hw : Name83 w) : (shortName w).getD 0 0 ≠ 0xE5 := by
  obtain ⟨hchars, h1, -⟩ := hw.base
  rw [shortName]
  cases hbase : baseName w with
  | nil =>
    rw [hbase] at h1
    cases h1
  | cons c cs =>
    have hhead : ((((c :: cs).take 8).map toUpper).rightpad 8 32).getD 0 0 = toUpper c := by
      simp [List.rightpad]
    rw [hhead]
    exact toUpper_ne ((hchars c (by rw [hbase]; exact List.mem_cons_self)).ne (by decide)) (by decide)

/-- **The new entry is the one looked for.** -/
theorem roomyVerdict_fillEntry (hw : Name83 w) (hattr : attr &&& attrVolumeId = 0) :
    roomyVerdict w (fillEntry old w attr cluster size) = .hit := by
  have hmatch : roomyMatch (fillEntry old w attr cluster size) w = true := by
    rw [roomyMatch_iff, matchTemp_fillEntry old attr cluster size hw, List.map_map]
    congr 2
    funext c
    exact toUpper_toUpper c
  have hshown : ¬ isHidden (fillEntry old w attr cluster size) = true := by
    rw [isHidden_iff, fillEntry_attributes, not_not]
    exact hattr
  rw [roomyVerdict, fillEntry_name_zero, if_neg (shortName_head w).1, if_neg (shortName_head_ne hw),
    if_neg hshown, if_pos hmatch]

end Entry

/-- A short name has at most twelve characters. -/
theorem Name83.cString_eq (hw : Name83 w) : cString w = w := by
  rw [cString, List.takeWhile_eq_self_iff]
  intro c hc
  rw [bne_iff_ne]
  cases hw with
  | plain hbase => exact (hbase c hc).ne (by decide)
  | dotted hbase _ _ hext =>
    rcases List.mem_append.mp hc with hc | hc
    · exact (hbase c hc).ne (by decide)
    · rcases List.mem_cons.mp hc with rfl | hc
      · decide
      · exact (hext c hc).ne (by decide)

/-! ### Created and found -/

/-- Slots that are in use, none of which is taken, are all skipped. -/
theorem skip_of_not_found {endReturns : Bool} {verdict : DirEntry → Verdict}
    (hno : ∀ m e lba, ¬ Found g d c endReturns verdict m e lba)
    (hused : ∀ m, m < n → ∃ x, dirSlot g d c m = some x ∧ verdict x ≠ .stop) :
    ∀ m, m < n → SlotIs g d c verdict .skip m := by
  intro m
  induction m using Nat.strong_induction_on with
  | _ m ih =>
    intro hm
    obtain ⟨x, hx, hstop⟩ := hused m hm
    cases hv : verdict x with
    | skip => exact ⟨x, hx, hv⟩
    | stop => exact absurd hv hstop
    | hit =>
      obtain ⟨e, lba, hfound⟩ := found_of_skip endReturns ⟨x, hx, hv⟩ fun k hk => ih k hk (by omega)
      exact absurd hfound (hno m e lba)

section LookUp

variable {verdict : DirEntry → Verdict}

theorem not_found_of_lookUp (hm : g.isFatInitialized = true)
    (h : execute junk (lookUp g fuel verdict) d = some (none, d')) (n : ℕ) (e : DirEntry) (lba : ℕ) :
    ¬ Found g d g.currentDirCluster true verdict n e lba := by
  simp only [lookUp, hm, Bool.not_true, Bool.false_eq_true, if_false, execute_bind, execute_kmalloc,
    Option.bind_some, freshBlock_ptr_ne] at h
  obtain ⟨⟨scan, d₁⟩, hscan, hrest⟩ := Option.bind_eq_some_iff.mp h
  obtain ⟨rfl, hspec⟩ := execute_scanDir hscan
  cases scan with
  | hit i k b => cases hrest
  | stop b => exact not_found_of_scan hspec (by simp) n e lba
  | through b => exact not_found_of_scan hspec (by simp) n e lba

theorem not_found_of_find (hm : g.isFatInitialized = true)
    (h : execute junk (fatFindFile g fuel w) d = some (none, d')) (n : ℕ) (e : DirEntry) (lba : ℕ) :
    ¬ Found g d g.currentDirCluster true (findVerdict w) n e lba :=
  not_found_of_lookUp hm h n e lba

/-- The entry in the slot found is what the look-up returns. -/
theorem lookUp_of_found (hm : g.isFatInitialized = true) (hf : ¬ faults g g.currentDirCluster) {last : ℕ}
    (hlast : LeavesAt g d g.currentDirCluster true verdict last) (hfuel : last < fuel) {e : DirEntry}
    (hfound : Found g d g.currentDirCluster true verdict n e lba) :
    execute junk (lookUp g fuel verdict) d = some (some e, d) := by
  obtain ⟨scan, hscan, hspec⟩ := execute_scanDir_total junk true verdict hf hlast hfuel (freshBlock junk)
  simp only [lookUp, hm, Bool.not_true, Bool.false_eq_true, if_false, execute_bind, execute_kmalloc,
    Option.bind_some, freshBlock_ptr_ne, hscan]
  cases scan with
  | hit i k b =>
    obtain ⟨hk, e', lba', hdata, hfound'⟩ := hspec
    have hentry := hfound.slot
    rw [hfound.unique hfound', hfound'.slot] at hentry
    rw [← Option.some.inj hentry, ← (hfound'.sector_hit hk hdata).2.1]
    rfl
  | stop b => exact absurd hfound (not_found_of_scan hspec (by simp) n e lba)
  | through b => exact absurd hfound (not_found_of_scan hspec (by simp) n e lba)

end LookUp

/-- **A new entry is found**, in every directory that is the root or a chain, when the look-up skips all slots
before it. -/
theorem Geometry.find_created (hg : Geometry g) (hdir : ValidDir g d g.currentDirCluster) {e : DirEntry}
    (hslot : FreeSlot g d n e lba) {verdict : DirEntry → Verdict}
    (hbefore : ∀ m, m < n → SlotIs g d g.currentDirCluster verdict .skip m)
    (hhit : verdict e' = .hit) (hfuel : 2 ^ 24 ≤ fuel) :
    execute junk (lookUp g fuel verdict) (putSlot d lba (n % 16) e') =
      some (some e', putSlot d lba (n % 16) e') := by
  have hslots : ∀ m, dirSlot g (putSlot d lba (n % 16) e') g.currentDirCluster m =
      if m = n then some e' else dirSlot g d g.currentDirCluster m := hg.dirSlot_putSlot hdir hslot.sector
  obtain ⟨hlo, hhi⟩ := hg.dirLba_region hdir hslot.sector
  have hskip : ∀ m, m < n → SlotIs g (putSlot d lba (n % 16) e') g.currentDirCluster verdict .skip m := by
    intro m hm
    obtain ⟨x, hx, hv⟩ := hbefore m hm
    exact ⟨x, by rw [hslots, if_neg (by omega), hx], hv⟩
  have hnew : SlotIs g (putSlot d lba (n % 16) e') g.currentDirCluster verdict .hit n :=
    ⟨e', by rw [hslots, if_pos rfl], hhit⟩
  obtain ⟨x, lba', hfound⟩ := found_of_skip true hnew hskip
  have hx : x = e' := by
    have hentry := hfound.slot
    rw [hslots, if_pos rfl] at hentry
    exact (Option.some.inj hentry).symm
  obtain ⟨last, hlast, hnone⟩ := hg.dir_ends hdir
  rw [hx] at hfound
  refine lookUp_of_found hg.initialized (hg.not_faults _) (leavesAt_of_none ?_) (show last < fuel from by omega)
    hfound
  rw [putSlot, hg.dirLba_put hdir _ hlo hhi, hnone]

/-- **Created names are found**, the size of the array in `fat_filename_match` ignored.  On a well-formed volume,
when a short name was not there and `fat_create_entry` made an entry for it, the look-up finds the name in every
mix of cases, with the attributes, the cluster and the size given; for names of fewer than twelve characters that
look-up is `fat_find_file` as it is. -/
theorem created_names_found (junk : Sector) {fuel : ℕ} (hfuel : 2 ^ 24 ≤ fuel) (g : Globals) (d d' : Disk)
    (hok : FsOk g d) (w : List UInt8) (hw : Name83 w) (attr : UInt8) (hattr : attr &&& attrVolumeId = 0)
    (cluster : UInt16) (size : UInt32) (hnew : execute junk (roomyFindFile g fuel w) d = some (none, d))
    (hcreate : execute junk (fatCreateEntry g fuel w attr cluster size.toNat) d = some (true, d'))
    (w' : List UInt8) (hcase : w'.map toUpper = w.map toUpper) :
    (∃ e, execute junk (roomyFindFile g fuel w') d' = some (some e, d') ∧ e.attributes = attr ∧
      e.firstClusterLow = cluster ∧ e.fileSize = size.toNat) ∧
      (w.length < 12 → roomyFindFile g fuel w = fatFindFile g fuel w ∧
        roomyFindFile g fuel w' = fatFindFile g fuel w') := by
  obtain ⟨p, hcwd⟩ := hok.tree.cwd
  have hg := hok.geometry
  refine ⟨?_, ?_⟩
  · rcases execute_fatCreateEntry hg.initialized hcreate with ⟨-, n, e, lba, hslot, rfl⟩ | ⟨hfalse, -⟩
    · have hhit : roomyVerdict w' (fillEntry e w attr cluster size.toNat) = .hit := by
        rw [roomyVerdict_fold hcase]
        exact roomyVerdict_fillEntry e attr cluster size.toNat hw hattr
      -- the slots before the new one are in use, and none of them has the name
      have hbefore : ∀ m, m < n → SlotIs g d g.currentDirCluster (roomyVerdict w') .skip m := by
        rw [roomyVerdict_fold hcase]
        refine skip_of_not_found (not_found_of_lookUp hg.initialized hnew) ?_
        intro m hm
        obtain ⟨x, hx, h0, -⟩ := (freeSlot_spec hslot).2.2 m hm
        exact ⟨x, hx, fun hstop => h0 ((roomyVerdict_stop_iff x).mp hstop)⟩
      exact ⟨_, hg.find_created (hok.validDir hcwd) hslot hbefore hhit hfuel, fillEntry_attributes ..,
        fillEntry_firstClusterLow .., fillEntry_fileSize _ _ _ _ _ (UInt32.toNat_lt size)⟩
    · cases hfalse
  · intro hlength
    have hlength' : w'.length = w.length := by
      have hmaps := congrArg List.length hcase
      rwa [List.length_map, List.length_map] at hmaps
    exact ⟨roomyFindFile_eq (lt_of_le_of_lt (cString_length_le w) hlength),
      roomyFindFile_eq (lt_of_le_of_lt (cString_length_le w') (by omega))⟩

theorem name83_d : Name83 (text "d") :=
  Name83.plain (List.forall_mem_singleton.mpr (show NameChar 100 by decide)) (by decide) (by decide)

theorem name83_full : Name83 (text "filename.txt") :=
  @Name83.dotted (text "filename") (text "txt")
    (List.forall_iff_forall_mem.mp (show List.Forall NameChar (text "filename") by decide)) (by decide) (by decide)
    (List.forall_iff_forall_mem.mp (show List.Forall NameChar (text "txt") by decide)) (by decide) (by decide)

/-- `touch filename.txt` on the empty small volume, looked up as `FileName.TXT`. -/
theorem created_names_found_small :
    ∃ d' e, execute (fun _ => 0) (fatCreateEntry smallVolume (2 ^ 24) (text "filename.txt") 0 0 0) smallDisk =
        some (true, d') ∧
      execute (fun _ => 0) (roomyFindFile smallVolume (2 ^ 24) (text "FileName.TXT")) d' = some (some e, d') ∧
      e.attributes = 0 ∧ e.firstClusterLow = 0 ∧ e.fileSize = 0 := by
  have hcreate : execute (fun _ => 0) (fatCreateEntry smallVolume (2 ^ 24) (text "filename.txt") 0 0 0) smallDisk =
      some (true, putSlot smallDisk 3 0 (fillEntry (fun _ => 0) (text "filename.txt") 0 0 0)) := by
    rfl
  obtain ⟨e, he⟩ := (created_names_found (fun _ => 0) le_rfl smallVolume smallDisk _ fsOk_small
    (text "filename.txt") name83_full 0 (by decide) 0 0 (by rfl) hcreate (text "FileName.TXT") (by decide)).1
  exact ⟨_, e, hcreate, he⟩

end OsEojin.Fat
