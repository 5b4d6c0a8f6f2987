import OsEojin.FatDelete
import OsEojin.FatNames
import OsEojin.FatCreate
import OsEojin.Lib.Dictionaries

/-!
# A directory is a map from names

What a user sees of a directory: a name is there or not, and stands for a file or for a directory.  The slots,
the sectors, the marks in the first byte and the FAT are behind it.  `touch`, `mkdir`, `rm` and `rmdir` update
that map, as far as the volume has room, and `fat_find_file` looks a name up in it.  Names of eight and three
characters are left out: they fill the array of `fat_filename_match`, and no word finds them.

* `entryName`, `foldedName`, `storedName`: the name of an entry, a typed name, and what becomes of it;
* `IsMap`: the shown entries of the directory are the map; `IsMap.find`: what `fat_find_file` answers;
* `mapStep`: the commands on the map; `FsOk.touch_map` and the others: the commands on the disk do the same;
* `directory_is_map`: after every run of commands, the look-up of every word is the look-up in the map.
-/

namespace OsEojin.Fat

open OsEojin.Lib.Programs OsEojin.Lib.Runs OsEojin.Lib.Dictionaries OsEojin.Ata OsEojin.Shell

/-! ### Names and what they stand for -/

/-- What an entry stands for. -/
inductive Kind
  | file
  | directory
deriving DecidableEq, Repr

/-- The `ATTR_DIRECTORY` bit. -/
def kindOf (e : DirEntry) : Kind := if isDirectory e = true then .directory else .file

/-- The name of an entry: what `fat_filename_match` puts together and compares, in capitals. -/
def entryName (e : DirEntry) : List UInt8 := cString ((matchTemp e).map toUpper)

/-- A typed name, in capitals. -/
def foldedName (w : List UInt8) : List UInt8 := cString (w.map toUpper)

/-- The name of the entry that `fat_create_entry` makes for a typed name. -/
def storedName (w : List UInt8) : List UInt8 := entryName (fillEntry (fun _ => 0) w 0 0 0)

theorem kindOf_eq_directory (e : DirEntry) : kindOf e = .directory ↔ isDirectory e = true := by
  rw [kindOf]
  split <;> simp [*]

theorem kindOf_eq_file (e : DirEntry) : kindOf e = .file ↔ isDirectory e = false := by
  rw [kindOf]
  split <;> simp [*]

/-- The name depends on the eleven bytes only. -/
theorem entryName_congr {e e' : DirEntry} (hname : nameBytes e = nameBytes e') (hext : extBytes e = extBytes e') :
    entryName e = entryName e' := by
  have h0 : e.ext 0 = e'.ext 0 := by
    have h := congrArg (fun l => l.getD 0 0) hext
    exact h
  rw [entryName, entryName, matchTemp, matchTemp, hname, hext, h0]

theorem entryName_fillEntry (old : DirEntry) (w : List UInt8) (attr : UInt8) (cluster : UInt16) (size : ℕ) :
    entryName (fillEntry old w attr cluster size) = storedName w := by
  apply entryName_congr
  · rw [nameBytes_fillEntry, nameBytes_fillEntry]
  · rw [extBytes_fillEntry, extBytes_fillEntry]

/-- **A short name is stored as it is typed**, up to case. -/
theorem storedName_of_name83 {w : List UInt8} (hw : Name83 w) : storedName w = foldedName w := by
  rw [storedName, entryName, matchTemp_fillEntry _ _ _ _ hw, List.map_map, foldedName]
  congr 2
  funext c
  exact toUpper_toUpper c

/-- The name leaves room for its zero in the array of `fat_filename_match`. -/
def FitsTemp (name : List UInt8) : Prop := name.length < 12

instance : DecidablePred FitsTemp := fun name => inferInstanceAs (Decidable (name.length < 12))

theorem match_iff {e : DirEntry} (he : FitsTemp (entryName e)) (w : List UInt8) :
    fatFilenameMatch e w = true ↔ entryName e = foldedName w := by
  have hlength : (cString (matchTemp e)).length < 12 := by
    rwa [FitsTemp, entryName, ← map_cString, List.length_map] at he
  rw [fatFilenameMatch_of_lt hlength, roomyMatch_iff, entryName, foldedName]

/-! ### The directory as a map -/

/-- A map from names. -/
abbrev NameMap := List UInt8 → Option Kind

/-- The entries that are not passed over as volume labels or long names. -/
def Shown (V : Volume) (dir : UInt16) (n : ℕ) (e : DirEntry) : Prop := Live V dir n e ∧ isHidden e = false

/-- **The directory is the map**, and its names fit. -/
structure IsMap (V : Volume) (dir : UInt16) (m : NameMap) : Prop extends
    Dictionary (Shown V dir) entryName kindOf m where
  fits : ∀ n e, Shown V dir n e → FitsTemp (entryName e)

section Slots

variable {g : Globals} {d : Disk} {w : List UInt8} {n lba : ℕ} {e : DirEntry} {m : NameMap}

theorem findVerdict_hit_iff : findVerdict w e = .hit ↔
    e.name 0 ≠ 0 ∧ e.name 0 ≠ 0xE5 ∧ isHidden e = false ∧ fatFilenameMatch e w = true := by
  rw [findVerdict]
  split
  · simp [*]
  · split
    · simp [*]
    · split
      · simp [*]
      · split <;> simp [*]

/-- What the look-up takes is shown, under the name. -/
theorem IsMap.found_shown (hm : IsMap (volume g d) g.currentDirCluster m)
    (h : Found g d g.currentDirCluster true (findVerdict w) n e lba) :
    Shown (volume g d) g.currentDirCluster n e ∧ entryName e = foldedName w := by
  obtain ⟨-, -, hhidden, hmatch⟩ := findVerdict_hit_iff.mp h.hit
  have hshown : Shown (volume g d) g.currentDirCluster n e := ⟨found_live h, hhidden⟩
  exact ⟨hshown, (match_iff (hm.fits n e hshown) w).mp hmatch⟩

/-- **A name of the map is found**: the slots before it are in use, under other names. -/
theorem IsMap.found (hm : IsMap (volume g d) g.currentDirCluster m)
    (h : Shown (volume g d) g.currentDirCluster n e) (hname : entryName e = foldedName w) :
    ∃ lba, Found g d g.currentDirCluster true (findVerdict w) n e lba := by
  have hmatch := (match_iff (hm.fits n e h) w).mpr hname
  obtain ⟨⟨hslot, h0, h5, hbefore⟩, hshown⟩ := h
  have hskip : ∀ k, k < n → SlotIs g d g.currentDirCluster (findVerdict w) .skip k := by
    intro k hk
    obtain ⟨x, hx, hx0⟩ := hbefore k hk
    refine ⟨x, hx, ?_⟩
    cases hv : findVerdict w x with
    | skip => rfl
    | stop => exact absurd ((findVerdict_stop_iff x).mp hv) hx0
    | hit =>
      obtain ⟨-, hx5, hxshown, hxmatch⟩ := findVerdict_hit_iff.mp hv
      have hx' : Shown (volume g d) g.currentDirCluster k x :=
        ⟨⟨hx, hx0, hx5, fun j hj => hbefore j (by omega)⟩, hxshown⟩
      have hxname := (match_iff (hm.fits k x hx') w).mp hxmatch
      have hsame := (hm.unique k x n e hx' ⟨⟨hslot, h0, h5, hbefore⟩, hshown⟩ (hxname.trans hname.symm)).1
      omega
  have hhit : SlotIs g d g.currentDirCluster (findVerdict w) .hit n :=
    ⟨e, hslot, findVerdict_hit_iff.mpr ⟨h0, h5, hshown, hmatch⟩⟩
  obtain ⟨x, lba, hfound⟩ := found_of_skip true hhit hskip
  have hx : some e = some x := hslot.symm.trans hfound.slot
  rw [← Option.some.inj hx] at hfound
  exact ⟨lba, hfound⟩

/-- **`fat_find_file` looks the name up.** -/
theorem IsMap.find (hm : IsMap (volume g d) g.currentDirCluster m) (hok : FsOk g d) (junk : Sector) {fuel : ℕ}
    (hfuel : 2 ^ 24 ≤ fuel) (w : List UInt8) :
    ∃ r, execute junk (fatFindFile g fuel w) d = some (r, d) ∧ r.map kindOf = m (foldedName w) := by
  obtain ⟨p, hcwd⟩ := hok.tree.cwd
  obtain ⟨last, hlast, hnone⟩ := hok.dir_ends hcwd
  obtain ⟨r, hr⟩ := execute_fatFindFile_total junk hok.geometry.initialized (hok.geometry.not_faults _) w
    (leavesAt_of_none hnone) (show last < fuel from by omega)
  refine ⟨r, hr, ?_⟩
  cases r with
  | some e =>
    obtain ⟨n, lba, hfound⟩ := (execute_fatFindFile hok.geometry.initialized hr).2 e rfl
    obtain ⟨hshown, hname⟩ := hm.found_shown hfound
    rw [← hname, hm.get hshown]
    rfl
  | none =>
    rw [Option.map_none, eq_comm, hm.none_iff]
    intro n e hshown hname
    obtain ⟨lba, hfound⟩ := hm.found hshown hname
    exact not_found_of_find hok.geometry.initialized hr n e lba hfound

end Slots

/-! ### Updates of the directory -/

section Updates

variable {V V' : Volume} {data : UInt16 → Prop} {cwd parent : UInt16} {n : ℕ} {m : NameMap}

/-- A new entry that is shown. -/
theorem IsMap.create {old new : DirEntry} (hm : IsMap V cwd m) (hdir : Dir V cwd parent)
    (h : Creates V V' data cwd n old new) (h5 : new.name 0 ≠ 0xE5) (hshown : isHidden new = false)
    (hfits : FitsTemp (entryName new)) (hfresh : ∀ k x, Shown V cwd k x → entryName x ≠ entryName new) :
    IsMap V' cwd (Function.update m (entryName new) (some (kindOf new))) := by
  have hitem : ∀ k x, Shown V' cwd k x ↔ Shown V cwd k x ∨ k = n ∧ x = new := by
    intro k x
    rw [Shown, Shown, h.live_iff hdir]
    constructor
    · intro hx
      obtain ⟨hold | hnew, hxshown⟩ := hx
      · exact Or.inl ⟨hold, hxshown⟩
      · exact Or.inr ⟨hnew.2.1, hnew.2.2.1⟩
    · intro hx
      cases hx with
      | inl hold => exact ⟨Or.inl hold.1, hold.2⟩
      | inr hnew =>
        rw [hnew.2]
        exact ⟨Or.inr ⟨rfl, hnew.1, rfl, h5⟩, hshown⟩
  refine ⟨hm.insert hitem hfresh, ?_⟩
  intro k x hx
  rcases (hitem k x).mp hx with hold | ⟨-, rfl⟩
  · exact hm.fits k x hold
  · exact hfits

/-- A deletion. -/
theorem IsMap.delete {e marked : DirEntry} {l : List UInt16} (hm : IsMap V cwd m) (hdir : Dir V cwd parent)
    (h : Deletes V V' data cwd n e marked l) (hshown : isHidden e = false) :
    IsMap V' cwd (Function.update m (entryName e) none) := by
  -- the current directory itself is not the one deleted: it holds the entry
  have hgone : ¬ Gone e cwd := fun hg => h.empty cwd n e hg h.live hg.2.1
  have hitem : ∀ k x, Shown V' cwd k x ↔ Shown V cwd k x ∧ k ≠ n := by
    intro k x
    rw [Shown, Shown, h.live_iff hdir hgone]
    constructor
    · intro hx
      exact ⟨⟨hx.1.1, hx.2⟩, fun hk => hx.1.2 ⟨rfl, hk⟩⟩
    · intro hx
      exact ⟨⟨hx.1.1, fun hk => hx.2 hk.2⟩, hx.1.2⟩
  exact ⟨hm.remove ⟨h.live, hshown⟩ (fun y hy => hy.1.unique h.live) hitem,
    fun k x hx => hm.fits k x ((hitem k x).mp hx).1⟩

end Updates

/-! ### The commands -/

/-- The directory that a name stands for has no entries but its own `.` and `..` -/
def EmptyAt (s : FileSystem) (w : List UInt8) : Prop :=
  ∃ n e, Shown (volume s.1 s.2) s.1.currentDirCluster n e ∧ entryName e = foldedName w ∧
    DirEmpty s.1 s.2 e.firstClusterLow

open Classical in
/-- **A command on the map**: a new name when there is room for one, a name less when it stands for a file, or for an
empty directory. -/
noncomputable def mapStep (s : FileSystem) (m : NameMap) : Command → NameMap
  | .cd _ => m
  | .touch w => if HasFreeSlot s.1 s.2 then Function.update m (storedName w.val) (some .file) else m
  | .mkdir w =>
    if (∃ k, FirstFree s.1 s.2 k) ∧ HasFreeSlot s.1 s.2 then
      Function.update m (storedName w.val) (some .directory)
    else m
  | .rm w => if m (foldedName w.val) = some .file then Function.update m (foldedName w.val) none else m
  | .rmdir w =>
    if m (foldedName w.val) = some .directory ∧ EmptyAt s w.val then Function.update m (foldedName w.val) none
    else m

/-- The name is stored under a first byte that marks no deletion, it is not one of eight and three characters, and no
entry shown has it yet. -/
def NewName (s : FileSystem) (w : List UInt8) : Prop :=
  (shortName w).getD 0 0 ≠ 0xE5 ∧ FitsTemp (storedName w) ∧
    ∀ n e, Shown (volume s.1 s.2) s.1.currentDirCluster n e → entryName e ≠ storedName w

/-- The command works in the current directory, creates no second entry of a name, and removes no directory behind a
volume label of its name. -/
def KeepsMap (s : FileSystem) : Command → Prop
  | .cd _ => False
  | .touch w => NewName s w.val
  | .mkdir w => NewName s w.val
  | .rm _ => True
  | .rmdir w => ∀ n e, Live (volume s.1 s.2) s.1.currentDirCluster n e → isHidden e = true →
      fatFilenameMatch e w.val = false

section Commands

variable {g : Globals} {d : Disk} {fuel : ℕ} {m : NameMap}

/-- **`fat_create_entry` fails exactly in a full directory.** -/
theorem FsOk.createEntry_cases (h : FsOk g d) (junk : Sector) (hfuel : 2 ^ 24 ≤ fuel) (w : List UInt8)
    (attr : UInt8) (cluster : UInt16) (size : ℕ) :
    (HasFreeSlot g d → ∃ n e lba, FreeSlot g d n e lba ∧
      execute junk (fatCreateEntry g fuel w attr cluster size) d =
        some (true, putSlot d lba (n % 16) (fillEntry e w attr cluster size))) ∧
    (¬ HasFreeSlot g d → execute junk (fatCreateEntry g fuel w attr cluster size) d = some (false, d)) := by
  obtain ⟨p, hcwd⟩ := h.tree.cwd
  obtain ⟨last, hlast, hnone⟩ := h.dir_ends hcwd
  have hm := h.geometry.initialized
  obtain ⟨⟨r, d'⟩, hr⟩ := execute_fatCreateEntry_total junk w hm (h.geometry.not_faults _)
    (leavesAt_of_none hnone) (show last < fuel from by omega) attr cluster size
  cases execute_fatCreateEntry hm hr with
  | inl hcreated =>
    obtain ⟨rfl, n, e, lba, hslot, rfl⟩ := hcreated
    obtain ⟨hfree, hold, -⟩ := freeSlot_spec hslot
    exact ⟨fun _ => ⟨n, e, lba, hslot, hr⟩, fun hno => absurd ⟨n, e, hold, hfree⟩ hno⟩
  | inr hfull =>
    obtain ⟨rfl, rfl, hfull⟩ := hfull
    exact ⟨fun hhas => absurd hhas hfull.not_hasFreeSlot, fun _ => hr⟩

/-- An entry that `fat_create_entry` makes is shown, under the name it is stored by. -/
theorem IsMap.filled {V' : Volume} {n : ℕ} {old : DirEntry} {w : List UInt8} {attr : UInt8} {cluster : UInt16}
    {size : ℕ} (hm : IsMap (volume g d) g.currentDirCluster m) (hok : FsOk g d) (hw : NewName (g, d) w)
    (hattr : attr &&& attrVolumeId = 0)
    (hnew : Creates (volume g d) V' (IsData g) g.currentDirCluster n old (fillEntry old w attr cluster size)) :
    IsMap V' g.currentDirCluster
      (Function.update m (storedName w) (some (kindOf (fillEntry old w attr cluster size)))) := by
  obtain ⟨p, hcwd⟩ := hok.tree.cwd
  have hname := entryName_fillEntry old w attr cluster size
  rw [← hname]
  apply hm.create hcwd hnew
  · rw [fillEntry_name_zero]
    exact hw.1
  · rw [← Bool.not_eq_true, isHidden_iff, fillEntry_attributes, not_not]
    exact hattr
  · rw [hname]
    exact hw.2.1
  · intro k x hx
    rw [hname]
    exact hw.2.2 k x hx

theorem FsOk.touch_map (h : FsOk g d) (hm : IsMap (volume g d) g.currentDirCluster m) (junk : Sector)
    (hfuel : 2 ^ 24 ≤ fuel) (w : Word) (hclean : EndMarkClean (volume g d) g.currentDirCluster)
    (hw : NewName (g, d) w.val) :
    ∃ r, execute junk (fatCreateEntry g fuel w.val 0 0 0) d = some r ∧ Effect (g, d) (.touch w) (g, r.2) ∧
      IsMap (volume g r.2) g.currentDirCluster (mapStep (g, d) m (.touch w)) := by
  obtain ⟨hroom, hfull⟩ := h.createEntry_cases junk hfuel w.val 0 0 0
  rw [mapStep]
  by_cases hslot : HasFreeSlot g d
  · obtain ⟨n, e, lba, hfree, hr⟩ := hroom hslot
    have hnew := h.creates_file hfree hclean w.val
    have hkind : kindOf (fillEntry e w.val 0 0 0) = .file := by
      rw [kindOf_eq_file, isDirectory, fillEntry_attributes]
      rfl
    refine ⟨_, hr, .touched hnew, ?_⟩
    rw [if_pos hslot, ← hkind]
    exact hm.filled h hw (by decide) hnew
  · rw [if_neg hslot]
    exact ⟨_, hfull hslot, .kept _, hm⟩

theorem FsOk.mkdir_map (h : FsOk g d) (hm : IsMap (volume g d) g.currentDirCluster m) (junk : Sector)
    (hfuel : 2 ^ 24 ≤ fuel) (w : Word)
    (hfirst : ∀ k, FirstFree g d k → k < 65536 ∧ IsData g (UInt16.ofNat k) ∧
      EndMarkClean (volume g d) g.currentDirCluster) (hw : NewName (g, d) w.val) :
    ∃ r, execute junk (cmdMkdir g fuel w.val) d = some r ∧ Effect (g, d) (.mkdir w) (g, r.2) ∧
      IsMap (volume g r.2) g.currentDirCluster (mapStep (g, d) m (.mkdir w)) := by
  rw [mapStep]
  by_cases hnone : ∃ k, FirstFree g d k
  · obtain ⟨k, hk⟩ := hnone
    obtain ⟨hk16, hdata, hclean⟩ := hfirst k hk
    have hzero := firstFree_fatEntry hk hk16
    have hok := h.newDir_ok hdata.1 hdata.2.2.1 hzero
    obtain ⟨p, hcwd⟩ := h.tree.cwd
    have hslots : ∀ dir parent, Dir (volume g d) dir parent → ∀ n,
        dirSlot g (withNewDir g d (UInt16.ofNat k)) dir n = dirSlot g d dir n :=
      fun dir parent hdir n => h.dirSlot_withNewDir hdata.1 hdata.2.2.1 hzero hdir n
    have hsame : HasFreeSlot g (withNewDir g d (UInt16.ofNat k)) ↔ HasFreeSlot g d := by
      simp only [HasFreeSlot, hslots _ _ hcwd]
    obtain ⟨hroom, hfull⟩ := hok.createEntry_cases junk hfuel w.val attrDirectory (UInt16.ofNat k) 0
    rw [execute_cmdMkdir_free hk]
    by_cases hslot : HasFreeSlot g d
    · obtain ⟨n, e, lba, hfree, hr⟩ := hroom (hsame.mpr hslot)
      have hnew := h.creates_dir hdata hzero hfree hclean w.val
      have hkind : kindOf (fillEntry e w.val attrDirectory (UInt16.ofNat k) 0) = .directory := by
        rw [kindOf_eq_directory, isDirectory, fillEntry_attributes]
        rfl
      refine ⟨_, hr, .made hk hnew, ?_⟩
      rw [if_pos ⟨⟨k, hk⟩, hslot⟩, ← hkind]
      exact hm.filled h hw (by decide) hnew
    · refine ⟨_, hfull (mt hsame.mp hslot), .allocated hslots ?_, ?_⟩
      · intro x hx h0
        exact h.fatEntry_withNewDir_used hdata.1 hdata.2.2.1 hzero hx h0
      · rw [if_neg fun hboth => hslot hboth.2]
        have hitem : ∀ n e, Shown (volume g (withNewDir g d (UInt16.ofNat k))) g.currentDirCluster n e ↔
            Shown (volume g d) g.currentDirCluster n e := by
          intro n e
          rw [Shown, Shown, live_frame hslots hcwd]
        exact ⟨hm.congr hitem, fun n e he => hm.fits n e ((hitem n e).mp he)⟩
  · rw [if_neg fun hboth => hnone hboth.1]
    exact ⟨_, execute_cmdMkdir_full (not_exists.mp hnone), .kept _, hm⟩

theorem FsOk.rm_map (h : FsOk g d) (hm : IsMap (volume g d) g.currentDirCluster m) (junk : Sector)
    (hfuel : 2 ^ 24 ≤ fuel) (w : Word)
    (hlive : ∀ n e lba, Target g d (deleteFileVerdict w.val) n e lba → isDirectory e = false →
      Live (volume g d) g.currentDirCluster n e) :
    ∃ r, execute junk (fatDeleteFile g fuel w.val) d = some r ∧ Effect (g, d) (.rm w) (g, r.2) ∧
      IsMap (volume g r.2) g.currentDirCluster (mapStep (g, d) m (.rm w)) := by
  rw [mapStep]
  by_cases hfile : m (foldedName w.val) = some .file
  · obtain ⟨n, e, hshown, hname, hkind⟩ := (hm.lookup _ _).mp hfile
    obtain ⟨lba, hfound⟩ := hm.found hshown hname
    have hplain := (kindOf_eq_file e).mp hkind
    obtain ⟨p, hcwd⟩ := h.tree.cwd
    obtain ⟨d₁, hd₁, l, hdel⟩ := h.deletes hfound.sector hshown.1 (Or.inl (h.named_of_plain hshown.1 hplain))
      (fun hd => by simp [hplain] at hd) (show 65536 ≤ fuel from by omega)
    obtain ⟨s, hs⟩ := h.scan_ends junk hfuel (deleteFileVerdict w.val)
    have ht : Target g d (deleteFileVerdict w.val) n e lba := by
      rw [deleteFileVerdict_eq]
      exact hfound.retarget hfound.hit fun k hk => hfound.skip (Or.inl rfl) hk
    have hr := execute_fatDeleteFile_target h.geometry.initialized hs ht
    rw [hplain, if_neg Bool.false_ne_true, hd₁, Option.map_some] at hr
    refine ⟨_, hr, .removed hdel, ?_⟩
    rw [if_pos hfile, ← hname]
    exact hm.delete hcwd hdel hshown.2
  · obtain ⟨⟨r, d'⟩, hr, heff⟩ := h.rm junk hfuel w hlive
    rw [if_neg hfile]
    refine ⟨_, hr, heff, ?_⟩
    rcases execute_fatDeleteFile h.geometry.initialized hr with ⟨-, rfl⟩ | ⟨-, n, e, lba, ht, hplain, -⟩
    · exact hm
    · -- a plain file of that name would be in the map
      have hhit := ht.hit
      rw [deleteFileVerdict_eq] at hhit
      obtain ⟨-, -, hhidden, hmatch⟩ := findVerdict_hit_iff.mp hhit
      have hshown : Shown (volume g d) g.currentDirCluster n e := ⟨hlive n e lba ht hplain, hhidden⟩
      have hget := hm.get hshown
      rw [(match_iff (hm.fits n e hshown) w.val).mp hmatch, (kindOf_eq_file e).mpr hplain] at hget
      exact absurd hget hfile

/-- What `fat_delete_dir` takes has the name. -/
theorem deleteDirVerdict_match {w : List UInt8} {e : DirEntry} (h : deleteDirVerdict w e = .hit) :
    fatFilenameMatch e w = true := by
  rw [deleteDirVerdict] at h
  split at h
  · cases h
  · split at h
    · cases h
    · split at h
      · assumption
      · cases h

/-- `fat_is_dir_empty` says so of an empty directory. -/
theorem FsOk.isDirEmpty (h : FsOk g d) {n : ℕ} {e : DirEntry} (hlive : Live (volume g d) g.currentDirCluster n e)
    (hisdir : isDirectory e = true) (junk : Sector) (hfuel : 2 ^ 24 ≤ fuel)
    (hempty : DirEmpty g d e.firstClusterLow) :
    execute junk (fatIsDirEmpty g fuel e.firstClusterLow) d = some (true, d) := by
  obtain ⟨q, hq⟩ := h.dir_of_live hlive hisdir
  obtain ⟨last, hlast, hnone⟩ := h.dir_ends hq
  obtain ⟨r, hr⟩ := execute_fatIsDirEmpty_total (d := d) junk (h.geometry.not_faults _) (leavesAt_of_none hnone)
    (show last < fuel from by omega)
  obtain ⟨-, hiff⟩ := execute_fatIsDirEmpty hr
  rw [hr, hiff.mpr hempty]

theorem FsOk.rmdir_map (h : FsOk g d) (hm : IsMap (volume g d) g.currentDirCluster m) (junk : Sector)
    (hfuel : 2 ^ 24 ≤ fuel) (w : Word)
    (hlive : ∀ n e lba, Target g d (deleteDirVerdict w.val) n e lba → isDirectory e = true →
      Live (volume g d) g.currentDirCluster n e ∧
        (isDot e = true → DirEmpty g d e.firstClusterLow → g.currentDirCluster = 0))
    (hhidden : ∀ n e, Live (volume g d) g.currentDirCluster n e → isHidden e = true →
      fatFilenameMatch e w.val = false) :
    ∃ r, execute junk (fatDeleteDir g fuel w.val) d = some r ∧ Effect (g, d) (.rmdir w) (g, r.2) ∧
      IsMap (volume g r.2) g.currentDirCluster (mapStep (g, d) m (.rmdir w)) := by
  rw [mapStep]
  by_cases hcond : m (foldedName w.val) = some .directory ∧ EmptyAt (g, d) w.val
  · obtain ⟨hdirectory, n, e, hshown, hname, hempty⟩ := hcond
    have hisdir : isDirectory e = true := by
      have hget := hm.get hshown
      rw [hname, hdirectory] at hget
      exact (kindOf_eq_directory e).mp (Option.some.inj hget).symm
    obtain ⟨lba, hfound⟩ := hm.found hshown hname
    have ht := target_of_find_shown hfound hhidden
    obtain ⟨p, hcwd⟩ := h.tree.cwd
    have hkind : Named e ∨ g.currentDirCluster = 0 ∧ e.firstClusterLow = 0 := by
      rcases h.kind_of_empty hshown.1 hempty with hnamed | hdot | hroot
      · exact Or.inl hnamed
      · have h0 := (hlive n e lba ht hisdir).2 hdot hempty
        exact Or.inr ⟨h0, (h.tree.dot hcwd hshown.1 hdot).2.trans h0⟩
      · exact Or.inr hroot
    obtain ⟨d₁, hd₁, l, hdel⟩ := h.deletes hfound.sector hshown.1 hkind (fun _ => hempty)
      (show 65536 ≤ fuel from by omega)
    obtain ⟨s, hs⟩ := h.scan_ends junk hfuel (deleteDirVerdict w.val)
    have hr := execute_fatDeleteDir_target h.geometry.initialized hs ht
    rw [if_pos hisdir, h.isDirEmpty hshown.1 hisdir junk hfuel hempty, Option.bind_some, if_pos rfl, hd₁,
      Option.map_some] at hr
    refine ⟨_, hr, .removedDir hdel, ?_⟩
    rw [if_pos ⟨hdirectory, n, e, hshown, hname, hempty⟩, ← hname]
    exact hm.delete hcwd hdel hshown.2
  · obtain ⟨⟨r, d'⟩, hr, heff⟩ := h.rmdir junk hfuel w hlive
    rw [if_neg hcond]
    refine ⟨_, hr, heff, ?_⟩
    rcases execute_fatDeleteDir h.geometry.initialized hr with
      ⟨-, rfl⟩ | ⟨-, n, e, lba, ht, hisdir, hempty, -⟩
    · exact hm
    · -- an empty directory of that name would be in the map
      have hl := (hlive n e lba ht hisdir).1
      have hmatch := deleteDirVerdict_match ht.hit
      have hshown : isHidden e = false := by
        cases hh : isHidden e with
        | false => rfl
        | true =>
          rw [hhidden n e hl hh] at hmatch
          cases hmatch
      have hname := (match_iff (hm.fits n e ⟨hl, hshown⟩) w.val).mp hmatch
      have hget := hm.get ⟨hl, hshown⟩
      rw [hname, (kindOf_eq_directory e).mpr hisdir] at hget
      exact absurd ⟨hget, n, e, ⟨hl, hshown⟩, hname, hempty⟩ hcond

/-- **One command**, on the disk and on the map. -/
theorem step_map (junk : Sector) (hfuel : 2 ^ 24 ≤ fuel) (s : FileSystem) (c : Command) (hok : FsOk s.1 s.2)
    (hm : IsMap (volume s.1 s.2) s.1.currentDirCluster m) (hc : Admissible s c) (hk : KeepsMap s c) :
    ∃ s', step junk fuel s c = some s' ∧ FsOk s'.1 s'.2 ∧ s'.1 = s.1 ∧
      IsMap (volume s'.1 s'.2) s.1.currentDirCluster (mapStep s m c) := by
  obtain ⟨g, d⟩ := s
  cases c with
  | cd w => exact hk.elim
  | touch w =>
    obtain ⟨r, hr, heff, hmap⟩ := hok.touch_map hm junk hfuel w hc hk
    exact ⟨_, (step_touch junk fuel (g, d) w).trans (by rw [hr]; rfl), hok.effect heff, rfl, hmap⟩
  | mkdir w =>
    obtain ⟨r, hr, heff, hmap⟩ := hok.mkdir_map hm junk hfuel w hc hk
    exact ⟨_, (step_mkdir junk fuel (g, d) w).trans (by rw [hr]; rfl), hok.effect heff, rfl, hmap⟩
  | rm w =>
    obtain ⟨r, hr, heff, hmap⟩ := hok.rm_map hm junk hfuel w hc
    exact ⟨_, (step_rm junk fuel (g, d) w).trans (by rw [hr]; rfl), hok.effect heff, rfl, hmap⟩
  | rmdir w =>
    obtain ⟨r, hr, heff, hmap⟩ := hok.rmdir_map hm junk hfuel w hc hk
    exact ⟨_, (step_rmdir junk fuel (g, d) w).trans (by rw [hr]; rfl), hok.effect heff, rfl, hmap⟩

end Commands

/-! ### Runs -/

/-- The map after a run of commands. -/
noncomputable def mapAfter (junk : Sector) (fuel : ℕ) : FileSystem → NameMap → List Command → NameMap
  | _, m, [] => m
  | s, m, c :: cs =>
    match step junk fuel s c with
    | some s' => mapAfter junk fuel s' (mapStep s m c) cs
    | none => m

theorem mapAfter_cons {junk : Sector} {fuel : ℕ} {s s' : FileSystem} {c : Command}
    (h : step junk fuel s c = some s') (m : NameMap) (cs : List Command) :
    mapAfter junk fuel s m (c :: cs) = mapAfter junk fuel s' (mapStep s m c) cs := by
  rw [mapAfter, h]

/-- The run lemma. -/
theorem run_map (junk : Sector) {fuel : ℕ} (hfuel : 2 ^ 24 ≤ fuel) {s : FileSystem} {m : NameMap}
    (hok : FsOk s.1 s.2) (hm : IsMap (volume s.1 s.2) s.1.currentDirCluster m) {cs : List Command}
    (hadm : AdmitsOption (step junk fuel) (fun s c => Admissible s c ∧ KeepsMap s c) s cs) :
    ∃ s', runOption (step junk fuel) s cs = some s' ∧ FsOk s'.1 s'.2 ∧ s'.1 = s.1 ∧
      IsMap (volume s'.1 s'.2) s.1.currentDirCluster (mapAfter junk fuel s m cs) := by
  induction cs generalizing s m with
  | nil => exact ⟨s, rfl, hok, rfl, hm⟩
  | cons c cs ih =>
    obtain ⟨⟨hc, hk⟩, hrest⟩ := hadm
    obtain ⟨s₁, hs₁, hok₁, hg₁, hm₁⟩ := step_map junk hfuel s c hok hm hc hk
    have hcwd : s₁.1.currentDirCluster = s.1.currentDirCluster := congrArg Globals.currentDirCluster hg₁
    rw [← hcwd] at hm₁ ⊢
    obtain ⟨s', hs', hok', hg', hm'⟩ := ih hok₁ hm₁ (hrest s₁ hs₁)
    rw [mapAfter_cons hs₁]
    exact ⟨s', (runOption_cons hs₁ cs).trans hs', hok', hg'.trans hg₁, hm'⟩

/-- **A directory is a map.**  On a well-formed volume whose current directory is the map `m`, without names of eight
and three characters, along every run of admissible `touch`, `mkdir`, `rm` and `rmdir` commands that creates no such
name and no second entry of a name, every command comes back, and then `fat_find_file` finds a word exactly if the
same commands on the map leave it there, as what it stands for there. -/
theorem directory_is_map (junk : Sector) {fuel : ℕ} (hfuel : 2 ^ 24 ≤ fuel) (s : FileSystem) (m : NameMap)
    (hok : FsOk s.1 s.2) (hm : IsMap (volume s.1 s.2) s.1.currentDirCluster m) (cs : List Command)
    (hadm : AdmitsOption (step junk fuel) (fun s c => Admissible s c ∧ KeepsMap s c) s cs) :
    ∃ s', runOption (step junk fuel) s cs = some s' ∧ ∀ w : List UInt8, ∃ r,
      execute junk (fatFindFile s'.1 fuel w) s'.2 = some (r, s'.2) ∧
        r.map kindOf = mapAfter junk fuel s m cs (foldedName w) := by
  obtain ⟨s', hs', hok', hg', hm'⟩ := run_map junk hfuel hok hm hadm
  rw [← hg'] at hm'
  exact ⟨s', hs', fun w => hm'.find hok' junk hfuel w⟩

theorem smallDisk_isMap : IsMap (volume smallVolume smallDisk) 0 fun _ => none := by
  have hnone : ∀ n e, ¬ Shown (volume smallVolume smallDisk) 0 n e :=
    fun n e h => h.1.2.1 (smallDisk_root h.1.1)
  refine ⟨⟨?_, ?_⟩, fun n e h => absurd h (hnone n e)⟩
  · intro n e k x h
    exact absurd h (hnone n e)
  · intro name kind
    constructor
    · intro h
      cases h
    · intro h
      obtain ⟨n, e, hshown, -⟩ := h
      exact absurd hshown (hnone n e)

/-- The slots of the root with one directory in it: none is hidden, and only the first has the name, which is in
use. -/
theorem oneDirDisk_slots : ∀ k, k < 16 → isHidden (entryAt (oneDirDisk.get 3) k) = false ∧
    (deleteFileVerdict (text "d") (entryAt (oneDirDisk.get 3) k) = .hit →
      isDirectory (entryAt (oneDirDisk.get 3) k) = true) ∧
    (deleteDirVerdict (text "d") (entryAt (oneDirDisk.get 3) k) = .hit → k = 0) ∧
    (entryAt (oneDirDisk.get 3) 0).name 0 = 68 := by
  decide +kernel

theorem oneDirDisk_admits_rm : Admissible (smallVolume, oneDirDisk) (.rm wordD) := by
  intro n e lba ht hplain
  obtain ⟨hn, rfl⟩ := dirSlot_root_single rfl ht.slot
  exact absurd (((oneDirDisk_slots n hn).2.1 ht.hit).symm.trans hplain) (by decide)

theorem oneDirDisk_admits_rmdir : Admissible (smallVolume, oneDirDisk) (.rmdir wordD) := by
  intro n e lba ht _
  obtain ⟨hn, rfl⟩ := dirSlot_root_single rfl ht.slot
  obtain ⟨-, -, hzero, hname⟩ := oneDirDisk_slots n hn
  have hslot := ht.slot
  rw [hzero ht.hit] at hslot ⊢
  refine ⟨⟨hslot, ?_, ?_, fun k hk => absurd hk (Nat.not_lt_zero k)⟩, fun _ _ => rfl⟩
  · exact fun h => absurd (hname.symm.trans h) (by decide)
  · exact fun h => absurd (hname.symm.trans h) (by decide)

theorem oneDirDisk_keeps_rmdir : KeepsMap (smallVolume, oneDirDisk) (.rmdir wordD) := by
  intro n e hlive hhidden
  obtain ⟨hn, rfl⟩ := dirSlot_root_single rfl hlive.1
  exact absurd ((oneDirDisk_slots n hn).1.symm.trans hhidden) (by decide)

theorem step_rm_oneDirDisk : step (fun _ => 0) (2 ^ 24) (smallVolume, oneDirDisk) (.rm wordD) =
    some (smallVolume, oneDirDisk) := by
  rfl

/-- `mkdir d`, `rm d` and `rmdir d` on an empty volume. -/
theorem directory_is_map_small :
    ∃ s', runOption (step (fun _ => 0) (2 ^ 24)) (smallVolume, smallDisk) [.mkdir wordD, .rm wordD, .rmdir wordD] =
        some s' ∧
      ∀ w : List UInt8, ∃ r, execute (fun _ => 0) (fatFindFile s'.1 (2 ^ 24) w) s'.2 = some (r, s'.2) ∧
        r.map kindOf = mapAfter (fun _ => 0) (2 ^ 24) (smallVolume, smallDisk) (fun _ => none)
          [.mkdir wordD, .rm wordD, .rmdir wordD] (foldedName w) := by
  apply directory_is_map (fun _ => 0) le_rfl (smallVolume, smallDisk) (fun _ => none) fsOk_small smallDisk_isMap
  refine ⟨⟨smallDisk_admits_mkdir wordD, by decide, by decide, ?_⟩, ?_⟩
  · intro n e h
    exact absurd (smallDisk_root h.1.1) h.1.2.1
  · intro s₁ hs₁
    obtain rfl := Option.some.inj (step_oneDirDisk.symm.trans hs₁)
    refine ⟨⟨oneDirDisk_admits_rm, trivial⟩, ?_⟩
    intro s₂ hs₂
    obtain rfl := Option.some.inj (step_rm_oneDirDisk.symm.trans hs₂)
    exact ⟨⟨oneDirDisk_admits_rmdir, oneDirDisk_keeps_rmdir⟩, fun _ _ => trivial⟩

end OsEojin.Fat
