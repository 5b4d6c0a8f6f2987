import OsEojin.FatCreate
import OsEojin.FatAllocation
import OsEojin.FatPath
import OsEojin.ScanEnds

/-!
# Down into a new directory and up again

`mkdir name`, `cd name`, `cd ..`: a cluster is taken and filled with `.` and `..`, an entry for it goes into the
current directory, the name is looked up there, then `..` in the new cluster; and twice the path string is
edited.  The cluster need not have been free: a FAT with more entries than there are cluster numbers may hand out
one in use, even one of the current directory.

* `dirLba_withNewDir`, `skip_before_new`: the current directory after the allocation, as far as the new entry;
* `dirSlot_newDir`: the first slots of the new directory;
* `pathUp_pathDown`: the path down and up;
* `Returns`, `mkdir_cd_up_returns_iff`: the three commands together, which lead home for names of fewer than twelve
  characters;
* `path_starts_with_slash`: the strings that `current_path` can hold.
-/

namespace OsEojin.Fat

open OsEojin.Lib.Programs OsEojin.Lib.Runs OsEojin.Ata OsEojin.Shell

variable {junk : Sector} {g : Globals} {d d' : Disk} {a c x : UInt16} {fuel n i lba : ℕ} {e e' : DirEntry}
  {w path name : List UInt8}

/-! ### The current directory after the allocation -/

section NewDir

variable (hg : Geometry g) (h2 : 2 ≤ c.toNat) (hfat : c.toNat < 256 * g.fatInfo.fatSize16.toNat)
include hg h2 hfat

/-- It is the root or a chain, perhaps a shorter one. -/
theorem validDir_withNewDir (hdir : ValidDir g d a) : ValidDir g (withNewDir g d c) a := by
  cases hdir with
  | inl h0 => exact Or.inl h0
  | inr hsub =>
    obtain ⟨l, hl⟩ := hsub
    by_cases hc : c ∈ l
    · obtain ⟨t, -, -, ht, -, -⟩ := chain_withNewDir_of_mem hg h2 hfat hl hc
      exact Or.inr ⟨t, ht⟩
    · refine Or.inr ⟨l, hl.congr ?_⟩
      intro x hx
      rw [hg.fatEntry_withNewDir h2 (hl.data_of_mem hx).2.2.1, if_neg]
      rintro rfl
      exact hc hx

/-- Its sectors other than the new one are sectors it had, with their contents. -/
theorem dirLba_withNewDir (hdir : ValidDir g d a) (h : dirLba g (withNewDir g d c) a i = some lba)
    (hne : lba ≠ clusterLba g c) :
    dirLba g d a i = some lba ∧ (withNewDir g d c).get lba = d.get lba := by
  obtain ⟨hlo, hhi⟩ := hg.dirLba_region (validDir_withNewDir hg h2 hfat hdir) h
  refine ⟨?_, by rw [hg.get_withNewDir h2 hfat hlo hhi, if_neg hne]⟩
  cases hdir with
  | inl h0 =>
    rw [h0, dirLba_root] at h ⊢
    exact h
  | inr hsub =>
    obtain ⟨l, hl⟩ := hsub
    by_cases hc : c ∈ l
    · obtain ⟨t, r, -, ht, -, hlt⟩ := chain_withNewDir_of_mem hg h2 hfat hl hc
      rw [dirLba_chain hg.toMounted ht] at h
      obtain ⟨x, hx, hxlba⟩ := Option.map_eq_some_iff.mp h
      have hlen := (List.getElem?_eq_some_iff.mp hx).1
      rw [dirLba_chain hg.toMounted hl, hlt, List.getElem?_append_left hlen, hx, Option.map_some, hxlba]
    · rw [← h]
      refine (dirLba_congr hg.toMounted hl ?_ i).symm
      intro x hx
      rw [hg.fatEntry_withNewDir h2 (hl.data_of_mem hx).2.2.1, if_neg]
      rintro rfl
      exact hc hx

/-- The sector of the new cluster holds `.` and `..` -/
theorem get_newSector : (withNewDir g d c).get (clusterLba g c) = dotSector c g.currentDirCluster := by
  rw [hg.get_withNewDir h2 hfat (hg.rootDir_le_clusterLba c) (hg.clusterLba_lt c), if_pos rfl]

end NewDir

/-! ### The names `.` and `..` -/

/-- The names of both begin with a dot. -/
theorem dotSector_name_zero (c p : UInt16) {k : ℕ} (hk : k < 2) : (entryAt (dotSector c p) k).name 0 = 46 := by
  match k with
  | 0 =>
    rw [dotSector_zero]
    rfl
  | 1 =>
    rw [dotSector_one]
    rfl

theorem Name83.head (hw : Name83 w) : ∃ b bs, w = b :: bs ∧ NameChar b := by
  cases hw with
  | plain hbase h1 _ =>
    cases w with
    | nil => cases h1
    | cons b bs => exact ⟨b, bs, rfl, hbase b List.mem_cons_self⟩
  | @dotted base ext hbase h1 _ _ _ _ =>
    cases base with
    | nil => cases h1
    | cons b bs => exact ⟨b, _, rfl, hbase b List.mem_cons_self⟩

/-- Eight characters, a dot and three more. -/
theorem Name83.length_le (hw : Name83 w) : w.length ≤ 12 := by
  cases hw with
  | plain _ _ h8 => omega
  | dotted _ _ h8 _ _ h3 =>
    rw [List.length_append, List.length_cons]
    omega

/-- A name that begins with a dot is no short name. -/
theorem roomyMatch_dot {rest bs : List UInt8} {b : UInt8} (hb : NameChar b) (htemp : matchTemp e = 46 :: rest) :
    ¬ roomyMatch e (b :: bs) = true := by
  rw [roomyMatch_iff, htemp, List.map_cons, List.map_cons, cString, cString,
    List.takeWhile_cons_of_pos (by decide), List.takeWhile_cons_of_pos]
  · intro heq
    exact toUpper_ne (hb.ne (by decide)) (by decide) (List.cons.inj heq).1.symm
  · exact bne_iff_ne.mpr (toUpper_ne (hb.ne (by decide)) (by decide))

/-- An entry whose name begins with a dot does not have a short name. -/
theorem findVerdict_dot (hw : Name83 w) {rest : List UInt8} (hname : e.name 0 = 46)
    (htemp : matchTemp e = 46 :: rest) : findVerdict w e = .skip := by
  have hmatch : ¬ fatFilenameMatch e w = true := by
    obtain ⟨b, bs, rfl, hb⟩ := hw.head
    intro h
    rcases fatFilenameMatch_cases h with ⟨-, hwhole⟩ | ⟨-, hstart⟩
    · exact roomyMatch_dot hb htemp hwhole
    · have h0 : (b != 0) = true := bne_iff_ne.mpr (hb.ne (by decide))
      rw [cString, List.takeWhile_cons_of_pos (p := fun c : UInt8 => c != 0) h0, List.take_succ_cons] at hstart
      exact roomyMatch_dot hb htemp hstart
  rw [findVerdict, hname, if_neg (by decide), if_neg (by decide), if_neg hmatch, ite_self]

/-- The slots of the new sector that are in use do not have the name. -/
theorem findVerdict_dotSector (hw : Name83 w) (c p : UInt16) {k : ℕ} (hk : k < 16)
    (hused : (entryAt (dotSector c p) k).name 0 ≠ 0x00) : findVerdict w (entryAt (dotSector c p) k) = .skip := by
  match k with
  | 0 =>
    rw [dotSector_zero]
    exact findVerdict_dot hw rfl rfl
  | 1 =>
    rw [dotSector_one]
    exact findVerdict_dot hw rfl rfl
  | k + 2 => exact absurd (dotSector_rest c p (by omega) hk) hused

/-- **The slots before the new entry do not have its name**: each is one that the directory had, where the name
was not found, or `.` or `..` of the new cluster. -/
theorem skip_before_new (hg : Geometry g) (h2 : 2 ≤ c.toNat)
    (hfat : c.toNat < 256 * g.fatInfo.fatSize16.toNat) (hdir : ValidDir g d g.currentDirCluster)
    (hno : ∀ m e lba, ¬ Found g d g.currentDirCluster true (findVerdict w) m e lba) (hw : Name83 w)
    (hslot : FreeSlot g (withNewDir g d c) n e lba) :
    ∀ m, m < n → SlotIs g (withNewDir g d c) g.currentDirCluster (findVerdict w) .skip m := by
  have hused := (freeSlot_spec hslot).2.2
  -- a sector before the last one is not the new one, whose third slot is free
  have hold : ∀ k m lba', k / 16 < m / 16 → m < n →
      dirLba g (withNewDir g d c) g.currentDirCluster (k / 16) = some lba' → lba' ≠ clusterLba g c := by
    rintro k m lba' hkm hm hlba rfl
    obtain ⟨y, hy, hy0, -⟩ := hused (16 * (k / 16) + 2) (by omega)
    rw [dirSlot, show (16 * (k / 16) + 2) / 16 = k / 16 from by omega, hlba,
      show (16 * (k / 16) + 2) % 16 = 2 from by omega, Option.map_some, get_newSector hg h2 hfat] at hy
    rw [← Option.some.inj hy] at hy0
    exact hy0 (dotSector_two ..)
  intro m hm
  obtain ⟨y, hy, hy0, -⟩ := hused m hm
  have hslotm := hy
  rw [dirSlot] at hslotm
  obtain ⟨lba', hlba', hentry⟩ := Option.map_eq_some_iff.mp hslotm
  by_cases hnew : lba' = clusterLba g c
  · refine ⟨y, hy, ?_⟩
    rw [hnew, get_newSector hg h2 hfat] at hentry
    rw [← hentry] at hy0 ⊢
    exact findVerdict_dotSector hw _ _ (Nat.mod_lt _ (by decide)) hy0
  · -- the slots up to this one are those of before
    have hsame : ∀ k, k ≤ m → dirSlot g d g.currentDirCluster k =
        dirSlot g (withNewDir g d c) g.currentDirCluster k := by
      intro k hk
      obtain ⟨z, hz, -, -⟩ := hused k (by omega)
      rw [dirSlot] at hz
      obtain ⟨lbak, hlbak, -⟩ := Option.map_eq_some_iff.mp hz
      have hne : lbak ≠ clusterLba g c := by
        by_cases hsector : k / 16 = m / 16
        · rw [hsector, hlba'] at hlbak
          rwa [← Option.some.inj hlbak]
        · exact hold k m lbak (by omega) hm hlbak
      obtain ⟨hbefore, hget⟩ := dirLba_withNewDir hg h2 hfat hdir hlbak hne
      rw [dirSlot, dirSlot, hbefore, hlbak, Option.map_some, Option.map_some, hget]
    have hskip : SlotIs g d g.currentDirCluster (findVerdict w) .skip m := by
      refine skip_of_not_found hno ?_ m (Nat.lt_succ_self m)
      intro k hk
      obtain ⟨z, hz, hz0, -⟩ := hused k (by omega)
      exact ⟨z, by rw [hsame k (by omega), hz], fun hstop => hz0 ((findVerdict_stop_iff z).mp hstop)⟩
    obtain ⟨z, hz, hv⟩ := hskip
    exact ⟨z, by rw [← hsame m le_rfl, hz], hv⟩

/-! ### The new directory -/

/-- The word that leads up. -/
def wordUp : Word := ⟨text "..", by decide⟩

/-- It is compared with the names of the two entries. -/
theorem findVerdict_up {name : String} {p : UInt16} (h0 : (dotEntry name p).name 0 = 46)
    (htemp : matchTemp (dotEntry name p) = text name) (hshort : (cString (text name)).length < 12) :
    findVerdict wordUp.val (dotEntry name p) =
      if matchLoop (cString (text name)) (text "..") then .hit else .skip := by
  have hshown : ¬ isHidden (dotEntry name p) = true := by
    rw [isHidden_iff, not_not, show (dotEntry name p).attributes = attrDirectory from rfl]
    decide
  rw [findVerdict, h0, if_neg (by decide), if_neg (by decide), if_neg hshown,
    fatFilenameMatch_of_lt (by rw [htemp]; exact hshort), roomyMatch, htemp]
  rfl

/-- A name that the second slot has and the first does not. -/
theorem find_second (hm : g.isFatInitialized = true) (hf : ¬ faults g g.currentDirCluster)
    (h0 : dirSlot g d g.currentDirCluster 0 = some e) (hskip : findVerdict w e = .skip)
    (h1 : dirSlot g d g.currentDirCluster 1 = some e') (hhit : findVerdict w e' = .hit) (hfuel : 0 < fuel) :
    execute junk (fatFindFile g fuel w) d = some (some e', d) := by
  have hbefore : ∀ m, m < 1 → m = 0 := fun m hm => by omega
  obtain ⟨x, lba, hfound⟩ : ∃ x lba, Found g d g.currentDirCluster true (findVerdict w) 1 x lba := by
    refine found_of_skip true ⟨e', h1, hhit⟩ ?_
    intro m hm
    rw [hbefore m hm]
    exact ⟨e, h0, hskip⟩
  have hx := hfound.slot
  rw [h1] at hx
  rw [← Option.some.inj hx] at hfound
  refine lookUp_of_found hm hf (leavesAt_of_hit ⟨e', h1, hhit⟩ ?_) hfuel hfound
  rintro m - hm ⟨y, hy, hstop⟩
  rw [hbefore m hm, h0] at hy
  rw [← Option.some.inj hy, hskip] at hstop
  cases hstop

section Inside

variable (hg : Geometry g) (h2 : 2 ≤ c.toNat) (hfat : c.toNat < 256 * g.fatInfo.fatSize16.toNat)
  (hdir : ValidDir g d g.currentDirCluster) (hslot : FreeSlot g (withNewDir g d c) n e lba)
include hg h2 hfat hdir hslot

/-- The new entry did not go over `.` or `..`, even where its sector is theirs. -/
theorem entryAt_newSector (e' : DirEntry) {k : ℕ} (hk : k < 2) :
    entryAt ((putSlot (withNewDir g d c) lba (n % 16) e').get (clusterLba g c)) k =
      entryAt (dotSector c g.currentDirCluster) k := by
  obtain ⟨-, hhi⟩ := hg.dirLba_region (validDir_withNewDir hg h2 hfat hdir) hslot.sector
  have hnew := get_newSector (d := d) hg h2 hfat
  rw [putSlot, get_put _ hhi (hg.clusterLba_lt c)]
  by_cases hsame : clusterLba g c = lba
  · have hkn : k ≠ n % 16 := by
      have hfree := (freeSlot_spec hslot).1
      rw [← hslot.entry, ← hsame, hnew] at hfree
      rintro rfl
      rw [dotSector_name_zero c _ hk] at hfree
      exact absurd hfree (by decide)
    rw [if_pos hsame, ← hsame, hnew, entryAt_putEntry_of_ne _ _ (by omega) hkn]
  · rw [if_neg hsame, hnew]

/-- The first slots of the new directory, wherever the current directory and the path are by then. -/
theorem dirSlot_newDir (e' : DirEntry) (hmark : c < 0xFFF8) (x : UInt16) (path : List UInt8) {k : ℕ}
    (hk : k < 2) :
    dirSlot { g with currentDirCluster := x, currentPath := path } (putSlot (withNewDir g d c) lba (n % 16) e')
      c k = some (entryAt (dotSector c g.currentDirCluster) k) := by
  have hc0 : c ≠ 0 := by
    rintro rfl
    exact absurd h2 (by decide)
  have hlba : ∀ d', dirLba g d' c 0 = some (clusterLba g c) := by
    intro d'
    rw [dirLba, if_neg hc0, Nat.zero_div, walk, if_neg (UInt16.not_le.mpr hmark), Option.map_some,
      hg.fatLbaOfCluster_eq h2, Nat.zero_mod, Nat.add_zero]
  rw [dirSlot, dirLba_move, show k / 16 = 0 from by omega, hlba, Option.map_some,
    show k % 16 = k from by omega, entryAt_newSector hg h2 hfat hdir hslot e' hk]

/-- **The way up is found**: `..` in the new directory names the current one of before. -/
theorem find_up (junk : Sector) (e' : DirEntry) (hmark : c < 0xFFF8) (path : List UInt8) (hfuel : 0 < fuel) :
    execute junk (fatFindFile { g with currentDirCluster := c, currentPath := path } fuel wordUp.val)
        (putSlot (withNewDir g d c) lba (n % 16) e') =
      some (some (dotEntry ".." g.currentDirCluster), putSlot (withNewDir g d c) lba (n % 16) e') := by
  have hfirst := dirSlot_newDir hg h2 hfat hdir hslot e' hmark c path (k := 0) (by decide)
  have hsecond := dirSlot_newDir hg h2 hfat hdir hslot e' hmark c path (k := 1) (by decide)
  rw [dotSector_zero] at hfirst
  rw [dotSector_one] at hsecond
  exact find_second hg.initialized (hg.not_faults c) hfirst (findVerdict_up rfl rfl (by decide)) hsecond
    (findVerdict_up rfl rfl (by decide)) hfuel

end Inside

/-! ### The path -/

/-- The name of a new entry, as `cd` reads it. -/
theorem trimBlanks_fillEntry (hw : Name83 w) (old : DirEntry) (attr : UInt8) (cluster : UInt16) (size : ℕ) :
    trimBlanks (nameBytes (fillEntry old w attr cluster size)) = (baseName w).map toUpper := by
  obtain ⟨hchars, -, h8⟩ := hw.base
  have hne : ∀ b : UInt8, b < 0x21 → ∀ x ∈ (baseName w).map toUpper, x ≠ b := by
    intro b hb x hx
    obtain ⟨y, hy, rfl⟩ := List.mem_map.mp hx
    have h65 : b < 65 := UInt8.lt_trans hb (show (0x21 : UInt8) < 65 from by decide)
    exact toUpper_ne ((hchars y hy).ne (Or.inl hb)) (Or.inl h65)
  have hblank : 32 ∉ (baseName w).map toUpper := fun hmem => hne 32 (by decide) 32 hmem rfl
  rw [trimBlanks, nameBytes_fillEntry, shortName, List.take_of_length_le h8, List.rightpad,
    rdropWhile_append_blanks _ fun c hc => List.eq_of_mem_replicate hc, rdropWhile_of_no_blank hblank, cString,
    List.takeWhile_eq_self_iff]
  intro x hx
  exact bne_iff_ne.mpr (hne 0 (by decide) x hx)

/-- It can be read back from a path. -/
theorem isPathName_base (hw : Name83 w) (hslash : (47 : UInt8) ∉ w) : IsPathName ((baseName w).map toUpper) := by
  obtain ⟨-, h1, -⟩ := hw.base
  refine ⟨List.length_pos_iff.mp (by rw [List.length_map]; exact h1), ?_⟩
  intro hmem
  obtain ⟨x, hx, hupper⟩ := List.mem_map.mp hmem
  rw [toUpper_eq_iff (by decide) (by decide)] at hupper
  rw [hupper] at hx
  exact hslash ((List.takeWhile_sublist _).subset hx)

/-- **Down and up again** leads back, from `/` and from every path that does not end in a slash. -/
theorem pathUp_pathDown (hpath : path = [47] ∨ 1 < path.length ∧ path.getLast? ≠ some 47)
    (hname : IsPathName name) (hlen : path.length + name.length + 2 < 256) :
    pathUp (pathDown path name) = path := by
  have hpos : 0 < name.length := List.length_pos_iff.mpr hname.1
  rw [pathDown, if_pos hlen]
  cases hpath with
  | inl hroot =>
    subst hroot
    rw [if_neg (fun h => absurd h.1 (by decide)), pathUp,
      if_pos (by rw [List.length_append, List.length_singleton]; omega),
      show [47] ++ name = [] ++ 47 :: name from rfl, slashSearch_last hname.2 (Nat.zero_le _) (by simp)]
    rfl
  | inr hsub =>
    obtain ⟨h1, hlast⟩ := hsub
    have hend : path.getD (path.length - 1) 0 ≠ 47 := by
      intro h47
      refine hlast ?_
      rw [List.getLast?_eq_getElem?, List.getElem?_eq_getElem (by omega), Option.some.injEq, ← h47,
        List.getD_eq_getElem?_getD, List.getElem?_eq_getElem (by omega), Option.getD_some]
    rw [if_pos ⟨h1, hend⟩, pathUp, if_pos (by rw [List.length_append]; omega),
      slashSearch_last hname.2 (by rw [List.length_append, List.length_cons]; omega)
        (by rw [List.length_append, List.length_cons]; omega)]
    obtain ⟨k, hk⟩ : ∃ k, path.length = k + 1 := ⟨path.length - 1, by omega⟩
    rw [hk]
    show (path ++ 47 :: name).take (k + 1) = path
    rw [← hk, List.take_left]

/-! ### What the path can be -/

theorem pathUp_head (h : path.head? = some 47) : (pathUp path).head? = some 47 := by
  obtain ⟨rest, rfl⟩ := List.head?_eq_some_iff.mp h
  rw [pathUp]
  split
  · cases slashSearch (47 :: rest) ((47 :: rest).length - 1) with
    | none => rfl
    | some i =>
      cases i with
      | zero => rfl
      | succ i => rfl
  · rfl

theorem pathDown_head (h : path.head? = some 47) (name : List UInt8) : (pathDown path name).head? = some 47 := by
  obtain ⟨rest, rfl⟩ := List.head?_eq_some_iff.mp h
  rw [pathDown]
  split
  · split
    · rfl
    · rfl
  · rfl

theorem changedPath_head (h : path.head? = some 47) (w : List UInt8) (e : DirEntry) :
    (changedPath path w e).head? = some 47 := by
  rw [changedPath]
  split
  · exact pathUp_head h
  · split
    · exact h
    · exact pathDown_head h _

/-- One line typed at the prompt, on the device. -/
def lineStep (junk : Sector) (fuel : ℕ) (s : FileSystem) (line : List UInt8) : Option FileSystem :=
  (execute junk (userInput s.1 fuel line) s.2).map fun r => (r.1.fat, r.2)

/-- The globals after a line are those of before, or of `fat_init`, or of `fat_change_dir`. -/
theorem lineStep_globals {s s' : FileSystem} {line : List UInt8} (h : lineStep junk fuel s line = some s') :
    s'.1 = s.1 ∨ (∃ d', execute junk (fatInit s.1) s.2 = some (s'.1, d')) ∨
      ∃ w d', execute junk (fatChangeDir s.1 fuel w) s.2 = some (s'.1, d') := by
  obtain ⟨r, hr, rfl⟩ := Option.map_eq_some_iff.mp h
  cases htoken : getNextToken line 0 with
  | mk token offset =>
    cases token with
    | none =>
      rw [userInput, htoken] at hr
      cases hr
      exact Or.inl rfl
    | some command =>
      by_cases hmount : command = text "mount"
      · simp only [userInput, htoken, if_pos hmount, execute_bind] at hr
        obtain ⟨⟨g', d'⟩, hinit, hrest⟩ := Option.bind_eq_some_iff.mp hr
        cases hrest
        exact Or.inr (Or.inl ⟨d', hinit⟩)
      · by_cases hcd : command = text "cd"
        · simp only [userInput, htoken, if_neg hmount, if_pos hcd] at hr
          cases hword : (getNextToken line offset).1 with
          | none =>
            rw [hword] at hr
            cases hr
            exact Or.inl rfl
          | some w =>
            simp only [hword, execute_bind] at hr
            obtain ⟨⟨g', d'⟩, hchange, hrest⟩ := Option.bind_eq_some_iff.mp hr
            cases hrest
            exact Or.inr (Or.inr ⟨w, d', hchange⟩)
        · by_cases hexec : command = text "exec"
          · simp only [userInput, htoken, if_neg hmount, if_neg hcd, if_pos hexec] at hr
            cases hword : (getNextToken line offset).1 with
            | none =>
              rw [hword] at hr
              cases hr
              exact Or.inl rfl
            | some w =>
              simp only [hword, execute_bind] at hr
              obtain ⟨⟨request, d'⟩, -, hrest⟩ := Option.bind_eq_some_iff.mp hr
              cases request with
              | none =>
                cases hrest
                exact Or.inl rfl
              | some request =>
                cases hrest
                exact Or.inl rfl
          · rw [userInput_branch junk fuel htoken hmount hcd hexec] at hr
            obtain ⟨r', -, rfl⟩ := Option.map_eq_some_iff.mp hr
            exact Or.inl rfl

/-- A line keeps the slash: only `cd` changes the path, and it edits behind the slash. -/
theorem lineStep_head {s s' : FileSystem} {line : List UInt8} (hs : s.1.currentPath.head? = some 47)
    (h : lineStep junk fuel s line = some s') : s'.1.currentPath.head? = some 47 := by
  rcases lineStep_globals h with hkept | ⟨d', hinit⟩ | ⟨w, d', hchange⟩
  · rw [hkept, hs]
  · rw [(mounted_fatInit hinit).2.2, hs]
  · obtain ⟨-, x, path, hg, hpath⟩ := execute_fatChangeDir hchange
    rw [hg]
    rcases hpath with rfl | ⟨e, rfl⟩
    · exact hs
    · exact changedPath_head hs w e

/-- **The path begins with a slash** in every state that lines typed at the prompt lead to: it is `/` at first,
and `cd` only edits behind it. -/
theorem path_starts_with_slash {s s' : FileSystem} (hstart : s.1.currentPath.head? = some 47)
    {lines : List (List UInt8)} (hrun : runOption (lineStep junk fuel) s lines = some s') :
    s'.1.currentPath.head? = some 47 := by
  refine runOption_keeps (C := fun _ _ => True) (I := fun s => s.1.currentPath.head? = some 47) ?_ hstart
    (admitsOption_of_mem lines (fun _ _ _ => trivial) s) hrun
  intro s line s' hs _ hstep
  exact lineStep_head hs hstep

/-- A path that begins with a slash and does not end in one. -/
theorem one_lt_length (hhead : path.head? = some 47) (hlast : path.getLast? ≠ some 47) : 1 < path.length := by
  obtain ⟨rest, rfl⟩ := List.head?_eq_some_iff.mp hhead
  cases rest with
  | nil => exact absurd rfl hlast
  | cons b bs =>
    rw [List.length_cons, List.length_cons]
    omega

/-! ### There and back -/

/-- A short name is neither `.` nor `..`. -/
theorem changedPath_name (hw : Name83 w) (path : List UInt8) (e : DirEntry) :
    changedPath path w e = pathDown path (trimBlanks (nameBytes e)) := by
  obtain ⟨b, bs, rfl, hb⟩ := hw.head
  have hne : ∀ l, cString (b :: bs) ≠ 46 :: l := by
    intro l heq
    have h0 : (b != 0) = true := bne_iff_ne.mpr (hb.ne (by decide))
    rw [cString, List.takeWhile_cons_of_pos (p := fun c : UInt8 => c != 0) h0] at heq
    exact hb.ne (by decide) (List.cons.inj heq).1
  rw [changedPath, if_neg (show cString (b :: bs) ≠ text ".." from hne [46]),
    if_neg (show cString (b :: bs) ≠ text "." from hne [])]

section Commands

variable (hg : Geometry g) (h2 : 2 ≤ c.toNat) (hfat : c.toNat < 256 * g.fatInfo.fatSize16.toNat)
  (hdir : ValidDir g d g.currentDirCluster) (hslot : FreeSlot g (withNewDir g d c) n e lba)
include hg h2 hfat hdir hslot

/-- `cd` into the directory just made, when its name leaves a byte of the lookup's array for the zero. -/
theorem step_cd_new (junk : Sector) {v : Word} (hw : Name83 v.val) (hshort : v.val.length < 12)
    (hno : ∀ m e lba, ¬ Found g d g.currentDirCluster true (findVerdict v.val) m e lba) (hfuel : 2 ^ 24 ≤ fuel) :
    step junk fuel (g, putSlot (withNewDir g d c) lba (n % 16) (fillEntry e v.val attrDirectory c 0)) (.cd v) =
      some ({ g with currentDirCluster := c,
                     currentPath := pathDown g.currentPath ((baseName v.val).map toUpper) },
        putSlot (withNewDir g d c) lba (n % 16) (fillEntry e v.val attrDirectory c 0)) := by
  have hhit : findVerdict v.val (fillEntry e v.val attrDirectory c 0) = .hit := by
    rw [← roomyVerdict_eq (lt_of_le_of_lt (cString_length_le _) hshort)]
    exact roomyVerdict_fillEntry e attrDirectory c 0 hw (by decide)
  have hfind : execute junk (fatFindFile g fuel v.val) _ = _ :=
    hg.find_created (validDir_withNewDir hg h2 hfat hdir) hslot (skip_before_new hg h2 hfat hdir hno hw hslot) hhit
      hfuel
  have hisdir : isDirectory (fillEntry e v.val attrDirectory c 0) = true := by
    rw [isDirectory, fillEntry_attributes]
    decide
  rw [step_cd, execute_fatChangeDir_found hg.initialized hfind hisdir, fillEntry_firstClusterLow,
    changedPath_name hw, trimBlanks_fillEntry hw]

/-- `cd ..` out of it. -/
theorem step_cd_up (junk : Sector) (e' : DirEntry) (hmark : c < 0xFFF8) (path : List UInt8) (hfuel : 0 < fuel) :
    step junk fuel ({ g with currentDirCluster := c, currentPath := path },
        putSlot (withNewDir g d c) lba (n % 16) e') (.cd wordUp) =
      some ({ g with currentPath := pathUp path }, putSlot (withNewDir g d c) lba (n % 16) e') := by
  have hfind := find_up hg h2 hfat hdir hslot junk e' hmark path hfuel
  rw [step_cd, execute_fatChangeDir_found (hg.move c path).initialized hfind (dotEntry_isDirectory ..),
    dotEntry_firstClusterLow]
  rfl

end Commands

/-- `cd` with a word of twelve characters goes nowhere. -/
theorem step_cd_twelve (junk : Sector) {v : Word} (hm : g.isFatInitialized = true)
    (hlength : (cString v.val).length = 12) {r : FileSystem} (h : step junk fuel (g, d) (.cd v) = some r) :
    r.1 = g := by
  rw [step_cd, fatChangeDir, if_neg (by rw [hm]; decide), execute_bind] at h
  obtain ⟨⟨found, d'⟩, hfind, hrest⟩ := Option.bind_eq_some_iff.mp h
  cases found with
  | none =>
    cases hrest
    rfl
  | some e =>
    obtain ⟨n, lba, hfound⟩ := (execute_fatFindFile hm hfind).2 e rfl
    have hhit := hfound.hit
    rw [findVerdict, fatFilenameMatch_twelve hlength] at hhit
    split at hhit <;> try cases hhit
    split at hhit <;> try cases hhit
    split at hhit <;> cases hhit

/-- `mkdir name`, `cd name`, `cd ..` lead down into the cluster `c` and home again. -/
def Returns (junk : Sector) (fuel : ℕ) (s : FileSystem) (w : Word) (c : UInt16) : Prop :=
  ∃ s₁ s₂, runOption (step junk fuel) s [.mkdir w, .cd w] = some s₁ ∧ s₁.1.currentDirCluster = c ∧
    runOption (step junk fuel) s [.mkdir w, .cd w, .cd wordUp] = some s₂ ∧
    s₂.1.currentDirCluster = s.1.currentDirCluster ∧ s₂.1.currentPath = s.1.currentPath

/-- **`mkdir name`, `cd name`, `cd ..` lead home** when the name has fewer than twelve characters.  On a well-formed
volume, in any state that lines typed at the prompt lead to, when `mkdir` of a new short name reports success with
a data cluster and the path has room for the name: after the first `cd` the current directory is the new cluster,
and after the second it is that of the start, and so is the path.  A name of eight and three characters is not found
by the first `cd`, which stays where it is: unless the number of the new cluster was cut to 16 bits, that is another
directory. -/
theorem mkdir_cd_up_returns_iff (junk : Sector) {fuel : ℕ} (hfuel : 2 ^ 24 ≤ fuel) (start s : FileSystem)
    (hstart : start.1.currentPath.head? = some 47) (lines : List (List UInt8))
    (hrun : runOption (lineStep junk fuel) start lines = some s) (hok : FsOk s.1 s.2)
    (hpath : s.1.currentPath = text "/" ∨ s.1.currentPath.getLast? ≠ some 47)
    (w : Word) (hw : Name83 w.val) (hslash : (47 : UInt8) ∉ w.val)
    (hnew : execute junk (fatFindFile s.1 fuel w.val) s.2 = some (none, s.2)) (c : UInt16) (d₀ d₁ : Disk)
    (halloc : execute junk (fatAllocateCluster s.1) s.2 = some (c, d₀)) (hdata : IsData s.1 c)
    (hmkdir : execute junk (cmdMkdir s.1 fuel w.val) s.2 = some (true, d₁))
    (hlen : s.1.currentPath.length + (baseName w.val).length + 2 < 256) :
    (w.val.length < 12 → Returns junk fuel s w c) ∧
      ((∀ k, FirstFree s.1 s.2 k → k < 65536) → Returns junk fuel s w c → w.val.length < 12) := by
  obtain ⟨g, d⟩ := s
  obtain ⟨p, hcwd⟩ := hok.tree.cwd
  have hg := hok.geometry
  have hdir := hok.validDir hcwd
  have hc0 : c ≠ 0 := by
    rintro rfl
    exact absurd hdata.1 (by decide)
  have hmade : step junk fuel (g, d) (.mkdir w) = some (g, d₁) := by
    rw [step_mkdir, hmkdir]
    rfl
  obtain ⟨k, hk, rfl⟩ := firstFree_of_allocated halloc hc0
  constructor
  · intro hshort
    have hmark : UInt16.ofNat k < 0xFFF8 := by
      have hlt := hdata.2.1
      rw [UInt16.lt_iff_toNat_lt]
      exact hlt.trans (by decide)
    obtain ⟨h2, hfat⟩ := firstFree_cluster hk
    rw [execute_cmdMkdir_free hk] at hmkdir
    rcases execute_fatCreateEntry hg.initialized hmkdir with ⟨-, n, e, lba, hslot, rfl⟩ | ⟨hfalse, -⟩
    · have hdown := step_cd_new hg h2 hfat hdir hslot junk hw hshort (not_found_of_find hg.initialized hnew) hfuel
      have hup := step_cd_up hg h2 hfat hdir hslot junk (fillEntry e w.val attrDirectory (UInt16.ofNat k) 0) hmark
        (pathDown g.currentPath ((baseName w.val).map toUpper)) (show 0 < fuel from by omega)
      have hhome : pathUp (pathDown g.currentPath ((baseName w.val).map toUpper)) = g.currentPath := by
        refine pathUp_pathDown (hpath.imp_right fun hlast => ⟨?_, hlast⟩) (isPathName_base hw hslash)
          (by rw [List.length_map]; exact hlen)
        exact one_lt_length (path_starts_with_slash hstart hrun) hlast
      rw [hhome] at hup
      have hthere := (runOption_cons hmade [.cd w]).trans (runOption_cons hdown [])
      have hback := (runOption_cons hmade [.cd w, .cd wordUp]).trans
        ((runOption_cons hdown [.cd wordUp]).trans (runOption_cons hup []))
      exact ⟨_, _, hthere, rfl, hback, rfl, rfl⟩
    · cases hfalse
  · rintro hk16 ⟨s₁, -, hthere, hin, -⟩
    by_contra hfull
    have hlength : (cString w.val).length = 12 := by
      have hle := hw.length_le
      rw [hw.cString_eq]
      omega
    -- the first `cd` stays in the old directory, which is not free
    have hstay : s₁.1 = g := by
      rw [runOption_cons hmade [.cd w]] at hthere
      obtain ⟨r, hr, hdone⟩ := Option.bind_eq_some_iff.mp hthere
      cases hdone
      exact step_cd_twelve junk hg.initialized hlength hr
    rw [hstay] at hin
    have hzero := firstFree_fatEntry hk (hk16 k hk)
    rw [← hin] at hzero hc0
    cases hdir with
    | inl h0 => exact hc0 h0
    | inr hsub =>
      obtain ⟨l, hl⟩ := hsub
      exact hl.fat_ne_zero (dataRange g) hl.head_mem hzero

/-- Down into `d` on the empty small volume and up again. -/
theorem mkdir_cd_up_returns_small : Returns (fun _ => 0) (2 ^ 24) (smallVolume, smallDisk) wordD 2 := by
  have halloc : (execute (fun _ => 0) (fatAllocateCluster smallVolume) smallDisk).map (fun r => r.1) = some 2 := by
    decide +kernel
  have hmkdir : (execute (fun _ => 0) (cmdMkdir smallVolume (2 ^ 24) wordD.val) smallDisk).map (fun r => r.1) =
      some true := by
    decide +kernel
  obtain ⟨⟨c, d₀⟩, hc, rfl⟩ := Option.map_eq_some_iff.mp halloc
  obtain ⟨⟨r, d₁⟩, hr, rfl⟩ := Option.map_eq_some_iff.mp hmkdir
  exact (mkdir_cd_up_returns_iff (fun _ => 0) le_rfl (smallVolume, smallDisk) _ rfl [] rfl fsOk_small (Or.inl rfl)
    wordD name83_d (by decide) (by rfl) 2 d₀ d₁ hc ⟨by decide, by decide, by decide, by decide⟩ hr (by decide)).1
    (by decide)

/-- A name of eight and three characters. -/
def wordFull : Word := ⟨text "filename.txt", by decide⟩

/-- **`mkdir filename.txt` succeeds, and `cd filename.txt` does not find it.** -/
theorem mkdir_cd_full_name_stays :
    (execute (fun _ => 0) (cmdMkdir smallVolume (2 ^ 24) wordFull.val) smallDisk).map (fun r => r.1) = some true ∧
      ¬ Returns (fun _ => 0) (2 ^ 24) (smallVolume, smallDisk) wordFull 2 := by
  have hmkdir : (execute (fun _ => 0) (cmdMkdir smallVolume (2 ^ 24) wordFull.val) smallDisk).map (fun r => r.1) =
      some true := by
    decide +kernel
  refine ⟨hmkdir, ?_⟩
  rintro ⟨s₁, -, hthere, hin, -⟩
  obtain ⟨⟨created, d₁⟩, hr, rfl⟩ := Option.map_eq_some_iff.mp hmkdir
  have hmade : step (fun _ => 0) (2 ^ 24) (smallVolume, smallDisk) (.mkdir wordFull) = some (smallVolume, d₁) := by
    rw [step_mkdir, hr]
    rfl
  rw [runOption_cons hmade [.cd wordFull]] at hthere
  obtain ⟨r, hcd, hdone⟩ := Option.bind_eq_some_iff.mp hthere
  cases hdone
  rw [step_cd_twelve _ rfl (by decide) hcd] at hin
  exact absurd hin (by decide)

end OsEojin.Fat
