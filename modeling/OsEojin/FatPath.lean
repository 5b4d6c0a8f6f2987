import OsEojin.FatInvariant

/-!
# The path and the directory

`fat_change_dir` moves `current_dir_cluster` by what it finds in the directory and edits `current_path` as a
string.  The two stay in step as long as the names on the path can be read back from the string.

* `DirPath`: the names on the way from the root to a directory, `DirPath.unique`;
* `joined`, `pathDown_joined`, `pathUp_joined`: the string and its two edits;
* `PathAgrees`, `PathSafe`: the claim on a state, and what a command needs to find;
* `Effect.onPath`: one command; `path_agrees`: every run.
-/

namespace OsEojin.Fat

open OsEojin.Lib.Programs OsEojin.Lib.Runs OsEojin.Ata OsEojin.Shell

/-! ### Names on the way from the root -/

/-- The name of an entry as `fat_list` shows it. -/
def displayName (e : DirEntry) : List UInt8 :=
  trimBlanks (nameBytes e) ++
    if trimBlanks (extBytes e) = [] then [] else 46 :: trimBlanks (extBytes e)

/-- The names on the tree path from the root to a directory. -/
inductive DirPath (V : Volume) : UInt16 → List (List UInt8) → Prop
  | root : DirPath V 0 []
  | sub {dir : UInt16} {names : List (List UInt8)} {n : ℕ} {e : DirEntry} : DirPath V dir names →
      Live V dir n e → Named e → isDirectory e = true → DirPath V e.firstClusterLow (names ++ [displayName e])

section Tree

variable {V V' : Volume} {data : UInt16 → Prop} {cwd dir : UInt16} {names names' : List (List UInt8)}

theorem DirPath.reach (h : DirPath V dir names) : ∃ parent, Dir V dir parent := by
  induction h with
  | root => exact ⟨0, Dir.root⟩
  | sub _ hlive hnamed hisdir ih =>
    obtain ⟨parent, hdir⟩ := ih
    exact ⟨_, Dir.sub hdir hlive hnamed hisdir⟩

/-- A path survives as long as its entries do. -/
theorem DirPath.mono (h : DirPath V dir names)
    (hlive : ∀ {dir parent n e}, Dir V dir parent → Live V dir n e → Live V' dir n e) :
    DirPath V' dir names := by
  induction h with
  | root => exact DirPath.root
  | sub hpath hl hnamed hisdir ih =>
    obtain ⟨parent, hdir⟩ := hpath.reach
    exact DirPath.sub ih (hlive hdir hl) hnamed hisdir

/-- Only the root has an empty path. -/
theorem DirPath.nil_iff (hwf : WellFormed V data cwd) (h : DirPath V dir names) :
    names = [] ↔ dir = 0 := by
  cases h with
  | root => simp
  | sub hpath hlive hnamed hisdir =>
    refine ⟨fun h0 => absurd h0 (by simp), fun h0 => ?_⟩
    exact absurd h0 (hwf.subdir ⟨hpath.reach, hlive, hnamed⟩ hisdir)

/-- **The path is determined** by the directory. -/
theorem DirPath.unique (hwf : WellFormed V data cwd) (h : DirPath V dir names)
    (h' : DirPath V dir names') : names = names' := by
  induction h generalizing names' with
  | root => exact ((h'.nil_iff hwf).mpr rfl).symm
  | @sub parent names n e hpath hlive hnamed hisdir ih =>
    have hentry : Entry V parent n e := ⟨hpath.reach, hlive, hnamed⟩
    have h0 := hwf.subdir hentry hisdir
    generalize hc : e.firstClusterLow = c at h' h0
    cases h' with
    | root => exact absurd rfl h0
    | @sub parent' names'' n' e' hpath' hlive' hnamed' hisdir' =>
      -- one cluster, one entry
      obtain ⟨rfl, rfl⟩ := hwf.entry_unique hentry ⟨hpath'.reach, hlive', hnamed'⟩ hc (hc.symm ▸ h0)
      rw [ih hpath', hlive.unique hlive']

end Tree

/-! ### The string -/

/-- The names, each behind its slash. -/
def slashed (names : List (List UInt8)) : List UInt8 := names.flatMap fun name => 47 :: name

/-- The names joined by slashes; the root is a slash alone. -/
def joined (names : List (List UInt8)) : List UInt8 := if names = [] then [47] else slashed names

/-- A name that can be read back from a path. -/
def IsPathName (name : List UInt8) : Prop := name ≠ [] ∧ (47 : UInt8) ∉ name

theorem slashed_concat (names : List (List UInt8)) (name : List UInt8) :
    slashed (names ++ [name]) = slashed names ++ 47 :: name := by
  rw [slashed, List.flatMap_append, List.flatMap_singleton]
  rfl

theorem joined_concat (names : List (List UInt8)) (name : List UInt8) :
    joined (names ++ [name]) = slashed names ++ 47 :: name := by
  rw [joined, if_neg (by simp), slashed_concat]

/-- **Down**: the new name behind a slash. -/
theorem pathDown_joined {names : List (List UInt8)} (hnames : ∀ x ∈ names, IsPathName x)
    {name : List UInt8} (hguard : (joined names).length + name.length + 2 < 256) :
    pathDown (joined names) name = joined (names ++ [name]) := by
  rw [pathDown, if_pos hguard, joined_concat]
  cases names using List.reverseRecOn with
  | nil => rfl
  | append_singleton init last =>
    obtain ⟨hne, hslash⟩ := hnames last (by simp)
    obtain ⟨front, b, hconcat⟩ := (List.eq_nil_or_concat last).resolve_left hne
    rw [List.concat_eq_append] at hconcat
    subst hconcat
    have hb : b ≠ 47 := by
      rintro rfl
      exact hslash (by simp)
    have hpath : joined (init ++ [front ++ [b]]) = (slashed init ++ 47 :: front) ++ [b] := by
      rw [joined_concat]
      simp
    have hlen : (joined (init ++ [front ++ [b]])).length = (slashed init ++ 47 :: front).length + 1 := by
      rw [hpath, List.length_append]
      rfl
    have hlast : (joined (init ++ [front ++ [b]])).getD
        ((joined (init ++ [front ++ [b]])).length - 1) 0 = b := by
      rw [hlen, hpath, Nat.add_sub_cancel, List.getD_eq_getElem?_getD, List.getElem?_append_right le_rfl]
      simp
    rw [if_pos ⟨by rw [hlen, List.length_append, List.length_cons]; omega, by rw [hlast]; exact hb⟩, joined_concat,
      slashed_concat]

/-- The backward search stops at the last slash. -/
theorem slashSearch_last {front back : List UInt8} (hback : (47 : UInt8) ∉ back) {i : ℕ}
    (hlo : front.length ≤ i) (hhi : i < (front ++ 47 :: back).length) :
    slashSearch (front ++ 47 :: back) i = some front.length := by
  have hslash : (front ++ 47 :: back).getD front.length 0 = 47 := by
    rw [List.getD_eq_getElem?_getD, List.getElem?_append_right le_rfl]
    simp
  induction i with
  | zero =>
    obtain rfl : front = [] := List.length_eq_zero_iff.mp (by omega)
    rfl
  | succ i ih =>
    rw [slashSearch]
    by_cases heq : front.length = i + 1
    · rw [← heq, if_pos hslash]
    · have hget : (front ++ 47 :: back).getD (i + 1) 0 ≠ 47 := by
        rw [List.getD_eq_getElem?_getD, List.getElem?_append_right (by omega),
          show i + 1 - front.length = (i - front.length) + 1 from by omega, List.getElem?_cons_succ]
        have hlt : i - front.length < back.length := by
          rw [List.length_append, List.length_cons] at hhi
          omega
        rw [List.getElem?_eq_getElem hlt, Option.getD_some]
        intro hmem
        exact hback (hmem ▸ List.getElem_mem hlt)
      rw [if_neg hget]
      exact ih (by omega) (by omega)

/-- **Up**: the last name and its slash go. -/
theorem pathUp_joined {names : List (List UInt8)} {name : List UInt8} (hname : IsPathName name) :
    pathUp (joined (names ++ [name])) = joined names := by
  have hpos : 0 < name.length := List.length_pos_iff.mpr hname.1
  rw [joined_concat, pathUp, if_pos (by rw [List.length_append, List.length_cons]; omega),
    slashSearch_last hname.2 (by rw [List.length_append, List.length_cons]; omega)
      (by rw [List.length_append, List.length_cons]; omega)]
  cases names with
  | nil => rfl
  | cons first rest =>
    have hlen : (slashed (first :: rest)).length = (first.length + (slashed rest).length) + 1 := by
      rw [slashed, List.flatMap_cons, List.length_append, List.length_cons]
      rw [slashed]
      omega
    rw [hlen]
    show (slashed (first :: rest) ++ 47 :: name).take _ = joined (first :: rest)
    rw [← hlen, List.take_left, joined, if_neg (by simp)]

theorem joined_eq_root_iff {names : List (List UInt8)} (hnames : ∀ x ∈ names, IsPathName x) :
    joined names = [47] ↔ names = [] := by
  cases names with
  | nil => exact ⟨fun _ => rfl, fun _ => rfl⟩
  | cons first rest =>
    refine ⟨fun h => ?_, fun h => by cases h⟩
    have hpos : 0 < first.length := List.length_pos_iff.mpr (hnames first List.mem_cons_self).1
    have hlen := congrArg List.length h
    rw [joined, if_neg (by simp), slashed, List.flatMap_cons, List.length_append, List.length_cons,
      List.length_singleton] at hlen
    omega

/-! ### The string and the tree -/

/-- **Path and directory agree**: the current directory has one path in the tree, `current_path` is its names
joined, and it is `/` in the root only. -/
def PathAgrees (s : FileSystem) : Prop :=
  ∃ names, DirPath (volume s.1 s.2) s.1.currentDirCluster names ∧
    (∀ names', DirPath (volume s.1 s.2) s.1.currentDirCluster names' → names' = names) ∧
    s.1.currentPath = joined names ∧ (s.1.currentPath = text "/" ↔ s.1.currentDirCluster = 0)

/-- What `cd` needs to find: under `..` and `.` the entries of these names, and else a directory without
extension whose name is not empty, has no slash and fits. -/
def PathSafe (s : FileSystem) : Command → Prop
  | .mkdir _ => True
  | .cd w => ∀ n e lba, Found s.1 s.2 s.1.currentDirCluster true (findVerdict w.val) n e lba →
      isDirectory e = true →
      if cString w.val = text ".." then isDotDot e = true
      else if cString w.val = text "." then isDot e = true
      else Named e ∧ trimBlanks (extBytes e) = [] ∧ IsPathName (trimBlanks (nameBytes e)) ∧
        s.1.currentPath.length + (trimBlanks (nameBytes e)).length + 2 < 256
  | _ => False

/-- The names on the path, each of which can be read back from the string. -/
def OnPath (s : FileSystem) (names : List (List UInt8)) : Prop :=
  DirPath (volume s.1 s.2) s.1.currentDirCluster names ∧ (∀ x ∈ names, IsPathName x) ∧
    s.1.currentPath = joined names

section Step

variable {s : FileSystem} {names : List (List UInt8)}

theorem OnPath.agrees (h : OnPath s names) (hok : FsOk s.1 s.2) : PathAgrees s := by
  obtain ⟨hpath, hnames, hjoined⟩ := h
  refine ⟨names, hpath, fun names' h' => h'.unique hok.tree hpath, hjoined, ?_⟩
  rw [hjoined, ← hpath.nil_iff hok.tree]
  exact joined_eq_root_iff hnames

/-- `cd ..` leaves the last name behind. -/
theorem OnPath.up (h : OnPath s names) (hok : FsOk s.1 s.2) {n : ℕ} {e : DirEntry}
    (hlive : Live (volume s.1 s.2) s.1.currentDirCluster n e) (hdot : isDotDot e = true) :
    ∃ names', DirPath (volume s.1 s.2) e.firstClusterLow names' ∧ (∀ x ∈ names', IsPathName x) ∧
      pathUp s.1.currentPath = joined names' := by
  obtain ⟨hpath, hnames, hjoined⟩ := h
  rw [hjoined]
  generalize hcwd : s.1.currentDirCluster = cwd at hpath hlive
  cases hpath with
  | root =>
    -- a `..` in the root leads to the root
    rw [(hok.tree.dotDot Dir.root hlive hdot).2]
    exact ⟨[], DirPath.root, hnames, rfl⟩
  | @sub parent init m x hparent hl hnamed hisdir =>
    obtain ⟨p, hp⟩ := hparent.reach
    rw [(hok.tree.dotDot (Dir.sub hp hl hnamed hisdir) hlive hdot).2]
    refine ⟨init, hparent, fun y hy => hnames y (List.mem_append_left _ hy), ?_⟩
    exact pathUp_joined (hnames _ (by simp))

/-- A change into a named directory appends its name. -/
theorem OnPath.down (h : OnPath s names) {n : ℕ} {e : DirEntry}
    (hlive : Live (volume s.1 s.2) s.1.currentDirCluster n e) (hisdir : isDirectory e = true)
    (hnamed : Named e) (hext : trimBlanks (extBytes e) = []) (hname : IsPathName (trimBlanks (nameBytes e)))
    (hguard : s.1.currentPath.length + (trimBlanks (nameBytes e)).length + 2 < 256) :
    ∃ names', DirPath (volume s.1 s.2) e.firstClusterLow names' ∧ (∀ x ∈ names', IsPathName x) ∧
      pathDown s.1.currentPath (trimBlanks (nameBytes e)) = joined names' := by
  obtain ⟨hpath, hnames, hjoined⟩ := h
  have hshown : displayName e = trimBlanks (nameBytes e) := by
    rw [displayName, if_pos hext, List.append_nil]
  rw [hjoined] at hguard ⊢
  refine ⟨names ++ [trimBlanks (nameBytes e)], ?_, ?_, pathDown_joined hnames hguard⟩
  · rw [← hshown]
    exact DirPath.sub hpath hlive hnamed hisdir
  · intro x hx
    cases List.mem_append.mp hx with
    | inl hold => exact hnames x hold
    | inr hnew => exact List.mem_singleton.mp hnew ▸ hname

/-- **One command.** -/
theorem Effect.onPath {s' : FileSystem} {c : Command} (heff : Effect s c s') (hok : FsOk s.1 s.2)
    (hc : PathSafe s c) (h : OnPath s names) : ∃ names', OnPath s' names' := by
  cases heff with
  | kept => exact ⟨names, h⟩
  | @moved w n lba e hfound hisdir =>
    have hlive := found_live hfound
    have hsafe := hc n e lba hfound hisdir
    obtain ⟨p, hcwd⟩ := hok.tree.cwd
    obtain ⟨names', hpath, hnames, hjoined⟩ : ∃ names',
        DirPath (volume s.1 s.2) e.firstClusterLow names' ∧ (∀ x ∈ names', IsPathName x) ∧
          changedPath s.1.currentPath w.val e = joined names' := by
      rw [changedPath]
      by_cases hup : cString w.val = text ".."
      · rw [if_pos hup] at hsafe ⊢
        exact h.up hok hlive hsafe
      · rw [if_neg hup] at hsafe ⊢
        by_cases hstay : cString w.val = text "."
        · rw [if_pos hstay] at hsafe ⊢
          rw [(hok.tree.dot hcwd hlive hsafe).2]
          exact ⟨names, h⟩
        · rw [if_neg hstay] at hsafe ⊢
          obtain ⟨hnamed, hext, hname, hguard⟩ := hsafe
          exact h.down hlive hisdir hnamed hext hname hguard
    refine ⟨names', ?_, hnames, hjoined⟩
    rw [volume_move]
    exact hpath
  | touched => exact hc.elim
  | made _ hnew =>
    refine ⟨names, h.1.mono ?_, h.2⟩
    intro dir parent m x hdir hl
    exact (hnew.live_iff hdir).mpr (Or.inl hl)
  | allocated hslot _ =>
    refine ⟨names, h.1.mono ?_, h.2⟩
    intro dir parent m x hdir hl
    exact (live_frame hslot hdir).mpr hl
  | removed => exact hc.elim
  | removedDir => exact hc.elim

end Step

/-! ### Runs -/

/-- **Path and directory agree** after every command of a run of `mkdir` and `cd` from the root, as long as
each `cd` finds what it needs and the volume stays well formed. -/
theorem path_agrees (junk : Sector) {fuel : ℕ} (hfuel : 2 ^ 24 ≤ fuel) (s : FileSystem)
    (hok : FsOk s.1 s.2) (hroot : s.1.currentDirCluster = 0) (hpath : s.1.currentPath = text "/")
    (cs rest : List Command)
    (hadm : AdmitsOption (step junk fuel) (fun s c => Admissible s c ∧ PathSafe s c) s (cs ++ rest)) :
    ∃ s', runOption (step junk fuel) s cs = some s' ∧ PathAgrees s' := by
  have hstep : ∀ t c, (FsOk t.1 t.2 ∧ ∃ names, OnPath t names) → Admissible t c ∧ PathSafe t c →
      ∃ t', step junk fuel t c = some t' ∧ (FsOk t'.1 t'.2 ∧ ∃ names, OnPath t' names) := by
    intro t c ht hc
    obtain ⟨hokt, names, hon⟩ := ht
    obtain ⟨t', ht', heff⟩ := step_effect junk hfuel t c hokt hc.1
    exact ⟨t', ht', hokt.effect heff, heff.onPath hokt hc.2 hon⟩
  have hstart : FsOk s.1 s.2 ∧ ∃ names, OnPath s names := by
    refine ⟨hok, [], ?_, fun x hx => absurd hx List.not_mem_nil, hpath⟩
    rw [hroot]
    exact DirPath.root
  obtain ⟨s', hs', hok', names, hon⟩ :=
    runOption_invariant hstep s hstart cs (admitsOption_of_append s cs rest hadm)
  exact ⟨s', hs', hon.agrees hok'⟩

/-- After `mkdir d` on the empty volume the root holds one live entry, named `D`. -/
theorem smallDisk_mkdir_live {w : Word} {s' : FileSystem}
    (heff : Effect (smallVolume, smallDisk) (.mkdir w) s') :
    s'.1 = smallVolume ∧ ∀ n e, Live (volume s'.1 s'.2) 0 n e →
      nameBytes e = shortName w.val ∧ extBytes e = shortExt w.val ∧ Named e := by
  have hnone : ∀ n e, ¬ Live (volume smallVolume smallDisk) 0 n e :=
    fun n e hl => hl.2.1 (smallDisk_root hl.1)
  cases heff with
  | kept => exact ⟨rfl, fun n e hl => absurd hl (hnone n e)⟩
  | made _ hnew =>
    refine ⟨rfl, ?_⟩
    intro n e hl
    cases (hnew.live_iff Dir.root).mp hl with
    | inl hold => exact absurd hold (hnone n e)
    | inr hcreated =>
      rw [hcreated.2.2.1]
      exact ⟨nameBytes_fillEntry .., extBytes_fillEntry .., fillEntry_named ..⟩
  | allocated hslot _ =>
    exact ⟨rfl, fun n e hl => absurd ((live_frame hslot Dir.root).mp hl) (hnone n e)⟩

/-- `mkdir d` and `cd d` on an empty volume. -/
theorem path_agrees_mkdir_cd :
    ∃ s', runOption (step (fun _ => 0) (2 ^ 24)) (smallVolume, smallDisk)
      [.mkdir wordD, .cd wordD] = some s' ∧ PathAgrees s' := by
  have hadm := smallDisk_admits_mkdir wordD
  obtain ⟨s₁, h₁, heff⟩ := step_effect (fun _ => 0) le_rfl (smallVolume, smallDisk) _ fsOk_small hadm
  obtain ⟨hg, hentries⟩ := smallDisk_mkdir_live heff
  refine path_agrees (fun _ => 0) le_rfl (smallVolume, smallDisk) fsOk_small rfl rfl
    [.mkdir wordD, .cd wordD] [] ⟨⟨hadm, trivial⟩, fun s' hs' => ⟨⟨trivial, ?_⟩, fun _ _ => trivial⟩⟩
  rw [h₁] at hs'
  obtain rfl := Option.some.inj hs'
  intro n e lba hfound _
  have hlive := found_live hfound
  rw [hg] at hlive
  obtain ⟨hname, hext, hnamed⟩ := hentries n e (hg ▸ hlive)
  rw [if_neg (by decide), if_neg (by decide), hname, hext, hg]
  exact ⟨hnamed, by decide, ⟨by decide, by decide⟩, by decide⟩

/-- The word `a.b`. -/
def wordAB : Word := ⟨text "a.b", by decide⟩

/-- The path is `/A` in cluster 2, which slot 0 of the root names `A.B`. -/
def lostExtension (s : FileSystem) : Bool :=
  s.1.currentPath == text "/A" && s.1.currentDirCluster == 2 &&
    match dirSlot s.1 s.2 0 0 with
    | some e => e.name 0 == 65 && isDirectory e && e.firstClusterLow == 2 && displayName e == text "A.B"
    | none => false

theorem not_pathAgrees_of_lostExtension {s : FileSystem} (hok : FsOk s.1 s.2)
    (h : lostExtension s = true) : ¬ PathAgrees s := by
  rintro ⟨names, hpath, -, hjoined, -⟩
  rw [lostExtension] at h
  obtain ⟨hfront, hslot⟩ := Bool.and_eq_true_iff.mp h
  simp only [Bool.and_eq_true, beq_iff_eq] at hfront
  split at hslot
  · rename_i e he
    simp only [Bool.and_eq_true, beq_iff_eq] at hslot
    obtain ⟨⟨⟨hname, hisdir⟩, hfc⟩, hshown⟩ := hslot
    have hlive : Live (volume s.1 s.2) 0 0 e :=
      ⟨he, by rw [hname]; decide, by rw [hname]; decide, fun m hm => by omega⟩
    have hnamed : Named e := ⟨by simp [isDot, hname], by simp [isDotDot, hname]⟩
    have hreal : DirPath (volume s.1 s.2) 2 [text "A.B"] := by
      rw [← hfc, ← hshown]
      exact DirPath.sub DirPath.root hlive hnamed hisdir
    rw [hfront.2] at hpath
    rw [hpath.unique hok.tree hreal, hfront.1] at hjoined
    exact absurd hjoined (by decide)
  · cases hslot

/-- **`cd a.b` drops the extension**: the path is `/A` in the directory `A.B`. -/
theorem cd_drops_extension :
    FsOk smallVolume smallDisk ∧ smallVolume.currentDirCluster = 0 ∧
      smallVolume.currentPath = text "/" ∧
      ∃ s', runOption (step (fun _ => 0) (2 ^ 24)) (smallVolume, smallDisk)
        [.mkdir wordAB, .cd wordAB] = some s' ∧ ¬ PathAgrees s' := by
  refine ⟨fsOk_small, rfl, rfl, ?_⟩
  have hrun : (runOption (step (fun _ => 0) (2 ^ 24)) (smallVolume, smallDisk)
      [.mkdir wordAB, .cd wordAB]).map lostExtension = some true := by
    decide +kernel
  obtain ⟨s', hs', hlost⟩ := Option.map_eq_some_iff.mp hrun
  obtain ⟨s'', hs'', hok⟩ := runOption_invariant
    (fun t c hok hc => step_ok (fun _ => 0) le_rfl t c hok hc) (smallVolume, smallDisk) fsOk_small
    [.mkdir wordAB, .cd wordAB]
    ⟨smallDisk_admits_mkdir wordAB, fun _ _ => ⟨trivial, fun _ _ => trivial⟩⟩
  rw [hs'] at hs''
  obtain rfl := Option.some.inj hs''
  exact ⟨s', hs', not_pathAgrees_of_lostExtension hok hlost⟩

end OsEojin.Fat
