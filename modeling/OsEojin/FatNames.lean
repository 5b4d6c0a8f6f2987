import OsEojin.FatMkdir

/-!
# Names in a directory

`fat_create_entry` folds the typed name to eleven bytes (upper case, eight and three bytes) and writes them
into the first free slot without looking whether another entry has them already.  So the names of a
directory stay different as long as nobody asks for a second entry under a folded name, and no longer.

* `UniqueNames`, `FreshName`: no two live entries with one name, and the command that keeps it so;
* `Effect.uniqueNames`: one command; `names_stay_unique`: every run.
-/

namespace OsEojin.Fat

open OsEojin.Lib.Programs OsEojin.Lib.Runs OsEojin.Ata OsEojin.Shell

/-! ### Directories without double names -/

/-- Two entries with the same eleven bytes. -/
def SameName (e e' : DirEntry) : Prop := nameBytes e = nameBytes e' ∧ extBytes e = extBytes e'

/-- No two live entries of the directory have the same name. -/
def UniqueNames (V : Volume) (dir : UInt16) : Prop :=
  ∀ n e n' e', Live V dir n e → Live V dir n' e' → SameName e e' → n = n'

/-- The word does not fold to the name of a live entry. -/
def FreshName (V : Volume) (dir : UInt16) (w : List UInt8) : Prop :=
  ∀ n e, Live V dir n e → ¬ (nameBytes e = shortName w ∧ extBytes e = shortExt w)

/-- The command works in the current directory, and an entry it creates gets a name of its own. -/
def KeepsNames (s : FileSystem) : Command → Prop
  | .cd _ => False
  | .touch w => HasFreeSlot s.1 s.2 →
      FreshName (volume s.1 s.2) s.1.currentDirCluster w.val
  | .mkdir w => (∃ k, FirstFree s.1 s.2 k) → HasFreeSlot s.1 s.2 →
      FreshName (volume s.1 s.2) s.1.currentDirCluster w.val
  | .rm _ => True
  | .rmdir _ => True

section Unique

variable {V V' : Volume} {data : UInt16 → Prop} {cwd parent : UInt16} {n : ℕ}

/-- An entry under a fresh name. -/
theorem UniqueNames.create {old new : DirEntry} (hu : UniqueNames V cwd) (hdir : Dir V cwd parent)
    (h : Creates V V' data cwd n old new) (hfresh : ∀ m e, Live V cwd m e → ¬ SameName e new) :
    UniqueNames V' cwd := by
  intro m e m' e' hl hl' hsame
  cases (h.live_iff hdir).mp hl with
  | inl hold =>
    cases (h.live_iff hdir).mp hl' with
    | inl hold' => exact hu m e m' e' hold hold' hsame
    | inr hnew' =>
      obtain ⟨-, -, rfl, -⟩ := hnew'
      exact absurd hsame (hfresh m e hold)
  | inr hnew =>
    obtain ⟨-, rfl, rfl, -⟩ := hnew
    cases (h.live_iff hdir).mp hl' with
    | inl hold' => exact absurd ⟨hsame.1.symm, hsame.2.symm⟩ (hfresh m' e' hold')
    | inr hnew' => exact hnew'.2.1.symm

/-- A deletion, which leaves fewer entries. -/
theorem UniqueNames.delete {e marked : DirEntry} {l : List UInt16} (hu : UniqueNames V cwd)
    (hdir : Dir V cwd parent) (h : Deletes V V' data cwd n e marked l) : UniqueNames V' cwd := by
  -- the current directory itself is not the one deleted: it holds the entry
  have hgone : ¬ Gone e cwd := fun hg => h.empty cwd n e hg h.live hg.2.1
  intro m x m' x' hl hl' hsame
  exact hu m x m' x' ((h.live_iff hdir hgone).mp hl).1 ((h.live_iff hdir hgone).mp hl').1 hsame

end Unique

/-! ### Runs -/

theorem Creates.hasFreeSlot {g : Globals} {d : Disk} {V' : Volume} {data : UInt16 → Prop} {n : ℕ}
    {old new : DirEntry} (h : Creates (volume g d) V' data g.currentDirCluster n old new) :
    HasFreeSlot g d :=
  ⟨n, old, h.slot_old, h.old_free⟩

/-- **One command.** -/
theorem Effect.uniqueNames {s s' : FileSystem} {c : Command} (hok : FsOk s.1 s.2)
    (heff : Effect s c s') (hc : KeepsNames s c)
    (hu : UniqueNames (volume s.1 s.2) s.1.currentDirCluster) :
    s'.1 = s.1 ∧ UniqueNames (volume s'.1 s'.2) s.1.currentDirCluster := by
  obtain ⟨p, hcwd⟩ := hok.tree.cwd
  have hfresh : ∀ {w : Word} {e : DirEntry} {attr : UInt8} {cluster : UInt16},
      FreshName (volume s.1 s.2) s.1.currentDirCluster w.val →
      ∀ m x, Live (volume s.1 s.2) s.1.currentDirCluster m x →
        ¬ SameName x (fillEntry e w.val attr cluster 0) := by
    intro w e attr cluster hw m x hx hsame
    rw [SameName, nameBytes_fillEntry, extBytes_fillEntry] at hsame
    exact hw m x hx hsame
  cases heff with
  | kept => exact ⟨rfl, hu⟩
  | moved => exact hc.elim
  | touched hnew => exact ⟨rfl, hu.create hcwd hnew (hfresh (hc hnew.hasFreeSlot))⟩
  | made hk hnew => exact ⟨rfl, hu.create hcwd hnew (hfresh (hc ⟨_, hk⟩ hnew.hasFreeSlot))⟩
  | allocated hslot hfat =>
    refine ⟨rfl, ?_⟩
    intro m e m' e' hl hl' hsame
    exact hu m e m' e' ((live_frame hslot hcwd).mp hl) ((live_frame hslot hcwd).mp hl') hsame
  | removed hdel => exact ⟨rfl, hu.delete hcwd hdel⟩
  | removedDir hdel => exact ⟨rfl, hu.delete hcwd hdel⟩

/-- **Names stay unique** in a directory of a well-formed volume, along every run of admissible commands
that never creates a second entry under a folded name. -/
theorem names_stay_unique (junk : Sector) {fuel : ℕ} (hfuel : 2 ^ 24 ≤ fuel) (s : FileSystem)
    (hok : FsOk s.1 s.2) (hu : UniqueNames (volume s.1 s.2) s.1.currentDirCluster)
    (cs rest : List Command)
    (hadm : AdmitsOption (step junk fuel) (fun s c => Admissible s c ∧ KeepsNames s c) s (cs ++ rest)) :
    ∃ s', runOption (step junk fuel) s cs = some s' ∧
      UniqueNames (volume s'.1 s'.2) s.1.currentDirCluster := by
  have hstep : ∀ t c, (FsOk t.1 t.2 ∧ t.1 = s.1 ∧ UniqueNames (volume t.1 t.2) s.1.currentDirCluster) →
      Admissible t c ∧ KeepsNames t c → ∃ t', step junk fuel t c = some t' ∧
        (FsOk t'.1 t'.2 ∧ t'.1 = s.1 ∧ UniqueNames (volume t'.1 t'.2) s.1.currentDirCluster) := by
    intro t c ht hc
    obtain ⟨hokt, hg, hut⟩ := ht
    obtain ⟨t', ht', heff⟩ := step_effect junk hfuel t c hokt hc.1
    rw [← hg] at hut ⊢
    obtain ⟨hg', hu'⟩ := heff.uniqueNames hokt hc.2 hut
    exact ⟨t', ht', hokt.effect heff, hg', hu'⟩
  have hstart : FsOk s.1 s.2 ∧ s.1 = s.1 ∧ UniqueNames (volume s.1 s.2) s.1.currentDirCluster :=
    ⟨hok, rfl, hu⟩
  obtain ⟨s', hs', -, -, hu'⟩ :=
    runOption_invariant hstep s hstart cs (admitsOption_of_append s cs rest hadm)
  exact ⟨s', hs', hu'⟩

/-- The root of the small volume is empty. -/
theorem smallDisk_uniqueNames : UniqueNames (volume smallVolume smallDisk) 0 := by
  intro n e n' e' hl
  exact absurd (smallDisk_root hl.1) hl.2.1

/-- The word `e`. -/
def wordE : Word := ⟨text "e", by decide⟩

/-- Slot 0 of the root holds `D`, and the others were never in use. -/
def onlyD (d : Disk) : Bool :=
  nameBytes (entryAt (d.get 3) 0) == shortName (text "d") &&
    (List.range 16).all fun n => n == 0 || (entryAt (d.get 3) n).name 0 == 0

theorem slot_of_onlyD {d : Disk} (h : onlyD d = true) {n : ℕ} {e : DirEntry}
    (he : dirSlot smallVolume d 0 n = some e) :
    n = 0 ∧ nameBytes e = shortName (text "d") ∨ e.name 0 = 0x00 := by
  obtain ⟨hname, hfree⟩ := Bool.and_eq_true_iff.mp h
  obtain ⟨hn, rfl⟩ := dirSlot_root_single rfl he
  have hslot := List.all_eq_true.mp hfree n (List.mem_range.mpr hn)
  rw [Bool.or_eq_true, beq_iff_eq, beq_iff_eq] at hslot
  cases hslot with
  | inl hzero =>
    subst hzero
    exact Or.inl ⟨rfl, beq_iff_eq.mp hname⟩
  | inr hzero => exact Or.inr hzero

/-- After `touch d` on the empty volume. -/
theorem onlyD_touch {s' : FileSystem}
    (h : step (fun _ => 0) (2 ^ 24) (smallVolume, smallDisk) (.touch wordD) = some s') :
    s'.1 = smallVolume ∧ onlyD s'.2 = true := by
  have hrun : (step (fun _ => 0) (2 ^ 24) (smallVolume, smallDisk) (.touch wordD)).map
      (fun s => onlyD s.2) = some true := by
    decide +kernel
  rw [h, Option.map_some] at hrun
  refine ⟨?_, Option.some.inj hrun⟩
  rw [step_touch] at h
  obtain ⟨r, -, rfl⟩ := Option.map_eq_some_iff.mp h
  rfl

/-- `touch d` and `touch e` on an empty volume. -/
theorem names_stay_unique_touches :
    ∃ s', runOption (step (fun _ => 0) (2 ^ 24)) (smallVolume, smallDisk) [.touch wordD, .touch wordE] = some s' ∧
      UniqueNames (volume s'.1 s'.2) 0 := by
  refine names_stay_unique (fun _ => 0) le_rfl (smallVolume, smallDisk) fsOk_small smallDisk_uniqueNames
    [.touch wordD, .touch wordE] [] ⟨⟨smallDisk_clean, ?_⟩, ?_⟩
  · intro _ n e hl
    exact absurd (smallDisk_root hl.1) hl.2.1
  · rintro ⟨g, d⟩ hstep
    obtain ⟨hg, hd⟩ := onlyD_touch hstep
    obtain rfl : g = smallVolume := hg
    refine ⟨⟨?_, ?_⟩, fun _ _ => trivial⟩
    · intro n e _ _ _ m x hnm hx _
      cases slot_of_onlyD hd hx with
      | inl hfirst => omega
      | inr hzero => exact Or.inl hzero
    · intro _ n e hl hname
      cases slot_of_onlyD hd hl.1 with
      | inl hfirst => exact absurd (hfirst.2.symm.trans hname.1) (by decide)
      | inr hzero => exact hl.2.1 hzero

/-- Slots 0 and 1 of the root hold entries in use with the same name. -/
def doubleName (s : FileSystem) : Bool :=
  match dirSlot s.1 s.2 0 0, dirSlot s.1 s.2 0 1 with
  | some e, some e' => e.name 0 == 68 && nameBytes e == nameBytes e' && extBytes e == extBytes e'
  | _, _ => false

theorem not_uniqueNames_of_doubleName {s : FileSystem} (h : doubleName s = true) :
    ¬ UniqueNames (volume s.1 s.2) 0 := by
  intro hu
  rw [doubleName] at h
  split at h
  · rename_i e e' he he'
    simp only [Bool.and_eq_true, beq_iff_eq] at h
    obtain ⟨⟨hname, hbytes⟩, hext⟩ := h
    have hname' : e'.name 0 = 68 := by
      have h0 := congrArg (fun l => l.getD 0 0) hbytes
      exact h0.symm.trans hname
    have hl : Live (volume s.1 s.2) 0 0 e :=
      ⟨he, by rw [hname]; decide, by rw [hname]; decide, fun m hm => by omega⟩
    have hl' : Live (volume s.1 s.2) 0 1 e' := by
      refine ⟨he', by rw [hname']; decide, by rw [hname']; decide, ?_⟩
      intro m hm
      rw [show m = 0 from by omega]
      exact ⟨e, he, by rw [hname]; decide⟩
    exact absurd (hu 0 e 1 e' hl hl' ⟨hbytes, hext⟩) (by decide)
  · cases h

/-- **`touch d` twice** makes two entries `D`. -/
theorem touch_twice_doubles_name :
    FsOk smallVolume smallDisk ∧ UniqueNames (volume smallVolume smallDisk) 0 ∧
      ∃ s', runOption (step (fun _ => 0) (2 ^ 24)) (smallVolume, smallDisk)
        [.touch wordD, .touch wordD] = some s' ∧ ¬ UniqueNames (volume s'.1 s'.2) 0 := by
  refine ⟨fsOk_small, smallDisk_uniqueNames, ?_⟩
  have hrun : (runOption (step (fun _ => 0) (2 ^ 24)) (smallVolume, smallDisk)
      [.touch wordD, .touch wordD]).map doubleName = some true := by
    decide +kernel
  obtain ⟨s', hs', hdouble⟩ := Option.map_eq_some_iff.mp hrun
  exact ⟨s', hs', not_uniqueNames_of_doubleName hdouble⟩

end OsEojin.Fat
