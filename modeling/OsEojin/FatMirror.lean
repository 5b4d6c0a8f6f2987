import OsEojin.FatMkdir

/-!
# The copies of the FAT

The volume keeps `fat_count` copies of the FAT, one behind the other, and `fat_init` counts them all;
`fat_write_fat_entry` writes the first one only.  The copies stay alike as long as no command writes a FAT
entry at all.

* `Mirrored`: all copies are alike;
* `KeepsFats`: the command finds nothing to allocate and nothing to free, and the directory sector it
  writes back is not one of the FAT's;
* `fat_copies_agree`: along runs of such commands the copies stay alike.
-/

namespace OsEojin.Fat

open OsEojin.Lib.Programs OsEojin.Lib.Runs OsEojin.Ata OsEojin.Shell

variable {g : Globals} {d d' : Disk}

/-- Copy `k` of the FAT occupies `fat_size_16` sectors from `reserved_sectors + k * fat_size_16` on;
all copies are equal to the first. -/
def Mirrored (g : Globals) (d : Disk) : Prop :=
  ∀ k j, k < g.fatInfo.fatCount.toNat → j < g.fatInfo.fatSize16.toNat →
    d.get (g.fatInfo.reservedSectors.toNat + k * g.fatInfo.fatSize16.toNat + j) =
      d.get (g.fatInfo.reservedSectors.toNat + j)

/-- The driver call with this address does not reach a sector of a FAT copy. -/
def OutsideFats (g : Globals) (lba : ℕ) : Prop :=
  lba % lbaSpace < g.fatStartSector ∨ g.rootDirSector ≤ lba % lbaSpace

/-- There is no chain to free. -/
def NoChain (c : UInt16) : Prop := c < 2 ∨ 0xFFF8 ≤ c

/-- The command writes no FAT entry and no sector of a FAT copy. -/
def KeepsFats (s : FileSystem) : Command → Prop
  | .cd _ => True
  | .touch _ => ∀ n e lba, FreeSlot s.1 s.2 n e lba → OutsideFats s.1 lba
  | .mkdir _ => NoFreeEntry s.1 s.2
  | .rm w => ∀ n e lba, Target s.1 s.2 (deleteFileVerdict w.val) n e lba → isDirectory e = false →
      NoChain e.firstClusterLow ∧ OutsideFats s.1 lba
  | .rmdir w => ∀ n e lba, Target s.1 s.2 (deleteDirVerdict w.val) n e lba → isDirectory e = true →
      DirEmpty s.1 s.2 e.firstClusterLow → NoChain e.firstClusterLow ∧ OutsideFats s.1 lba

/-- The copies lie between the start of the FAT and the root directory. -/
theorem Mirrored.congr (hg : Mounted g) (h : Mirrored g d)
    (hget : ∀ lba, g.fatStartSector ≤ lba → lba < g.rootDirSector → d'.get lba = d.get lba) :
    Mirrored g d' := by
  intro k j hk hj
  have hle : (k + 1) * g.fatInfo.fatSize16.toNat ≤
      g.fatInfo.fatCount.toNat * g.fatInfo.fatSize16.toNat := Nat.mul_le_mul_right _ hk
  have hfirst : g.fatInfo.fatSize16.toNat ≤ (k + 1) * g.fatInfo.fatSize16.toNat :=
    Nat.le_mul_of_pos_left _ (Nat.succ_pos k)
  have hstart := hg.fatStart
  have hroot := hg.rootDir
  rw [Nat.add_mul, Nat.one_mul] at hle hfirst
  rw [hget _ (by omega) (by omega), hget _ (by omega) (by omega)]
  exact h k j hk hj

/-- A write outside the FAT copies keeps them. -/
theorem Mirrored.put (hg : Mounted g) (h : Mirrored g d) {lba : ℕ} (hlba : OutsideFats g lba)
    (s : Sector) : Mirrored g (d.put lba s) := by
  refine h.congr hg ?_
  intro lba' hlo hhi
  have hlt := hg.dataStart_lt
  have hle := hg.rootDir_le
  refine Disk.get_put_of_ne d s ?_
  rw [Nat.mod_eq_of_lt (show lba' < lbaSpace from by rw [lbaSpace]; omega)]
  cases hlba with
  | inl h => omega
  | inr h => omega

theorem freeCluster_noChain {c : UInt16} {fuel : ℕ} (hc : NoChain c)
    (h : freeCluster g fuel c d = some d') : d' = d := by
  rw [freeCluster] at h
  split at h
  · exact (Option.some.inj h).symm
  · rename_i hlow
    have hend := hc.resolve_left hlow
    cases fuel with
    | zero => cases h
    | succ fuel =>
      rw [freeChain, if_neg (UInt16.not_lt.mpr hend)] at h
      exact (Option.some.inj h).symm

theorem Mirrored.deleted (hg : Mounted g) (h : Mirrored g d) {fuel n lba : ℕ} {e : DirEntry}
    (hdel : Deleted g fuel d n e lba d') (hc : NoChain e.firstClusterLow) (hlba : OutsideFats g lba) :
    Mirrored g d' := by
  obtain ⟨d₁, hfree, rfl⟩ := hdel
  rw [freeCluster_noChain hc hfree]
  exact h.put hg hlba _

/-- One such command. -/
theorem mirrored_step (junk : Sector) (fuel : ℕ) (s : FileSystem) (c : Command) (s' : FileSystem)
    (h : Mounted s.1 ∧ Mirrored s.1 s.2) (hc : KeepsFats s c) (hstep : step junk fuel s c = some s') :
    Mounted s'.1 ∧ Mirrored s'.1 s'.2 := by
  obtain ⟨g, d⟩ := s
  obtain ⟨hg, hmirror⟩ := h
  have hm := hg.initialized
  cases c with
  | cd w =>
    rw [step_cd] at hstep
    obtain ⟨g', d'⟩ := s'
    obtain ⟨rfl, c, path, rfl, -⟩ := execute_fatChangeDir hstep
    exact ⟨hg.move _ _, hmirror⟩
  | touch w =>
    rw [step_touch] at hstep
    obtain ⟨⟨r, d'⟩, hr, rfl⟩ := Option.map_eq_some_iff.mp hstep
    refine ⟨hg, ?_⟩
    cases execute_fatCreateEntry hm hr with
    | inl hcreated =>
      obtain ⟨-, n, e, lba, hslot, rfl⟩ := hcreated
      exact hmirror.put hg (hc n e lba hslot) _
    | inr hfull =>
      obtain ⟨-, rfl, -⟩ := hfull
      exact hmirror
  | mkdir w =>
    rw [step_mkdir] at hstep
    obtain ⟨⟨r, d'⟩, hr, rfl⟩ := Option.map_eq_some_iff.mp hstep
    rw [execute_cmdMkdir_full (noFreeEntry_iff.mp hc)] at hr
    cases hr
    exact ⟨hg, hmirror⟩
  | rm w =>
    rw [step_rm] at hstep
    obtain ⟨⟨r, d'⟩, hr, rfl⟩ := Option.map_eq_some_iff.mp hstep
    refine ⟨hg, ?_⟩
    cases execute_fatDeleteFile hm hr with
    | inl hkept =>
      obtain ⟨-, rfl⟩ := hkept
      exact hmirror
    | inr hgone =>
      obtain ⟨-, n, e, lba, ht, hisdir, hdel⟩ := hgone
      obtain ⟨hchain, hout⟩ := hc n e lba ht hisdir
      exact hmirror.deleted hg hdel hchain hout
  | rmdir w =>
    rw [step_rmdir] at hstep
    obtain ⟨⟨r, d'⟩, hr, rfl⟩ := Option.map_eq_some_iff.mp hstep
    refine ⟨hg, ?_⟩
    cases execute_fatDeleteDir hm hr with
    | inl hkept =>
      obtain ⟨-, rfl⟩ := hkept
      exact hmirror
    | inr hgone =>
      obtain ⟨-, n, e, lba, ht, hisdir, hempty, hdel⟩ := hgone
      obtain ⟨hchain, hout⟩ := hc n e lba ht hisdir hempty
      exact hmirror.deleted hg hdel hchain hout

/-- **The FAT copies agree.**  From a mounted volume whose copies are alike, they are alike after every
command of every run of commands that write no FAT entry. -/
theorem fat_copies_agree (junk : Sector) (fuel : ℕ) (s s' : FileSystem) (hg : Mounted s.1)
    (hmirror : Mirrored s.1 s.2) (cs rest : List Command)
    (hadm : AdmitsOption (step junk fuel) KeepsFats s (cs ++ rest))
    (hrun : runOption (step junk fuel) s cs = some s') : Mirrored s'.1 s'.2 :=
  (runOption_keeps (mirrored_step junk fuel) ⟨hg, hmirror⟩ (admitsOption_of_append s cs rest hadm) hrun).2

/-! ### On the small volume -/

theorem mirrored_small : Mirrored smallVolume smallDisk := by
  intro k j hk hj
  have hj0 : j = 0 := Nat.lt_one_iff.mp hj
  have hk2 : k < 2 := hk
  subst hj0
  match k, hk2 with
  | 0, _ => rfl
  | 1, _ => rfl

/-- `touch d` on the small volume. -/
theorem fat_copies_agree_touch :
    ∃ s', runOption (step (fun _ => 0) (2 ^ 24)) (smallVolume, smallDisk) [.touch wordD] = some s' ∧
      Mirrored s'.1 s'.2 := by
  have hrun : ((runOption (step (fun _ => 0) (2 ^ 24)) (smallVolume, smallDisk)
      [.touch wordD]).map fun _ => true) = some true := by
    decide +kernel
  obtain ⟨s', hs', -⟩ := Option.map_eq_some_iff.mp hrun
  refine ⟨s', hs', fat_copies_agree (fun _ => 0) (2 ^ 24) (smallVolume, smallDisk) s'
    geometry_smallVolume.toMounted mirrored_small [.touch wordD] [] ⟨?_, fun _ _ => trivial⟩ hs'⟩
  -- the root directory lies behind the FAT copies
  intro n e lba hslot
  obtain ⟨hlo, hhi⟩ := fsOk_small.dirLba_region Dir.root hslot.sector
  exact Or.inr (by rw [Nat.mod_eq_of_lt hhi]; exact hlo)

/-- `mkdir d` on the small volume leaves its two FAT copies different. -/
theorem mkdir_splits_fat_copies :
    Mounted smallVolume ∧ smallVolume.fatInfo.fatCount = 2 ∧ Mirrored smallVolume smallDisk ∧
      ∃ s', runOption (step (fun _ => 0) (2 ^ 24)) (smallVolume, smallDisk) [.mkdir wordD] = some s' ∧
        ¬ Mirrored s'.1 s'.2 := by
  refine ⟨geometry_smallVolume.toMounted, rfl, mirrored_small, ?_⟩
  have hrun : ((runOption (step (fun _ => 0) (2 ^ 24)) (smallVolume, smallDisk) [.mkdir wordD]).map
      fun s => s.1.fatInfo.fatCount == 2 && s.1.fatInfo.fatSize16 == 1 &&
        s.1.fatInfo.reservedSectors == 1 && s.2.get 1 4 == 0xFF && s.2.get 2 4 == 0) = some true := by
    decide +kernel
  obtain ⟨s', hs', hdiff⟩ := Option.map_eq_some_iff.mp hrun
  refine ⟨s', hs', ?_⟩
  simp only [Bool.and_eq_true, beq_iff_eq] at hdiff
  obtain ⟨⟨⟨⟨hcount, hsize⟩, hstart⟩, hfirst⟩, hsecond⟩ := hdiff
  intro hmirror
  have hcopy := hmirror 1 0 (by rw [hcount]; decide) (by rw [hsize]; decide)
  rw [hsize, hstart] at hcopy
  have hbyte := congrFun hcopy 4
  rw [show (1 : UInt16).toNat + 1 * (1 : UInt16).toNat + 0 = 2 from rfl,
    show (1 : UInt16).toNat + 0 = 1 from rfl, hfirst, hsecond] at hbyte
  exact absurd hbyte (by decide)

end OsEojin.Fat
