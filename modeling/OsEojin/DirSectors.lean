import OsEojin.FileReading
import OsEojin.FatFreeing

/-!
# Where directory sectors come from

`fat_read_dir_sector` follows the links of a subdirectory from its first cluster on, and takes only the values
from `0xFFF8` on for an end.  A free entry, a reserved one and a bad mark are followed like any link, and
`fat_lba_of_cluster` makes an address of what was read: of `0` and `1` one in front of the data area.

* `walk_eq_some_iff`: the loop over the clusters, in the terms of the links;
* `run_fatReadDirSector`: the sector it reads last;
* `FromDirectory`: every sector read belongs to a cluster of the directory, and is written back where it was read;
* `from_directory_iff`: when this holds.
-/

namespace OsEojin.Fat

open OsEojin.Lib.Programs OsEojin.Lib.Programs.Program OsEojin.Lib.Links OsEojin.Ata OsEojin.FileReading

variable {junk : Sector} {g : Globals} {d : Disk} {c x : UInt16} {n i lba : ℕ}

/-- The loop over the clusters goes on from every number below the end marks. -/
theorem walk_eq_some_iff : walk g d n c = some x ↔ Reaches (fun y => ¬ IsMark y) (fatEntry g d) n c x := by
  induction n generalizing c with
  | zero =>
    rw [walk, Reaches]
    by_cases hmark : c ≥ 0xFFF8
    · rw [if_pos hmark]
      exact ⟨fun h => (by cases h), fun h => absurd hmark h.1⟩
    · rw [if_neg hmark, Option.some_inj]
      exact ⟨fun h => ⟨hmark, h.symm⟩, fun h => h.2.symm⟩
  | succ n ih =>
    rw [walk, Reaches]
    by_cases hmark : c ≥ 0xFFF8
    · rw [if_pos hmark]
      exact ⟨fun h => (by cases h), fun h => absurd hmark h.1⟩
    · rw [if_neg hmark, ih]
      exact ⟨fun h => ⟨hmark, h⟩, fun h => h.2⟩

/-! ### The sector read -/

/-- The loop reads FAT sectors only, whichever they are. -/
theorem run_dirClusterLoop (junk : Sector) (g : Globals) (d : Disk) (n : ℕ) (c : UInt16) (ms : List (List UInt8))
    (reads : List ℕ) :
    ∃ fats, (dirClusterLoop g n c).run (reader junk) ⟨⟨d, ms⟩, reads⟩ =
      some (walk g d n c, ⟨⟨d, ms⟩, reads ++ fats⟩) := by
  induction n generalizing c reads with
  | zero =>
    refine ⟨[], ?_⟩
    rw [dirClusterLoop, walk, List.append_nil]
    split
    · rfl
    · rfl
  | succ n ih =>
    rw [dirClusterLoop, walk]
    split
    · exact ⟨[], by rw [List.append_nil]; rfl⟩
    · obtain ⟨fats, hfats⟩ := ih (fatEntry g d c) (reads ++ [fatSector g c])
      refine ⟨fatSector g c :: fats, ?_⟩
      rw [run_bind, run_fatNextCluster, Option.bind_some, hfats, List.append_assoc]
      rfl

/-- **The sector `fat_read_dir_sector` reads last** is sector `i` of the directory. -/
theorem run_fatReadDirSector (junk : Sector) (d : Disk) (hf : ¬ faults g c) (i : ℕ) (b : Buffer) :
    ∃ fats, (fatReadDirSector g c i b).run (reader junk) ⟨⟨d, []⟩, []⟩ =
      some ((dirLba g d c i).map fun lba => { b with data := d.get lba },
        ⟨⟨d, []⟩, fats ++ (dirLba g d c i).toList⟩) := by
  rw [faults] at hf
  by_cases h0 : c = 0
  · rw [if_pos h0] at hf
    refine ⟨[], ?_⟩
    rw [fatReadDirSector, dirLba, if_pos h0, if_pos h0, if_neg hf]
    split
    · rfl
    · rfl
  · rw [if_neg h0] at hf
    obtain ⟨fats, hfats⟩ := run_dirClusterLoop junk g d (i / g.fatInfo.sectorsPerCluster.toNat) c [] []
    refine ⟨fats, ?_⟩
    rw [List.nil_append] at hfats
    simp only [fatReadDirSector, dirLba, if_neg h0, if_neg hf, run_bind, hfats, Option.bind_some]
    cases walk g d (i / g.fatInfo.sectorsPerCluster.toNat) c with
    | none =>
      rw [Option.map_none, Option.map_none, Option.toList_none, List.append_nil]
      rfl
    | some curr => rfl

/-- A division by zero reads nothing. -/
theorem run_fatReadDirSector_fault (h0 : c ≠ 0) (hf : faults g c) (i : ℕ) (b : Buffer) (t : Reader) :
    (fatReadDirSector g c i b).run (reader junk) t = none := by
  rw [faults, if_neg h0] at hf
  simp only [fatReadDirSector, if_neg h0, if_pos hf]
  rfl

/-! ### Sectors of the directory -/

/-- Neither a free entry nor a reserved one, no bad mark and no end mark: the number of a cluster. -/
def IsLink (c : UInt16) : Prop := c ≠ 0 ∧ c ≠ 1 ∧ c ≠ 0xFFF7 ∧ ¬ IsMark c

/-- **Directory sectors come from the directory**: whenever a sector is read, the links lead from the first
cluster through numbers of clusters to one that the sector belongs to, and a change is written back to the
address it was read from. -/
def FromDirectory (junk : Sector) (g : Globals) (d : Disk) (c : UInt16) : Prop :=
  ∀ i b b' t, (fatReadDirSector g c i b).run (reader junk) ⟨⟨d, []⟩, []⟩ = some (some b', t) →
    ∃ x lba, t.reads.getLast? = some lba ∧
      Reaches IsLink (fatEntry g d) (i / g.fatInfo.sectorsPerCluster.toNat) c x ∧
      lba = clusterLba g x + i % g.fatInfo.sectorsPerCluster.toNat ∧ g.dataStartSector ≤ lba ∧
      execute junk (writeBackLba { g with currentDirCluster := c } i) d = some (lba, d)

/-- What the links lead to before an end mark is neither free, nor reserved, nor bad. -/
def SoundLinks (g : Globals) (d : Disk) (c : UInt16) : Prop :=
  ∀ n x, Reaches (fun y => ¬ IsMark y) (fatEntry g d) n c x → x ≠ 0 ∧ x ≠ 1 ∧ x ≠ 0xFFF7

theorem two_le_of_isLink (h : IsLink x) : 2 ≤ x.toNat := by
  have h0 : x.toNat ≠ 0 := fun he => h.1 (UInt16.toNat_inj.mp he)
  have h1 : x.toNat ≠ 1 := fun he => h.2.1 (UInt16.toNat_inj.mp he)
  omega

/-- The first sector of a cluster that the links lead to is read. -/
theorem dirLba_of_reaches (h0 : c ≠ 0) (hf : ¬ faults g c)
    (hx : Reaches (fun y => ¬ IsMark y) (fatEntry g d) n c x) :
    dirLba g d c (n * g.fatInfo.sectorsPerCluster.toNat) = some (fatLbaOfCluster g x) := by
  rw [faults, if_neg h0] at hf
  rw [dirLba, if_neg h0, Nat.mul_div_cancel n (Nat.pos_of_ne_zero hf), walk_eq_some_iff.mpr hx, Nat.mul_mod_left]
  rfl

theorem fromDirectory_of_fault (h0 : c ≠ 0) (hf : faults g c) : FromDirectory junk g d c := by
  intro i b b' t hrun
  rw [run_fatReadDirSector_fault h0 hf] at hrun
  cases hrun

theorem fromDirectory_of_sound (hm : Mounted g) (h0 : c ≠ 0) (hf : ¬ faults g c) (hs : SoundLinks g d c) :
    FromDirectory junk g d c := by
  intro i b b' t hrun
  obtain ⟨fats, hread⟩ := run_fatReadDirSector junk d hf i b
  rw [hread] at hrun
  cases hlba : dirLba g d c i with
  | none =>
    rw [hlba] at hrun
    cases hrun
  | some lba =>
    rw [hlba] at hrun
    cases hrun
    have hwalked := hlba
    rw [dirLba, if_neg h0] at hwalked
    obtain ⟨x, hwalk, hx⟩ := Option.map_eq_some_iff.mp hwalked
    have hlinks : Reaches IsLink (fatEntry g d) (i / g.fatInfo.sectorsPerCluster.toNat) c x := by
      refine (walk_eq_some_iff.mp hwalk).of_places ?_
      intro m z hz
      exact ⟨(hs m z hz).1, (hs m z hz).2.1, (hs m z hz).2.2, hz.last⟩
    have haddress : lba = clusterLba g x + i % g.fatInfo.sectorsPerCluster.toNat := by
      rw [← hx, hm.fatLbaOfCluster_eq (two_le_of_isLink hlinks.last)]
    have hstart : g.dataStartSector ≤ lba := by
      have := dataStart_le_clusterLba g x
      omega
    refine ⟨x, lba, by simp, hlinks, haddress, hstart, execute_writeBackLba hf ?_⟩
    rw [dirLba_move]
    exact hlba

theorem sound_of_fromDirectory (h0 : c ≠ 0) (hf : ¬ faults g c) (h : FromDirectory junk g d c) :
    SoundLinks g d c := by
  intro n x hx
  obtain ⟨fats, hread⟩ := run_fatReadDirSector junk d hf
    (n * g.fatInfo.sectorsPerCluster.toNat) (freshBlock junk)
  rw [dirLba_of_reaches h0 hf hx] at hread
  obtain ⟨y, -, -, hy, -, -, -⟩ := h _ _ _ _ hread
  rw [faults, if_neg h0] at hf
  rw [Nat.mul_div_cancel n (Nat.pos_of_ne_zero hf)] at hy
  rw [hx.unique hy]
  exact ⟨hy.last.1, hy.last.2.1, hy.last.2.2.1⟩

/-- **When directory sectors come from the directory**: when no sector can be read at all, or the links meet no
free, reserved or bad number before an end mark. -/
theorem from_directory_iff (junk : Sector) (g : Globals) (d : Disk) (hm : Mounted g) (c : UInt16) (hc : 2 ≤ c) :
    FromDirectory junk g d c ↔ g.fatInfo.sectorsPerCluster = 0 ∨ SoundLinks g d c := by
  have h0 : c ≠ 0 := by
    rintro rfl
    exact absurd hc (by decide)
  have hfault : faults g c ↔ g.fatInfo.sectorsPerCluster = 0 := by
    rw [faults, if_neg h0]
    exact UInt8.toNat_inj (b := 0)
  rw [← hfault]
  constructor
  · intro h
    by_cases hf : faults g c
    · exact Or.inl hf
    · exact Or.inr (sound_of_fromDirectory h0 hf h)
  · intro h
    by_cases hf : faults g c
    · exact fromDirectory_of_fault h0 hf
    · exact fromDirectory_of_sound hm h0 hf (h.resolve_left hf)

/-- The links of a cluster marked as the end of its chain. -/
theorem soundLinks_of_last (hc : c ≠ 0 ∧ c ≠ 1 ∧ c ≠ 0xFFF7) (hend : IsMark (fatEntry g d c)) :
    SoundLinks g d c := by
  intro n x hx
  cases n with
  | zero =>
    rw [hx.2]
    exact hc
  | succ n =>
    cases n with
    | zero => exact absurd hend hx.2.1
    | succ n => exact absurd hend hx.2.1

/-- Cluster 2 of the small volume, marked as the end of its chain. -/
theorem from_directory_marked :
    FromDirectory (fun _ => 0) smallVolume (setFatEntry smallVolume smallDisk 2 0xFFFF) 2 := by
  refine (from_directory_iff (fun _ => 0) smallVolume _ geometry_smallVolume.toMounted 2 (by decide)).mpr
    (Or.inr (soundLinks_of_last (by decide) ?_))
  decide +kernel

/-- **A directory that runs into a free entry**: its second sector is sector 2 of the disk, in the second copy of
the FAT. -/
theorem free_link_read_as_directory :
    Mounted smallVolume ∧ (2 : UInt16) ≤ 2 ∧ dirLba smallVolume smallDisk 2 1 = some 2 ∧
      smallVolume.dataStartSector = 4 ∧ ¬ FromDirectory (fun _ => 0) smallVolume smallDisk 2 := by
  refine ⟨geometry_smallVolume.toMounted, by decide, by decide +kernel, rfl, ?_⟩
  intro h
  have hlink : Reaches (fun y => ¬ IsMark y) (fatEntry smallVolume smallDisk) 1 2 0 :=
    ⟨by decide, by decide +kernel, by decide +kernel⟩
  exact (sound_of_fromDirectory (by decide) (geometry_smallVolume.not_faults 2) h 1 0 hlink).1 rfl

end OsEojin.Fat
