import OsEojin.FatFaults
import OsEojin.FatGeometry
import OsEojin.Lib.Checked
import Mathlib

/-!
# The regions of the disk

The FAT, the root directory and the clusters, as the sectors the code reads for them, and the machine
arithmetic their addresses are computed with.

* `fatRegion`, `rootRegion`, `clusterRegion`: the three kinds of regions;
* `layoutChecked` and the other checked computations: `none` where 32 bits do not hold a result;
* `LbaRegisters`: an address as the ATA driver programs it;
* `disk_regions_do_not_collide`: the regions are disjoint and every address is exact.
-/

namespace OsEojin.Fat

open OsEojin.Lib.Programs OsEojin.Lib.Programs.Program OsEojin.Lib.Checked OsEojin.Ata

variable {g : Globals} {s : Sector} {c c' : UInt16} {lba : ℕ}

/-! ### The sectors that are read -/

/-- The sectors `fat_next_cluster` reads for the clusters that have an entry in the first FAT. -/
def fatRegion (g : Globals) : Set ℕ :=
  {lba | ∃ (c : UInt16) (b : Buffer), c.toNat < 256 * g.fatInfo.fatSize16.toNat ∧
    MayCall anyAnswer (fatNextCluster g c) (.ataReadSector lba b)}

/-- The sectors `fat_read_dir_sector` serves of the root directory. -/
def rootRegion (g : Globals) : Set ℕ :=
  {lba | ∃ (i : ℕ) (b b' : Buffer), MayCall anyAnswer (fatReadDirSector g 0 i b) (.ataReadSector lba b')}

/-- The sectors of a cluster. -/
def clusterRegion (g : Globals) (c : UInt16) : Set ℕ :=
  Set.Ico (fatLbaOfCluster g c) (fatLbaOfCluster g c + g.fatInfo.sectorsPerCluster.toNat)

theorem mayCall_read {a : ℕ} {b b' : Buffer} (h : MayCall anyAnswer (ataReadSector a b) (.ataReadSector lba b')) :
    lba = a := by
  obtain h | ⟨_, _, h⟩ := mayCall_bind.mp h
  · obtain ⟨rfl, -⟩ := Call.ataReadSector.inj (mayCall_perform.mp h)
    rfl
  · exact h.elim

theorem mayCall_fatNextCluster {b : Buffer}
    (h : MayCall anyAnswer (fatNextCluster g c) (.ataReadSector lba b)) : lba = fatSector g c := by
  obtain h | ⟨b₁, -, h⟩ := mayCall_bind.mp h
  · cases mayCall_perform.mp h
  · obtain h | ⟨b₂, -, h⟩ := mayCall_bind.mp h
    · exact mayCall_read h
    · obtain h | ⟨_, _, h⟩ := mayCall_bind.mp h
      · cases mayCall_perform.mp h
      · exact h.elim

/-- They are the sectors of the entries. -/
theorem fatRegion_eq (g : Globals) :
    fatRegion g = {lba | ∃ c : UInt16, c.toNat < 256 * g.fatInfo.fatSize16.toNat ∧ lba = fatSector g c} := by
  ext lba
  constructor
  · rintro ⟨c, b, hc, h⟩
    exact ⟨c, hc, mayCall_fatNextCluster h⟩
  · rintro ⟨c, hc, rfl⟩
    refine ⟨c, freshBlock fun _ => 0, hc, ?_⟩
    refine mayCall_bind.mpr (Or.inr ⟨freshBlock fun _ => 0, mayReturn_perform.mpr trivial, ?_⟩)
    exact mayCall_bind.mpr (Or.inl (mayCall_bind.mpr (Or.inl (mayCall_perform.mpr rfl))))

/-- The first FAT. -/
theorem fatRegion_subset (g : Globals) :
    fatRegion g ⊆ Set.Ico g.fatStartSector (g.fatStartSector + g.fatInfo.fatSize16.toNat) := by
  rw [fatRegion_eq]
  rintro lba ⟨c, hc, rfl⟩
  rw [fatSector_eq]
  exact ⟨by omega, by omega⟩

/-- The root directory. -/
theorem rootRegion_eq (hbps : g.fatInfo.bytesPerSector ≠ 0) :
    rootRegion g = Set.Ico g.rootDirSector (g.rootDirSector + g.fatInfo.rootDirSectors) := by
  ext lba
  rw [Set.mem_Ico]
  constructor
  · rintro ⟨i, b, b', h⟩
    rw [fatReadDirSector, if_pos rfl, if_neg hbps] at h
    split at h
    · exact h.elim
    · obtain h | ⟨_, _, h⟩ := mayCall_bind.mp h
      · rw [mayCall_read h]
        omega
      · exact h.elim
  · rintro ⟨hlo, hhi⟩
    refine ⟨lba - g.rootDirSector, freshBlock fun _ => 0, freshBlock fun _ => 0, ?_⟩
    rw [fatReadDirSector, if_pos rfl, if_neg hbps, if_neg (by omega), Nat.add_sub_cancel' hlo]
    exact mayCall_bind.mpr (Or.inl (mayCall_bind.mpr (Or.inl (mayCall_perform.mpr rfl))))

/-! ### The regions of a mounted volume -/

theorem geometry_mountedFrom (g : Globals) (hbps : (Bpb.parse s).bytesPerSector ≠ 0)
    (hspc : (Bpb.parse s).sectorsPerCluster ≠ 0) (hreserved : (Bpb.parse s).reservedSectors ≠ 0)
    (hcount : (Bpb.parse s).fatCount ≠ 0) : Geometry (mountedFrom g s) :=
  ⟨⟨rfl, hbps, rfl, rfl, rfl⟩, hspc, hreserved, hcount⟩

theorem Geometry.fatStart_pos (hg : Geometry g) : 0 < g.fatStartSector := by
  rw [hg.fatStart, Nat.pos_iff_ne_zero]
  intro h0
  exact hg.reservedSectors (UInt16.toNat_inj.mp h0)

theorem Geometry.clusterRegion_eq (hg : Geometry g) (hc : 2 ≤ c.toNat) :
    clusterRegion g c = Set.Ico (clusterLba g c) (clusterLba g c + g.fatInfo.sectorsPerCluster.toNat) := by
  rw [clusterRegion, hg.fatLbaOfCluster_eq hc]

/-- An interval that ends before another one starts. -/
theorem disjoint_Ico_of_le {a a' b b' : ℕ} (h : a' ≤ b) : Disjoint (Set.Ico a a') (Set.Ico b b') :=
  Set.Ico_disjoint_Ico.mpr (le_trans (min_le_left a' b') (le_trans h (le_max_right a b)))

theorem Geometry.disjoint_fat_root (hg : Geometry g) : Disjoint (fatRegion g) (rootRegion g) := by
  rw [rootRegion_eq hg.bytesPerSector]
  refine Disjoint.mono_left (fatRegion_subset g) (disjoint_Ico_of_le ?_)
  exact hg.fat_le_rootDir

theorem Geometry.disjoint_fat_cluster (hg : Geometry g) (hc : 2 ≤ c.toNat) :
    Disjoint (fatRegion g) (clusterRegion g c) := by
  rw [hg.clusterRegion_eq hc]
  refine Disjoint.mono_left (fatRegion_subset g) (disjoint_Ico_of_le ?_)
  exact le_trans hg.fat_le_rootDir (hg.rootDir_le_clusterLba c)

theorem Geometry.disjoint_root_cluster (hg : Geometry g) (hc : 2 ≤ c.toNat) :
    Disjoint (rootRegion g) (clusterRegion g c) := by
  rw [hg.clusterRegion_eq hc, rootRegion_eq hg.bytesPerSector]
  refine disjoint_Ico_of_le ?_
  rw [← hg.dataStart]
  exact dataStart_le_clusterLba g c

theorem Geometry.disjoint_clusters (hg : Geometry g) (hc : 2 ≤ c.toNat) (hc' : 2 ≤ c'.toNat) (hne : c ≠ c') :
    Disjoint (clusterRegion g c) (clusterRegion g c') := by
  rw [hg.clusterRegion_eq hc, hg.clusterRegion_eq hc', Set.disjoint_left]
  rintro lba ⟨hlo, hhi⟩ ⟨hlo', hhi'⟩
  have heq := clusterLba_inj (g := g) (i := lba - clusterLba g c) (j := lba - clusterLba g c') hc hc' (by omega)
    (by omega) (by omega)
  exact hne heq.1

/-- Every sector of the three regions. -/
def InRegions (g : Globals) (lba : ℕ) : Prop :=
  lba ∈ fatRegion g ∨ lba ∈ rootRegion g ∨ ∃ c : UInt16, 2 ≤ c.toNat ∧ lba ∈ clusterRegion g c

theorem Geometry.inRegions_bounds (hg : Geometry g) (h : InRegions g lba) : 0 < lba ∧ lba < lbaSpace := by
  have hpos := hg.fatStart_pos
  have hle := hg.fat_le_rootDir
  have hdata := hg.dataStart_lt
  have hroot := hg.rootDir_le
  have hspace : lbaSpace = 2 ^ 28 := rfl
  rcases h with hfat | hroot' | ⟨c, hc, hcluster⟩
  · obtain ⟨hlo, hhi⟩ := fatRegion_subset g hfat
    omega
  · rw [rootRegion_eq hg.bytesPerSector, ← hg.dataStart] at hroot'
    obtain ⟨hlo, hhi⟩ := hroot'
    omega
  · rw [hg.clusterRegion_eq hc] at hcluster
    obtain ⟨hlo, hhi⟩ := hcluster
    have hstart := dataStart_le_clusterLba g c
    have hlt : clusterLba g c + (lba - clusterLba g c) < 2 ^ 28 := hg.cluster_lt c (by omega)
    omega

/-! ### The arithmetic -/

/-- Where `fat_init` puts the FAT, the root directory and the clusters: products in `int`, the rest in
`uint32_t`. -/
def layoutChecked (b : Bpb) : Option (ℤ × ℤ × ℤ) := do
  let fatStart ← IntType.uint32.fits b.reservedSectors.toNat
  let copies ← IntType.int.fits (b.fatCount.toNat * b.fatSize16.toNat)
  let copies ← IntType.uint32.fits copies
  let rootDir ← IntType.uint32.fits (fatStart + copies)
  let rootBytes ← IntType.int.fits (b.rootDirEntries.toNat * 32)
  let rootDirSize ← IntType.uint32.fits (rootBytes / b.bytesPerSector.toNat)
  let dataStart ← IntType.uint32.fits (rootDir + rootDirSize)
  pure (fatStart, rootDir, dataStart)

/-- `fat_sector` of `fat_next_cluster`. -/
def fatSectorChecked (g : Globals) (cluster : UInt16) : Option ℤ := do
  let fatOffset ← IntType.int.fits (cluster.toNat * 2)
  let fatOffset ← IntType.uint32.fits fatOffset
  IntType.uint32.fits (g.fatStartSector + fatOffset / 512)

/-- `fat_lba_of_cluster`. -/
def fatLbaOfClusterChecked (g : Globals) (cluster : UInt16) : Option ℤ := do
  let index ← IntType.int.fits (cluster.toNat - 2)
  let sectors ← IntType.int.fits (index * g.fatInfo.sectorsPerCluster.toNat)
  let sectors ← IntType.uint32.fits sectors
  IntType.uint32.fits (g.dataStartSector + sectors)

/-- The address `fat_read_dir_sector` reads sector `i` of the root directory at. -/
def rootSectorChecked (g : Globals) (i : ℕ) : Option ℤ := do
  let sectorIdx ← IntType.int.fits i
  let sectorIdx ← IntType.uint32.fits sectorIdx
  IntType.uint32.fits (g.rootDirSector + sectorIdx)

/-- The address it reads sector `off` of a cluster at. -/
def clusterSectorChecked (g : Globals) (cluster : UInt16) (off : ℕ) : Option ℤ := do
  let lba ← fatLbaOfClusterChecked g cluster
  let sectorOffset ← IntType.int.fits off
  let sectorOffset ← IntType.uint32.fits sectorOffset
  IntType.uint32.fits (lba + sectorOffset)

/-- A number below `2^31` passes through both types. -/
theorem fits_both {n : ℕ} (hn : n < 2 ^ 31) :
    IntType.int.fits n = some (n : ℤ) ∧ IntType.uint32.fits n = some (n : ℤ) :=
  ⟨fits_natCast (by decide) (show (n : ℤ) ≤ 2 ^ 31 - 1 from by omega),
    fits_natCast (by decide) (show (n : ℤ) ≤ 2 ^ 32 - 1 from by omega)⟩

theorem layoutChecked_eq (b : Bpb) :
    layoutChecked b = some ((b.reservedSectors.toNat : ℤ),
      ((b.reservedSectors.toNat + b.fatCount.toNat * b.fatSize16.toNat : ℕ) : ℤ),
      ((b.reservedSectors.toNat + b.fatCount.toNat * b.fatSize16.toNat + b.rootDirSectors : ℕ) : ℤ)) := by
  have hreserved : b.reservedSectors.toNat < 65536 := UInt16.toNat_lt _
  have hcopies : b.fatCount.toNat * b.fatSize16.toNat ≤ 255 * 65535 :=
    Nat.mul_le_mul (Nat.le_of_lt_succ (UInt8.toNat_lt _)) (Nat.le_of_lt_succ (UInt16.toNat_lt _))
  have hentries : b.rootDirEntries.toNat < 65536 := UInt16.toNat_lt _
  have hroot := b.rootDirSectors_lt
  have hrootSize : ((b.rootDirEntries.toNat * 32 : ℕ) : ℤ) / b.bytesPerSector.toNat = (b.rootDirSectors : ℤ) :=
    rfl
  have hproduct : (b.fatCount.toNat : ℤ) * b.fatSize16.toNat = ((b.fatCount.toNat * b.fatSize16.toNat : ℕ) : ℤ) :=
    (Int.natCast_mul _ _).symm
  have hbytes : (b.rootDirEntries.toNat : ℤ) * 32 = ((b.rootDirEntries.toNat * 32 : ℕ) : ℤ) :=
    (Int.natCast_mul _ 32).symm
  generalize b.fatCount.toNat * b.fatSize16.toNat = copies at *
  rw [layoutChecked]
  simp only [hproduct, hbytes, ← Int.natCast_add, Option.bind_eq_bind, Option.bind_some,
    (fits_both (show b.reservedSectors.toNat < 2 ^ 31 from by omega)).2,
    (fits_both (show copies < 2 ^ 31 from by omega)).1, (fits_both (show copies < 2 ^ 31 from by omega)).2,
    (fits_both (show b.rootDirEntries.toNat * 32 < 2 ^ 31 from by omega)).1, hrootSize,
    (fits_both (show b.rootDirSectors < 2 ^ 31 from by omega)).2,
    (fits_both (show b.reservedSectors.toNat + copies < 2 ^ 31 from by omega)).2,
    (fits_both (show b.reservedSectors.toNat + copies + b.rootDirSectors < 2 ^ 31 from by omega)).2]
  rfl

theorem Mounted.fatSectorChecked_eq (hm : Mounted g) (c : UInt16) :
    fatSectorChecked g c = some (fatSector g c : ℤ) := by
  have hc : c.toNat < 65536 := UInt16.toNat_lt _
  have hlt : fatSector g c < 2 ^ 28 := hm.fatSector_lt c
  have hoffset : (c.toNat : ℤ) * 2 = ((c.toNat * 2 : ℕ) : ℤ) := (Int.natCast_mul _ 2).symm
  have hsector : (g.fatStartSector : ℤ) + ((c.toNat * 2 : ℕ) : ℤ) / 512 = (fatSector g c : ℤ) := rfl
  rw [fatSectorChecked]
  simp only [hoffset, Option.bind_eq_bind, (fits_both (show c.toNat * 2 < 2 ^ 31 from by omega)).1,
    (fits_both (show c.toNat * 2 < 2 ^ 31 from by omega)).2, Option.bind_some, hsector,
    (fits_both (show fatSector g c < 2 ^ 31 from by omega)).2]

theorem Geometry.fatLbaOfClusterChecked_eq (hg : Geometry g) (hc : 2 ≤ c.toNat) :
    fatLbaOfClusterChecked g c = some (fatLbaOfCluster g c : ℤ) := by
  have hlt : c.toNat < 65536 := UInt16.toNat_lt _
  have hlba : clusterLba g c < 2 ^ 28 := hg.clusterLba_lt c
  have hindex : (c.toNat : ℤ) - 2 = ((c.toNat - 2 : ℕ) : ℤ) := by omega
  have hsectors : ((c.toNat - 2 : ℕ) : ℤ) * g.fatInfo.sectorsPerCluster.toNat =
      (((c.toNat - 2) * g.fatInfo.sectorsPerCluster.toNat : ℕ) : ℤ) := (Int.natCast_mul _ _).symm
  rw [hg.fatLbaOfCluster_eq hc]
  rw [clusterLba] at hlba ⊢
  generalize (c.toNat - 2) * g.fatInfo.sectorsPerCluster.toNat = sectors at *
  rw [fatLbaOfClusterChecked]
  simp only [hindex, Option.bind_eq_bind, (fits_both (show c.toNat - 2 < 2 ^ 31 from by omega)).1,
    Option.bind_some, hsectors, (fits_both (show sectors < 2 ^ 31 from by omega)).1,
    (fits_both (show sectors < 2 ^ 31 from by omega)).2, ← Int.natCast_add,
    (fits_both (show g.dataStartSector + sectors < 2 ^ 31 from by omega)).2]

theorem Mounted.rootSectorChecked_eq (hm : Mounted g) {i : ℕ} (hi : i < g.fatInfo.rootDirSectors) :
    rootSectorChecked g i = some ((g.rootDirSector + i : ℕ) : ℤ) := by
  have hdata := hm.dataStart_lt
  have hstart := hm.dataStart
  rw [rootSectorChecked]
  simp only [Option.bind_eq_bind, (fits_both (show i < 2 ^ 31 from by omega)).1, Option.bind_some,
    (fits_both (show i < 2 ^ 31 from by omega)).2, ← Int.natCast_add,
    (fits_both (show g.rootDirSector + i < 2 ^ 31 from by omega)).2]

theorem Geometry.clusterSectorChecked_eq (hg : Geometry g) (hc : 2 ≤ c.toNat) {off : ℕ}
    (hoff : off < g.fatInfo.sectorsPerCluster.toNat) :
    clusterSectorChecked g c off = some ((fatLbaOfCluster g c + off : ℕ) : ℤ) := by
  have hlt : clusterLba g c + off < 2 ^ 28 := hg.cluster_lt c hoff
  rw [clusterSectorChecked, hg.fatLbaOfClusterChecked_eq hc, hg.fatLbaOfCluster_eq hc]
  simp only [Option.bind_eq_bind, Option.bind_some, (fits_both (show off < 2 ^ 31 from by omega)).1,
    (fits_both (show off < 2 ^ 31 from by omega)).2, ← Int.natCast_add,
    (fits_both (show clusterLba g c + off < 2 ^ 31 from by omega)).2]

/-! ### The registers of the driver -/

/-- The four registers `ata_read_sector` and `ata_write_sector` write the address to. -/
structure LbaRegisters where
  driveHead : UInt8
  lbaLow : UInt8
  lbaMid : UInt8
  lbaHigh : UInt8

/-- What they are programmed with. -/
def lbaRegisters (lba : UInt32) : LbaRegisters where
  driveHead := ((0xe0 : UInt32) ||| ((lba >>> 24) &&& 0x0f)).toUInt8
  lbaLow := lba.toUInt8
  lbaMid := (lba >>> 8).toUInt8
  lbaHigh := (lba >>> 16).toUInt8

/-- The address the drive takes from them: the low half of the drive register is its top. -/
def LbaRegisters.address (r : LbaRegisters) : ℕ :=
  r.lbaLow.toNat + 2 ^ 8 * r.lbaMid.toNat + 2 ^ 16 * r.lbaHigh.toNat + 2 ^ 24 * (r.driveHead.toNat % 16)

/-- The drive register: the master in LBA mode, and four bits of the address. -/
theorem driveHead_toNat (lba : UInt32) :
    (lbaRegisters lba).driveHead.toNat = 0xe0 + lba.toNat / 2 ^ 24 % 16 := by
  have hor : ∀ n < 16, 0xe0 ||| n = 0xe0 + n := by decide
  have hand : (lba.toNat / 2 ^ 24) &&& 15 = lba.toNat / 2 ^ 24 % 16 := Nat.and_two_pow_sub_one_eq_mod _ 4
  have hlt : lba.toNat / 2 ^ 24 % 16 < 16 := Nat.mod_lt _ (by decide)
  show ((0xe0 : UInt32) ||| ((lba >>> 24) &&& 0x0f)).toNat % 2 ^ 8 = _
  rw [UInt32.toNat_or, UInt32.toNat_and, UInt32.toNat_shiftRight,
    show (24 : UInt32).toNat % 32 = 24 from rfl, Nat.shiftRight_eq_div_pow,
    show (0x0f : UInt32).toNat = 15 from rfl, show (0xe0 : UInt32).toNat = 0xe0 from rfl, hand, hor _ hlt]
  omega

/-- **The drive sees the low 28 bits.** -/
theorem address_lbaRegisters (lba : UInt32) : (lbaRegisters lba).address = lba.toNat % lbaSpace := by
  have hlow : (lbaRegisters lba).lbaLow.toNat = lba.toNat % 2 ^ 8 := rfl
  have hmid : (lbaRegisters lba).lbaMid.toNat = lba.toNat / 2 ^ 8 % 2 ^ 8 := by
    show (lba >>> 8).toNat % 2 ^ 8 = _
    rw [UInt32.toNat_shiftRight, show (8 : UInt32).toNat % 32 = 8 from rfl, Nat.shiftRight_eq_div_pow]
  have hhigh : (lbaRegisters lba).lbaHigh.toNat = lba.toNat / 2 ^ 16 % 2 ^ 8 := by
    show (lba >>> 16).toNat % 2 ^ 8 = _
    rw [UInt32.toNat_shiftRight, show (16 : UInt32).toNat % 32 = 16 from rfl, Nat.shiftRight_eq_div_pow]
  rw [LbaRegisters.address, hlow, hmid, hhigh, driveHead_toNat, lbaSpace]
  omega

/-! ### The whole layout -/

/-- No address computation overflows or wraps, and each gives the address of the model. -/
structure Exact (g : Globals) : Prop where
  layout : layoutChecked g.fatInfo =
    some ((g.fatStartSector : ℤ), (g.rootDirSector : ℤ), (g.dataStartSector : ℤ))
  fatSector : ∀ c, fatSectorChecked g c = some (fatSector g c : ℤ)
  rootSector : ∀ i, i < g.fatInfo.rootDirSectors → rootSectorChecked g i = some ((g.rootDirSector + i : ℕ) : ℤ)
  cluster : ∀ c : UInt16, 2 ≤ c.toNat → fatLbaOfClusterChecked g c = some (fatLbaOfCluster g c : ℤ)
  clusterSector : ∀ c : UInt16, 2 ≤ c.toNat → ∀ off, off < g.fatInfo.sectorsPerCluster.toNat →
    clusterSectorChecked g c off = some ((fatLbaOfCluster g c + off : ℕ) : ℤ)

theorem Geometry.exact (hg : Geometry g) : Exact g where
  layout := by
    rw [layoutChecked_eq, hg.dataStart, hg.rootDir, hg.fatStart]
  fatSector := hg.fatSectorChecked_eq
  rootSector _ hi := hg.rootSectorChecked_eq hi
  cluster _ hc := hg.fatLbaOfClusterChecked_eq hc
  clusterSector _ hc _ hoff := hg.clusterSectorChecked_eq hc hoff

/-- The three kinds of regions are pairwise disjoint, and so are the clusters among themselves. -/
structure Apart (g : Globals) : Prop where
  fatRoot : Disjoint (fatRegion g) (rootRegion g)
  fatCluster : ∀ c : UInt16, 2 ≤ c.toNat → Disjoint (fatRegion g) (clusterRegion g c)
  rootCluster : ∀ c : UInt16, 2 ≤ c.toNat → Disjoint (rootRegion g) (clusterRegion g c)
  clusters : ∀ c c' : UInt16, 2 ≤ c.toNat → 2 ≤ c'.toNat → c ≠ c' →
    Disjoint (clusterRegion g c) (clusterRegion g c')

theorem Geometry.apart (hg : Geometry g) : Apart g where
  fatRoot := hg.disjoint_fat_root
  fatCluster _ hc := hg.disjoint_fat_cluster hc
  rootCluster _ hc := hg.disjoint_root_cluster hc
  clusters _ _ hc hc' hne := hg.disjoint_clusters hc hc' hne

/-- **Disk regions do not collide.**  For every boot sector with the four fields set, `fat_init` leaves a layout
in which the first FAT, the root directory and the clusters are disjoint and none of them holds LBA 0, every
address is computed exactly in 32 bits, and the driver's registers hold it without loss. -/
theorem disk_regions_do_not_collide (g : Globals) (s : Sector) (hbps : (Bpb.parse s).bytesPerSector ≠ 0)
    (hspc : (Bpb.parse s).sectorsPerCluster ≠ 0) (hreserved : (Bpb.parse s).reservedSectors ≠ 0)
    (hcount : (Bpb.parse s).fatCount ≠ 0) :
    MayReturn (bootSector s) (fatInit g) (mountedFrom g s) ∧ Apart (mountedFrom g s) ∧ Exact (mountedFrom g s) ∧
      ∀ lba, InRegions (mountedFrom g s) lba →
        lba ≠ 0 ∧ lba < 2 ^ 28 ∧ (lbaRegisters (UInt32.ofNat lba)).address = lba := by
  have hg := geometry_mountedFrom g hbps hspc hreserved hcount
  refine ⟨mayReturn_fatInit.mpr (Or.inr ⟨hbps, rfl⟩), hg.apart, hg.exact, ?_⟩
  intro lba hin
  obtain ⟨hpos, hlt⟩ := hg.inRegions_bounds hin
  refine ⟨hpos.ne', hlt, ?_⟩
  rw [lbaSpace] at hlt
  rw [address_lbaRegisters, UInt32.toNat_ofNat', Nat.mod_eq_of_lt (show lba < 2 ^ 32 from by omega), lbaSpace,
    Nat.mod_eq_of_lt hlt]

/-- A boot sector with the largest value in every field of the layout. -/
def extremeSector : Sector := fun _ => 0xFF

/-- At the extremes of every field. -/
theorem disk_regions_do_not_collide_extreme :
    Apart (mountedFrom twoSectorRoot extremeSector) ∧ Exact (mountedFrom twoSectorRoot extremeSector) := by
  obtain ⟨-, hapart, hexact, -⟩ := disk_regions_do_not_collide twoSectorRoot extremeSector (by decide +kernel)
    (by decide +kernel) (by decide +kernel) (by decide +kernel)
  exact ⟨hapart, hexact⟩

end OsEojin.Fat
