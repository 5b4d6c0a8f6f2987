import OsEojin.FatUpdates
import OsEojin.FatTree
import Mathlib.Data.List.Perm.Subperm
import Mathlib.Tactic.Ring

/-!
# Where things are on a mounted volume

`fat_init` lays out the reserved sectors, the FAT copies, the root directory and the clusters one after
another.  No address computation wraps, so the regions are disjoint and clusters with different numbers
have different sectors; every write of the file system is seen in one place only.

* `Mounted`, `mounted_fatInit`: the globals `fat_init` leaves;
* `IsData`: the cluster numbers of the data area;
* `fatEntry_setFatEntry`: the FAT is an array;
* `dirLba_chain`: the sectors of a directory are those of its chain;
* `dirLba_inj`: on a well-formed volume no two directory sectors coincide.
-/

namespace OsEojin.Fat

open OsEojin.Lib.Programs OsEojin.Ata OsEojin.Shell

/-! ### The layout -/

/-- The globals after `fat_init`: the regions start where it computed. -/
structure Mounted (g : Globals) : Prop where
  initialized : g.isFatInitialized = true
  bytesPerSector : g.fatInfo.bytesPerSector ≠ 0
  fatStart : g.fatStartSector = g.fatInfo.reservedSectors.toNat
  rootDir : g.rootDirSector =
    g.fatStartSector + g.fatInfo.fatCount.toNat * g.fatInfo.fatSize16.toNat
  dataStart : g.dataStartSector = g.rootDirSector + g.fatInfo.rootDirSectors

theorem execute_forM_kprint (junk : Sector) (d : Disk) (f : UInt8 → List UInt8) (l : List UInt8) :
    execute junk (l.forM fun c => kprint (f c)) d = some ((), d) := by
  induction l with
  | nil => rfl
  | cons c l ih =>
    simp only [List.forM_eq_forM, List.forM_cons, execute_bind, execute_kprint, Option.bind_some] at ih ⊢
    exact ih

/-- `fat_init` mounts the volume and keeps the path, or never comes back. -/
theorem mounted_fatInit {junk : Sector} {g g' : Globals} {d d' : Disk}
    (h : execute junk (fatInit g) d = some (g', d')) :
    Mounted g' ∧ d' = d ∧ g'.currentPath = g.currentPath := by
  simp only [fatInit, execute_bind, execute_kmalloc, Option.bind_some, freshBlock_ptr_ne, if_false,
    execute_ataReadSector, execute_kprint, execute_forM_kprint] at h
  by_cases h0 : (Bpb.parse (d.get 0)).bytesPerSector = 0
  · rw [if_pos h0] at h
    cases h
  · rw [if_neg h0] at h
    cases h
    exact ⟨⟨rfl, h0, rfl, rfl, rfl⟩, rfl, rfl⟩

/-- The four fields that make sense of a volume are there. -/
structure Geometry (g : Globals) : Prop extends Mounted g where
  sectorsPerCluster : g.fatInfo.sectorsPerCluster ≠ 0
  reservedSectors : g.fatInfo.reservedSectors ≠ 0
  fatCount : g.fatInfo.fatCount ≠ 0

/-- `cd` does not touch what the mount set up. -/
theorem Mounted.move {g : Globals} (h : Mounted g) (c : UInt16) (path : List UInt8) :
    Mounted { g with currentDirCluster := c, currentPath := path } :=
  ⟨h.initialized, h.bytesPerSector, h.fatStart, h.rootDir, h.dataStart⟩

theorem Geometry.move {g : Globals} (h : Geometry g) (c : UInt16) (path : List UInt8) :
    Geometry { g with currentDirCluster := c, currentPath := path } :=
  ⟨h.toMounted.move c path, h.sectorsPerCluster, h.reservedSectors, h.fatCount⟩

/-- The sectors of the volume. -/
def Bpb.totalSectors (b : Bpb) : ℕ :=
  if b.totalSectors16 = 0 then b.totalSectors32 else b.totalSectors16.toNat

/-- A cluster of the data area: it has a FAT entry, its sectors lie inside the volume, and its number is
neither reserved nor a mark. -/
def IsData (g : Globals) (c : UInt16) : Prop :=
  2 ≤ c.toNat ∧ c.toNat < 0xFFF0 ∧ c.toNat < 256 * g.fatInfo.fatSize16.toNat ∧
    c.toNat < 2 + (g.fatInfo.totalSectors - g.dataStartSector) / g.fatInfo.sectorsPerCluster.toNat

/-- The first sector of a cluster. -/
def clusterLba (g : Globals) (c : UInt16) : ℕ :=
  g.dataStartSector + (c.toNat - 2) * g.fatInfo.sectorsPerCluster.toNat

section Layout

variable {g : Globals} {c x y : UInt16}

theorem dataRange (g : Globals) : DataRange (IsData g) := by
  intro c hc
  obtain ⟨h2, hlt, -, -⟩ := hc
  rw [UInt16.le_iff_toNat_le, UInt16.lt_iff_toNat_lt]
  exact ⟨h2, by rw [show (0xFFF8 : UInt16).toNat = 0xFFF8 from rfl]; omega⟩

theorem Geometry.spc_pos (h : Geometry g) : 0 < g.fatInfo.sectorsPerCluster.toNat := by
  rw [Nat.pos_iff_ne_zero]
  intro h0
  exact h.sectorsPerCluster (UInt8.toNat_inj.mp h0)

theorem Geometry.fatCount_pos (h : Geometry g) : 0 < g.fatInfo.fatCount.toNat := by
  rw [Nat.pos_iff_ne_zero]
  intro h0
  exact h.fatCount (UInt8.toNat_inj.mp h0)

theorem Geometry.not_faults (h : Geometry g) (c : UInt16) : ¬ faults g c := by
  rw [faults]
  split
  · exact h.bytesPerSector
  · exact h.spc_pos.ne'

theorem Mounted.fatStart_lt (h : Mounted g) : g.fatStartSector < 65536 := by
  rw [h.fatStart]
  exact UInt16.toNat_lt _

/-- The first copy of the FAT ends where the root directory starts, or before. -/
theorem Geometry.fat_le_rootDir (h : Geometry g) :
    g.fatStartSector + g.fatInfo.fatSize16.toNat ≤ g.rootDirSector := by
  have := Nat.le_mul_of_pos_left g.fatInfo.fatSize16.toNat h.fatCount_pos
  rw [h.rootDir]
  omega

theorem Mounted.rootDir_le (h : Mounted g) : g.rootDirSector ≤ g.dataStartSector := by
  rw [h.dataStart]
  omega

theorem Bpb.rootDirSectors_lt (b : Bpb) : b.rootDirSectors < 2 ^ 21 := by
  have h1 : b.rootDirEntries.toNat < 65536 := UInt16.toNat_lt _
  have h2 : b.rootDirSectors ≤ b.rootDirEntries.toNat * 32 := Nat.div_le_self _ _
  omega

theorem Mounted.dataStart_lt (h : Mounted g) : g.dataStartSector < 2 ^ 25 := by
  have h1 : g.fatInfo.fatCount.toNat < 256 := UInt8.toNat_lt _
  have h2 : g.fatInfo.fatSize16.toNat < 65536 := UInt16.toNat_lt _
  have h3 : g.fatInfo.fatCount.toNat * g.fatInfo.fatSize16.toNat ≤ 255 * 65535 :=
    Nat.mul_le_mul (by omega) (by omega)
  have h4 := h.fatStart_lt
  have h5 := g.fatInfo.rootDirSectors_lt
  rw [h.dataStart, h.rootDir]
  omega

/-- The sectors of a cluster lie behind the root directory and within the reach of the driver. -/
theorem Mounted.cluster_lt (h : Mounted g) (c : UInt16) {off : ℕ}
    (hoff : off < g.fatInfo.sectorsPerCluster.toNat) : clusterLba g c + off < lbaSpace := by
  have h1 := h.dataStart_lt
  have h2 : g.fatInfo.sectorsPerCluster.toNat < 256 := UInt8.toNat_lt _
  have h3 : c.toNat < 65536 := UInt16.toNat_lt _
  have h4 : (c.toNat - 2) * g.fatInfo.sectorsPerCluster.toNat ≤ 65535 * 255 :=
    Nat.mul_le_mul (by omega) (by omega)
  rw [clusterLba, lbaSpace]
  omega

theorem dataStart_le_clusterLba (g : Globals) (c : UInt16) : g.dataStartSector ≤ clusterLba g c :=
  Nat.le_add_right _ _

/-- `fat_lba_of_cluster` does not wrap from cluster 2 on. -/
theorem Mounted.fatLbaOfCluster_eq (h : Mounted g) (hc : 2 ≤ c.toNat) :
    fatLbaOfCluster g c = clusterLba g c := by
  have h1 := h.dataStart_lt
  have h2 : g.fatInfo.sectorsPerCluster.toNat < 256 := UInt8.toNat_lt _
  have h3 : c.toNat < 65536 := UInt16.toNat_lt _
  have h4 : (c.toNat - 2) * g.fatInfo.sectorsPerCluster.toNat ≤ 65535 * 255 :=
    Nat.mul_le_mul (by omega) (by omega)
  have hcast : ((g.dataStartSector : ℤ) + ((c.toNat : ℤ) - 2) * g.fatInfo.sectorsPerCluster.toNat)
      = ((clusterLba g c : ℕ) : ℤ) := by
    rw [clusterLba]
    push_cast [Nat.cast_sub hc]
    ring
  rw [fatLbaOfCluster, hcast, Int.emod_eq_of_lt (by omega) (by rw [clusterLba]; omega),
    Int.toNat_natCast]

/-- **Sectors of different clusters are different.** -/
theorem clusterLba_inj {i j : ℕ} (hx : 2 ≤ x.toNat) (hy : 2 ≤ y.toNat)
    (hi : i < g.fatInfo.sectorsPerCluster.toNat) (hj : j < g.fatInfo.sectorsPerCluster.toNat)
    (h : clusterLba g x + i = clusterLba g y + j) : x = y ∧ i = j := by
  have hpos : 0 < g.fatInfo.sectorsPerCluster.toNat := by omega
  have heq : i + g.fatInfo.sectorsPerCluster.toNat * (x.toNat - 2) =
      j + g.fatInfo.sectorsPerCluster.toNat * (y.toNat - 2) := by
    rw [clusterLba, clusterLba, Nat.mul_comm (x.toNat - 2), Nat.mul_comm (y.toNat - 2)] at h
    omega
  have hdiv := congrArg (· / g.fatInfo.sectorsPerCluster.toNat) heq
  have hmod := congrArg (· % g.fatInfo.sectorsPerCluster.toNat) heq
  simp only [Nat.add_mul_div_left _ _ hpos, Nat.div_eq_of_lt hi, Nat.div_eq_of_lt hj] at hdiv
  simp only [Nat.add_mul_mod_self_left, Nat.mod_eq_of_lt hi, Nat.mod_eq_of_lt hj] at hmod
  exact ⟨UInt16.toNat_inj.mp (by omega), hmod⟩

end Layout

/-! ### Writes and where they are seen -/

section Writes

variable {g : Globals} {d : Disk} {c x : UInt16} {v : UInt16}

theorem get_put {lba lba' : ℕ} (s : Sector) (h : lba < lbaSpace) (h' : lba' < lbaSpace) :
    (d.put lba s).get lba' = if lba' = lba then s else d.get lba' := by
  by_cases heq : lba' = lba
  · rw [if_pos heq, heq, Disk.get_put_same]
  · rw [if_neg heq, Disk.get_put_of_ne]
    rwa [Nat.mod_eq_of_lt h, Nat.mod_eq_of_lt h']

theorem Mounted.fatSector_lt (h : Mounted g) (c : UInt16) : fatSector g c < lbaSpace := by
  have h1 := h.fatStart_lt
  have h2 : c.toNat < 65536 := UInt16.toNat_lt _
  rw [fatSector, lbaSpace]
  omega

theorem entOffset_eq (c : UInt16) : entOffset c = 2 * (c.toNat % 256) := by
  rw [entOffset]
  omega

theorem fatSector_eq (g : Globals) (c : UInt16) : fatSector g c = g.fatStartSector + c.toNat / 256 := by
  rw [fatSector]
  omega

theorem get_congr (d : Disk) {lba lba' : ℕ} (h : lba' % lbaSpace = lba % lbaSpace) :
    d.get lba' = d.get lba := by
  rw [Disk.get, Disk.get, h]

/-- Two entries with the same place in the same sector are one entry, wherever the FAT starts. -/
theorem entry_place_inj (hs : fatSector g x % lbaSpace = fatSector g c % lbaSpace)
    (ho : x.toNat % 256 = c.toNat % 256) : x = c := by
  have hx : x.toNat < 65536 := UInt16.toNat_lt x
  have hc : c.toNat < 65536 := UInt16.toNat_lt c
  rw [fatSector_eq, fatSector_eq, lbaSpace] at hs
  exact UInt16.toNat_inj.mp (by omega)

/-- **The FAT is an array**, on every disk and wherever it starts. -/
theorem fatEntry_setFatEntry (g : Globals) (d : Disk) (c x v : UInt16) :
    fatEntry g (setFatEntry g d c v) x = if x = c then v else fatEntry g d x := by
  rw [fatEntry, setFatEntry]
  by_cases hx : x = c
  · rw [if_pos hx, hx, Disk.get_put_same]
    exact u16At_putU16_same _ v (by rw [entOffset_eq]; omega)
  · rw [if_neg hx, fatEntry]
    by_cases hs : fatSector g x % lbaSpace = fatSector g c % lbaSpace
    · have hoff : c.toNat % 256 ≠ x.toNat % 256 := fun ho => hx (entry_place_inj hs ho.symm)
      rw [get_congr _ hs, get_congr d hs, Disk.get_put_same, entOffset_eq, entOffset_eq,
        u16At_putU16_of_ne _ v (by omega) hoff]
    · rw [Disk.get_put_of_ne _ _ hs]

/-- An entry of the first FAT lies in front of the root directory. -/
theorem Geometry.fatSector_lt_rootDir (h : Geometry g)
    (hc : c.toNat < 256 * g.fatInfo.fatSize16.toNat) : fatSector g c < g.rootDirSector := by
  have := h.fat_le_rootDir
  rw [fatSector]
  omega

/-- A write behind the FAT leaves its entries alone. -/
theorem Geometry.fatEntry_put (h : Geometry g) (s : Sector) {lba : ℕ}
    (hlba : g.rootDirSector ≤ lba) (hlt : lba < lbaSpace)
    (hx : x.toNat < 256 * g.fatInfo.fatSize16.toNat) :
    fatEntry g (d.put lba s) x = fatEntry g d x := by
  have := h.fatSector_lt_rootDir hx
  rw [fatEntry, fatEntry, get_put s hlt (h.fatSector_lt x), if_neg (by omega)]

/-- An entry of the first FAT is set in front of the root directory. -/
theorem Geometry.get_setFatEntry (h : Geometry g)
    (hc : c.toNat < 256 * g.fatInfo.fatSize16.toNat) (v : UInt16) {lba : ℕ}
    (hlba : g.rootDirSector ≤ lba) (hlt : lba < lbaSpace) :
    (setFatEntry g d c v).get lba = d.get lba := by
  have := h.fatSector_lt_rootDir hc
  rw [setFatEntry, get_put _ (h.fatSector_lt c) hlt, if_neg (by omega)]

theorem Geometry.clusterLba_lt (h : Geometry g) (c : UInt16) : clusterLba g c < lbaSpace :=
  h.cluster_lt c h.spc_pos

theorem Geometry.rootDir_le_clusterLba (h : Geometry g) (c : UInt16) :
    g.rootDirSector ≤ clusterLba g c :=
  le_trans h.rootDir_le (dataStart_le_clusterLba g c)

/-- Behind the FAT a new directory is seen in the first sector of its cluster only. -/
theorem Geometry.get_withNewDir (h : Geometry g) (h2 : 2 ≤ c.toNat)
    (hfat : c.toNat < 256 * g.fatInfo.fatSize16.toNat) {lba : ℕ} (hlo : g.rootDirSector ≤ lba)
    (hhi : lba < lbaSpace) :
    (withNewDir g d c).get lba =
      if lba = clusterLba g c then dotSector c g.currentDirCluster else d.get lba := by
  rw [withNewDir, h.fatLbaOfCluster_eq h2, get_put _ (h.clusterLba_lt c) hhi,
    h.get_setFatEntry hfat _ hlo hhi]

/-- In the FAT it is seen in its own entry only. -/
theorem Geometry.fatEntry_withNewDir (h : Geometry g) (h2 : 2 ≤ c.toNat)
    (hx : x.toNat < 256 * g.fatInfo.fatSize16.toNat) :
    fatEntry g (withNewDir g d c) x = if x = c then 0xFFFF else fatEntry g d x := by
  rw [withNewDir, h.fatLbaOfCluster_eq h2,
    h.fatEntry_put _ (h.rootDir_le_clusterLba c) (h.clusterLba_lt c) hx, fatEntry_setFatEntry]

end Writes

/-! ### Directories and chains -/

/-- The volume on a disk. -/
def volume (g : Globals) (d : Disk) : Volume := ⟨fatEntry g d, dirSlot g d⟩

/-- **A well-formed mounted volume.** -/
structure FsOk (g : Globals) (d : Disk) : Prop where
  geometry : Geometry g
  tree : WellFormed (volume g d) (IsData g) g.currentDirCluster

/-- Chains of data clusters on the disk. -/
abbrev DiskChain (g : Globals) (d : Disk) (c : UInt16) (l : List UInt16) : Prop :=
  Chain (fatEntry g d) (IsData g) c l

section Directories

variable {g : Globals} {d d' : Disk} {c : UInt16} {l : List UInt16}

theorem walk_chain (h : DiskChain g d c l) (n : ℕ) : walk g d n c = l[n]? := by
  have hmark : ∀ z, IsData g z → ¬ z ≥ 0xFFF8 := fun z hz => UInt16.not_le.mpr (dataRange g z hz).2
  induction h generalizing n with
  | last hd hend =>
    cases n with
    | zero =>
      rw [walk, if_neg (hmark _ hd)]
      rfl
    | succ n =>
      rw [walk, if_neg (hmark _ hd)]
      cases n with
      | zero =>
        rw [walk, if_pos hend]
        rfl
      | succ n =>
        rw [walk, if_pos hend]
        rfl
  | link hd _ ih =>
    cases n with
    | zero =>
      rw [walk, if_neg (hmark _ hd)]
      rfl
    | succ n =>
      rw [walk, if_neg (hmark _ hd), ih n]
      rfl

/-- **The sectors of a subdirectory** are those of the clusters of its chain, in order. -/
theorem dirLba_chain (hg : Mounted g) (h : DiskChain g d c l) (i : ℕ) :
    dirLba g d c i = (l[i / g.fatInfo.sectorsPerCluster.toNat]?).map fun x =>
      clusterLba g x + i % g.fatInfo.sectorsPerCluster.toNat := by
  have h0 : c ≠ 0 := (dataRange g).ne_zero h.head_data
  rw [dirLba, if_neg h0, walk_chain h]
  cases hx : l[i / g.fatInfo.sectorsPerCluster.toNat]? with
  | none => rfl
  | some x =>
    have hmem : x ∈ l := List.mem_of_getElem? hx
    rw [Option.map_some, Option.map_some, hg.fatLbaOfCluster_eq (h.data_of_mem hmem).1]

theorem dirLba_root (i : ℕ) : dirLba g d 0 i =
    if g.fatInfo.rootDirSectors ≤ i then none else some (g.rootDirSector + i) := by
  rw [dirLba, if_pos rfl]

/-- A root directory of one sector. -/
theorem dirSlot_root_single (hsectors : g.fatInfo.rootDirSectors = 1) {n : ℕ} {e : DirEntry}
    (h : dirSlot g d 0 n = some e) : n < 16 ∧ e = entryAt (d.get g.rootDirSector) n := by
  rw [dirSlot, dirLba_root, hsectors] at h
  split at h
  · cases h
  · have hn : n / 16 = 0 := by omega
    rw [hn, Option.map_some, Nat.mod_eq_of_lt (show n < 16 from by omega)] at h
    exact ⟨by omega, (Option.some.inj h).symm⟩

/-- A sector of a chain's directory, by cluster and offset. -/
theorem dirLba_chain_some (hg : Geometry g) (h : DiskChain g d c l) {i lba : ℕ}
    (hlba : dirLba g d c i = some lba) :
    ∃ x, l[i / g.fatInfo.sectorsPerCluster.toNat]? = some x ∧ x ∈ l ∧
      lba = clusterLba g x + i % g.fatInfo.sectorsPerCluster.toNat := by
  rw [dirLba_chain hg.toMounted h] at hlba
  obtain ⟨x, hx, rfl⟩ := Option.map_eq_some_iff.mp hlba
  exact ⟨x, hx, List.mem_of_getElem? hx, rfl⟩

theorem dirLba_congr (hg : Mounted g) (h : DiskChain g d c l)
    (hfat : ∀ x ∈ l, fatEntry g d' x = fatEntry g d x) (i : ℕ) :
    dirLba g d' c i = dirLba g d c i := by
  rw [dirLba_chain hg h, dirLba_chain hg (h.congr hfat)]

theorem dirSlot_congr (hlba : ∀ i, dirLba g d' c i = dirLba g d c i)
    (hget : ∀ i lba, dirLba g d c i = some lba → d'.get lba = d.get lba) (n : ℕ) :
    dirSlot g d' c n = dirSlot g d c n := by
  rw [dirSlot, dirSlot, hlba]
  cases h : dirLba g d c (n / 16) with
  | none => rfl
  | some lba => rw [Option.map_some, Option.map_some, hget _ _ h]

/-- Directories are at most as long as the FAT is. -/
theorem dirLba_chain_none (hg : Geometry g) (h : DiskChain g d c l) :
    dirLba g d c (l.length * g.fatInfo.sectorsPerCluster.toNat) = none := by
  rw [dirLba_chain hg.toMounted h, Nat.mul_div_cancel _ hg.spc_pos,
    List.getElem?_eq_none le_rfl]
  rfl

/-- A chain is shorter than the range of cluster numbers. -/
theorem DiskChain.length_lt (h : DiskChain g d c l) : l.length < 65536 := by
  have hnodup := (h.nodup (dataRange g)).map (f := UInt16.toNat) fun a b hab => UInt16.toNat_inj.mp hab
  have hsub : l.map UInt16.toNat ⊆ List.range 65535 := by
    intro n hn
    obtain ⟨x, hx, rfl⟩ := List.mem_map.mp hn
    have := (h.data_of_mem hx).2.1
    exact List.mem_range.mpr (by omega)
  have hle := (List.Nodup.subperm hnodup hsub).length_le
  rw [List.length_map, List.length_range] at hle
  omega

variable {dir parent dir' parent' : UInt16}

/-- The sectors of a directory are those of the root or those of a chain. -/
theorem FsOk.dir_cases (h : FsOk g d) (hdir : Dir (volume g d) dir parent) :
    dir = 0 ∨ ∃ n e l, Entry (volume g d) parent n e ∧ isDirectory e = true ∧
      e.firstClusterLow = dir ∧ DiskChain g d dir l := by
  by_cases h0 : dir = 0
  · exact Or.inl h0
  · exact Or.inr (h.tree.dir_entry hdir h0)

/-- The root, or a chain of data clusters. -/
def ValidDir (g : Globals) (d : Disk) (c : UInt16) : Prop := c = 0 ∨ ∃ l, DiskChain g d c l

theorem FsOk.validDir (h : FsOk g d) (hdir : Dir (volume g d) dir parent) : ValidDir g d dir := by
  cases h.dir_cases hdir with
  | inl h0 => exact Or.inl h0
  | inr hsub =>
    obtain ⟨n, e, l, -, -, -, hl⟩ := hsub
    exact Or.inr ⟨l, hl⟩

/-- Every such directory ends, within the fuel. -/
theorem Geometry.dir_ends (hg : Geometry g) (hdir : ValidDir g d dir) :
    ∃ last, last < 2 ^ 24 ∧ dirLba g d dir last = none := by
  cases hdir with
  | inl h0 =>
    refine ⟨g.fatInfo.rootDirSectors, ?_, by rw [h0, dirLba_root, if_pos le_rfl]⟩
    have := g.fatInfo.rootDirSectors_lt
    omega
  | inr hsub =>
    obtain ⟨l, hl⟩ := hsub
    refine ⟨_, ?_, dirLba_chain_none hg hl⟩
    have h1 := hl.length_lt
    have h2 : g.fatInfo.sectorsPerCluster.toNat < 256 := UInt8.toNat_lt _
    calc l.length * g.fatInfo.sectorsPerCluster.toNat
        ≤ 65535 * 255 := Nat.mul_le_mul (by omega) (by omega)
      _ < 2 ^ 24 := by decide

/-- Its sectors lie behind the FAT and within the reach of the driver. -/
theorem Geometry.dirLba_region (hg : Geometry g) (hdir : ValidDir g d dir) {i lba : ℕ}
    (hlba : dirLba g d dir i = some lba) : g.rootDirSector ≤ lba ∧ lba < lbaSpace := by
  have hstart := hg.dataStart_lt
  have hroot := hg.rootDir_le
  cases hdir with
  | inl h0 =>
    rw [h0, dirLba_root] at hlba
    split at hlba
    · cases hlba
    · cases hlba
      have := hg.dataStart
      rw [lbaSpace]
      omega
  | inr hsub =>
    obtain ⟨l, hl⟩ := hsub
    obtain ⟨x, -, -, rfl⟩ := dirLba_chain_some hg hl hlba
    have := dataStart_le_clusterLba g x
    exact ⟨by omega, hg.cluster_lt x (Nat.mod_lt _ hg.spc_pos)⟩

/-- The sectors of a directory of the tree end, within the fuel. -/
theorem FsOk.dir_ends (h : FsOk g d) (hdir : Dir (volume g d) dir parent) :
    ∃ last, last < 2 ^ 24 ∧ dirLba g d dir last = none :=
  h.geometry.dir_ends (h.validDir hdir)

/-- They lie behind the FAT and within the reach of the driver. -/
theorem FsOk.dirLba_region (h : FsOk g d) (hdir : Dir (volume g d) dir parent) {i lba : ℕ}
    (hlba : dirLba g d dir i = some lba) : g.rootDirSector ≤ lba ∧ lba < lbaSpace :=
  h.geometry.dirLba_region (h.validDir hdir) hlba

/-- A sector of a directory that is also a sector of cluster `y` belongs to a chain with `y` in it. -/
theorem FsOk.dirLba_cluster (h : FsOk g d) (hdir : Dir (volume g d) dir parent) {i off : ℕ}
    {y : UInt16} (hy : 2 ≤ y.toNat) (hoff : off < g.fatInfo.sectorsPerCluster.toNat)
    (hlba : dirLba g d dir i = some (clusterLba g y + off)) :
    ∃ n e l, Entry (volume g d) parent n e ∧ e.firstClusterLow = dir ∧ DiskChain g d dir l ∧
      l[i / g.fatInfo.sectorsPerCluster.toNat]? = some y ∧
      off = i % g.fatInfo.sectorsPerCluster.toNat := by
  cases h.dir_cases hdir with
  | inl h0 =>
    rw [h0, dirLba_root] at hlba
    split at hlba
    · cases hlba
    · have := h.geometry.dataStart
      have := dataStart_le_clusterLba g y
      have heq := Option.some.inj hlba
      omega
  | inr hsub =>
    obtain ⟨n, e, l, hentry, -, hfc, hl⟩ := hsub
    obtain ⟨x, hx, hmem, heq⟩ := dirLba_chain_some h.geometry hl hlba
    obtain ⟨rfl, rfl⟩ := clusterLba_inj hy (hl.data_of_mem hmem).1 hoff
      (Nat.mod_lt _ h.geometry.spc_pos) heq
    exact ⟨n, e, l, hentry, hfc, hl, hx, rfl⟩

/-- No two sectors of a directory coincide. -/
theorem Geometry.dirLba_inj (hg : Geometry g) (hdir : ValidDir g d dir) {i j lba : ℕ}
    (hi : dirLba g d dir i = some lba) (hj : dirLba g d dir j = some lba) : i = j := by
  cases hdir with
  | inl h0 =>
    rw [h0, dirLba_root] at hi hj
    split at hi
    · cases hi
    · split at hj
      · cases hj
      · have heq := (Option.some.inj hi).trans (Option.some.inj hj).symm
        omega
  | inr hsub =>
    obtain ⟨l, hl⟩ := hsub
    obtain ⟨x, hx, hxl, hxlba⟩ := dirLba_chain_some hg hl hi
    obtain ⟨y, hy, hyl, hylba⟩ := dirLba_chain_some hg hl hj
    obtain ⟨rfl, hmod⟩ := clusterLba_inj (hl.data_of_mem hxl).1 (hl.data_of_mem hyl).1
      (Nat.mod_lt _ hg.spc_pos) (Nat.mod_lt _ hg.spc_pos) (hxlba.symm.trans hylba)
    have hdiv := (List.getElem?_inj (List.getElem?_eq_some_iff.mp hx).1 (hl.nodup (dataRange g))).mp
      (hx.trans hy.symm)
    rw [← Nat.div_add_mod i g.fatInfo.sectorsPerCluster.toNat, hmod, hdiv, Nat.div_add_mod]

/-- **No two directory sectors of the tree coincide.** -/
theorem FsOk.dirLba_inj (h : FsOk g d) (hdir : Dir (volume g d) dir parent)
    (hdir' : Dir (volume g d) dir' parent') {i j lba : ℕ} (hlba : dirLba g d dir i = some lba)
    (hlba' : dirLba g d dir' j = some lba) : dir = dir' ∧ i = j := by
  have hsame : dir = dir' := by
    cases h.dir_cases hdir' with
    | inl h0' =>
      cases h.dir_cases hdir with
      | inl h0 => rw [h0, h0']
      | inr hsub =>
        -- the clusters lie behind the root directory
        obtain ⟨n, e, l, -, -, -, hl⟩ := hsub
        obtain ⟨x, -, -, heq⟩ := dirLba_chain_some h.geometry hl hlba
        have := dataStart_le_clusterLba g x
        have := h.geometry.dataStart
        rw [h0', dirLba_root] at hlba'
        split at hlba'
        · cases hlba'
        · have heq' := Option.some.inj hlba'
          omega
    | inr hsub' =>
      obtain ⟨n', e', l', hentry', -, hfc', hl'⟩ := hsub'
      obtain ⟨y, -, hmem', rfl⟩ := dirLba_chain_some h.geometry hl' hlba'
      obtain ⟨n, e, l, hentry, hfc, hl, hx, -⟩ :=
        h.dirLba_cluster hdir (hl'.data_of_mem hmem').1 (Nat.mod_lt j h.geometry.spc_pos) hlba
      have hmem : y ∈ l := List.mem_of_getElem? hx
      -- the shared cluster makes the two naming entries one
      by_contra hne
      have hpos : parent ≠ parent' ∨ n ≠ n' := by
        by_contra hboth
        push Not at hboth
        obtain ⟨rfl, rfl⟩ := hboth
        exact hne (by rw [← hfc, ← hfc', hentry.live.unique hentry'.live])
      exact h.tree.disjoint hentry hentry' (hfc.symm ▸ hl) (hfc'.symm ▸ hl') hpos hmem hmem'
  subst hsame
  exact ⟨rfl, h.geometry.dirLba_inj (h.validDir hdir) hlba hlba'⟩

/-- **One slot of one sector was written**: of a directory that has the sector as that of slot `n`, if it has it
at all, no other slot changed. -/
theorem dirSlot_update {P : Prop} [Decidable P] {n lba : ℕ} {e' : DirEntry}
    (hlba : ∀ i, dirLba g d' dir i = dirLba g d dir i)
    (hget : ∀ i lba', dirLba g d dir i = some lba' →
      d'.get lba' = if lba' = lba then putEntry (d.get lba) (n % 16) e' else d.get lba')
    (hsector : ∀ i, dirLba g d dir i = some lba ↔ P ∧ i = n / 16) (m : ℕ) :
    dirSlot g d' dir m = if P ∧ m = n then some e' else dirSlot g d dir m := by
  rw [dirSlot, dirSlot, hlba]
  by_cases hm : dirLba g d dir (m / 16) = some lba
  · obtain ⟨hP, hdiv⟩ := (hsector _).mp hm
    rw [hm, Option.map_some, Option.map_some, hget _ lba hm, if_pos rfl]
    by_cases hk : m % 16 = n % 16
    · rw [if_pos ⟨hP, by omega⟩, hk, entryAt_putEntry_same _ _ (by omega)]
    · rw [if_neg (fun hmn => hk (by rw [hmn.2])), entryAt_putEntry_of_ne _ _ (by omega) hk]
  · have hne : ¬ (P ∧ m = n) := fun h => hm ((hsector _).mpr ⟨h.1, by rw [h.2]⟩)
    rw [if_neg hne]
    cases hlba' : dirLba g d dir (m / 16) with
    | none => rfl
    | some lba' =>
      have hother : lba' ≠ lba := fun heq => hm (by rw [hlba', heq])
      rw [Option.map_some, Option.map_some, hget _ lba' hlba', if_neg hother]

end Directories

/-! ### A small volume -/

/-- A boot sector: 512 bytes per sector, one sector per cluster, one reserved sector, two FATs of one
sector, 16 root entries and 64 sectors. -/
def smallBootSector : Sector := fun i =>
  match i.val with
  | 12 => 2
  | 13 => 1
  | 14 => 1
  | 16 => 2
  | 17 => 16
  | 19 => 64
  | 22 => 1
  | _ => 0

/-- The disk with this boot sector and nothing on it. -/
def smallDisk : Disk := fun lba => if lba = 0 then smallBootSector else fun _ => 0

/-- The globals before `mount`. -/
def unmounted : Globals := ⟨Bpb.parse fun _ => 0, 0, 0, 0, 0, text "/", false⟩

/-- The globals after `mount` on the small disk. -/
def smallVolume : Globals := ⟨Bpb.parse smallBootSector, 1, 3, 4, 0, text "/", true⟩

example : execute (fun _ => 0) (fatInit unmounted) smallDisk = some (smallVolume, smallDisk) := rfl

theorem geometry_smallVolume : Geometry smallVolume :=
  ⟨⟨rfl, by decide, rfl, rfl, rfl⟩, by decide, by decide, by decide⟩

theorem smallDisk_root {n : ℕ} {e : DirEntry} (h : dirSlot smallVolume smallDisk 0 n = some e) :
    e.name 0 = 0x00 := by
  rw [(dirSlot_root_single rfl h).2]
  rfl

/-- A volume with an empty root directory is well formed. -/
theorem fsOk_of_empty_root {g : Globals} {d : Disk} (hg : Geometry g) (hcwd : g.currentDirCluster = 0)
    (hroot : ∀ n e, dirSlot g d 0 n = some e → e.name 0 = 0x00) : FsOk g d := by
  have hempty : ∀ n e, ¬ Live (volume g d) 0 n e := fun n e hlive => hlive.2.1 (hroot n e hlive.1)
  refine ⟨hg, ?_⟩
  rw [hcwd]
  exact wellFormed_of_flat (fun n e h => absurd h (hempty n e)) (fun n e h => absurd h (hempty n e))
    (fun n e _ _ _ _ h => absurd h (hempty n e))

theorem fsOk_small : FsOk smallVolume smallDisk :=
  fsOk_of_empty_root geometry_smallVolume rfl fun _ _ => smallDisk_root

end OsEojin.Fat
