import OsEojin.FatMkdir

/-!
# What the allocation takes

`fat_allocate_cluster` scans the words of the FAT from number 2 on, through all the sectors the FAT has, and
takes the first one that is zero.  A FAT of whole sectors has words behind the last cluster of the volume;
nothing keeps the scan away from them.

* `OnlyEntrySet`: one FAT entry is set and no other byte of the disk;
* `fat_entries_are_an_array`: the FAT entries as an array, with no assumption about the volume;
* `first_free_allocation`: the least free number is taken, its entry is set, and that is all;
* `ClusterExists`: the number of a cluster of the volume;
* `allocated_clusters_exist`: along a run of `mkdir` the clusters taken are such, exactly as long as one of
  them is free or no word of the FAT is.
-/

namespace OsEojin.Fat

open OsEojin.Lib.Programs OsEojin.Lib.Runs OsEojin.Ata OsEojin.Shell

variable {junk : Sector} {g : Globals} {d d' : Disk}

/-! ### One entry, byte for byte -/

/-- `d'` is `d` with the two bytes of one FAT entry set. -/
def OnlyEntrySet (g : Globals) (d d' : Disk) (c v : UInt16) : Prop :=
  ∀ (lba : ℕ) (i : Fin 512), d' lba i =
    if lba = fatSector g c ∧ i.val = entOffset c then lo8 v
    else if lba = fatSector g c ∧ i.val = entOffset c + 1 then hi8 v
    else d lba i

/-- The disk after a FAT entry was set, byte by byte; an address is cut to the driver's 28 bits. -/
theorem setFatEntry_apply (g : Globals) (d : Disk) (c v : UInt16) (lba : ℕ) (i : Fin 512) :
    setFatEntry g d c v lba i =
      if lba = fatSector g c % lbaSpace ∧ i.val = entOffset c then lo8 v
      else if lba = fatSector g c % lbaSpace ∧ i.val = entOffset c + 1 then hi8 v
      else d lba i := by
  rw [setFatEntry, Disk.put, Disk.get]
  by_cases hlba : lba = fatSector g c % lbaSpace
  · rw [hlba, Function.update_self, putU16]
    simp only [true_and]
  · rw [Function.update_of_ne hlba, if_neg fun h => hlba h.1, if_neg fun h => hlba h.1]

theorem Mounted.onlyEntrySet (h : Mounted g) (d : Disk) (c v : UInt16) :
    OnlyEntrySet g d (setFatEntry g d c v) c v := by
  intro lba i
  rw [setFatEntry_apply, Nat.mod_eq_of_lt (h.fatSector_lt c)]

/-- **FAT entries are an array.**  On every disk and wherever the FAT starts, `fat_write_fat_entry(c, v)` comes
back; then `fat_next_cluster(c)` answers `v`, every other number is answered as before, and the only bytes of
the disk that may differ are the two of entry `c`. -/
theorem fat_entries_are_an_array (junk : Sector) (g : Globals) (d : Disk) (c v : UInt16) :
    ∃ d', execute junk (fatWriteFatEntry g c v) d = some ((), d') ∧
      execute junk (fatNextCluster g c) d' = some (v, d') ∧
      (∀ x, x ≠ c → ∃ w, execute junk (fatNextCluster g x) d = some (w, d) ∧
        execute junk (fatNextCluster g x) d' = some (w, d')) ∧
      (∀ lba (i : Fin 512), d' lba i ≠ d lba i →
        lba = (g.fatStartSector + c.toNat / 256) % lbaSpace ∧
          (i.val = 2 * (c.toNat % 256) ∨ i.val = 2 * (c.toNat % 256) + 1)) ∧
      (g.fatStartSector < 65536 →
        (g.fatStartSector + c.toNat / 256) % lbaSpace = g.fatStartSector + c.toNat / 256) := by
  refine ⟨setFatEntry g d c v, execute_fatWriteFatEntry c v, ?_, ?_, ?_, ?_⟩
  · rw [execute_fatNextCluster, fatEntry_setFatEntry, if_pos rfl]
  · intro x hx
    refine ⟨fatEntry g d x, execute_fatNextCluster x, ?_⟩
    rw [execute_fatNextCluster, fatEntry_setFatEntry, if_neg hx]
  · intro lba i hne
    rw [setFatEntry_apply, fatSector_eq, entOffset_eq] at hne
    by_contra hout
    rw [if_neg fun h => hout ⟨h.1, Or.inl h.2⟩, if_neg fun h => hout ⟨h.1, Or.inr h.2⟩] at hne
    exact hne rfl
  · intro hstart
    have hc : c.toNat < 65536 := UInt16.toNat_lt c
    rw [lbaSpace]
    omega

/-- The entries 255 and 256 of the small volume, on both sides of a sector boundary. -/
theorem fat_entries_are_an_array_small :
    ∃ d', execute (fun _ => 0) (fatWriteFatEntry smallVolume 255 0xABCD) smallDisk = some ((), d') ∧
      execute (fun _ => 0) (fatNextCluster smallVolume 255) d' = some (0xABCD, d') ∧
      execute (fun _ => 0) (fatNextCluster smallVolume 256) d' = some (0, d') ∧
      ∀ lba i, d' lba i ≠ smallDisk lba i → lba = 1 ∧ (i = 510 ∨ i = 511) := by
  obtain ⟨d', hwrite, hsame, hother, hbytes, hlba⟩ :=
    fat_entries_are_an_array (fun _ => 0) smallVolume smallDisk 255 0xABCD
  refine ⟨d', hwrite, hsame, ?_, ?_⟩
  · obtain ⟨w, hbefore, hafter⟩ := hother 256 (by decide)
    have h0 : execute (fun _ => 0) (fatNextCluster smallVolume 256) smallDisk = some (0, smallDisk) := rfl
    rw [h0] at hbefore
    cases hbefore
    exact hafter
  · intro lba i hne
    obtain ⟨hsector, hoff⟩ := hbytes lba i hne
    rw [hlba (by decide)] at hsector
    exact ⟨hsector, hoff.imp Fin.ext Fin.ext⟩

/-! ### The least free number -/

/-- The number of a FAT entry that is free, the reserved ones apart. -/
def FreeEntry (g : Globals) (d : Disk) (c : UInt16) : Prop :=
  2 ≤ c.toNat ∧ c.toNat < 256 * g.fatInfo.fatSize16.toNat ∧ fatEntry g d c = 0

/-- The least one. -/
def LeastFree (g : Globals) (d : Disk) (c : UInt16) : Prop :=
  FreeEntry g d c ∧ ∀ x, FreeEntry g d x → c ≤ x

/-- A free entry is a free word of the FAT. -/
theorem FreeEntry.freeWord {c : UInt16} (h : FreeEntry g d c) : FreeWord g d c.toNat := by
  have hlt : c.toNat < 65536 := UInt16.toNat_lt c
  obtain ⟨h2, -, h0⟩ := h
  refine ⟨by omega, ?_⟩
  rw [fatWord_eq_fatEntry hlt, UInt16.ofNat_toNat]
  exact h0

theorem toNat_ofNat_of_lt {k : ℕ} (hk : k < 65536) : (UInt16.ofNat k).toNat = k := by
  rw [UInt16.toNat_ofNat']
  omega

/-- No free word stands before the first one. -/
theorem FirstFree.le_of_freeEntry {k : ℕ} (hk : FirstFree g d k) {c : UInt16} (hc : FreeEntry g d c) :
    k ≤ c.toNat := by
  by_contra hlt
  exact hk.2.2 c.toNat (by omega) hc.freeWord

/-- The first free word, when its number fits into 16 bits, is the least free entry. -/
theorem FirstFree.leastFree {k : ℕ} (hk : FirstFree g d k) (hk16 : k < 65536) :
    LeastFree g d (UInt16.ofNat k) := by
  obtain ⟨h2, hlt⟩ := firstFree_cluster hk
  refine ⟨⟨h2, hlt, ?_⟩, ?_⟩
  · rw [← fatWord_eq_fatEntry hk16]
    exact hk.2.1.2
  · intro x hx
    rw [UInt16.le_iff_toNat_le, toNat_ofNat_of_lt hk16]
    exact hk.le_of_freeEntry hx

/-- **First-free allocation.**  `fat_allocate_cluster` comes back: where an entry is free it returns the least
one, sets that entry and changes no other byte of the disk; where none is, it returns `0` and changes nothing. -/
theorem first_free_allocation (junk : Sector) (g : Globals) (d : Disk) (hm : Mounted g)
    (hsize : g.fatInfo.fatSize16.toNat ≤ 256) :
    ∃ c d', execute junk (fatAllocateCluster g) d = some (c, d') ∧
      ((∃ x, FreeEntry g d x) → LeastFree g d c ∧ OnlyEntrySet g d d' c 0xFFFF) ∧
      ((∀ x, ¬ FreeEntry g d x) → c = 0 ∧ d' = d) := by
  cases execute_fatAllocateCluster junk g d with
  | inl hsome =>
    obtain ⟨k, hk, hexec⟩ := hsome
    have hleast := hk.leastFree (by have := hk.1; omega)
    exact ⟨_, _, hexec, fun _ => ⟨hleast, hm.onlyEntrySet d _ 0xFFFF⟩,
      fun hnone => absurd hleast.1 (hnone _)⟩
  | inr hnone =>
    obtain ⟨hnone, hexec⟩ := hnone
    refine ⟨0, d, hexec, ?_, fun _ => ⟨rfl, rfl⟩⟩
    rintro ⟨x, hx⟩
    exact absurd hx.freeWord (noFreeEntry_iff.mpr hnone x.toNat hx.2.1)

/-- On the small volume, whose FAT is empty. -/
theorem first_free_allocation_small :
    ∃ c d', execute (fun _ => 0) (fatAllocateCluster smallVolume) smallDisk = some (c, d') ∧
      LeastFree smallVolume smallDisk c ∧ OnlyEntrySet smallVolume smallDisk d' c 0xFFFF := by
  obtain ⟨c, d', hexec, hfree, -⟩ :=
    first_free_allocation (fun _ => 0) smallVolume smallDisk geometry_smallVolume.toMounted (by decide)
  exact ⟨c, d', hexec, hfree ⟨2, by decide, by decide, rfl⟩⟩

/-! ### Clusters of the volume -/

/-- The number of a cluster of the volume: the sector `mkdir` writes for it lies inside the volume, and it is
neither reserved nor a mark. -/
structure ClusterExists (g : Globals) (c : UInt16) : Prop where
  low : 2 ≤ c.toNat
  inside : c.toNat < 2 + (g.fatInfo.totalSectors - g.dataStartSector) / g.fatInfo.sectorsPerCluster.toNat
  unmarked : c.toNat < 0xFFF0
  sector : fatLbaOfCluster g c < g.fatInfo.totalSectors

/-- Every non-zero cluster the allocation returns in this state is one of the volume. -/
def AllocatesExisting (junk : Sector) (s : FileSystem) : Prop :=
  ∀ c d', execute junk (fatAllocateCluster s.1) s.2 = some (c, d') → c ≠ 0 → ClusterExists s.1 c

/-- Some cluster of the volume is free. -/
def HasFreeCluster (g : Globals) (d : Disk) : Prop := ∃ c, IsData g c ∧ fatEntry g d c = 0

/-- The words of the FAT behind the last cluster are zero, as formatting leaves them. -/
def FreshTail (g : Globals) (d : Disk) : Prop :=
  ∀ k, 2 + (g.fatInfo.totalSectors - g.dataStartSector) / g.fatInfo.sectorsPerCluster.toNat ≤ k →
    k < 256 * g.fatInfo.fatSize16.toNat → fatWord g d k = 0

/-- The sectors of a data cluster lie inside the volume. -/
theorem Geometry.clusterExists (hg : Geometry g) {c : UInt16} (hc : IsData g c) : ClusterExists g c := by
  obtain ⟨h2, hmark, -, hin⟩ := hc
  refine ⟨h2, hin, hmark, ?_⟩
  rw [hg.fatLbaOfCluster_eq h2, clusterLba]
  have hle : c.toNat - 2 + 1 ≤
      (g.fatInfo.totalSectors - g.dataStartSector) / g.fatInfo.sectorsPerCluster.toNat := by
    omega
  have hmul := (Nat.le_div_iff_mul_le hg.spc_pos).mp hle
  have hpos := hg.spc_pos
  rw [Nat.add_mul, Nat.one_mul] at hmul
  omega

/-- What the allocation returns, when it returns a cluster. -/
theorem firstFree_of_allocated {c : UInt16} (h : execute junk (fatAllocateCluster g) d = some (c, d'))
    (hc : c ≠ 0) : ∃ k, FirstFree g d k ∧ c = UInt16.ofNat k := by
  cases execute_fatAllocateCluster junk g d with
  | inl hsome =>
    obtain ⟨k, hk, hexec⟩ := hsome
    rw [hexec] at h
    cases h
    exact ⟨k, hk, rfl⟩
  | inr hnone =>
    rw [hnone.2] at h
    cases h
    exact absurd rfl hc

/-- **A free cluster keeps the scan inside the volume**: the first free word does not stand behind it. -/
theorem allocatesExisting_of_free (hg : Geometry g) (h : NoFreeEntry g d ∨ HasFreeCluster g d) :
    AllocatesExisting junk (g, d) := by
  intro c d' hexec hc
  obtain ⟨k, hk, rfl⟩ := firstFree_of_allocated hexec hc
  cases h with
  | inl hnone => exact absurd hk.2.1 (hnone k hk.1)
  | inr hfree =>
    obtain ⟨x, hx, h0⟩ := hfree
    have hle := hk.le_of_freeEntry ⟨hx.1, hx.2.2.1, h0⟩
    have hk16 : k < 65536 := lt_of_le_of_lt hle (UInt16.toNat_lt x)
    apply hg.clusterExists
    obtain ⟨h2, hlt⟩ := firstFree_cluster hk
    rw [toNat_ofNat_of_lt hk16] at h2 hlt
    obtain ⟨-, hmark, -, hin⟩ := hx
    rw [IsData, toNat_ofNat_of_lt hk16]
    exact ⟨h2, by omega, hlt, by omega⟩

/-- Without one the scan takes a word behind the last cluster. -/
theorem free_of_allocatesExisting (hk16 : ∀ k, FirstFree g d k → k < 65536)
    (h : AllocatesExisting junk (g, d)) : NoFreeEntry g d ∨ HasFreeCluster g d := by
  by_cases hnone : ∀ k, ¬ FirstFree g d k
  · exact Or.inl (noFreeEntry_iff.mpr hnone)
  · push Not at hnone
    obtain ⟨k, hk⟩ := hnone
    cases execute_fatAllocateCluster junk g d with
    | inr hfull => exact absurd hk (hfull.1 k)
    | inl hsome =>
      obtain ⟨k', hk', hexec⟩ := hsome
      have hin := h _ _ hexec (ofNat_ne_zero hk'.2.1.1)
      obtain ⟨-, hlt, h0⟩ := (hk'.leastFree (hk16 k' hk')).1
      exact Or.inr ⟨UInt16.ofNat k', ⟨hin.low, hin.unmarked, hlt, hin.inside⟩, h0⟩

/-! ### Runs of `mkdir` -/

/-- `mkdir` leaves the globals alone. -/
theorem mkdir_run_globals {fuel : ℕ} (ws : List Word) {s s' : FileSystem}
    (h : runOption (step junk fuel) s (ws.map Command.mkdir) = some s') : s'.1 = s.1 := by
  refine runOption_keeps (C := fun _ c => ∃ w, c = Command.mkdir w) (I := fun t => t.1 = s.1) ?_ rfl
    (admitsOption_of_mem _ ?_ s) h
  · rintro t c t' ht ⟨w, rfl⟩ hstep
    rw [step_mkdir] at hstep
    obtain ⟨r, -, rfl⟩ := Option.map_eq_some_iff.mp hstep
    exact ht
  · intro c hc _
    obtain ⟨w, -, rfl⟩ := List.mem_map.mp hc
    exact ⟨w, rfl⟩

/-- **Allocated clusters exist** as long as there are any.  In every state that a sequence of `mkdir` commands
reaches on a mounted volume, the cluster allocated next is one of the volume when some cluster of the volume is
free or no word of the FAT is; and, unless the number of the first free word does not fit into 16 bits, only
then. -/
theorem allocated_clusters_exist (junk : Sector) (fuel : ℕ) (s : FileSystem) (hg : Geometry s.1)
    (ws : List Word) (s' : FileSystem)
    (hrun : runOption (step junk fuel) s (ws.map Command.mkdir) = some s') :
    (NoFreeEntry s'.1 s'.2 ∨ HasFreeCluster s'.1 s'.2 → AllocatesExisting junk s') ∧
      ((∀ k, FirstFree s'.1 s'.2 k → k < 65536) → AllocatesExisting junk s' →
        NoFreeEntry s'.1 s'.2 ∨ HasFreeCluster s'.1 s'.2) := by
  have hg' : Geometry s'.1 := by
    rw [mkdir_run_globals ws hrun]
    exact hg
  exact ⟨allocatesExisting_of_free hg', free_of_allocatesExisting⟩

/-- After `mkdir d` and `mkdir .` on the small volume. -/
theorem allocated_clusters_exist_small :
    ∃ s', runOption (step (fun _ => 0) 64) (smallVolume, smallDisk) ([wordD, wordDot].map Command.mkdir) = some s' ∧
      fatEntry smallVolume s'.2 3 = 0xFFFF ∧ AllocatesExisting (fun _ => 0) s' := by
  have hrun : (runOption (step (fun _ => 0) 64) (smallVolume, smallDisk) ([wordD, wordDot].map Command.mkdir)).map
      (fun s => (fatEntry smallVolume s.2 3, fatEntry smallVolume s.2 4)) = some (0xFFFF, 0) := by
    decide +kernel
  obtain ⟨s', hs', hfat⟩ := Option.map_eq_some_iff.mp hrun
  obtain ⟨hused, hfree⟩ := Prod.mk.inj hfat
  refine ⟨s', hs', hused, (allocated_clusters_exist (fun _ => 0) 64 (smallVolume, smallDisk) geometry_smallVolume
    [wordD, wordDot] s' hs').1 (Or.inr ⟨4, ?_, ?_⟩)⟩
  · rw [mkdir_run_globals _ hs']
    exact ⟨by decide, by decide, by decide, by decide⟩
  · rw [mkdir_run_globals _ hs']
    exact hfree

/-- The small disk with all its clusters, 2 to 61, in use; the FAT has words up to 255. -/
def usedUpDisk : Disk := Function.update smallDisk 1 fun i => if 4 ≤ i.val ∧ i.val < 124 then 0xFF else 0

/-- **With all clusters in use** `mkdir` is given cluster 62, the first sector behind the volume. -/
theorem used_up_allocates_outside :
    FreshTail smallVolume usedUpDisk ∧ Geometry smallVolume ∧
      ¬ AllocatesExisting (fun _ => 0) (smallVolume, usedUpDisk) := by
  refine ⟨?_, geometry_smallVolume, ?_⟩
  · have hwords : ∀ k, k < 256 → 62 ≤ k → fatWord smallVolume usedUpDisk k = 0 := by
      decide +kernel
    intro k hlo hhi
    exact hwords k hhi hlo
  · intro hexist
    have hrun : (execute (fun _ => 0) (fatAllocateCluster smallVolume) usedUpDisk).map (fun r => r.1) =
        some 62 := by
      decide +kernel
    obtain ⟨⟨c, d'⟩, hexec, hc⟩ := Option.map_eq_some_iff.mp hrun
    obtain rfl : c = 62 := hc
    exact absurd (hexist 62 d' hexec (by decide)).inside (by decide)

end OsEojin.Fat
