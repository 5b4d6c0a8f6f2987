import OsEojin.FatInvariant

/-!
# When a failed `mkdir` leaves the volume as it was

`mkdir` first takes a FAT entry, then writes the new directory's first sector and only then looks for a
slot.  When there is none, nothing is undone.

* `MkdirAtomic`: a `mkdir` that ends without an entry leaves the FAT and all directories alone;
* `hasFreeSlot_withNewDir`: a free slot of the current directory is still there, or another one is,
  after the cluster was taken, whichever cluster it is;
* `mkdir_atomic_iff`: atomic with no free FAT entry or with a free slot, and not otherwise.
-/

namespace OsEojin.Fat

open OsEojin.Lib.Programs OsEojin.Ata OsEojin.Shell

variable {junk : Sector} {g : Globals} {d : Disk}

/-! ### The property and the condition -/

/-- The FAT copies and every directory are the same on both disks. -/
structure SameMetadata (g : Globals) (d d' : Disk) : Prop where
  fat : ∀ lba, g.fatStartSector ≤ lba → lba < g.rootDirSector → d'.get lba = d.get lba
  directories : ∀ c n, dirSlot g d' c n = dirSlot g d c n

/-- A `mkdir` that ends without an entry created changes neither the FAT nor a directory. -/
def MkdirAtomic (junk : Sector) (g : Globals) (d : Disk) (w : List UInt8) : Prop :=
  ∀ fuel d', execute junk (cmdMkdir g fuel w) d = some (false, d') → SameMetadata g d d'

/-- No entry of the FAT is free. -/
def NoFreeEntry (g : Globals) (d : Disk) : Prop :=
  ∀ k, k < 256 * g.fatInfo.fatSize16.toNat → ¬ FreeWord g d k

/-- Some slot of the current directory is free. -/
def HasFreeSlot (g : Globals) (d : Disk) : Prop :=
  ∃ n e, dirSlot g d g.currentDirCluster n = some e ∧ (e.name 0 = 0x00 ∨ e.name 0 = 0xE5)

/-- Where a word is free, there is a first one. -/
theorem noFreeEntry_iff : NoFreeEntry g d ↔ ∀ k, ¬ FirstFree g d k := by
  constructor
  · intro h k hk
    exact h k hk.1 hk.2.1
  · intro h k hk hfree
    classical
    have hex : ∃ j, FreeWord g d j := ⟨k, hfree⟩
    refine h (Nat.find hex) ⟨?_, Nat.find_spec hex, fun j hj => Nat.find_min hex hj⟩
    exact lt_of_le_of_lt (Nat.find_min' hex hfree) hk

/-- A full directory has no free slot. -/
theorem DirFull.not_hasFreeSlot (h : DirFull g d) : ¬ HasFreeSlot g d := by
  rintro ⟨n, e, he, hfree⟩
  obtain ⟨i, hnone, hskip⟩ := h
  by_cases hlt : n < 16 * i
  · apply (hskip n hlt).not_hit he (by decide)
    rw [freeVerdict, if_pos hfree]
  · rw [dirSlot, dirLba_none_mono hnone (show i ≤ n / 16 from by omega)] at he
    cases he

/-! ### The current directory after the allocation -/

/-- Marking cluster `c` as an end cuts the chains through `c` behind it. -/
theorem Chain.cut {fat fat' : UInt16 → UInt16} {data : UInt16 → Prop} {a c : UInt16}
    {l : List UInt16} (h : Chain fat data a l) (hc : c ∈ l) (hmark : 0xFFF8 ≤ fat' c)
    (hfat : ∀ x ∈ l, x ≠ c → fat' x = fat x) :
    ∃ (t r : List UInt16) (j : ℕ), Chain fat' data a t ∧ t[j]? = some c ∧ l = t ++ r := by
  induction h with
  | @last a hd _ =>
    obtain rfl := List.mem_singleton.mp hc
    exact ⟨[c], [], 0, Chain.last hd hmark, rfl, rfl⟩
  | @link a l hd hrest ih =>
    by_cases hac : a = c
    · subst hac
      exact ⟨[a], l, 0, Chain.last hd hmark, rfl, rfl⟩
    · have hcl : c ∈ l := (List.mem_cons.mp hc).resolve_left fun h => hac h.symm
      obtain ⟨t, r, j, ht, hj, hl⟩ := ih hcl fun x hx => hfat x (List.mem_cons_of_mem _ hx)
      refine ⟨a :: t, r, j + 1, Chain.link hd ?_, by simpa using hj, by rw [hl, List.cons_append]⟩
      rw [hfat a List.mem_cons_self hac]
      exact ht

section NewDir

variable {c : UInt16} (hg : Geometry g) (h2 : 2 ≤ c.toNat)
  (hfat : c.toNat < 256 * g.fatInfo.fatSize16.toNat)
include hg h2 hfat

/-- A directory away from the new cluster has the same slots as before. -/
theorem dirSlot_withNewDir_of_notMem {a : UInt16} {l : List UInt16} (hl : DiskChain g d a l)
    (hc : c ∉ l) (n : ℕ) : dirSlot g (withNewDir g d c) a n = dirSlot g d a n := by
  refine dirSlot_congr (dirLba_congr hg.toMounted hl ?_) ?_ n
  · intro x hx
    rw [hg.fatEntry_withNewDir h2 (hl.data_of_mem hx).2.2.1, if_neg]
    rintro rfl
    exact hc hx
  · intro i lba hlba
    obtain ⟨x, -, hx, rfl⟩ := dirLba_chain_some hg hl hlba
    have hoff := Nat.mod_lt i hg.spc_pos
    have hlo := hg.rootDir_le_clusterLba x
    rw [hg.get_withNewDir h2 hfat (by omega) (hg.cluster_lt x hoff), if_neg]
    intro heq
    have hsame := (clusterLba_inj (hl.data_of_mem hx).1 h2 hoff hg.spc_pos
      (heq.trans (Nat.add_zero _).symm)).1
    exact hc (hsame ▸ hx)

theorem dirSlot_withNewDir_root (n : ℕ) :
    dirSlot g (withNewDir g d c) 0 n = dirSlot g d 0 n := by
  refine dirSlot_congr (fun i => by rw [dirLba_root, dirLba_root]) ?_ n
  intro i lba hlba
  rw [dirLba_root] at hlba
  split at hlba
  · cases hlba
  · cases hlba
    have h1 := hg.dataStart
    have h3 := hg.dataStart_lt
    have h4 := dataStart_le_clusterLba g c
    rw [hg.get_withNewDir h2 hfat (by omega) (by rw [lbaSpace]; omega), if_neg (by omega)]

/-- A directory through the new cluster ends with it. -/
theorem chain_withNewDir_of_mem {a : UInt16} {l : List UInt16} (hl : DiskChain g d a l) (hc : c ∈ l) :
    ∃ (t r : List UInt16) (j : ℕ), DiskChain g (withNewDir g d c) a t ∧ t[j]? = some c ∧ l = t ++ r := by
  refine Chain.cut hl hc ?_ ?_
  · rw [hg.fatEntry_withNewDir h2 hfat, if_pos rfl]
    decide
  · intro x hx hne
    rw [hg.fatEntry_withNewDir h2 (hl.data_of_mem hx).2.2.1, if_neg hne]

/-- So it has its end mark among its slots. -/
theorem hasFreeSlot_of_mem {l : List UInt16} (hl : DiskChain g d g.currentDirCluster l) (hc : c ∈ l) :
    HasFreeSlot g (withNewDir g d c) := by
  obtain ⟨t, -, j, ht, hj, -⟩ := chain_withNewDir_of_mem hg h2 hfat hl hc
  have hlba : dirLba g (withNewDir g d c) g.currentDirCluster
      (j * g.fatInfo.sectorsPerCluster.toNat) = some (clusterLba g c) := by
    rw [dirLba_chain hg.toMounted ht, Nat.mul_div_cancel _ hg.spc_pos, hj, Nat.mul_mod_left]
    rfl
  refine ⟨16 * (j * g.fatInfo.sectorsPerCluster.toNat) + 2,
    entryAt (dotSector c g.currentDirCluster) 2, ?_, Or.inl (dotSector_two ..)⟩
  rw [dirSlot, show (16 * (j * g.fatInfo.sectorsPerCluster.toNat) + 2) / 16 =
      j * g.fatInfo.sectorsPerCluster.toNat from by omega, hlba,
    show (16 * (j * g.fatInfo.sectorsPerCluster.toNat) + 2) % 16 = 2 from by omega, Option.map_some,
    hg.get_withNewDir h2 hfat (hg.rootDir_le_clusterLba c) (hg.clusterLba_lt c), if_pos rfl]

/-- **A free slot survives the allocation.** -/
theorem hasFreeSlot_withNewDir (hcwd : ValidDir g d g.currentDirCluster) (h : HasFreeSlot g d) :
    HasFreeSlot g (withNewDir g d c) := by
  obtain ⟨n, e, he, hfree⟩ := h
  cases hcwd with
  | inl h0 =>
    rw [h0] at he
    refine ⟨n, e, ?_, hfree⟩
    rw [h0, dirSlot_withNewDir_root hg h2 hfat, he]
  | inr hsub =>
    obtain ⟨l, hl⟩ := hsub
    by_cases hc : c ∈ l
    · exact hasFreeSlot_of_mem hg h2 hfat hl hc
    · exact ⟨n, e, by rw [dirSlot_withNewDir_of_notMem hg h2 hfat hl hc, he], hfree⟩

end NewDir

/-! ### The two directions -/

theorem mkdirAtomic_of_noFreeEntry (h : NoFreeEntry g d) (w : List UInt8) :
    MkdirAtomic junk g d w := by
  intro fuel d' hrun
  rw [execute_cmdMkdir_full (noFreeEntry_iff.mp h)] at hrun
  cases hrun
  exact ⟨fun _ _ _ => rfl, fun _ _ => rfl⟩

/-- With a free slot `mkdir` does not fail once it has its cluster. -/
theorem mkdirAtomic_of_hasFreeSlot (hg : Geometry g) (hcwd : ValidDir g d g.currentDirCluster)
    (h : HasFreeSlot g d) (w : List UInt8) : MkdirAtomic junk g d w := by
  intro fuel d' hrun
  by_cases hnone : NoFreeEntry g d
  · exact mkdirAtomic_of_noFreeEntry hnone w fuel d' hrun
  · rw [noFreeEntry_iff] at hnone
    push Not at hnone
    obtain ⟨k, hk⟩ := hnone
    obtain ⟨h2, hfat⟩ := firstFree_cluster hk
    rw [execute_cmdMkdir_free hk] at hrun
    cases execute_fatCreateEntry hg.initialized hrun with
    | inl hcreated => exact absurd hcreated.1 (by decide)
    | inr hfull => exact absurd (hasFreeSlot_withNewDir hg h2 hfat hcwd h) hfull.2.2.not_hasFreeSlot

/-- Without one the FAT entry stays taken. -/
theorem not_mkdirAtomic (hg : Geometry g) (hcwd : ValidDir g d g.currentDirCluster) {k : ℕ}
    (hk : FirstFree g d k) (hk16 : k < 65536) (hslot : ¬ HasFreeSlot g d) (w : List UInt8) :
    ¬ MkdirAtomic junk g d w := by
  obtain ⟨h2, hfat⟩ := firstFree_cluster hk
  have hzero : fatEntry g d (UInt16.ofNat k) = 0 := by
    rw [← fatWord_eq_fatEntry hk16]
    exact hk.2.1.2
  -- the free cluster is not in the chain of the current directory, which therefore ends as before
  obtain ⟨last, hlast, hsame⟩ : ∃ last,
      dirLba g (withNewDir g d (UInt16.ofNat k)) g.currentDirCluster last = none ∧
        ∀ n, dirSlot g (withNewDir g d (UInt16.ofNat k)) g.currentDirCluster n =
          dirSlot g d g.currentDirCluster n := by
    cases hcwd with
    | inl h0 =>
      rw [h0]
      refine ⟨g.fatInfo.rootDirSectors, ?_, dirSlot_withNewDir_root hg h2 hfat⟩
      rw [dirLba_root, if_pos le_rfl]
    | inr hsub =>
      obtain ⟨l, hl⟩ := hsub
      have hc : UInt16.ofNat k ∉ l := fun hmem => hl.fat_ne_zero (dataRange g) hmem hzero
      refine ⟨l.length * g.fatInfo.sectorsPerCluster.toNat, ?_,
        dirSlot_withNewDir_of_notMem hg h2 hfat hl hc⟩
      rw [dirLba_congr hg.toMounted hl]
      · exact dirLba_chain_none hg hl
      · intro x hx
        rw [hg.fatEntry_withNewDir h2 (hl.data_of_mem hx).2.2.1, if_neg]
        rintro rfl
        exact hc hx
  obtain ⟨⟨r, d'⟩, hr⟩ := execute_fatCreateEntry_total junk w hg.initialized (hg.not_faults _)
    (leavesAt_of_none hlast) (Nat.lt_succ_self last) attrDirectory (UInt16.ofNat k) 0
  intro hatomic
  cases execute_fatCreateEntry hg.initialized hr with
  | inl hcreated =>
    obtain ⟨-, n, e, lba, hfree, -⟩ := hcreated
    obtain ⟨hname, hold, -⟩ := freeSlot_spec hfree
    exact hslot ⟨n, e, by rw [← hsame, hold], hname⟩
  | inr hfull =>
    obtain ⟨rfl, rfl, -⟩ := hfull
    have hrun := (execute_cmdMkdir_free hk).trans hr
    have hget := (hatomic _ _ hrun).fat (fatSector g (UInt16.ofNat k))
      (Nat.le_add_right _ _) (hg.fatSector_lt_rootDir hfat)
    have hchanged : fatEntry g (withNewDir g d (UInt16.ofNat k)) (UInt16.ofNat k) = 0xFFFF := by
      rw [hg.fatEntry_withNewDir h2 hfat, if_pos rfl]
    rw [fatEntry, hget, ← fatEntry, hzero] at hchanged
    exact absurd hchanged (by decide)

/-- **When a failed `mkdir` is atomic.**  With no free FAT entry, or with a free slot in the current
directory, it is; and, unless the number of the first free entry does not fit into 16 bits, only then. -/
theorem mkdir_atomic_iff (junk : Sector) (hg : Geometry g) (hcwd : ValidDir g d g.currentDirCluster)
    (w : List UInt8) :
    (NoFreeEntry g d ∨ HasFreeSlot g d → MkdirAtomic junk g d w) ∧
      ((∀ k, FirstFree g d k → k < 65536) → MkdirAtomic junk g d w →
        NoFreeEntry g d ∨ HasFreeSlot g d) := by
  constructor
  · rintro (hnone | hslot)
    · exact mkdirAtomic_of_noFreeEntry hnone w
    · exact mkdirAtomic_of_hasFreeSlot hg hcwd hslot w
  · intro hk16 hatomic
    by_contra hneither
    push Not at hneither
    obtain ⟨hentry, hslot⟩ := hneither
    rw [noFreeEntry_iff] at hentry
    push Not at hentry
    obtain ⟨k, hk⟩ := hentry
    exact not_mkdirAtomic hg hcwd hk (hk16 k hk) hslot w hatomic

/-! ### On the small volume -/

/-- The small disk with no free entry in the FAT. -/
def fullFatDisk : Disk := Function.update smallDisk 1 fun _ => 0xFF

/-- There `mkdir d` fails, and leaves the FAT and the directories as they were. -/
theorem mkdir_atomic_full_fat :
    (execute (fun _ => 0) (cmdMkdir smallVolume 64 (text "d")) fullFatDisk).map (fun r => r.1) = some false ∧
      MkdirAtomic (fun _ => 0) smallVolume fullFatDisk (text "d") := by
  refine ⟨by decide +kernel, (mkdir_atomic_iff (fun _ => 0) geometry_smallVolume (Or.inl rfl) (text "d")).1
    (Or.inl ?_)⟩
  intro k hk hfree
  have hused : ∀ k, k < 256 → fatWord smallVolume fullFatDisk k ≠ 0 := by
    decide +kernel
  exact hused k hk hfree.2

/-- The small disk with a full root directory. -/
def fullRootDisk : Disk := Function.update smallDisk 3 fun _ => 0x41

/-- In a full root directory `mkdir d` fails and keeps the cluster it took. -/
theorem mkdir_leaks_cluster :
    ¬ MkdirAtomic (fun _ => 0) smallVolume fullRootDisk (text "d") := by
  intro hatomic
  have hrun : (execute (fun _ => 0) (cmdMkdir smallVolume 2 (text "d")) fullRootDisk).map (fun r =>
      !r.1 && fatEntry smallVolume fullRootDisk 2 == 0 && fatEntry smallVolume r.2 2 == 0xFFFF) =
      some true := by
    decide +kernel
  obtain ⟨⟨r, d'⟩, hr, hleak⟩ := Option.map_eq_some_iff.mp hrun
  simp only [Bool.and_eq_true, Bool.not_eq_true', beq_iff_eq] at hleak
  obtain ⟨⟨rfl, hbefore⟩, hafter⟩ := hleak
  have hget := (hatomic _ _ hr).fat (fatSector smallVolume 2) (by decide) (by decide)
  rw [fatEntry, hget, ← fatEntry, hbefore] at hafter
  exact absurd hafter (by decide)

end OsEojin.Fat
