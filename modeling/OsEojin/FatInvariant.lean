import OsEojin.FatFreeing
import OsEojin.Lib.Runs

/-!
# The file-system invariant over runs of commands

Each command that comes back is a step of the tree: `cd` moves inside it, `touch` and `mkdir` create an
entry, `rm` and `rmdir` delete one.  Four situations lead out of it, all visible in the state before the
command (`Admissible`): stale entries behind an end mark that a creation removes, a FAT whose first free
entry is not a data cluster, a deletion that finds its name behind the end mark, and `rmdir .`

* `FsOk.slot_update`: a directory sector is written, and one slot of one directory changes;
* `FsOk.creates_file`, `FsOk.creates_dir`, `FsOk.deletes`: the updates of the disk, on the tree;
* `Effect`, `step_effect`: every admissible command comes back and is one of them;
* `step_ok`: so it keeps the invariant;
* `fs_invariant`: and every run of them.
-/

namespace OsEojin.Fat

open OsEojin.Lib.Programs OsEojin.Lib.Runs OsEojin.Ata OsEojin.Shell

/-! ### The entries the code writes -/

/-- Only capital letters come from other characters. -/
theorem toUpper_ne {c b : UInt8} (hc : c ≠ b) (hb : b < 65 ∨ 90 < b) : toUpper c ≠ b := by
  rw [toUpper]
  split
  · rename_i h
    intro heq
    rw [UInt8.le_iff_toNat_le, UInt8.le_iff_toNat_le] at h
    rw [UInt8.lt_iff_toNat_lt, UInt8.lt_iff_toNat_lt] at hb
    have h1 := congrArg UInt8.toNat heq
    rw [UInt8.toNat_sub_of_le _ _ (by rw [UInt8.le_iff_toNat_le]; exact le_trans (by decide) h.1)] at h1
    have h2 : (97 : UInt8).toNat = 97 := rfl
    have h3 : (32 : UInt8).toNat = 32 := rfl
    have h4 : (65 : UInt8).toNat = 65 := rfl
    have h5 : (90 : UInt8).toNat = 90 := rfl
    have h6 : (122 : UInt8).toNat = 122 := rfl
    omega
  · exact hc

/-- A created name never starts with a NUL or a dot. -/
theorem shortName_head (w : List UInt8) :
    (shortName w).getD 0 0 ≠ 0 ∧ (shortName w).getD 0 0 ≠ 46 := by
  have hbase : ∀ c ∈ baseName w, c ≠ 0 ∧ c ≠ 46 := by
    intro c hc
    have := List.mem_takeWhile_imp hc
    simpa using this
  rw [shortName]
  cases hb : baseName w with
  | nil => exact ⟨by decide, by decide⟩
  | cons c cs =>
    rw [hb] at hbase
    obtain ⟨h0, h46⟩ := hbase c List.mem_cons_self
    have hhead : ((((c :: cs).take 8).map toUpper).rightpad 8 32).getD 0 0 = toUpper c := by
      simp [List.rightpad]
    rw [hhead]
    exact ⟨toUpper_ne h0 (by decide), toUpper_ne h46 (by decide)⟩

section Entries

variable (old : DirEntry) (w : List UInt8) (attr : UInt8) (cluster : UInt16) (size : ℕ)

theorem fillEntry_name_zero : (fillEntry old w attr cluster size).name 0 = (shortName w).getD 0 0 := rfl

theorem fillEntry_attributes : (fillEntry old w attr cluster size).attributes = attr := rfl

theorem fillEntry_firstClusterLow : (fillEntry old w attr cluster size).firstClusterLow = cluster :=
  le16_lo8_hi8 cluster

/-- The size is stored in four bytes. -/
theorem fillEntry_fileSize (hsize : size < 2 ^ 32) : (fillEntry old w attr cluster size).fileSize = size := by
  have hfields : (fillEntry old w attr cluster size).fileSize =
      (le16 (UInt8.ofNat (size / 256 ^ 0)) (UInt8.ofNat (size / 256 ^ 1))).toNat +
        65536 * (le16 (UInt8.ofNat (size / 256 ^ 2)) (UInt8.ofNat (size / 256 ^ 3))).toNat := rfl
  rw [hfields]
  simp only [le16, UInt16.toNat_ofNat', UInt8.toNat_ofNat']
  omega

theorem length_shortName : (shortName w).length = 8 := by
  rw [shortName, List.length_rightpad, List.length_map, List.length_take]
  omega

theorem length_shortExt : (shortExt w).length = 3 := by
  rw [shortExt, List.length_rightpad, List.length_map, List.length_take]
  omega

/-- The eight bytes of a new entry's name. -/
theorem nameBytes_fillEntry : nameBytes (fillEntry old w attr cluster size) = shortName w := by
  apply List.ext_getElem
  · rw [nameBytes, List.length_map, List.length_range, length_shortName]
  · intro i hi hi'
    have h8 : i < 8 := hi'.trans_eq (length_shortName w)
    simp only [nameBytes, List.getElem_map, List.getElem_range, DirEntry.name, fillEntry, Fin.val_ofNat]
    rw [Nat.mod_eq_of_lt (by omega), if_pos h8, List.getD_eq_getElem?_getD, List.getElem?_eq_getElem hi', Option.getD_some]

/-- The three bytes of its extension. -/
theorem extBytes_fillEntry : extBytes (fillEntry old w attr cluster size) = shortExt w := by
  apply List.ext_getElem
  · rw [extBytes, List.length_map, List.length_range, length_shortExt]
  · intro i hi hi'
    have h3 : i < 3 := hi'.trans_eq (length_shortExt w)
    simp only [extBytes, List.getElem_map, List.getElem_range, DirEntry.ext, fillEntry, Fin.val_ofNat]
    rw [Nat.mod_eq_of_lt (by omega), if_neg (by omega), if_pos (by omega), Nat.add_sub_cancel_left,
      List.getD_eq_getElem?_getD, List.getElem?_eq_getElem hi', Option.getD_some]

theorem fillEntry_named : Named (fillEntry old w attr cluster size) := by
  have h := (shortName_head w).2
  rw [← fillEntry_name_zero old w attr cluster size] at h
  exact ⟨by simp [isDot, h], by simp [isDotDot, h]⟩

end Entries

theorem markDeleted_name_zero (e : DirEntry) : (markDeleted e).name 0 = 0xE5 := rfl

theorem dotEntry_firstClusterLow (name : String) (c : UInt16) :
    (dotEntry name c).firstClusterLow = c :=
  le16_lo8_hi8 c

theorem dotEntry_isDirectory (name : String) (c : UInt16) : isDirectory (dotEntry name c) = true := by
  have hattr : (dotEntry name c).attributes = attrDirectory := rfl
  rw [isDirectory, hattr]
  rfl

theorem dotEntry_isDot (c : UInt16) : isDot (dotEntry "." c) = true := rfl

theorem dotEntry_isDotDot (c : UInt16) : isDotDot (dotEntry ".." c) = true := rfl

theorem dotSector_zero (c p : UInt16) : entryAt (dotSector c p) 0 = dotEntry "." c := by
  rw [dotSector, entryAt_putEntry_of_ne _ _ (by decide) (by decide),
    entryAt_putEntry_same _ _ (by decide)]

theorem dotSector_one (c p : UInt16) : entryAt (dotSector c p) 1 = dotEntry ".." p := by
  rw [dotSector, entryAt_putEntry_same _ _ (by decide)]

/-- Behind the two entries the sector is empty. -/
theorem dotSector_rest (c p : UInt16) {k : ℕ} (h2 : 2 ≤ k) (hk : k < 16) :
    (entryAt (dotSector c p) k).name 0 = 0x00 := by
  rw [dotSector, entryAt_putEntry_of_ne _ _ hk (by omega), entryAt_putEntry_of_ne _ _ hk (by omega)]
  rfl

theorem dotSector_two (c p : UInt16) : (entryAt (dotSector c p) 2).name 0 = 0x00 :=
  dotSector_rest c p le_rfl (by decide)

/-! ### Updates of directory sectors -/

section Effects

variable {g : Globals} {d d' : Disk} {dir parent : UInt16}

theorem FsOk.dirLba_same (h : FsOk g d) (hdir : Dir (volume g d) dir parent)
    (hfat : ∀ l, DiskChain g d dir l → ∀ x ∈ l, fatEntry g d' x = fatEntry g d x) (i : ℕ) :
    dirLba g d' dir i = dirLba g d dir i := by
  cases h.dir_cases hdir with
  | inl h0 => rw [h0, dirLba_root, dirLba_root]
  | inr hsub =>
    obtain ⟨n, e, l, -, -, -, hl⟩ := hsub
    exact dirLba_congr h.geometry.toMounted hl (hfat l hl) i

/-- **A directory sector is written**: when behind the FAT only the sector of slot `n` of the current
directory changed, and only in that slot, then of all directories only that slot changed. -/
theorem FsOk.slot_update (h : FsOk g d) {n lba : ℕ} {e' : DirEntry}
    (hsector : dirLba g d g.currentDirCluster (n / 16) = some lba)
    (hdir : Dir (volume g d) dir parent) (hlba : ∀ i, dirLba g d' dir i = dirLba g d dir i)
    (hget : ∀ lba', g.rootDirSector ≤ lba' → lba' < lbaSpace →
      d'.get lba' = if lba' = lba then putEntry (d.get lba) (n % 16) e' else d.get lba') (m : ℕ) :
    dirSlot g d' dir m = if dir = g.currentDirCluster ∧ m = n then some e' else dirSlot g d dir m := by
  obtain ⟨p, hcwd⟩ := h.tree.cwd
  have hwhere : ∀ i, dirLba g d dir i = some lba ↔ dir = g.currentDirCluster ∧ i = n / 16 := by
    intro i
    refine ⟨fun hi => h.dirLba_inj hdir hcwd hi hsector, ?_⟩
    rintro ⟨rfl, rfl⟩
    exact hsector
  refine dirSlot_update hlba ?_ hwhere m
  intro i lba' hi
  obtain ⟨hlo, hhi⟩ := h.dirLba_region hdir hi
  exact hget lba' hlo hhi

/-- The slot write of a creation, in the terms of `slot_update`. -/
theorem FsOk.get_putSlot (h : FsOk g d) {n lba : ℕ} {e' : DirEntry}
    (hsector : dirLba g d g.currentDirCluster (n / 16) = some lba) {lba' : ℕ} (hlt : lba' < lbaSpace) :
    (putSlot d lba (n % 16) e').get lba' =
      if lba' = lba then putEntry (d.get lba) (n % 16) e' else d.get lba' := by
  obtain ⟨p, hcwd⟩ := h.tree.cwd
  rw [putSlot, get_put _ (h.dirLba_region hcwd hsector).2 hlt]

theorem FsOk.fatEntry_putSlot (h : FsOk g d) {n lba : ℕ} {e' : DirEntry}
    (hsector : dirLba g d g.currentDirCluster (n / 16) = some lba) {x : UInt16} (hx : IsData g x) :
    fatEntry g (putSlot d lba (n % 16) e') x = fatEntry g d x := by
  obtain ⟨p, hcwd⟩ := h.tree.cwd
  obtain ⟨hlo, hhi⟩ := h.dirLba_region hcwd hsector
  exact h.geometry.fatEntry_put _ hlo hhi hx.2.2.1

/-- The slot write of a creation changes one slot. -/
theorem FsOk.dirSlot_putSlot (h : FsOk g d) {n lba : ℕ} {e' : DirEntry}
    (hsector : dirLba g d g.currentDirCluster (n / 16) = some lba)
    (hdir : Dir (volume g d) dir parent) (m : ℕ) :
    dirSlot g (putSlot d lba (n % 16) e') dir m =
      if dir = g.currentDirCluster ∧ m = n then some e' else dirSlot g d dir m := by
  refine h.slot_update hsector hdir ?_ (fun lba' _ hlt => h.get_putSlot hsector hlt) m
  exact h.dirLba_same hdir fun l hl x hx => h.fatEntry_putSlot hsector (hl.data_of_mem hx)

/-! ### A new directory's cluster -/

section NewDir

variable {c : UInt16} (h : FsOk g d) (h2 : 2 ≤ c.toNat)
  (hfat : c.toNat < 256 * g.fatInfo.fatSize16.toNat) (hfree : fatEntry g d c = 0)
include h h2 hfat hfree

/-- The FAT entries in use stay. -/
theorem FsOk.fatEntry_withNewDir_used {x : UInt16} (hx : IsData g x) (h0 : fatEntry g d x ≠ 0) :
    fatEntry g (withNewDir g d c) x = fatEntry g d x := by
  rw [h.geometry.fatEntry_withNewDir h2 hx.2.2.1, if_neg]
  rintro rfl
  exact h0 hfree

/-- No directory has a sector in the free cluster. -/
theorem FsOk.dirSlot_withNewDir (hdir : Dir (volume g d) dir parent) (m : ℕ) :
    dirSlot g (withNewDir g d c) dir m = dirSlot g d dir m := by
  refine dirSlot_congr (h.dirLba_same hdir ?_) ?_ m
  · intro l hl x hx
    exact h.fatEntry_withNewDir_used h2 hfat hfree (hl.data_of_mem hx)
      (hl.fat_ne_zero (dataRange g) hx)
  · intro i lba hlba
    obtain ⟨hlo, hhi⟩ := h.dirLba_region hdir hlba
    rw [h.geometry.get_withNewDir h2 hfat hlo hhi, if_neg]
    rintro rfl
    obtain ⟨n, e, l, -, -, hl, hmem, -⟩ :=
      h.dirLba_cluster hdir h2 h.geometry.spc_pos (hlba.trans (by rw [Nat.add_zero]))
    exact hl.fat_ne_zero (dataRange g) (List.mem_of_getElem? hmem) hfree

/-- **Allocating a cluster and filling it keeps the invariant.** -/
theorem FsOk.newDir_ok : FsOk g (withNewDir g d c) := by
  refine ⟨h.geometry, WellFormed.frame ?_ h.tree (dataRange g) ?_⟩
  · intro dir parent hdir m
    exact h.dirSlot_withNewDir h2 hfat hfree hdir m
  · intro x hx h0
    exact h.fatEntry_withNewDir_used h2 hfat hfree hx h0

end NewDir

/-! ### Creating an entry -/

/-- The slot a new entry goes to, in the terms of the tree. -/
theorem freeSlot_spec {n lba : ℕ} {e : DirEntry} (h : FreeSlot g d n e lba) :
    (e.name 0 = 0x00 ∨ e.name 0 = 0xE5) ∧ dirSlot g d g.currentDirCluster n = some e ∧
      ∀ m, m < n → ∃ x, dirSlot g d g.currentDirCluster m = some x ∧ x.name 0 ≠ 0x00 ∧
        x.name 0 ≠ 0xE5 := by
  refine ⟨?_, h.slot, ?_⟩
  · have hhit := h.hit
    rw [freeVerdict] at hhit
    split at hhit
    · assumption
    · cases hhit
  · intro m hm
    obtain ⟨x, hx, hskip⟩ := h.skip (Or.inr freeVerdict_ne_stop) hm
    rw [freeVerdict] at hskip
    split at hskip
    · cases hskip
    · rename_i hne
      exact ⟨x, hx, fun h0 => hne (Or.inl h0), fun h5 => hne (Or.inr h5)⟩

/-- **A new file entry fills a free slot.** -/
theorem FsOk.creates_file (h : FsOk g d) {n lba : ℕ} {e : DirEntry} (hslot : FreeSlot g d n e lba)
    (hclean : EndMarkClean (volume g d) g.currentDirCluster) (w : List UInt8) :
    Creates (volume g d) (volume g (putSlot d lba (n % 16) (fillEntry e w 0 0 0))) (IsData g)
      g.currentDirCluster n e (fillEntry e w 0 0 0) := by
  obtain ⟨hfree, hold, hbefore⟩ := freeSlot_spec hslot
  refine ⟨hold, hfree, ?_, fun h0 => hclean n e hold h0 hbefore, (shortName_head w).1,
    fillEntry_named .., ?_, ?_, Or.inl ⟨?_, fillEntry_firstClusterLow ..⟩⟩
  · intro m hm
    obtain ⟨x, hx, h0, -⟩ := hbefore m hm
    exact ⟨x, hx, h0⟩
  · intro dir parent hdir m
    exact h.dirSlot_putSlot hslot.sector hdir m
  · intro x hx _
    exact h.fatEntry_putSlot hslot.sector hx
  · rw [isDirectory, fillEntry_attributes]
    rfl

/-- The current directory has no sector in the cluster of a new directory. -/
theorem FsOk.newDir_sector_ne (h : FsOk g d) {c : UInt16} (hdata : IsData g c)
    (hfree : fatEntry g d c = 0) {i off lba : ℕ} (hoff : off < g.fatInfo.sectorsPerCluster.toNat)
    (hsector : dirLba g (withNewDir g d c) g.currentDirCluster i = some lba) :
    clusterLba g c + off ≠ lba := by
  rintro rfl
  obtain ⟨p, hcwd⟩ := h.tree.cwd
  have hsector' : dirLba g d g.currentDirCluster i = some (clusterLba g c + off) := by
    rw [← hsector]
    refine (h.dirLba_same hcwd ?_ _).symm
    intro l hl x hx
    exact h.fatEntry_withNewDir_used hdata.1 hdata.2.2.1 hfree (hl.data_of_mem hx)
      (hl.fat_ne_zero (dataRange g) hx)
  obtain ⟨n', e, l, -, -, hl, hmem, -⟩ := h.dirLba_cluster hcwd hdata.1 hoff hsector'
  exact hl.fat_ne_zero (dataRange g) (List.mem_of_getElem? hmem) hfree

/-- The first slots of a new directory. -/
theorem FsOk.newDir_slot (h : FsOk g d) {c : UInt16} (hdata : IsData g c) {k : ℕ} (hk : k < 16)
    {n lba : ℕ} {e' : DirEntry} (hfree : fatEntry g d c = 0)
    (hsector : dirLba g (withNewDir g d c) g.currentDirCluster (n / 16) = some lba) :
    dirSlot g (putSlot (withNewDir g d c) lba (n % 16) e') c k =
      some (entryAt (dotSector c g.currentDirCluster) k) := by
  have hok := h.newDir_ok hdata.1 hdata.2.2.1 hfree
  have hlt := h.geometry.clusterLba_lt c
  have hmark : fatEntry g (putSlot (withNewDir g d c) lba (n % 16) e') c = 0xFFFF := by
    rw [hok.fatEntry_putSlot hsector hdata, h.geometry.fatEntry_withNewDir hdata.1 hdata.2.2.1, if_pos rfl]
  have hchain : DiskChain g (putSlot (withNewDir g d c) lba (n % 16) e') c [c] :=
    Chain.last hdata (by rw [hmark]; decide)
  have hfirst : dirLba g (putSlot (withNewDir g d c) lba (n % 16) e') c 0 = some (clusterLba g c) := by
    rw [dirLba_chain h.geometry.toMounted hchain, Nat.zero_div, Nat.zero_mod]
    rfl
  -- the current directory is elsewhere, so its slot write misses the new cluster
  have hne : clusterLba g c ≠ lba := h.newDir_sector_ne hdata hfree h.geometry.spc_pos hsector
  rw [dirSlot, Nat.div_eq_of_lt hk, hfirst, Nat.mod_eq_of_lt hk, Option.map_some,
    hok.get_putSlot hsector hlt, if_neg hne,
    h.geometry.get_withNewDir hdata.1 hdata.2.2.1 (h.geometry.rootDir_le_clusterLba c) hlt, if_pos rfl]

/-- **A new directory fills a free slot** and a free cluster. -/
theorem FsOk.creates_dir (h : FsOk g d) {c : UInt16} (hdata : IsData g c) (hfree : fatEntry g d c = 0)
    {n lba : ℕ} {e : DirEntry} (hslot : FreeSlot g (withNewDir g d c) n e lba)
    (hclean : EndMarkClean (volume g d) g.currentDirCluster) (w : List UInt8) :
    Creates (volume g d)
      (volume g (putSlot (withNewDir g d c) lba (n % 16) (fillEntry e w attrDirectory c 0)))
      (IsData g) g.currentDirCluster n e (fillEntry e w attrDirectory c 0) := by
  have hok := h.newDir_ok hdata.1 hdata.2.2.1 hfree
  obtain ⟨p, hcwd⟩ := h.tree.cwd
  have hsame : ∀ {dir parent}, Dir (volume g d) dir parent → ∀ m,
      dirSlot g (withNewDir g d c) dir m = dirSlot g d dir m :=
    fun hdir m => h.dirSlot_withNewDir hdata.1 hdata.2.2.1 hfree hdir m
  obtain ⟨hfreeSlot, hold, hbefore⟩ := freeSlot_spec hslot
  rw [hsame hcwd] at hold
  simp only [hsame hcwd] at hbefore
  have hfc := fillEntry_firstClusterLow e w attrDirectory c 0
  refine ⟨hold, hfreeSlot, ?_, fun h0 => hclean n e hold h0 hbefore, (shortName_head w).1,
    fillEntry_named .., ?_, ?_, Or.inr ⟨?_, dotEntry "." c, dotEntry ".." g.currentDirCluster, ?_⟩⟩
  · intro m hm
    obtain ⟨x, hx, h0, -⟩ := hbefore m hm
    exact ⟨x, hx, h0⟩
  · intro dir parent hdir m
    have hdir' : Dir (volume g (withNewDir g d c)) dir parent :=
      (dir_frame fun dir parent hdir m => hsame hdir m).mpr hdir
    exact (hok.dirSlot_putSlot hslot.sector hdir' m).trans (by rw [hsame hdir m]; rfl)
  · intro x hx h0
    exact (hok.fatEntry_putSlot hslot.sector hx).trans
      (h.fatEntry_withNewDir_used hdata.1 hdata.2.2.1 hfree hx h0)
  · rw [isDirectory, fillEntry_attributes]
    rfl
  · rw [hfc]
    have hslots : ∀ k, k < 16 →
        dirSlot g (putSlot (withNewDir g d c) lba (n % 16) (fillEntry e w attrDirectory c 0)) c k =
          some (entryAt (dotSector c g.currentDirCluster) k) :=
      fun k hk => h.newDir_slot hdata hk hfree hslot.sector
    refine ⟨hdata, hfree, ?_, ?_, ?_, ⟨_, hslots 2 (by decide), dotSector_two ..⟩,
      ⟨dotEntry_isDot c, dotEntry_isDirectory .., dotEntry_firstClusterLow ..⟩,
      ⟨dotEntry_isDotDot _, dotEntry_isDirectory .., dotEntry_firstClusterLow ..⟩⟩
    · show 0xFFF8 ≤ fatEntry g _ c
      rw [hok.fatEntry_putSlot hslot.sector hdata, h.geometry.fatEntry_withNewDir hdata.1 hdata.2.2.1, if_pos rfl]
      decide
    · exact (hslots 0 (by decide)).trans (by rw [dotSector_zero])
    · exact (hslots 1 (by decide)).trans (by rw [dotSector_one])

/-! ### Deleting an entry -/

/-- A directory that `fat_is_dir_empty` accepts holds no named entry. -/
theorem DirEmpty.not_named {c : UInt16} (h : DirEmpty g d c) {n : ℕ} {e : DirEntry}
    (hlive : Live (volume g d) c n e) : ¬ Named e := by
  intro hnamed
  apply h n e hlive.1 hlive.2.2.2
  rw [emptyVerdict, if_neg hlive.2.1, if_neg hlive.2.2.1, hnamed.1, hnamed.2]
  rfl

/-- **Deleting a live entry** frees its clusters and marks its slot, and the deletion comes back. -/
theorem FsOk.deletes (h : FsOk g d) {n lba fuel : ℕ} {e : DirEntry}
    (hsector : dirLba g d g.currentDirCluster (n / 16) = some lba)
    (hlive : Live (volume g d) g.currentDirCluster n e)
    (hkind : Named e ∨ g.currentDirCluster = 0 ∧ e.firstClusterLow = 0)
    (hempty : isDirectory e = true → DirEmpty g d e.firstClusterLow) (hfuel : 65536 ≤ fuel) :
    ∃ d₁, freeCluster g fuel e.firstClusterLow d = some d₁ ∧
      ∃ l, Deletes (volume g d)
        (volume g (d₁.put lba (putEntry (d.get lba) (n % 16) (markDeleted e)))) (IsData g)
        g.currentDirCluster n e (markDeleted e) l := by
  obtain ⟨p, hcwd⟩ := h.tree.cwd
  obtain ⟨hlo, hhi⟩ := h.dirLba_region hcwd hsector
  obtain ⟨l, hchain, hnone⟩ : ∃ l : List UInt16,
      (e.firstClusterLow ≠ 0 → DiskChain g d e.firstClusterLow l) ∧
      (e.firstClusterLow = 0 → l = []) := by
    by_cases h0 : e.firstClusterLow = 0
    · exact ⟨[], fun hne => absurd h0 hne, fun _ => rfl⟩
    · have hnamed : Named e := hkind.resolve_right fun hroot => h0 hroot.2
      obtain ⟨l, hl⟩ := h.tree.chain ⟨h.tree.cwd, hlive, hnamed⟩ h0
      exact ⟨l, fun _ => hl, fun hz => absurd hz h0⟩
  obtain ⟨d₁, hfree, hfat, hget⟩ := freeCluster_spec h.geometry hfuel hchain hnone
  refine ⟨d₁, hfree, l, hlive, hchain, hnone, hkind, ?_, ?_, markDeleted_name_zero e, ?_⟩
  · rintro dir m x ⟨hisdir, -, rfl⟩ hx
    exact (hempty hisdir).not_named hx
  · intro dir parent hdir hgone m
    refine h.slot_update hsector hdir (h.dirLba_same hdir ?_) ?_ m
    · -- a directory that stays shares no cluster with the freed chain
      intro t ht x hx
      rw [h.geometry.fatEntry_put _ hlo hhi (ht.data_of_mem hx).2.2.1, hfat, if_neg]
      intro hxl
      cases h.dir_cases hdir with
      | inl h0 => exact (dataRange g).ne_zero ht.head_data h0
      | inr hsub =>
        obtain ⟨n', e', t', hentry, hisdir, hfc, ht'⟩ := hsub
        rw [ht.unique (dataRange g) ht'] at hx
        have h0 : e.firstClusterLow ≠ 0 := by
          intro h0
          rw [hnone h0] at hxl
          cases hxl
        have hnamed : Named e := hkind.resolve_right fun hroot => h0 hroot.2
        have hpos : parent ≠ g.currentDirCluster ∨ n' ≠ n := by
          by_contra hboth
          push Not at hboth
          obtain ⟨rfl, rfl⟩ := hboth
          obtain rfl := hentry.live.unique hlive
          exact hgone ⟨hisdir, hnamed, hfc.symm⟩
        exact h.tree.disjoint hentry ⟨h.tree.cwd, hlive, hnamed⟩ (hfc.symm ▸ ht') (hchain h0) hpos
          hx hxl
    · intro lba' hlo' hhi'
      rw [get_put _ hhi hhi', hget lba' hlo' hhi']
  · intro x hx hxl
    exact (h.geometry.fatEntry_put _ hlo hhi hx.2.2.1).trans (by rw [hfat, if_neg hxl]; rfl)

end Effects

/-! ### The commands -/

/-- **What a command can do**: nothing; move to the directory found; fill a free slot of the current
directory, with a cluster for a directory; take a cluster for a directory that finds no slot; delete a live
entry. -/
inductive Effect (s : FileSystem) : Command → FileSystem → Prop
  | kept (c : Command) : Effect s c s
  | moved {w : Word} {n lba : ℕ} {e : DirEntry} :
      Found s.1 s.2 s.1.currentDirCluster true (findVerdict w.val) n e lba → isDirectory e = true →
      Effect s (.cd w) ({ s.1 with currentDirCluster := e.firstClusterLow,
                                   currentPath := changedPath s.1.currentPath w.val e }, s.2)
  | touched {w : Word} {n : ℕ} {e : DirEntry} {d' : Disk} :
      Creates (volume s.1 s.2) (volume s.1 d') (IsData s.1) s.1.currentDirCluster n e
        (fillEntry e w.val 0 0 0) → Effect s (.touch w) (s.1, d')
  | made {w : Word} {k n : ℕ} {e : DirEntry} {d' : Disk} : FirstFree s.1 s.2 k →
      Creates (volume s.1 s.2) (volume s.1 d') (IsData s.1) s.1.currentDirCluster n e
        (fillEntry e w.val attrDirectory (UInt16.ofNat k) 0) → Effect s (.mkdir w) (s.1, d')
  | allocated {w : Word} {d' : Disk} :
      (∀ dir parent, Dir (volume s.1 s.2) dir parent → ∀ m, dirSlot s.1 d' dir m = dirSlot s.1 s.2 dir m) →
      (∀ x, IsData s.1 x → fatEntry s.1 s.2 x ≠ 0 → fatEntry s.1 d' x = fatEntry s.1 s.2 x) →
      Effect s (.mkdir w) (s.1, d')
  | removed {w : Word} {n : ℕ} {e : DirEntry} {l : List UInt16} {d' : Disk} :
      Deletes (volume s.1 s.2) (volume s.1 d') (IsData s.1) s.1.currentDirCluster n e (markDeleted e) l →
      Effect s (.rm w) (s.1, d')
  | removedDir {w : Word} {n : ℕ} {e : DirEntry} {l : List UInt16} {d' : Disk} :
      Deletes (volume s.1 s.2) (volume s.1 d') (IsData s.1) s.1.currentDirCluster n e (markDeleted e) l →
      Effect s (.rmdir w) (s.1, d')

section Commands

variable {g : Globals} {d : Disk} {fuel : ℕ}

/-- The entry `cd` finds is live. -/
theorem found_live {w : List UInt8} {n lba : ℕ} {e : DirEntry}
    (h : Found g d g.currentDirCluster true (findVerdict w) n e lba) :
    Live (volume g d) g.currentDirCluster n e := by
  have hend : ∀ x : DirEntry, x.name 0 = 0x00 → findVerdict w x = .stop := by
    intro x hx
    rw [findVerdict, if_pos hx]
  have hdel : ∀ x : DirEntry, x.name 0 = 0xE5 → findVerdict w x = .skip := by
    intro x hx
    rw [findVerdict, if_neg (by rw [hx]; decide), if_pos hx]
  refine ⟨h.slot, ?_, ?_, ?_⟩
  · intro h0
    exact absurd (h.hit.symm.trans (hend e h0)) (by decide)
  · intro h5
    exact absurd (h.hit.symm.trans (hdel e h5)) (by decide)
  · intro m hm
    obtain ⟨x, hx, hskip⟩ := h.skip (Or.inl rfl) hm
    exact ⟨x, hx, fun h0 => absurd (hskip.symm.trans (hend x h0)) (by decide)⟩

/-- A live directory entry leads to a directory of the tree, `.` and `..` included. -/
theorem FsOk.dir_of_live (h : FsOk g d) {n : ℕ} {e : DirEntry}
    (hlive : Live (volume g d) g.currentDirCluster n e) (hisdir : isDirectory e = true) :
    ∃ p, Dir (volume g d) e.firstClusterLow p := by
  obtain ⟨p, hcwd⟩ := h.tree.cwd
  by_cases hnamed : Named e
  · exact ⟨_, Dir.sub hcwd hlive hnamed hisdir⟩
  · cases hdot : isDot e with
    | true =>
      rw [(h.tree.dot hcwd hlive hdot).2]
      exact ⟨p, hcwd⟩
    | false =>
      rw [(h.tree.dotDot hcwd hlive (isDotDot_of_not_named hnamed hdot)).2]
      exact hcwd.parent_dir

/-- The volume does not depend on where one stands in it. -/
theorem volume_move (g : Globals) (d : Disk) (c : UInt16) (path : List UInt8) :
    volume { g with currentDirCluster := c, currentPath := path } d = volume g d := by
  have hslot : dirSlot { g with currentDirCluster := c, currentPath := path } d = dirSlot g d := by
    funext x n
    rw [dirSlot, dirSlot, dirLba_move]
  rw [volume, volume, hslot]
  rfl

/-- The invariant does not see the path string, and moves with the current directory. -/
theorem FsOk.move (h : FsOk g d) {c : UInt16} (hdir : ∃ p, Dir (volume g d) c p) (path : List UInt8) :
    FsOk { g with currentDirCluster := c, currentPath := path } d := by
  obtain ⟨hg, htree⟩ := h
  refine ⟨hg.move c path, ?_⟩
  rw [volume_move]
  exact ⟨htree.chain, htree.disjoint, htree.subdir, htree.dot, htree.dotDot, htree.hasDot,
    htree.hasDotDot, hdir⟩

/-- `cd` moves to the directory it finds. -/
theorem FsOk.cd (h : FsOk g d) (junk : Sector) (hfuel : 2 ^ 24 ≤ fuel) (w : List UInt8) :
    ∃ g', execute junk (fatChangeDir g fuel w) d = some (g', d) ∧
      (g' = g ∨ ∃ n lba e, Found g d g.currentDirCluster true (findVerdict w) n e lba ∧
        isDirectory e = true ∧ g' = { g with currentDirCluster := e.firstClusterLow,
                                             currentPath := changedPath g.currentPath w e }) := by
  obtain ⟨p, hcwd⟩ := h.tree.cwd
  obtain ⟨last, hlast, hnone⟩ := h.dir_ends hcwd
  have hm := h.geometry.initialized
  obtain ⟨r, hr⟩ := execute_fatFindFile_total junk hm (h.geometry.not_faults _) w (leavesAt_of_none hnone)
    (show last < fuel from by omega)
  cases r with
  | none =>
    refine ⟨g, ?_, Or.inl rfl⟩
    rw [fatChangeDir, if_neg (by rw [hm]; decide)]
    simp only [execute_bind, hr, Option.bind_some, execute_kprint, execute_pure]
  | some e =>
    obtain ⟨n, lba, hfound⟩ := (execute_fatFindFile hm hr).2 e rfl
    cases hisdir : isDirectory e with
    | false =>
      refine ⟨g, ?_, Or.inl rfl⟩
      rw [fatChangeDir, if_neg (by rw [hm]; decide)]
      simp [hr, hisdir]
    | true => exact ⟨_, execute_fatChangeDir_found hm hr hisdir, Or.inr ⟨n, lba, e, hfound, hisdir, rfl⟩⟩

/-! The three functions that write, as rules: what holds before and survives the update of the disk holds
after the function, which comes back. -/

section Rules

variable {P : Disk → Prop} (h : FsOk g d) (junk : Sector) (hfuel : 2 ^ 24 ≤ fuel) (w : List UInt8)
  (hP : P d)
include h hfuel hP

theorem FsOk.createEntry_rule (attr : UInt8) (cluster : UInt16) (size : ℕ)
    (hfill : ∀ n e lba, FreeSlot g d n e lba →
      P (putSlot d lba (n % 16) (fillEntry e w attr cluster size))) :
    ∃ r, execute junk (fatCreateEntry g fuel w attr cluster size) d = some r ∧ P r.2 := by
  obtain ⟨p, hcwd⟩ := h.tree.cwd
  obtain ⟨last, hlast, hnone⟩ := h.dir_ends hcwd
  have hm := h.geometry.initialized
  obtain ⟨⟨r, d'⟩, hr⟩ := execute_fatCreateEntry_total junk w hm
    (h.geometry.not_faults _) (leavesAt_of_none hnone) (show last < fuel from by omega) attr cluster size
  refine ⟨_, hr, ?_⟩
  cases execute_fatCreateEntry hm hr with
  | inl hcreated =>
    obtain ⟨-, n, e, lba, hslot, rfl⟩ := hcreated
    exact hfill n e lba hslot
  | inr hfull =>
    obtain ⟨-, rfl, -⟩ := hfull
    exact hP

theorem FsOk.deleteFile_rule
    (hdelete : ∀ n e lba, Target g d (deleteFileVerdict w) n e lba → isDirectory e = false →
      ∃ d₁, freeCluster g fuel e.firstClusterLow d = some d₁ ∧
        P (d₁.put lba (putEntry (d.get lba) (n % 16) (markDeleted e)))) :
    ∃ r, execute junk (fatDeleteFile g fuel w) d = some r ∧ P r.2 := by
  obtain ⟨p, hcwd⟩ := h.tree.cwd
  obtain ⟨last, hlast, hnone⟩ := h.dir_ends hcwd
  have hm := h.geometry.initialized
  obtain ⟨⟨r, d'⟩, hr⟩ := execute_fatDeleteFile_total junk hm (h.geometry.not_faults _)
    (leavesAt_of_none hnone) (show last < fuel from by omega) fun n e lba ht hisdir => by
      obtain ⟨d₁, hd₁, -⟩ := hdelete n e lba ht hisdir
      exact ⟨d₁, hd₁⟩
  refine ⟨_, hr, ?_⟩
  cases execute_fatDeleteFile hm hr with
  | inl hkept =>
    obtain ⟨-, rfl⟩ := hkept
    exact hP
  | inr hgone =>
    obtain ⟨-, n, e, lba, ht, hisdir, d₁, hfree, rfl⟩ := hgone
    obtain ⟨d₂, hd₂, hafter⟩ := hdelete n e lba ht hisdir
    rw [hfree] at hd₂
    cases hd₂
    exact hafter

theorem FsOk.deleteDir_rule
    (hlive : ∀ n e lba, Target g d (deleteDirVerdict w) n e lba → isDirectory e = true →
      Live (volume g d) g.currentDirCluster n e)
    (hdelete : ∀ n e lba, Target g d (deleteDirVerdict w) n e lba → isDirectory e = true →
      DirEmpty g d e.firstClusterLow →
      ∃ d₁, freeCluster g fuel e.firstClusterLow d = some d₁ ∧
        P (d₁.put lba (putEntry (d.get lba) (n % 16) (markDeleted e)))) :
    ∃ r, execute junk (fatDeleteDir g fuel w) d = some r ∧ P r.2 := by
  obtain ⟨p, hcwd⟩ := h.tree.cwd
  obtain ⟨last, hlast, hnone⟩ := h.dir_ends hcwd
  have hm := h.geometry.initialized
  obtain ⟨⟨r, d'⟩, hr⟩ := execute_fatDeleteDir_total junk hm (h.geometry.not_faults _)
    (leavesAt_of_none hnone) (show last < fuel from by omega)
    (fun n e lba ht hisdir => by
      -- the directory that is looked into is one of the tree, so it ends
      obtain ⟨q, hq⟩ := h.dir_of_live (hlive n e lba ht hisdir) hisdir
      obtain ⟨l, hl, hnone'⟩ := h.dir_ends hq
      exact ⟨h.geometry.not_faults _, l, by omega, leavesAt_of_none hnone'⟩)
    (fun n e lba ht hisdir hempty => by
      obtain ⟨d₁, hd₁, -⟩ := hdelete n e lba ht hisdir hempty
      exact ⟨d₁, hd₁⟩)
  refine ⟨_, hr, ?_⟩
  cases execute_fatDeleteDir hm hr with
  | inl hkept =>
    obtain ⟨-, rfl⟩ := hkept
    exact hP
  | inr hgone =>
    obtain ⟨-, n, e, lba, ht, hisdir, hempty, d₁, hfree, rfl⟩ := hgone
    obtain ⟨d₂, hd₂, hafter⟩ := hdelete n e lba ht hisdir hempty
    rw [hfree] at hd₂
    cases hd₂
    exact hafter

end Rules

/-- `touch` fills a free slot, if there is one. -/
theorem FsOk.touch (h : FsOk g d) (junk : Sector) (hfuel : 2 ^ 24 ≤ fuel) (w : Word)
    (hclean : EndMarkClean (volume g d) g.currentDirCluster) :
    ∃ r, execute junk (fatCreateEntry g fuel w.val 0 0 0) d = some r ∧
      Effect (g, d) (.touch w) (g, r.2) :=
  h.createEntry_rule (P := fun d' => Effect (g, d) (.touch w) (g, d')) junk hfuel w.val (.kept _) 0 0 0
    fun _ _ _ hslot => .touched (s := (g, d)) (h.creates_file hslot hclean w.val)

/-- The first free word, when its number fits, is a free FAT entry. -/
theorem firstFree_fatEntry {k : ℕ} (hk : FirstFree g d k) (hk16 : k < 65536) :
    fatEntry g d (UInt16.ofNat k) = 0 := by
  rw [← fatWord_eq_fatEntry hk16]
  exact hk.2.1.2

/-- `mkdir` takes a cluster, if there is one, and fills a free slot, if there is one. -/
theorem FsOk.mkdir (h : FsOk g d) (junk : Sector) (hfuel : 2 ^ 24 ≤ fuel) (w : Word)
    (hfree : ∀ k, FirstFree g d k → k < 65536 ∧ IsData g (UInt16.ofNat k) ∧
      EndMarkClean (volume g d) g.currentDirCluster) :
    ∃ r, execute junk (cmdMkdir g fuel w.val) d = some r ∧ Effect (g, d) (.mkdir w) (g, r.2) := by
  by_cases hnone : ∀ k, ¬ FirstFree g d k
  · exact ⟨_, execute_cmdMkdir_full hnone, .kept _⟩
  · push Not at hnone
    obtain ⟨k, hk⟩ := hnone
    obtain ⟨hk16, hdata, hclean⟩ := hfree k hk
    have hzero := firstFree_fatEntry hk hk16
    have hok := h.newDir_ok hdata.1 hdata.2.2.1 hzero
    rw [execute_cmdMkdir_free hk]
    refine hok.createEntry_rule (P := fun d' => Effect (g, d) (.mkdir w) (g, d')) junk hfuel w.val ?_
      attrDirectory (UInt16.ofNat k) 0
      fun _ _ _ hslot => .made (s := (g, d)) hk (h.creates_dir hdata hzero hslot hclean w.val)
    refine .allocated (s := (g, d)) ?_ ?_
    · intro dir parent hdir m
      exact h.dirSlot_withNewDir hdata.1 hdata.2.2.1 hzero hdir m
    · intro x hx h0
      exact h.fatEntry_withNewDir_used hdata.1 hdata.2.2.1 hzero hx h0

/-- A live entry that is not a directory is neither `.` nor `..` -/
theorem FsOk.named_of_plain (h : FsOk g d) {n : ℕ} {e : DirEntry}
    (hlive : Live (volume g d) g.currentDirCluster n e) (hisdir : isDirectory e = false) : Named e := by
  obtain ⟨p, hcwd⟩ := h.tree.cwd
  constructor
  · rw [Bool.eq_false_iff]
    intro hdot
    exact absurd ((h.tree.dot hcwd hlive hdot).1.symm.trans hisdir) (by decide)
  · rw [Bool.eq_false_iff]
    intro hdot
    exact absurd ((h.tree.dotDot hcwd hlive hdot).1.symm.trans hisdir) (by decide)

/-- `rm` deletes the file it finds, as long as it does not find its name behind the end mark. -/
theorem FsOk.rm (h : FsOk g d) (junk : Sector) (hfuel : 2 ^ 24 ≤ fuel) (w : Word)
    (hlive : ∀ n e lba, Target g d (deleteFileVerdict w.val) n e lba → isDirectory e = false →
      Live (volume g d) g.currentDirCluster n e) :
    ∃ r, execute junk (fatDeleteFile g fuel w.val) d = some r ∧ Effect (g, d) (.rm w) (g, r.2) := by
  apply h.deleteFile_rule (P := fun d' => Effect (g, d) (.rm w) (g, d')) junk hfuel w.val (.kept _)
  intro n e lba ht hisdir
  have hl := hlive n e lba ht hisdir
  obtain ⟨d₁, hd₁, l, hdel⟩ := h.deletes ht.sector hl
    (Or.inl (h.named_of_plain hl hisdir)) (fun hd => by simp [hisdir] at hd)
    (show 65536 ≤ fuel from by omega)
  exact ⟨d₁, hd₁, .removed (s := (g, d)) hdel⟩

/-- An empty directory that `rmdir` finds is not the parent of a subdirectory: that one still holds the
entry of its child. -/
theorem FsOk.kind_of_empty (h : FsOk g d) {n : ℕ} {e : DirEntry}
    (hlive : Live (volume g d) g.currentDirCluster n e) (hempty : DirEmpty g d e.firstClusterLow) :
    Named e ∨ isDot e = true ∨ g.currentDirCluster = 0 ∧ e.firstClusterLow = 0 := by
  obtain ⟨p, hcwd⟩ := h.tree.cwd
  by_cases hnamed : Named e
  · exact Or.inl hnamed
  · cases hdot : isDot e with
    | true => exact Or.inr (Or.inl rfl)
    | false =>
      have hparent := (h.tree.dotDot hcwd hlive (isDotDot_of_not_named hnamed hdot)).2
      by_cases h0 : g.currentDirCluster = 0
      · rw [h0] at hcwd
        exact Or.inr (Or.inr ⟨h0, hparent.trans (h.tree.root_parent hcwd)⟩)
      · obtain ⟨n', e', l, hentry, -, -, -⟩ := h.tree.dir_entry hcwd h0
        rw [hparent] at hempty
        exact absurd hentry.named (hempty.not_named hentry.live)

/-- `rmdir` deletes the empty directory it finds, as long as it does not find its name behind the end mark
and does not remove the current directory through its own `.` -/
theorem FsOk.rmdir (h : FsOk g d) (junk : Sector) (hfuel : 2 ^ 24 ≤ fuel) (w : Word)
    (hlive : ∀ n e lba, Target g d (deleteDirVerdict w.val) n e lba → isDirectory e = true →
      Live (volume g d) g.currentDirCluster n e ∧
        (isDot e = true → DirEmpty g d e.firstClusterLow → g.currentDirCluster = 0)) :
    ∃ r, execute junk (fatDeleteDir g fuel w.val) d = some r ∧ Effect (g, d) (.rmdir w) (g, r.2) := by
  obtain ⟨p, hcwd⟩ := h.tree.cwd
  apply h.deleteDir_rule (P := fun d' => Effect (g, d) (.rmdir w) (g, d')) junk hfuel w.val (.kept _)
    fun n e lba ht hisdir => (hlive n e lba ht hisdir).1
  intro n e lba ht hisdir hempty
  obtain ⟨hl, hnodot⟩ := hlive n e lba ht hisdir
  have hkind : Named e ∨ g.currentDirCluster = 0 ∧ e.firstClusterLow = 0 := by
    rcases h.kind_of_empty hl hempty with hnamed | hdot | hroot
    · exact Or.inl hnamed
    · have h0 := hnodot hdot hempty
      exact Or.inr ⟨h0, (h.tree.dot hcwd hl hdot).2.trans h0⟩
    · exact Or.inr hroot
  obtain ⟨d₁, hd₁, l, hdel⟩ := h.deletes ht.sector hl hkind (fun _ => hempty)
    (show 65536 ≤ fuel from by omega)
  exact ⟨d₁, hd₁, .removedDir (s := (g, d)) hdel⟩

/-- **Every effect keeps the invariant.** -/
theorem FsOk.effect {s s' : FileSystem} {c : Command} (h : FsOk s.1 s.2) (heff : Effect s c s') :
    FsOk s'.1 s'.2 := by
  cases heff with
  | kept => exact h
  | moved hfound hisdir => exact h.move (h.dir_of_live (found_live hfound) hisdir) _
  | touched hnew => exact ⟨h.geometry, h.tree.create (dataRange s.1) hnew⟩
  | made _ hnew => exact ⟨h.geometry, h.tree.create (dataRange s.1) hnew⟩
  | allocated hslot hfat => exact ⟨h.geometry, WellFormed.frame hslot h.tree (dataRange s.1) hfat⟩
  | removed hdel => exact ⟨h.geometry, h.tree.delete (dataRange s.1) hdel⟩
  | removedDir hdel => exact ⟨h.geometry, h.tree.delete (dataRange s.1) hdel⟩

end Commands

/-! ### Runs -/

/-- What a command needs to find, in the state before it, for the invariant to survive. -/
def Admissible (s : FileSystem) : Command → Prop
  | .cd _ => True
  | .touch _ => EndMarkClean (volume s.1 s.2) s.1.currentDirCluster
  | .mkdir _ => ∀ k, FirstFree s.1 s.2 k → k < 65536 ∧ IsData s.1 (UInt16.ofNat k) ∧
      EndMarkClean (volume s.1 s.2) s.1.currentDirCluster
  | .rm w => ∀ n e lba, Target s.1 s.2 (deleteFileVerdict w.val) n e lba → isDirectory e = false →
      Live (volume s.1 s.2) s.1.currentDirCluster n e
  | .rmdir w => ∀ n e lba, Target s.1 s.2 (deleteDirVerdict w.val) n e lba → isDirectory e = true →
      Live (volume s.1 s.2) s.1.currentDirCluster n e ∧
        (isDot e = true → DirEmpty s.1 s.2 e.firstClusterLow → s.1.currentDirCluster = 0)

/-- One admissible command comes back, with one of the effects. -/
theorem step_effect (junk : Sector) {fuel : ℕ} (hfuel : 2 ^ 24 ≤ fuel) (s : FileSystem) (c : Command)
    (hok : FsOk s.1 s.2) (hc : Admissible s c) :
    ∃ s', step junk fuel s c = some s' ∧ Effect s c s' := by
  cases c with
  | cd w =>
    obtain ⟨g', hg', hmoved⟩ := hok.cd junk hfuel w.val
    refine ⟨_, (step_cd junk fuel s w).trans hg', ?_⟩
    cases hmoved with
    | inl hsame =>
      rw [hsame]
      exact .kept _
    | inr hdir =>
      obtain ⟨n, lba, e, hfound, hisdir, rfl⟩ := hdir
      exact .moved hfound hisdir
  | touch w =>
    obtain ⟨r, hr, heff⟩ := hok.touch junk hfuel w hc
    exact ⟨_, (step_touch junk fuel s w).trans (by rw [hr]; rfl), heff⟩
  | mkdir w =>
    obtain ⟨r, hr, heff⟩ := hok.mkdir junk hfuel w hc
    exact ⟨_, (step_mkdir junk fuel s w).trans (by rw [hr]; rfl), heff⟩
  | rm w =>
    obtain ⟨r, hr, heff⟩ := hok.rm junk hfuel w hc
    exact ⟨_, (step_rm junk fuel s w).trans (by rw [hr]; rfl), heff⟩
  | rmdir w =>
    obtain ⟨r, hr, heff⟩ := hok.rmdir junk hfuel w hc
    exact ⟨_, (step_rmdir junk fuel s w).trans (by rw [hr]; rfl), heff⟩

/-- One admissible command keeps the invariant. -/
theorem step_ok (junk : Sector) {fuel : ℕ} (hfuel : 2 ^ 24 ≤ fuel) (s : FileSystem) (c : Command)
    (hok : FsOk s.1 s.2) (hc : Admissible s c) :
    ∃ s', step junk fuel s c = some s' ∧ FsOk s'.1 s'.2 := by
  obtain ⟨s', hs', heff⟩ := step_effect junk hfuel s c hok hc
  exact ⟨s', hs', hok.effect heff⟩

/-- **The file-system invariant.**  From a well-formed volume, along every run of admissible commands,
every command comes back and leaves a well-formed volume. -/
theorem fs_invariant (junk : Sector) {fuel : ℕ} (hfuel : 2 ^ 24 ≤ fuel) (s : FileSystem)
    (hok : FsOk s.1 s.2) (cs rest : List Command)
    (hadm : AdmitsOption (step junk fuel) Admissible s (cs ++ rest)) :
    ∃ s', runOption (step junk fuel) s cs = some s' ∧ FsOk s'.1 s'.2 :=
  runOption_invariant (fun s c hok hc => step_ok junk hfuel s c hok hc) s hok cs
    (admitsOption_of_append s cs rest hadm)

/-! ### On the small volume -/

/-- The word `d`. -/
def wordD : Word := ⟨text "d", by decide⟩

/-- The word `.` -/
def wordDot : Word := ⟨text ".", by decide⟩

theorem smallDisk_firstFree {k : ℕ} (h : FirstFree smallVolume smallDisk k) : k = 2 := by
  have h2 : FreeWord smallVolume smallDisk 2 := ⟨by decide, rfl⟩
  obtain ⟨-, ⟨hlow, -⟩, hleast⟩ := h
  by_contra hne
  have hlt : 2 < k := by
    rcases Nat.lt_trichotomy k 2 with hk | hk | hk
    · rw [Nat.mod_eq_of_lt (by omega)] at hlow
      omega
    · exact absurd hk hne
    · exact hk
  exact hleast 2 hlt h2

theorem smallDisk_clean : EndMarkClean (volume smallVolume smallDisk) 0 := by
  intro n e _ _ _ m x _ hx _
  exact Or.inl (smallDisk_root hx)

theorem smallDisk_admits_mkdir (w : Word) : Admissible (smallVolume, smallDisk) (.mkdir w) := by
  intro k hk
  rw [smallDisk_firstFree hk]
  exact ⟨by decide, ⟨by decide, by decide, by decide, by decide⟩, smallDisk_clean⟩

/-- `mkdir d` and `cd d` on an empty volume. -/
theorem fs_invariant_mkdir_cd :
    ∃ s', runOption (step (fun _ => 0) (2 ^ 24)) (smallVolume, smallDisk)
      [.mkdir wordD, .cd wordD] = some s' ∧ FsOk s'.1 s'.2 := by
  exact fs_invariant (fun _ => 0) le_rfl (smallVolume, smallDisk) fsOk_small
    [.mkdir wordD, .cd wordD] []
    ⟨smallDisk_admits_mkdir wordD, fun s' _ => ⟨trivial, fun _ _ => trivial⟩⟩

/-- The root still has a live directory entry for cluster 2, whose FAT entry is free. -/
def lostDirectory (s : FileSystem) : Bool :=
  fatEntry s.1 s.2 2 == 0 &&
    match dirSlot s.1 s.2 0 0 with
    | some e => e.name 0 == 68 && isDirectory e && e.firstClusterLow == 2
    | none => false

theorem not_fsOk_of_lostDirectory {s : FileSystem} (h : lostDirectory s = true) : ¬ FsOk s.1 s.2 := by
  intro hok
  rw [lostDirectory] at h
  obtain ⟨hfree, hslot⟩ := Bool.and_eq_true_iff.mp h
  split at hslot
  · rename_i e he
    simp only [Bool.and_eq_true, beq_iff_eq] at hslot hfree
    obtain ⟨⟨hname, -⟩, hfc⟩ := hslot
    have hlive : Live (volume s.1 s.2) 0 0 e :=
      ⟨he, by rw [hname]; decide, by rw [hname]; decide, fun m hm => by omega⟩
    have hnamed : Named e := ⟨by simp [isDot, hname], by simp [isDotDot, hname]⟩
    obtain ⟨l, hl⟩ := hok.tree.chain ⟨⟨0, Dir.root⟩, hlive, hnamed⟩ (by rw [hfc]; decide)
    have hne := hl.fat_ne_zero (dataRange s.1) hl.head_mem
    rw [hfc] at hne
    exact hne hfree
  · cases hslot

/-- **`rmdir .` frees the current directory under its own name**: the parent's entry and the current
directory are left with a free cluster. -/
theorem rmdir_dot_breaks_tree :
    FsOk smallVolume smallDisk ∧
      ∃ s', runOption (step (fun _ => 0) (2 ^ 24)) (smallVolume, smallDisk)
        [.mkdir wordD, .cd wordD, .rmdir wordDot] = some s' ∧ ¬ FsOk s'.1 s'.2 := by
  refine ⟨fsOk_small, ?_⟩
  have hrun : (runOption (step (fun _ => 0) (2 ^ 24)) (smallVolume, smallDisk)
      [.mkdir wordD, .cd wordD, .rmdir wordDot]).map lostDirectory = some true := by
    decide +kernel
  obtain ⟨s', hs', hlost⟩ := Option.map_eq_some_iff.mp hrun
  exact ⟨s', hs', not_fsOk_of_lostDirectory hlost⟩

end OsEojin.Fat
