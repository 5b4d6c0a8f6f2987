import OsEojin.FatInvariant

/-!
# What a command leaves alone

A file is a plain live entry of the tree with the clusters of its chain.  The commands write FAT entries,
directory sectors and the first sector of a new directory; on a well-formed volume none of these belongs
to another file.  The raw command `write` has no regard for the volume and replaces sector 200.

* `File`, `Keeps`: the entry, the FAT entries and the data sectors of a file are as before;
* `IsFile.keeps_putSlot`, `IsFile.keeps_newDir`, `IsFile.keeps_deleted`: the updates of the disk;
* `execute_catLoop`, `execute_loadLoop`: the loops that only read;
* `other_files_untouched`: every command line.
-/

namespace OsEojin.Fat

open OsEojin.Lib.Programs OsEojin.Ata OsEojin.Shell

/-- A file: where its entry stands, the entry, and the clusters of its chain. -/
structure File where
  dir : UInt16
  slot : ℕ
  entry : DirEntry
  chain : List UInt16

/-- The volume holds the file: a live entry that is not a directory, with its chain. -/
structure IsFile (g : Globals) (d : Disk) (F : File) : Prop where
  entry : Entry (volume g d) F.dir F.slot F.entry
  plain : isDirectory F.entry = false
  chain : F.entry.firstClusterLow ≠ 0 → DiskChain g d F.entry.firstClusterLow F.chain
  empty : F.entry.firstClusterLow = 0 → F.chain = []

/-- **The file is as it was**: the 32 bytes of its entry, the FAT entries of its chain and all its data
sectors. -/
structure Keeps (g : Globals) (d d' : Disk) (F : File) : Prop where
  entry : ∀ lba, dirLba g d F.dir (F.slot / 16) = some lba →
    entryAt (d'.get lba) (F.slot % 16) = entryAt (d.get lba) (F.slot % 16)
  fat : ∀ x ∈ F.chain, fatEntry g d' x = fatEntry g d x
  data : ∀ x ∈ F.chain, ∀ off, off < g.fatInfo.sectorsPerCluster.toNat →
    d'.get (clusterLba g x + off) = d.get (clusterLba g x + off)

theorem Keeps.refl (g : Globals) (d : Disk) (F : File) : Keeps g d d F :=
  ⟨fun _ _ => rfl, fun _ _ => rfl, fun _ _ _ _ => rfl⟩

theorem Keeps.trans {g : Globals} {d d₁ d' : Disk} {F : File} (h : Keeps g d d₁ F)
    (h' : Keeps g d₁ d' F) (hlba : ∀ i, dirLba g d₁ F.dir i = dirLba g d F.dir i) : Keeps g d d' F := by
  constructor
  · intro lba hsector
    rw [h'.entry lba ((hlba _).trans hsector), h.entry lba hsector]
  · exact fun x hx => (h'.fat x hx).trans (h.fat x hx)
  · exact fun x hx off hoff => (h'.data x hx off hoff).trans (h.data x hx off hoff)

/-- The entry is in its place when the slot is read from the same sector. -/
theorem entry_of_dirSlot {g : Globals} {d d' : Disk} {dir : UInt16} {n : ℕ}
    (hlba : ∀ i, dirLba g d' dir i = dirLba g d dir i) (hslot : dirSlot g d' dir n = dirSlot g d dir n)
    (lba : ℕ) (hsector : dirLba g d dir (n / 16) = some lba) :
    entryAt (d'.get lba) (n % 16) = entryAt (d.get lba) (n % 16) := by
  rw [dirSlot, dirSlot, hlba, hsector] at hslot
  exact Option.some.inj hslot

section Files

variable {g : Globals} {d d' : Disk} {F : File} {dir parent : UInt16}

theorem IsFile.chain_of_mem (hF : IsFile g d F) {x : UInt16} (hx : x ∈ F.chain) :
    DiskChain g d F.entry.firstClusterLow F.chain := by
  apply hF.chain
  intro h0
  rw [hF.empty h0] at hx
  cases hx

theorem IsFile.data_of_mem (hF : IsFile g d F) {x : UInt16} (hx : x ∈ F.chain) : IsData g x :=
  (hF.chain_of_mem hx).data_of_mem hx

/-- The file shares no cluster with another entry. -/
theorem IsFile.not_mem (h : FsOk g d) (hF : IsFile g d F) {n : ℕ} {e : DirEntry} {l : List UInt16}
    (he : Entry (volume g d) dir n e) (hne : F.dir ≠ dir ∨ F.slot ≠ n)
    (hl : DiskChain g d e.firstClusterLow l) {x : UInt16} (hx : x ∈ F.chain) : x ∉ l :=
  h.tree.disjoint hF.entry he (hF.chain_of_mem hx) hl hne hx

/-- A directory's entry is not the file's. -/
theorem IsFile.ne_of_isDirectory (hF : IsFile g d F) {n : ℕ} {e : DirEntry}
    (he : Entry (volume g d) dir n e) (hisdir : isDirectory e = true) : F.dir ≠ dir ∨ F.slot ≠ n := by
  by_contra hboth
  push Not at hboth
  obtain ⟨rfl, rfl⟩ := hboth
  obtain rfl := hF.entry.live.unique he.live
  exact absurd (hF.plain.symm.trans hisdir) (by decide)

/-- **No data sector of a file is a directory sector.** -/
theorem IsFile.data_ne_dirLba (h : FsOk g d) (hF : IsFile g d F) {x : UInt16} (hx : x ∈ F.chain)
    {off i lba : ℕ} (hoff : off < g.fatInfo.sectorsPerCluster.toNat)
    (hdir : Dir (volume g d) dir parent) (hlba : dirLba g d dir i = some lba) :
    clusterLba g x + off ≠ lba := by
  rintro rfl
  have hdata := hF.data_of_mem hx
  obtain ⟨n, e, l, -, hfc, hl, hmem, -⟩ := h.dirLba_cluster hdir hdata.1 hoff hlba
  have h0 : dir ≠ 0 := (dataRange g).ne_zero hl.head_data
  obtain ⟨n', e', -, he', hisdir, hfc', -⟩ := h.tree.dir_entry hdir h0
  exact hF.not_mem h he' (hF.ne_of_isDirectory he' hisdir) (hfc'.symm ▸ hl) hx (List.mem_of_getElem? hmem)

/-- Writing another slot of the current directory keeps the file. -/
theorem IsFile.keeps_putSlot (h : FsOk g d) (hF : IsFile g d F) {n lba : ℕ} (e' : DirEntry)
    (hsector : dirLba g d g.currentDirCluster (n / 16) = some lba)
    (hne : F.dir ≠ g.currentDirCluster ∨ F.slot ≠ n) : Keeps g d (putSlot d lba (n % 16) e') F := by
  obtain ⟨p, hcwd⟩ := h.tree.cwd
  obtain ⟨q, hdir⟩ := hF.entry.reach
  constructor
  · apply entry_of_dirSlot
    · exact h.dirLba_same hdir fun l hl x hx => h.fatEntry_putSlot hsector (hl.data_of_mem hx)
    · rw [h.dirSlot_putSlot hsector hdir, if_neg (not_and_or.mpr hne)]
  · intro x hx
    exact h.fatEntry_putSlot hsector (hF.data_of_mem hx)
  · intro x hx off hoff
    rw [h.get_putSlot hsector (h.geometry.cluster_lt x hoff),
      if_neg (hF.data_ne_dirLba h hx hoff hcwd hsector)]

/-- Allocating a cluster leaves the file's directory where it is. -/
theorem IsFile.dirLba_newDir (h : FsOk g d) (hF : IsFile g d F) {c : UInt16} (h2 : 2 ≤ c.toNat)
    (hfat : c.toNat < 256 * g.fatInfo.fatSize16.toNat) (hfree : fatEntry g d c = 0) (i : ℕ) :
    dirLba g (withNewDir g d c) F.dir i = dirLba g d F.dir i := by
  obtain ⟨q, hdir⟩ := hF.entry.reach
  apply h.dirLba_same hdir
  intro l hl x hx
  exact h.fatEntry_withNewDir_used h2 hfat hfree (hl.data_of_mem hx) (hl.fat_ne_zero (dataRange g) hx)

/-- Allocating a cluster for a directory and filling it keeps the file. -/
theorem IsFile.keeps_newDir (h : FsOk g d) (hF : IsFile g d F) {c : UInt16} (h2 : 2 ≤ c.toNat)
    (hfat : c.toNat < 256 * g.fatInfo.fatSize16.toNat) (hfree : fatEntry g d c = 0) :
    Keeps g d (withNewDir g d c) F := by
  obtain ⟨q, hdir⟩ := hF.entry.reach
  -- the clusters of the file are in use, the new one is not
  have hused : ∀ x ∈ F.chain, fatEntry g d x ≠ 0 := fun x hx =>
    (hF.chain_of_mem hx).fat_ne_zero (dataRange g) hx
  constructor
  · exact entry_of_dirSlot (hF.dirLba_newDir h h2 hfat hfree) (h.dirSlot_withNewDir h2 hfat hfree hdir F.slot)
  · intro x hx
    exact h.fatEntry_withNewDir_used h2 hfat hfree (hF.data_of_mem hx) (hused x hx)
  · intro x hx off hoff
    have hlo := h.geometry.rootDir_le_clusterLba x
    rw [h.geometry.get_withNewDir h2 hfat (by omega) (h.geometry.cluster_lt x hoff), if_neg]
    intro heq
    obtain ⟨rfl, -⟩ := clusterLba_inj (hF.data_of_mem hx).1 h2 hoff h.geometry.spc_pos
      (heq.trans (Nat.add_zero _).symm)
    exact hused x hx hfree

/-- The file is still there after a new directory got its cluster. -/
theorem IsFile.newDir (h : FsOk g d) (hF : IsFile g d F) {c : UInt16} (h2 : 2 ≤ c.toNat)
    (hfat : c.toNat < 256 * g.fatInfo.fatSize16.toNat) (hfree : fatEntry g d c = 0) :
    IsFile g (withNewDir g d c) F := by
  have hslot : ∀ dir parent, Dir (volume g d) dir parent → ∀ m,
      (volume g (withNewDir g d c)).slot dir m = (volume g d).slot dir m :=
    fun _ _ hdir m => h.dirSlot_withNewDir h2 hfat hfree hdir m
  constructor
  · exact (entry_frame hslot).mpr hF.entry
  · exact hF.plain
  · intro h0
    exact (hF.chain h0).congr (hF.keeps_newDir h h2 hfat hfree).fat
  · exact hF.empty

/-- **Deleting another entry keeps the file.**  The chain that is freed belongs to an entry other than the
file, and is not the chain of the directory the file stands in. -/
theorem IsFile.keeps_deleted (h : FsOk g d) (hF : IsFile g d F) {n lba fuel : ℕ} {e e' : DirEntry}
    (hsector : dirLba g d g.currentDirCluster (n / 16) = some lba)
    (hne : F.dir ≠ g.currentDirCluster ∨ F.slot ≠ n)
    (howner : e.firstClusterLow ≠ 0 → F.dir ≠ e.firstClusterLow ∧
      ∃ p m e₀, Entry (volume g d) p m e₀ ∧ e₀.firstClusterLow = e.firstClusterLow ∧
        (F.dir ≠ p ∨ F.slot ≠ m)) (hfuel : 65536 ≤ fuel) :
    ∃ d₁, freeCluster g fuel e.firstClusterLow d = some d₁ ∧
      Keeps g d (d₁.put lba (putEntry (d.get lba) (n % 16) e')) F := by
  obtain ⟨p, hcwd⟩ := h.tree.cwd
  obtain ⟨q, hdir⟩ := hF.entry.reach
  obtain ⟨hlo, hhi⟩ := h.dirLba_region hcwd hsector
  obtain ⟨l, hchain, hnone⟩ : ∃ l : List UInt16,
      (e.firstClusterLow ≠ 0 → DiskChain g d e.firstClusterLow l) ∧
      (e.firstClusterLow = 0 → l = []) := by
    by_cases h0 : e.firstClusterLow = 0
    · exact ⟨[], fun hne => absurd h0 hne, fun _ => rfl⟩
    · obtain ⟨-, p, m, e₀, he₀, hfc, -⟩ := howner h0
      obtain ⟨l, hl⟩ := h.tree.chain he₀ (by rw [hfc]; exact h0)
      exact ⟨l, fun _ => hfc ▸ hl, fun hz => absurd hz h0⟩
  have hcluster : ∀ x ∈ l, e.firstClusterLow ≠ 0 := by
    intro x hx h0
    rw [hnone h0] at hx
    cases hx
  obtain ⟨d₁, hfree, hfat, hget⟩ := freeCluster_spec h.geometry hfuel hchain hnone
  have hput : ∀ x, IsData g x → x ∉ l →
      fatEntry g (d₁.put lba (putEntry (d.get lba) (n % 16) e')) x = fatEntry g d x := by
    intro x hx hxl
    rw [h.geometry.fatEntry_put _ hlo hhi hx.2.2.1, hfat, if_neg hxl]
  -- the directory of the file is not the one whose chain is freed
  have hlba : ∀ i, dirLba g (d₁.put lba (putEntry (d.get lba) (n % 16) e')) F.dir i =
      dirLba g d F.dir i := by
    apply h.dirLba_same hdir
    intro t ht x hx
    apply hput x (ht.data_of_mem hx)
    intro hxl
    obtain ⟨hdirne, p', m, e₀, he₀, hfc, -⟩ := howner (hcluster x hxl)
    have h0 : F.dir ≠ 0 := (dataRange g).ne_zero ht.head_data
    obtain ⟨n', e'', -, he'', -, hfc'', -⟩ := h.tree.dir_entry hdir h0
    have hpos : q ≠ p' ∨ n' ≠ m := by
      by_contra hboth
      push Not at hboth
      obtain ⟨rfl, rfl⟩ := hboth
      obtain rfl := he''.live.unique he₀.live
      exact hdirne (hfc''.symm.trans hfc)
    exact h.tree.disjoint he'' he₀ (hfc''.symm ▸ ht) (hfc.symm ▸ hchain (hcluster x hxl)) hpos hx hxl
  refine ⟨d₁, hfree, ?_, ?_, ?_⟩
  · apply entry_of_dirSlot hlba
    rw [h.slot_update hsector hdir hlba
      (fun lba' hlo' hhi' => by rw [get_put _ hhi hhi', hget lba' hlo' hhi']),
      if_neg (not_and_or.mpr hne)]
  · intro x hx
    apply hput x (hF.data_of_mem hx)
    intro hxl
    obtain ⟨-, p', m, e₀, he₀, hfc, hother⟩ := howner (hcluster x hxl)
    exact hF.not_mem h he₀ hother (hfc.symm ▸ hchain (hcluster x hxl)) hx hxl
  · intro x hx off hoff
    have hlt := h.geometry.cluster_lt x hoff
    have hbehind := h.geometry.rootDir_le_clusterLba x
    rw [get_put _ hhi hlt, if_neg (hF.data_ne_dirLba h hx hoff hcwd hsector),
      hget _ (by omega) hlt]

end Files

/-! ### Commands that only read -/

section Reading

variable {g : Globals} {d : Disk} {fuel : ℕ}

theorem fileSize_lt (e : DirEntry) : e.fileSize < 2 ^ 32 := by
  have hlow : (le16 (e 28) (e 29)).toNat < 65536 := UInt16.toNat_lt _
  have hhigh : (le16 (e 30) (e 31)).toNat < 65536 := UInt16.toNat_lt _
  rw [DirEntry.fileSize]
  omega

/-- The loop of `cat` ends with the file's size, wherever the links lead. -/
theorem execute_catLoop (junk : Sector) (g : Globals) (d : Disk) (n : ℕ) {size : ℕ}
    (hsize : size ≤ 512 * n) (c : UInt16) (b : Buffer) :
    ∃ b', execute junk (catLoop g (n + 1) size c b) d = some (b', d) := by
  induction n generalizing size c b with
  | zero =>
    rw [catLoop, if_neg (by omega)]
    exact ⟨b, rfl⟩
  | succ n ih =>
    rw [catLoop]
    split
    · simp only [execute_bind, execute_ataReadSector, Option.bind_some, execute_forM_kprint,
        execute_fatNextCluster]
      exact ih (by omega) _ _
    · exact ⟨b, rfl⟩

/-- So does the loop of `exec`. -/
theorem execute_loadLoop (junk : Sector) (g : Globals) (d : Disk) (n : ℕ) {size : ℕ}
    (hsize : size ≤ 512 * n) (c : UInt16) (b : Buffer) (image : List UInt8) :
    ∃ r, execute junk (loadLoop g (n + 1) size c b image) d = some (r, d) := by
  induction n generalizing size c b image with
  | zero =>
    rw [loadLoop, if_neg (by omega)]
    exact ⟨(b, image), rfl⟩
  | succ n ih =>
    rw [loadLoop]
    split
    · simp only [execute_bind, execute_ataReadSector, Option.bind_some, execute_fatNextCluster]
      apply ih
      split
      · omega
      · omega
    · exact ⟨(b, image), rfl⟩

/-- `ls` comes back and writes nothing. -/
theorem FsOk.ls (h : FsOk g d) (junk : Sector) (hfuel : 2 ^ 24 ≤ fuel) :
    execute junk (fatList g fuel) d = some ((), d) := by
  obtain ⟨p, hcwd⟩ := h.tree.cwd
  obtain ⟨last, hlast, hnone⟩ := h.dir_ends hcwd
  rw [fatList, if_neg (by rw [h.geometry.initialized]; decide), execute_bind, execute_kmalloc,
    Option.bind_some, if_neg (by simp)]
  obtain ⟨r, hr, -⟩ := execute_scanDir_total junk true markVerdict (h.geometry.not_faults _)
    (leavesAt_of_none hnone) (show last < fuel from by omega) (freshBlock junk)
  simp only [execute_bind, execute_kprint, Option.bind_some, execute_listLoop, hr]
  rfl

/-- The lookup of `cat` and `exec` comes back. -/
theorem FsOk.lookup (h : FsOk g d) (junk : Sector) (hfuel : 2 ^ 24 ≤ fuel) (w : List UInt8) :
    ∃ r, execute junk (fatFindFile g fuel w) d = some (r, d) := by
  obtain ⟨p, hcwd⟩ := h.tree.cwd
  obtain ⟨last, hlast, hnone⟩ := h.dir_ends hcwd
  exact execute_fatFindFile_total junk h.geometry.initialized (h.geometry.not_faults _) w
    (leavesAt_of_none hnone) (by omega)

theorem execute_fileNotFound (junk : Sector) (d : Disk) (w : List UInt8) :
    execute junk (fileNotFound w) d = some ((), d) := by
  simp only [fileNotFound, execute_bind, execute_kprint, Option.bind_some]

/-- `cat` comes back and writes nothing. -/
theorem FsOk.cat (h : FsOk g d) (junk : Sector) (hfuel : 2 ^ 24 ≤ fuel) (w : List UInt8) :
    execute junk (cmdCat g fuel w) d = some ((), d) := by
  obtain ⟨r, hr⟩ := h.lookup junk hfuel w
  simp only [cmdCat, execute_bind, hr, Option.bind_some]
  cases r with
  | none => exact execute_fileNotFound junk d w
  | some e =>
    obtain ⟨n, rfl⟩ : ∃ n, fuel = n + 1 := ⟨fuel - 1, by omega⟩
    have hsize := fileSize_lt e
    obtain ⟨b, hb⟩ := execute_catLoop junk g d n
      (show e.fileSize ≤ 512 * n from by omega) e.firstClusterLow (freshBlock junk)
    simp only [execute_bind, execute_kmalloc, Option.bind_some, freshBlock_ptr_ne, if_false, hb,
      execute_kprint, execute_kfree]

/-- `exec` comes back from its loading and has written nothing. -/
theorem FsOk.exec (h : FsOk g d) (junk : Sector) (hfuel : 2 ^ 24 ≤ fuel) (w : List UInt8) :
    ∃ r, execute junk (cmdExec g fuel w) d = some (r, d) := by
  obtain ⟨r, hr⟩ := h.lookup junk hfuel w
  simp only [cmdExec, execute_bind, hr, Option.bind_some]
  cases r with
  | none =>
    simp only [execute_bind, execute_fileNotFound, Option.bind_some, execute_pure]
    exact ⟨none, rfl⟩
  | some e =>
    obtain ⟨n, rfl⟩ : ∃ n, fuel = n + 1 := ⟨fuel - 1, by omega⟩
    have hsize := fileSize_lt e
    obtain ⟨⟨b, image⟩, hb⟩ := execute_loadLoop junk g d n
      (show e.fileSize ≤ 512 * n from by omega) e.firstClusterLow (freshBlock junk) []
    simp only [execute_bind, execute_kmalloc, Option.bind_some, freshBlock_ptr_ne, if_false, hb,
      execute_kprint, execute_kfree, execute_pure]
    exact ⟨_, rfl⟩

end Reading

/-! ### Commands that write -/

section Writing

variable {g : Globals} {d : Disk} {F : File} {fuel : ℕ}

/-- A new entry goes to a free slot. -/
theorem IsFile.keeps_create (h : FsOk g d) (hF : IsFile g d F) (junk : Sector)
    (hfuel : 2 ^ 24 ≤ fuel) (w : List UInt8) (attr : UInt8) (cluster : UInt16) (size : ℕ) :
    ∃ r, execute junk (fatCreateEntry g fuel w attr cluster size) d = some r ∧ Keeps g d r.2 F := by
  apply h.createEntry_rule (P := fun d' => Keeps g d d' F) junk hfuel w (Keeps.refl g d F)
  intro n e lba hslot
  apply hF.keeps_putSlot h _ hslot.sector
  by_contra hboth
  push Not at hboth
  obtain ⟨hfree, hold, -⟩ := freeSlot_spec hslot
  rw [← hboth.1, ← hboth.2] at hold
  obtain rfl : F.entry = e := Option.some.inj (hF.entry.live.1.symm.trans hold)
  cases hfree with
  | inl h0 => exact hF.entry.live.2.1 h0
  | inr h5 => exact hF.entry.live.2.2.1 h5

/-- `mkdir`, when the number of the first free FAT entry fits into 16 bits. -/
theorem IsFile.keeps_mkdir (h : FsOk g d) (hF : IsFile g d F) (junk : Sector)
    (hfuel : 2 ^ 24 ≤ fuel) (w : List UInt8) (hfree : ∀ k, FirstFree g d k → k < 65536) :
    ∃ r, execute junk (cmdMkdir g fuel w) d = some r ∧ Keeps g d r.2 F := by
  by_cases hnone : ∀ k, ¬ FirstFree g d k
  · exact ⟨_, execute_cmdMkdir_full hnone, Keeps.refl g d F⟩
  · push Not at hnone
    obtain ⟨k, hk⟩ := hnone
    obtain ⟨h2, hfat⟩ := firstFree_cluster hk
    have hzero := firstFree_fatEntry hk (hfree k hk)
    obtain ⟨r, hr, hkeeps⟩ := (hF.newDir h h2 hfat hzero).keeps_create (h.newDir_ok h2 hfat hzero) junk
      hfuel w attrDirectory (UInt16.ofNat k) 0
    rw [execute_cmdMkdir_free hk]
    exact ⟨r, hr, (hF.keeps_newDir h h2 hfat hzero).trans hkeeps (hF.dirLba_newDir h h2 hfat hzero)⟩

/-- `rm` of another live file. -/
theorem IsFile.keeps_rm (h : FsOk g d) (hF : IsFile g d F) (junk : Sector) (hfuel : 2 ^ 24 ≤ fuel)
    (w : List UInt8)
    (hother : ∀ n e lba, Target g d (deleteFileVerdict w) n e lba → isDirectory e = false →
      Live (volume g d) g.currentDirCluster n e ∧ (F.dir ≠ g.currentDirCluster ∨ F.slot ≠ n)) :
    ∃ r, execute junk (fatDeleteFile g fuel w) d = some r ∧ Keeps g d r.2 F := by
  apply h.deleteFile_rule (P := fun d' => Keeps g d d' F) junk hfuel w (Keeps.refl g d F)
  intro n e lba ht hisdir
  obtain ⟨hlive, hne⟩ := hother n e lba ht hisdir
  have he : Entry (volume g d) g.currentDirCluster n e :=
    ⟨h.tree.cwd, hlive, h.named_of_plain hlive hisdir⟩
  apply hF.keeps_deleted h ht.sector hne ?_ (by omega)
  intro h0
  refine ⟨?_, _, _, _, he, rfl, hne⟩
  -- the directory of the file is named by a directory entry
  intro hdir
  obtain ⟨q, hq⟩ := hF.entry.reach
  obtain ⟨n', e', -, he', hisdir', hfc', -⟩ := h.tree.dir_entry hq (hdir ▸ h0)
  obtain ⟨rfl, rfl⟩ := h.tree.entry_unique he he' (hdir.symm.trans hfc'.symm) h0
  obtain rfl := he.live.unique he'.live
  exact absurd (hisdir.symm.trans hisdir') (by decide)

/-- `rmdir` of a live directory, the current one included. -/
theorem IsFile.keeps_rmdir (h : FsOk g d) (hF : IsFile g d F) (junk : Sector)
    (hfuel : 2 ^ 24 ≤ fuel) (w : List UInt8)
    (hlive : ∀ n e lba, Target g d (deleteDirVerdict w) n e lba → isDirectory e = true →
      Live (volume g d) g.currentDirCluster n e) :
    ∃ r, execute junk (fatDeleteDir g fuel w) d = some r ∧ Keeps g d r.2 F := by
  obtain ⟨p, hcwd⟩ := h.tree.cwd
  apply h.deleteDir_rule (P := fun d' => Keeps g d d' F) junk hfuel w (Keeps.refl g d F) hlive
  intro n e lba ht hisdir hempty
  have hl := hlive n e lba ht hisdir
  -- the directory is empty, so the file is elsewhere
  have hdir : F.dir ≠ e.firstClusterLow := by
    intro hdir
    exact (hdir ▸ hempty).not_named hF.entry.live hF.entry.named
  have hne : F.dir ≠ g.currentDirCluster ∨ F.slot ≠ n := by
    by_contra hboth
    push Not at hboth
    obtain rfl := (hboth.1 ▸ hboth.2 ▸ hF.entry.live : Live _ _ n F.entry).unique hl
    exact absurd (hF.plain.symm.trans hisdir) (by decide)
  apply hF.keeps_deleted h ht.sector hne ?_ (by omega)
  intro h0
  refine ⟨hdir, ?_⟩
  rcases h.kind_of_empty hl hempty with hnamed | hdot | hroot
  · exact ⟨_, _, _, ⟨h.tree.cwd, hl, hnamed⟩, rfl, hne⟩
  · have hself := (h.tree.dot hcwd hl hdot).2
    obtain ⟨n', e', -, he', hisdir', hfc', -⟩ := h.tree.dir_entry hcwd (hself ▸ h0)
    exact ⟨p, n', e', he', hfc'.trans hself.symm, hF.ne_of_isDirectory he' hisdir'⟩
  · exact absurd hroot.2 h0

/-- The sector holds something of the file: its entry, a FAT entry of its chain, or data. -/
def Owns (g : Globals) (d : Disk) (F : File) (lba : ℕ) : Prop :=
  dirLba g d F.dir (F.slot / 16) = some lba ∨ (∃ x ∈ F.chain, fatSector g x = lba) ∨
    ∃ x ∈ F.chain, ∃ off, off < g.fatInfo.sectorsPerCluster.toNat ∧ clusterLba g x + off = lba

/-- Writing a sector that holds nothing of the file keeps it. -/
theorem IsFile.keeps_put (h : FsOk g d) (hF : IsFile g d F) {lba : ℕ} (hlt : lba < lbaSpace)
    (hown : ¬ Owns g d F lba) (s : Sector) : Keeps g d (d.put lba s) F := by
  rw [Owns, not_or, not_or] at hown
  obtain ⟨hentry, hfat, hdata⟩ := hown
  obtain ⟨q, hdir⟩ := hF.entry.reach
  constructor
  · intro lba' hsector
    rw [get_put s hlt (h.dirLba_region hdir hsector).2, if_neg]
    rintro rfl
    exact hentry hsector
  · intro x hx
    rw [fatEntry, fatEntry, get_put s hlt (h.geometry.fatSector_lt x), if_neg]
    exact fun heq => hfat ⟨x, hx, heq⟩
  · intro x hx off hoff
    rw [get_put s hlt (h.geometry.cluster_lt x hoff), if_neg]
    exact fun heq => hdata ⟨x, hx, off, hoff, heq⟩

end Writing

/-! ### Command lines -/

/-- What the line must not be for the file to be left alone: a `write` onto a sector of the file, a
`mkdir` whose cluster number does not fit into 16 bits, and a deletion that finds the file itself or an
entry behind the end mark. -/
structure Spares (g : Globals) (d : Disk) (F : File) (command : List UInt8)
    (arg : Option (List UInt8)) : Prop where
  write : command = text "write" → ¬ Owns g d F 200
  mkdir : command = text "mkdir" → ∀ k, FirstFree g d k → k < 65536
  rm : command = text "rm" → ∀ w, arg = some w →
    ∀ n e lba, Target g d (deleteFileVerdict w) n e lba → isDirectory e = false →
      Live (volume g d) g.currentDirCluster n e ∧ (F.dir ≠ g.currentDirCluster ∨ F.slot ≠ n)
  rmdir : command = text "rmdir" → ∀ w, arg = some w →
    ∀ n e lba, Target g d (deleteDirVerdict w) n e lba → isDirectory e = true →
      Live (volume g d) g.currentDirCluster n e

/-- The lines after which there is a prompt again: all but `shutdown`, `halt`, and `mount`, which
divides by a field of the boot sector. -/
def Prompts (input : List UInt8) : Prop :=
  ∀ command offset, getNextToken input 0 = (some command, offset) →
    command ≠ text "mount" ∧ command ≠ text "shutdown" ∧ command ≠ text "halt"

section Lines

variable {g : Globals} {d : Disk} {F : File} {fuel : ℕ}

theorem execute_withArg (junk : Sector) {P : Disk → Prop} (usage : String)
    (arg : Option (List UInt8)) (body : List UInt8 → Kernel Unit) (hnone : P d)
    (hsome : ∀ w, arg = some w → ∃ d', execute junk (body w) d = some ((), d') ∧ P d') :
    ∃ d', execute junk (withArg usage arg body) d = some ((), d') ∧ P d' := by
  cases arg with
  | none => exact ⟨d, execute_kprint junk d (text usage), hnone⟩
  | some w => exact hsome w rfl

/-- A branch that drops the answer of what it calls. -/
theorem execute_dropped (junk : Sector) {α : Type} {P : Disk → Prop} {p : Kernel α}
    (h : ∃ r, execute junk p d = some r ∧ P r.2) :
    ∃ d', execute junk (p >>= fun _ => pure ()) d = some ((), d') ∧ P d' := by
  obtain ⟨r, hr, hP⟩ := h
  exact ⟨r.2, by rw [execute_bind, hr]; rfl, hP⟩

theorem execute_cmdWrite (junk : Sector) (d : Disk) (arg : Option (List UInt8)) :
    execute junk (cmdWrite arg) d =
      some ((), d.put 200 (writeData (arg.getD (text "TEST_DATA_DEFAULT")))) := by
  simp only [cmdWrite, execute_bind, execute_kmalloc, execute_kprint, execute_ataWriteSector, execute_kfree,
    Option.bind_some]

/-- The commands that stay off the disk. -/
theorem execute_heapTestAlloc (junk : Sector) (d : Disk) (label : String) :
    execute junk (heapTestAlloc label) d = some (freshBlock junk, d) := by
  simp only [heapTestAlloc, execute_bind, execute_kmalloc, execute_kprint, execute_pure, Option.bind_some]

theorem execute_cmdHeapTest (junk : Sector) (d : Disk) :
    execute junk cmdHeapTest d = some ((), d) := by
  simp only [cmdHeapTest, execute_bind, execute_heapTestAlloc, execute_kprint, execute_kfree, Option.bind_some,
    if_true]

theorem execute_cmdAlloc (junk : Sector) (d : Disk) : execute junk cmdAlloc d = some ((), d) := by
  have halloc : execute junk (.perform Call.pmmAllocBlock : Kernel ℕ) d = some (0, d) := rfl
  simp only [cmdAlloc, execute_bind, halloc, Option.bind_some, if_true, execute_kprint]

/-- **The branches**: each comes back, unless it shuts the machine down, and keeps the file. -/
theorem IsFile.keeps_branch (h : FsOk g d) (hF : IsFile g d F) (junk : Sector)
    (hfuel : 2 ^ 24 ≤ fuel) (command input : List UInt8) (offset : ℕ)
    (hs : Spares g d F command (getNextToken input offset).1)
    (hon : ¬ (command = text "shutdown" ∨ command = text "halt")) :
    ∃ d', execute junk (branch g command input offset fuel) d = some ((), d') ∧ Keeps g d d' F := by
  have hquiet : ∀ {p : Kernel Unit}, execute junk p d = some ((), d) →
      ∃ d', execute junk p d = some ((), d') ∧ Keeps g d d' F :=
    fun hp => ⟨d, hp, Keeps.refl g d F⟩
  have harg := fun usage body => execute_withArg junk (P := fun d' => Keeps g d d' F) usage
    (getNextToken input offset).1 body (Keeps.refl g d F)
  rw [branch]
  by_cases h1 : command = text "help"
  · rw [if_pos h1]
    apply hquiet
    simp only [cmdHelp, execute_bind, execute_kprint, Option.bind_some]
  rw [if_neg h1]
  by_cases h2 : command = text "clear"
  · rw [if_pos h2]
    exact hquiet rfl
  rw [if_neg h2, if_neg hon]
  by_cases h3 : command = text "memory"
  · rw [if_pos h3]
    exact hquiet rfl
  rw [if_neg h3]
  by_cases h4 : command = text "echo"
  · rw [if_pos h4]
    apply hquiet
    simp only [execute_bind, execute_kprint, Option.bind_some]
  rw [if_neg h4]
  by_cases h5 : command = text "write"
  · rw [if_pos h5]
    exact ⟨_, execute_cmdWrite junk d _, hF.keeps_put h (by decide) (hs.write h5) _⟩
  rw [if_neg h5]
  by_cases h6 : command = text "read"
  · rw [if_pos h6]
    apply hquiet
    simp only [cmdRead, execute_bind, execute_kmalloc, execute_kprint, execute_ataReadSector, execute_kfree,
      Option.bind_some]
  rw [if_neg h6]
  by_cases h7 : command = text "ls"
  · rw [if_pos h7]
    exact hquiet (h.ls junk hfuel)
  rw [if_neg h7]
  by_cases h8 : command = text "cat"
  · rw [if_pos h8]
    exact harg _ _ fun w _ => hquiet (h.cat junk hfuel w)
  rw [if_neg h8]
  by_cases h9 : command = text "touch"
  · rw [if_pos h9]
    apply harg
    intro w _
    obtain ⟨⟨created, d'⟩, hr, hkeeps⟩ := hF.keeps_create h junk hfuel w 0 0 0
    refine ⟨d', ?_, hkeeps⟩
    rw [cmdTouch, execute_bind, hr]
    cases created with
    | true => exact execute_kprint junk d' _
    | false => rfl
  rw [if_neg h9]
  by_cases h10 : command = text "mkdir"
  · rw [if_pos h10]
    exact harg _ _ fun w _ => execute_dropped junk (hF.keeps_mkdir h junk hfuel w (hs.mkdir h10))
  rw [if_neg h10]
  by_cases h11 : command = text "rm"
  · rw [if_pos h11]
    exact harg _ _ fun w hw => execute_dropped junk (hF.keeps_rm h junk hfuel w (hs.rm h11 w hw))
  rw [if_neg h11]
  by_cases h12 : command = text "rmdir"
  · rw [if_pos h12]
    exact harg _ _ fun w hw => execute_dropped junk (hF.keeps_rmdir h junk hfuel w (hs.rmdir h12 w hw))
  rw [if_neg h12]
  by_cases h13 : command = text "alloc"
  · rw [if_pos h13]
    exact hquiet (execute_cmdAlloc junk d)
  rw [if_neg h13]
  by_cases h14 : command = text "heap_test"
  · rw [if_pos h14]
    exact hquiet (execute_cmdHeapTest junk d)
  rw [if_neg h14]
  apply hquiet
  simp only [execute_bind, execute_kprint, Option.bind_some]

/-- A line that leads back to the prompt. -/
theorem IsFile.keeps_line (h : FsOk g d) (hF : IsFile g d F) (junk : Sector)
    (hfuel : 2 ^ 24 ≤ fuel) (input : List UInt8) (hprompts : Prompts input)
    (hs : ∀ command offset, getNextToken input 0 = (some command, offset) →
      Spares g d F command (getNextToken input offset).1) :
    ∃ r, execute junk (userInput g fuel input) d = some r ∧ Keeps g d r.2 F := by
  cases htoken : getNextToken input 0 with
  | mk first offset =>
    cases first with
    | none =>
      simp only [userInput, htoken, execute_bind, execute_prompt, Option.bind_some, execute_pure]
      exact ⟨_, rfl, Keeps.refl g d F⟩
    | some command =>
      obtain ⟨hmount, hshutdown, hhalt⟩ := hprompts command offset htoken
      by_cases hcd : command = text "cd"
      · simp only [userInput, htoken, if_neg hmount, if_pos hcd]
        cases (getNextToken input offset).1 with
        | none =>
          simp only [execute_bind, execute_kprint, execute_prompt, Option.bind_some, execute_pure]
          exact ⟨_, rfl, Keeps.refl g d F⟩
        | some w =>
          obtain ⟨g', hg', -⟩ := h.cd junk hfuel w
          simp only [execute_bind, hg', execute_prompt, Option.bind_some, execute_pure]
          exact ⟨_, rfl, Keeps.refl g d F⟩
      by_cases hexec : command = text "exec"
      · simp only [userInput, htoken, if_neg hmount, if_neg hcd, if_pos hexec]
        cases (getNextToken input offset).1 with
        | none =>
          simp only [execute_bind, execute_kprint, execute_prompt, Option.bind_some, execute_pure]
          exact ⟨_, rfl, Keeps.refl g d F⟩
        | some w =>
          obtain ⟨request, hr⟩ := h.exec junk hfuel w
          simp only [execute_bind, hr, Option.bind_some]
          cases request with
          | none => exact ⟨_, rfl, Keeps.refl g d F⟩
          | some request => exact ⟨_, rfl, Keeps.refl g d F⟩
      rw [userInput_branch junk fuel htoken hmount hcd hexec]
      obtain ⟨d', hd', hkeeps⟩ := hF.keeps_branch h junk hfuel command input offset
        (hs command offset htoken) (not_or.mpr ⟨hshutdown, hhalt⟩)
      exact ⟨_, by rw [hd']; rfl, hkeeps⟩

/-- `shutdown` and `halt` do not come back. -/
theorem execute_cmdShutdown (junk : Sector) (d : Disk) : execute junk cmdShutdown d = none := by
  have hout : ∀ port data : ℕ,
      execute junk (.perform (Call.outw port data) : Kernel Unit) d = some ((), d) := fun _ _ => rfl
  simp only [cmdShutdown, execute_bind, execute_kprint, hout, Option.bind_some, execute_hang]

/-- A line that need not lead back to the prompt leaves the whole disk alone if it does. -/
theorem execute_userInput_other {junk : Sector} {input : List UInt8} {r : Outcome × Disk}
    (hprompts : ¬ Prompts input) (hr : execute junk (userInput g fuel input) d = some r) : r.2 = d := by
  rw [Prompts] at hprompts
  push Not at hprompts
  obtain ⟨command, offset, htoken, hcommand⟩ := hprompts
  by_cases hmount : command = text "mount"
  · simp only [userInput, htoken, if_pos hmount, execute_bind] at hr
    obtain ⟨⟨g', d'⟩, hinit, hrest⟩ := Option.bind_eq_some_iff.mp hr
    cases hrest
    exact (mounted_fatInit hinit).2.1
  · have hoff : command = text "shutdown" ∨ command = text "halt" := by
      by_cases hshutdown : command = text "shutdown"
      · exact Or.inl hshutdown
      · exact Or.inr (hcommand hmount hshutdown)
    have hbranch : branch g command input offset fuel = cmdShutdown := by
      cases hoff with
      | inl hc =>
        rw [hc]
        rfl
      | inr hc =>
        rw [hc]
        rfl
    have hcd : command ≠ text "cd" := by
      cases hoff with
      | inl hc => rw [hc]; decide
      | inr hc => rw [hc]; decide
    have hexec : command ≠ text "exec" := by
      cases hoff with
      | inl hc => rw [hc]; decide
      | inr hc => rw [hc]; decide
    rw [userInput_branch junk fuel htoken hmount hcd hexec, hbranch, execute_cmdShutdown] at hr
    cases hr

end Lines

/-- **Other files are untouched.**  On a well-formed volume, whatever line is typed: if it spares the file
and comes back, the file's entry, the FAT entries of its chain and its data sectors are as before; and the
line does come back, unless it is `shutdown`, `halt` or `mount`. -/
theorem other_files_untouched (junk : Sector) {fuel : ℕ} (hfuel : 2 ^ 24 ≤ fuel) (g : Globals)
    (d : Disk) (hok : FsOk g d) (F : File) (hF : IsFile g d F) (input : List UInt8)
    (hspares : ∀ command offset, getNextToken input 0 = (some command, offset) →
      Spares g d F command (getNextToken input offset).1) :
    (∀ r, execute junk (userInput g fuel input) d = some r → Keeps g d r.2 F) ∧
      (Prompts input → ∃ r, execute junk (userInput g fuel input) d = some r) := by
  constructor
  · intro r hr
    by_cases hprompts : Prompts input
    · obtain ⟨r', hr', hkeeps⟩ := hF.keeps_line hok junk hfuel input hprompts hspares
      rw [hr] at hr'
      cases hr'
      exact hkeeps
    · rw [execute_userInput_other hprompts hr]
      exact Keeps.refl g d F
  · intro hprompts
    obtain ⟨r, hr, -⟩ := hF.keeps_line hok junk hfuel input hprompts hspares
    exact ⟨r, hr⟩

/-! ### A volume with a file in sector 200 -/

/-- The boot sector of the small volume, for 256 sectors. -/
def fileBootSector : Sector := fun i =>
  match i.val with
  | 12 => 2
  | 13 => 1
  | 14 => 1
  | 16 => 2
  | 17 => 16
  | 20 => 1
  | 22 => 1
  | _ => 0

/-- Its FAT: the chain of cluster 198 ends there. -/
def fileFatSector : Sector := putU16 (fun _ => 0) 396 0xFFFF

/-- Its root directory: the file `A` of 512 bytes from cluster 198 on. -/
def fileRootSector : Sector := fun i =>
  match i.val with
  | 0 => 65
  | 26 => 198
  | 29 => 2
  | _ => 0

/-- Its disk; the data of the file is zero. -/
def fileDisk : Disk := fun lba =>
  match lba with
  | 0 => fileBootSector
  | 1 => fileFatSector
  | 2 => fileFatSector
  | 3 => fileRootSector
  | _ => fun _ => 0

/-- The globals after `mount`. -/
def fileVolume : Globals := ⟨Bpb.parse fileBootSector, 1, 3, 4, 0, text "/", true⟩

example : execute (fun _ => 0) (fatInit unmounted) fileDisk = some (fileVolume, fileDisk) := rfl

/-- The file. -/
def fileA : File := ⟨0, 0, entryAt fileRootSector 0, [198]⟩

theorem fileDisk_live {n : ℕ} {e : DirEntry} (h : Live (volume fileVolume fileDisk) 0 n e) :
    n = 0 ∧ e = fileA.entry := by
  obtain ⟨hn, rfl⟩ := dirSlot_root_single (d := fileDisk) rfl h.1
  have hname : ∀ k, k < 16 → (entryAt fileRootSector k).name 0 ≠ 0 → k = 0 := by decide
  obtain rfl := hname n hn h.2.1
  exact ⟨rfl, rfl⟩

theorem fileA_chain : DiskChain fileVolume fileDisk fileA.entry.firstClusterLow fileA.chain :=
  Chain.last (c := 198) ⟨by decide, by decide, by decide, by decide⟩ (by decide)

theorem fsOk_file : FsOk fileVolume fileDisk := by
  refine ⟨⟨⟨rfl, by decide, rfl, rfl, rfl⟩, by decide, by decide, by decide⟩,
    wellFormed_of_flat ?_ ?_ ?_⟩
  · intro n e h
    rw [(fileDisk_live h).2]
    exact ⟨⟨by decide, by decide⟩, by decide⟩
  · intro n e h _
    rw [(fileDisk_live h).2]
    exact ⟨_, fileA_chain⟩
  · intro n e l n' e' l' h h' _ _ hne
    exact absurd ((fileDisk_live h).1.trans (fileDisk_live h').1.symm) hne

theorem isFile_fileA : IsFile fileVolume fileDisk fileA := by
  refine ⟨⟨⟨0, Dir.root⟩, ⟨rfl, by decide, by decide, ?_⟩, by decide, by decide⟩, by decide,
    fun _ => fileA_chain, fun h0 => absurd h0 (by decide)⟩
  intro m hm
  exact absurd hm (Nat.not_lt_zero m)

/-- `mkdir d` leaves the file alone. -/
theorem other_files_untouched_mkdir :
    ∃ r, execute (fun _ => 0) (userInput fileVolume (2 ^ 24) (text "mkdir d")) fileDisk = some r ∧
      Keeps fileVolume fileDisk r.2 fileA := by
  have htoken : getNextToken (text "mkdir d") 0 = (some (text "mkdir"), 5) := by decide
  obtain ⟨hkeeps, hback⟩ := other_files_untouched (fun _ => 0) le_rfl fileVolume fileDisk fsOk_file fileA
    isFile_fileA (text "mkdir d") (by
      intro command offset h
      cases htoken.symm.trans h
      refine ⟨fun hc => absurd hc (by decide), ?_, fun hc => absurd hc (by decide),
        fun hc => absurd hc (by decide)⟩
      intro _ k hk
      have hlt : k < 256 := hk.1
      omega)
  obtain ⟨r, hr⟩ := hback (by
    intro command offset h
    cases htoken.symm.trans h
    decide)
  exact ⟨r, hr, hkeeps r hr⟩

/-- `write` replaces the file's data, which happens to be in sector 200. -/
theorem write_overwrites_file :
    FsOk fileVolume fileDisk ∧ IsFile fileVolume fileDisk fileA ∧
      ∃ r, execute (fun _ => 0) (userInput fileVolume (2 ^ 24) (text "write")) fileDisk = some r ∧
        ¬ Keeps fileVolume fileDisk r.2 fileA := by
  refine ⟨fsOk_file, isFile_fileA, ?_⟩
  have hrun : (execute (fun _ => 0) (userInput fileVolume (2 ^ 24) (text "write")) fileDisk).map
      (fun r => r.2.get 200 0) = some 84 := by
    decide +kernel
  obtain ⟨r, hr, hbyte⟩ := Option.map_eq_some_iff.mp hrun
  refine ⟨r, hr, ?_⟩
  intro hkeeps
  have hsector := hkeeps.data 198 (List.mem_singleton_self _) 0 (by decide)
  rw [show clusterLba fileVolume 198 + 0 = 200 from rfl] at hsector
  rw [hsector] at hbyte
  exact absurd hbyte (by decide)

end OsEojin.Fat
