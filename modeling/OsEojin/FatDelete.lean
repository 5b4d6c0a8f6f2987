import OsEojin.DeleteScan
import OsEojin.FatAllocation
import OsEojin.FatFrame

/-!
# What a deletion changes, and what it may delete

`fat_delete_file` and `fat_delete_dir` keep the sector of the entry in a buffer while they free its chain in the
FAT, then mark the entry and write the sector back.  On a well-formed volume the FAT and the directory do not
overlap, so the outcome is the entries of the chain set to zero and one byte of one slot.

* `DeletedExactly`, `deletedExactly_of_zeroed`: the bytes of the disk that change;
* `deletion_is_exact`: a name that `fat_find_file` resolves is deleted, and nothing else changes;
* `removed_directory_was_empty`: what `fat_delete_dir` removes holds nothing that `fat_find_file` would find.
-/

namespace OsEojin.Fat

open OsEojin.Lib.Programs OsEojin.Ata OsEojin.Shell

variable {junk : Sector} {g : Globals} {d d' : Disk} {l : List UInt16} {fuel n lba : ℕ} {e : DirEntry}
  {w : List UInt8}

/-! ### The bytes that change -/

/-- Byte `i` of sector `a` belongs to the FAT entry of `c`. -/
def InEntry (g : Globals) (c : UInt16) (a : ℕ) (i : Fin 512) : Prop :=
  a = fatSector g c ∧ (i.val = entOffset c ∨ i.val = entOffset c + 1)

/-- **A deletion, byte for byte**: slot `n` in the sector at `lba` is marked, the FAT entries of the chain are
zero, and all other bytes are what they were. -/
structure DeletedExactly (g : Globals) (d d' : Disk) (l : List UInt16) (n lba : ℕ) : Prop where
  mark : byteAt (d' lba) (32 * (n % 16)) = 0xE5
  freed : ∀ c ∈ l, fatEntry g d' c = 0
  rest : ∀ a (i : Fin 512), ¬ (a = lba ∧ i.val = 32 * (n % 16)) → (∀ c ∈ l, ¬ InEntry g c a i) → d' a i = d a i

/-- Bytes of no entry of the chain stay. -/
theorem Mounted.zeroed_apply (hm : Mounted g) {a : ℕ} {i : Fin 512} (h : ∀ c ∈ l, ¬ InEntry g c a i) :
    zeroed g d l a i = d a i := by
  induction l generalizing d with
  | nil => rfl
  | cons c l ih =>
    have hc : ¬ InEntry g c a i := h c List.mem_cons_self
    rw [zeroed_cons, ih fun x hx => h x (List.mem_cons_of_mem c hx), hm.onlyEntrySet d c 0 a i,
      if_neg fun hlow => hc ⟨hlow.1, Or.inl hlow.2⟩, if_neg fun hhigh => hc ⟨hhigh.1, Or.inr hhigh.2⟩]

/-- The sector with the entry marked: one byte differs. -/
theorem putEntry_markDeleted (s : Sector) (k : ℕ) (i : Fin 512) :
    putEntry s k (markDeleted (entryAt s k)) i = if i.val = 32 * k then 0xE5 else s i := by
  have hi : i.val < 512 := i.isLt
  rw [putEntry]
  by_cases hk : i.val / 32 = k
  · rw [if_pos hk, markDeleted, Fin.val_ofNat]
    by_cases h0 : i.val % 32 = 0
    · rw [if_pos h0, if_pos (by omega)]
    · rw [if_neg h0, if_neg (by omega), entryAt, byteAt]
      congr 1
      apply Fin.ext
      simp only [Fin.val_ofNat]
      omega
  · rw [if_neg hk, if_neg (by omega)]

theorem Geometry.deletedExactly_of_zeroed (hg : Geometry g)
    (hl : ∀ x ∈ l, x.toNat < 256 * g.fatInfo.fatSize16.toNat) (hlo : g.rootDirSector ≤ lba)
    (hhi : lba < lbaSpace) (hentry : entryAt (d.get lba) (n % 16) = e) :
    DeletedExactly g d ((zeroed g d l).put lba (putEntry (d.get lba) (n % 16) (markDeleted e))) l n lba := by
  rw [← hentry]
  have hmod := Nat.mod_eq_of_lt hhi
  refine ⟨?_, ?_, ?_⟩
  · rw [byteAt, Disk.put, hmod, Function.update_self, putEntry_markDeleted]
    exact if_pos (by simp only; omega)
  · intro c hc
    rw [hg.fatEntry_put _ hlo hhi (hl c hc), fatEntry_zeroed, if_pos hc]
  · intro a i hslot hfat
    rw [Disk.put, hmod]
    by_cases ha : a = lba
    · rw [ha, Function.update_self, putEntry_markDeleted, if_neg fun hi => hslot ⟨ha, hi⟩, Disk.get, hmod]
    · rw [Function.update_of_ne ha, hg.zeroed_apply hfat]

/-! ### A name that resolves -/

/-- The clusters of an entry: the chain from its first one, none without a first one. -/
def EntryClusters (g : Globals) (d : Disk) (e : DirEntry) (l : List UInt16) : Prop :=
  (e.firstClusterLow ≠ 0 → DiskChain g d e.firstClusterLow l) ∧ (e.firstClusterLow = 0 → l = [])

/-- The call answered `true` and deleted the entry `e` that `fat_find_file` resolves the name to, with its
clusters, and nothing else. -/
def DeletesResolved (junk : Sector) (g : Globals) (d : Disk) (w : List UInt8) (e : DirEntry)
    (call : Kernel Bool) : Prop :=
  ∃ d' n lba l, execute junk call d = some (true, d') ∧
    Found g d g.currentDirCluster true (findVerdict w) n e lba ∧ EntryClusters g d e l ∧
    DeletedExactly g d d' l n lba

theorem FsOk.entryClusters (h : FsOk g d) (hlive : Live (volume g d) g.currentDirCluster n e) (hnamed : Named e) :
    ∃ l, EntryClusters g d e l := by
  by_cases h0 : e.firstClusterLow = 0
  · exact ⟨[], fun hne => absurd h0 hne, fun _ => rfl⟩
  · obtain ⟨l, hl⟩ := h.tree.chain ⟨h.tree.cwd, hlive, hnamed⟩ h0
    exact ⟨l, fun _ => hl, fun hz => absurd hz h0⟩

/-- **Freeing the clusters of an entry and marking it.** -/
theorem FsOk.free_and_mark (h : FsOk g d) (hfuel : 65536 ≤ fuel)
    (hsector : dirLba g d g.currentDirCluster (n / 16) = some lba) (hentry : entryAt (d.get lba) (n % 16) = e)
    (hl : EntryClusters g d e l) :
    ∃ d₁, freeCluster g fuel e.firstClusterLow d = some d₁ ∧
      DeletedExactly g d (d₁.put lba (putEntry (d.get lba) (n % 16) (markDeleted e))) l n lba := by
  obtain ⟨p, hcwd⟩ := h.tree.cwd
  obtain ⟨hlo, hhi⟩ := h.dirLba_region hcwd hsector
  refine ⟨zeroed g d l, freeCluster_eq_zeroed hfuel hl.1 hl.2, ?_⟩
  refine h.geometry.deletedExactly_of_zeroed ?_ hlo hhi hentry
  intro x hx
  have h0 : e.firstClusterLow ≠ 0 := by
    intro h0
    rw [hl.2 h0] at hx
    cases hx
  exact ((hl.1 h0).data_of_mem hx).2.2.1

/-- The scan of the current directory comes to an end. -/
theorem FsOk.scan_ends (h : FsOk g d) (junk : Sector) (hfuel : 2 ^ 24 ≤ fuel) (verdict : DirEntry → Verdict) :
    ∃ s, execute junk (scanDir g g.currentDirCluster false verdict fuel 0 (freshBlock junk)) d = some s := by
  obtain ⟨p, hcwd⟩ := h.tree.cwd
  obtain ⟨last, hlast, hnone⟩ := h.dir_ends hcwd
  obtain ⟨r, hr, -⟩ := execute_scanDir_total junk false verdict (h.geometry.not_faults _)
    (leavesAt_of_none hnone) (show last < fuel from by omega) (freshBlock junk)
  exact ⟨_, hr⟩

/-- A slot found by one loop is found by another that takes its entry and skips all slots before it. -/
theorem Found.retarget {c : UInt16} {endReturns endReturns' : Bool} {verdict verdict' : DirEntry → Verdict}
    (h : Found g d c endReturns verdict n e lba) (hhit : verdict' e = .hit)
    (hskip : ∀ m, m < n → SlotIs g d c verdict' .skip m) : Found g d c endReturns' verdict' n e lba :=
  ⟨h.sector, h.entry, hhit, fun m hm => Or.inl (hskip m (by omega)), fun m _ hm => hskip m hm⟩

/-- What `fat_find_file` finds, `fat_delete_dir` takes, when no hidden entry has the name. -/
theorem target_of_find_shown (hfound : Found g d g.currentDirCluster true (findVerdict w) n e lba)
    (hhidden : ∀ m x, Live (volume g d) g.currentDirCluster m x → isHidden x = true →
      fatFilenameMatch x w = false) :
    Target g d (deleteDirVerdict w) n e lba := by
  have hskip : ∀ m, m < n → SlotIs g d g.currentDirCluster (deleteDirVerdict w) .skip m := by
    intro m hm
    obtain ⟨x, hx, hv⟩ := hfound.skip (Or.inl rfl) hm
    refine ⟨x, hx, ?_⟩
    cases hh : isHidden x with
    | false => rw [deleteDirVerdict_eq hh, hv]
    | true =>
      have h0 : x.name 0 ≠ 0 := by
        intro h0
        rw [(findVerdict_stop_iff x).mpr h0] at hv
        cases hv
      rw [deleteDirVerdict, if_neg h0]
      by_cases h5 : x.name 0 = 0xE5
      · rw [if_pos h5]
      · have hlive : Live (volume g d) g.currentDirCluster m x := by
          refine ⟨hx, h0, h5, ?_⟩
          intro k hk
          obtain ⟨y, hy, hy0⟩ := (found_live hfound).2.2.2 k (by omega)
          exact ⟨y, hy, hy0⟩
        rw [if_neg h5, hhidden m x hlive hh, if_neg Bool.false_ne_true]
  refine hfound.retarget ?_ hskip
  rw [deleteDirVerdict_eq (not_hidden_of_find hfound.hit)]
  exact hfound.hit

theorem FsOk.deletes_file (h : FsOk g d) (junk : Sector) (hfuel : 2 ^ 24 ≤ fuel)
    (hfound : Found g d g.currentDirCluster true (findVerdict w) n e lba) (hdir : isDirectory e = false) :
    DeletesResolved junk g d w e (fatDeleteFile g fuel w) := by
  have hlive := found_live hfound
  obtain ⟨l, hl⟩ := h.entryClusters hlive (h.named_of_plain hlive hdir)
  obtain ⟨d₁, hfree, hexact⟩ := h.free_and_mark (show 65536 ≤ fuel from by omega) hfound.sector hfound.entry hl
  obtain ⟨s, hs⟩ := h.scan_ends junk hfuel (deleteFileVerdict w)
  have ht : Target g d (deleteFileVerdict w) n e lba := by
    rw [deleteFileVerdict_eq]
    exact hfound.retarget hfound.hit fun m hm => hfound.skip (Or.inl rfl) hm
  refine ⟨_, n, lba, l, ?_, hfound, hl, hexact⟩
  rw [execute_fatDeleteFile_target h.geometry.initialized hs ht, hdir, if_neg Bool.false_ne_true, hfree,
    Option.map_some]

theorem FsOk.deletes_dir (h : FsOk g d) (hfuel : 2 ^ 24 ≤ fuel)
    (hfound : Found g d g.currentDirCluster true (findVerdict w) n e lba) (hdir : isDirectory e = true)
    (hnamed : Named e) (hempty : execute junk (fatIsDirEmpty g fuel e.firstClusterLow) d = some (true, d))
    (hhidden : ∀ m x, Live (volume g d) g.currentDirCluster m x → isHidden x = true →
      fatFilenameMatch x w = false) :
    DeletesResolved junk g d w e (fatDeleteDir g fuel w) := by
  obtain ⟨l, hl⟩ := h.entryClusters (found_live hfound) hnamed
  obtain ⟨d₁, hfree, hexact⟩ := h.free_and_mark (show 65536 ≤ fuel from by omega) hfound.sector hfound.entry hl
  obtain ⟨s, hs⟩ := h.scan_ends junk hfuel (deleteDirVerdict w)
  refine ⟨_, n, lba, l, ?_, hfound, hl, hexact⟩
  rw [execute_fatDeleteDir_target h.geometry.initialized hs (target_of_find_shown hfound hhidden), if_pos hdir,
    hempty, Option.bind_some, if_pos rfl, hfree, Option.map_some]

/-- **Deletion is exact.**  On a well-formed volume, when `fat_find_file` resolves the name to a plain file,
`fat_delete_file` deletes that file; when it resolves it to a directory, neither `.` nor `..`, that
`fat_is_dir_empty` accepts, and no hidden entry has the name, `fat_delete_dir` deletes that directory.  Of the
disk there change the FAT entries of the clusters and the first byte of the slot. -/
theorem deletion_is_exact (junk : Sector) {fuel : ℕ} (hfuel : 2 ^ 24 ≤ fuel) (g : Globals) (d : Disk)
    (hok : FsOk g d) (w : List UInt8) (e : DirEntry)
    (hfind : execute junk (fatFindFile g fuel w) d = some (some e, d)) :
    (isDirectory e = false → DeletesResolved junk g d w e (fatDeleteFile g fuel w)) ∧
      (isDirectory e = true → Named e →
        execute junk (fatIsDirEmpty g fuel e.firstClusterLow) d = some (true, d) →
        (∀ m x, Live (volume g d) g.currentDirCluster m x → isHidden x = true → fatFilenameMatch x w = false) →
        DeletesResolved junk g d w e (fatDeleteDir g fuel w)) := by
  obtain ⟨n, lba, hfound⟩ := (execute_fatFindFile hok.geometry.initialized hfind).2 e rfl
  exact ⟨hok.deletes_file junk hfuel hfound, fun hdir => hok.deletes_dir hfuel hfound hdir⟩

/-- The small disk after `mkdir d`: an empty directory `D` in cluster 2. -/
def oneDirDisk : Disk :=
  putSlot (withNewDir smallVolume smallDisk 2) 3 0 (fillEntry (fun _ => 0) (text "d") attrDirectory 2 0)

theorem step_oneDirDisk : step (fun _ => 0) (2 ^ 24) (smallVolume, smallDisk) (.mkdir wordD) =
    some (smallVolume, oneDirDisk) := by
  rfl

theorem fsOk_oneDir : FsOk smallVolume oneDirDisk := by
  obtain ⟨s', hs', hok⟩ := step_ok (fun _ => 0) le_rfl (smallVolume, smallDisk) (.mkdir wordD) fsOk_small
    (smallDisk_admits_mkdir wordD)
  rw [step_oneDirDisk] at hs'
  cases hs'
  exact hok

/-- `rm a` deletes a file of one cluster, `rmdir d` an empty directory. -/
theorem deletion_is_exact_file_and_dir :
    DeletesResolved (fun _ => 0) fileVolume fileDisk (text "a") fileA.entry
      (fatDeleteFile fileVolume (2 ^ 24) (text "a")) ∧
    DeletesResolved (fun _ => 0) smallVolume oneDirDisk (text "d") (entryAt (oneDirDisk.get 3) 0)
      (fatDeleteDir smallVolume (2 ^ 24) (text "d")) := by
  constructor
  · exact (deletion_is_exact (fun _ => 0) le_rfl fileVolume fileDisk fsOk_file (text "a") fileA.entry
      (by rfl)).1 (by decide)
  · refine (deletion_is_exact (fun _ => 0) le_rfl smallVolume oneDirDisk fsOk_oneDir (text "d")
      (entryAt (oneDirDisk.get 3) 0) (by rfl)).2 (by decide +kernel) ⟨by decide +kernel, by decide +kernel⟩
      (by rfl) ?_
    intro m x hlive hhidden
    have hshown : ∀ k, k < 16 → isHidden (entryAt (oneDirDisk.get 3) k) = false := by
      decide +kernel
    obtain ⟨hm, rfl⟩ := dirSlot_root_single rfl hlive.1
    exact absurd ((hshown m hm).symm.trans hhidden) (by decide)

/-! ### Only empty directories are removed -/

/-- **`rmdir` never drops a non-empty directory.**  On every disk: what `fat_delete_dir` removed is a directory
in which `fat_find_file`, had it been the current one, would have found nothing but `.` and `..` -/
theorem removed_directory_was_empty (junk : Sector) (g : Globals) (d d' : Disk) (fuel : ℕ) (w : List UInt8)
    (h : execute junk (fatDeleteDir g fuel w) d = some (true, d')) :
    ∃ n e lba, Target g d (deleteDirVerdict w) n e lba ∧ Deleted g fuel d n e lba d' ∧
      ∀ fuel' w' x d'', execute junk (fatFindFile { g with currentDirCluster := e.firstClusterLow } fuel' w') d =
        some (some x, d'') → isDot x = true ∨ isDotDot x = true := by
  have hm : g.isFatInitialized = true := by
    by_contra hnot
    rw [fatDeleteDir, if_pos (by rw [Bool.eq_false_iff.mpr hnot]; rfl)] at h
    cases h
  rcases execute_fatDeleteDir hm h with ⟨hfalse, -⟩ | ⟨-, n, e, lba, ht, -, hempty, hdel⟩
  · cases hfalse
  · refine ⟨n, e, lba, ht, hdel, ?_⟩
    intro fuel' w' x d'' hfind
    have hm' : Globals.isFatInitialized { g with currentDirCluster := e.firstClusterLow } = true := hm
    obtain ⟨m, lba', hfound⟩ := (execute_fatFindFile hm' hfind).2 x rfl
    -- the slots of that directory do not depend on the current one
    have hslots : ∀ k, dirSlot { g with currentDirCluster := e.firstClusterLow } d e.firstClusterLow k =
        dirSlot g d e.firstClusterLow k := by
      intro k
      rw [dirSlot, dirSlot, dirLba_move]
    obtain ⟨hslot, h0, h5, hbefore⟩ := found_live hfound
    have hverdict : emptyVerdict x ≠ .hit := by
      refine hempty m x ((hslots m).symm.trans hslot) ?_
      intro k hk
      obtain ⟨y, hy, hy0⟩ := hbefore k hk
      exact ⟨y, (hslots k).symm.trans hy, hy0⟩
    rw [emptyVerdict, if_neg h0, if_neg h5] at hverdict
    by_contra hnot
    rw [not_or, Bool.not_eq_true, Bool.not_eq_true] at hnot
    rw [hnot.1, hnot.2] at hverdict
    exact hverdict rfl

/-- `rmdir d` removes an empty directory. -/
theorem removed_directory_was_empty_small :
    ∃ d', execute (fun _ => 0) (fatDeleteDir smallVolume 4 (text "d")) oneDirDisk = some (true, d') ∧
      ∃ n e lba, Target smallVolume oneDirDisk (deleteDirVerdict (text "d")) n e lba ∧
        Deleted smallVolume 4 oneDirDisk n e lba d' ∧
        ∀ fuel' w' x d'', execute (fun _ => 0)
          (fatFindFile { smallVolume with currentDirCluster := e.firstClusterLow } fuel' w') oneDirDisk =
            some (some x, d'') → isDot x = true ∨ isDotDot x = true := by
  have hrun : (execute (fun _ => 0) (fatDeleteDir smallVolume 4 (text "d")) oneDirDisk).map (fun r => r.1) =
      some true := by
    decide +kernel
  obtain ⟨⟨r, d'⟩, hexec, hr⟩ := Option.map_eq_some_iff.mp hrun
  obtain rfl : r = true := hr
  exact ⟨d', hexec, removed_directory_was_empty (fun _ => 0) smallVolume oneDirDisk d' 4 (text "d") hexec⟩

end OsEojin.Fat
