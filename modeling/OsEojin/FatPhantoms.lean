import OsEojin.FatListing
import OsEojin.FatInvariant

/-!
# Entries nobody created

`mkdir` clears the first sector of the cluster it takes and no other.  What the other sectors held before is
hidden behind the end mark until enough entries stand in front of it.

* `OneCluster`: the current directory is one cluster; `OneCluster.touch`, `OneCluster.rm`: what the two
  commands do in it, with nothing assumed of the rest of the volume;
* `record`, `stepRecord`: the ledger of the entries written and not removed since;
* `OnlyRecorded`, `onlyRecorded_step`: what the slots hold, from a clean cluster on;
* `fill_before`: from an unclean one, a run that brings a stale entry out;
* `no_phantom_entries_iff`: so no run shows a phantom exactly if the cluster is clean.
-/

namespace OsEojin.Fat

open OsEojin.Lib.Programs OsEojin.Lib.Programs.Program OsEojin.Lib.Runs OsEojin.Ata OsEojin.Shell

variable {junk : Sector} {fuel : ℕ} {s s' : FileSystem} {c p : UInt16}

/-! ### A directory of one cluster -/

/-- The current directory is the one cluster `c`. -/
structure OneCluster (s : FileSystem) (c : UInt16) : Prop where
  geometry : Geometry s.1
  data : IsData s.1 c
  cwd : s.1.currentDirCluster = c
  marked : 0xFFF8 ≤ fatEntry s.1 s.2 c

/-- A slot a creation can take. -/
def IsFree (e : DirEntry) : Prop := e.name 0 = 0x00 ∨ e.name 0 = 0xE5

instance (e : DirEntry) : Decidable (IsFree e) := inferInstanceAs (Decidable (_ ∨ _))

theorem OneCluster.dirLba_eq (h : OneCluster s c) (i : ℕ) : dirLba s.1 s.2 c i =
    if i < s.1.fatInfo.sectorsPerCluster.toNat then some (clusterLba s.1 c + i) else none := by
  have hchain : DiskChain s.1 s.2 c [c] := Chain.last h.data h.marked
  rw [dirLba_chain h.geometry.toMounted hchain]
  by_cases hi : i < s.1.fatInfo.sectorsPerCluster.toNat
  · rw [if_pos hi, Nat.div_eq_of_lt hi, Nat.mod_eq_of_lt hi]
    rfl
  · have hdiv : 1 ≤ i / s.1.fatInfo.sectorsPerCluster.toNat :=
      (Nat.one_le_div_iff h.geometry.spc_pos).mpr (by omega)
    rw [if_neg hi, List.getElem?_eq_none (by simpa using hdiv)]
    rfl

theorem OneCluster.ends (h : OneCluster s c) :
    dirLba s.1 s.2 s.1.currentDirCluster s.1.fatInfo.sectorsPerCluster.toNat = none ∧
      s.1.fatInfo.sectorsPerCluster.toNat < 2 ^ 24 := by
  have hspc : s.1.fatInfo.sectorsPerCluster.toNat < 256 := UInt8.toNat_lt _
  rw [h.cwd, h.dirLba_eq, if_neg (lt_irrefl _)]
  exact ⟨rfl, by omega⟩

theorem OneCluster.dirSlot_eq (h : OneCluster s c) (n : ℕ) : dirSlot s.1 s.2 c n =
    if n < 16 * s.1.fatInfo.sectorsPerCluster.toNat then
      some (entryAt (s.2.get (clusterLba s.1 c + n / 16)) (n % 16)) else none := by
  rw [dirSlot, h.dirLba_eq]
  by_cases hn : n < 16 * s.1.fatInfo.sectorsPerCluster.toNat
  · rw [if_pos hn, if_pos (by omega)]
    rfl
  · rw [if_neg hn, if_neg (by omega)]
    rfl

/-- **A slot is written**: the directory stays one cluster, and only that slot changes. -/
theorem OneCluster.put (h : OneCluster s c) {n lba : ℕ} {e : DirEntry}
    (hsector : dirLba s.1 s.2 s.1.currentDirCluster (n / 16) = some lba) :
    OneCluster (s.1, s.2.put lba (putEntry (s.2.get lba) (n % 16) e)) c ∧
      ∀ m, dirSlot s.1 (s.2.put lba (putEntry (s.2.get lba) (n % 16) e)) c m =
        if m = n then some e else dirSlot s.1 s.2 c m := by
  rw [h.cwd, h.dirLba_eq] at hsector
  split at hsector
  · rename_i hi
    obtain rfl := Option.some.inj hsector
    have hlt : ∀ j, j < s.1.fatInfo.sectorsPerCluster.toNat → clusterLba s.1 c + j < lbaSpace :=
      fun j hj => h.geometry.cluster_lt c hj
    have hlo := h.geometry.rootDir_le_clusterLba c
    have hone : OneCluster (s.1, s.2.put (clusterLba s.1 c + n / 16)
        (putEntry (s.2.get (clusterLba s.1 c + n / 16)) (n % 16) e)) c := by
      refine ⟨h.geometry, h.data, h.cwd, ?_⟩
      rw [h.geometry.fatEntry_put _ (by omega) (hlt _ hi) h.data.2.2.1]
      exact h.marked
    refine ⟨hone, ?_⟩
    intro m
    rw [h.dirSlot_eq, hone.dirSlot_eq]
    by_cases hm : m < 16 * s.1.fatInfo.sectorsPerCluster.toNat
    · rw [if_pos hm, if_pos hm, get_put _ (hlt _ hi) (hlt _ (by omega))]
      by_cases hsame : m / 16 = n / 16
      · rw [if_pos (by rw [hsame]), hsame]
        by_cases hmn : m = n
        · rw [if_pos hmn, hmn, entryAt_putEntry_same _ _ (by omega)]
        · rw [if_neg hmn, entryAt_putEntry_of_ne _ _ (by omega) (by omega)]
      · rw [if_neg (by omega), if_neg (by rintro rfl; exact hsame rfl)]
    · rw [if_neg hm, if_neg hm, if_neg (by omega)]
  · cases hsector

/-- **`touch`** fills the first free slot, or finds none. -/
theorem OneCluster.touch (h : OneCluster s c) (junk : Sector) (hfuel : 2 ^ 24 ≤ fuel) (w : Word) :
    ∃ d', step junk fuel s (.touch w) = some (s.1, d') ∧ OneCluster (s.1, d') c ∧
      ((d' = s.2 ∧ DirFull s.1 s.2) ∨
        ∃ n e lba, FreeSlot s.1 s.2 n e lba ∧
          ∀ m, dirSlot s.1 d' c m = if m = n then some (fillEntry e w.val 0 0 0) else dirSlot s.1 s.2 c m) := by
  have hm := h.geometry.initialized
  obtain ⟨⟨r, d'⟩, hr⟩ := execute_fatCreateEntry_total junk w.val hm
    (h.geometry.not_faults _) (leavesAt_of_none h.ends.1)
    (show _ < fuel from lt_of_lt_of_le h.ends.2 hfuel) 0 0 0
  refine ⟨d', (step_touch junk fuel s w).trans (by rw [hr]; rfl), ?_⟩
  cases execute_fatCreateEntry hm hr with
  | inl hcreated =>
    obtain ⟨-, n, e, lba, hslot, rfl⟩ := hcreated
    obtain ⟨hone, hslots⟩ := h.put (e := fillEntry e w.val 0 0 0) hslot.sector
    exact ⟨hone, Or.inr ⟨n, e, lba, hslot, hslots⟩⟩
  | inr hfull =>
    obtain ⟨-, rfl, hfull⟩ := hfull
    exact ⟨h, Or.inl ⟨rfl, hfull⟩⟩

/-- A deletion that did not happen found no plain file. -/
theorem target_of_kept {g : Globals} {d d' : Disk} {w : List UInt8} (hm : g.isFatInitialized = true)
    (h : execute junk (fatDeleteFile g fuel w) d = some (false, d')) {n lba : ℕ} {e : DirEntry}
    (ht : Target g d (deleteFileVerdict w) n e lba) : isDirectory e = true := by
  simp only [fatDeleteFile, hm, Bool.not_true, Bool.false_eq_true, if_false, execute_bind,
    execute_kmalloc, Option.bind_some] at h
  obtain ⟨⟨scan, d₁⟩, hscan, hrest⟩ := Option.bind_eq_some_iff.mp h
  obtain ⟨rfl, hspec⟩ := execute_scanDir hscan
  cases scan with
  | hit i k b =>
    obtain ⟨hk, e', lba', hdata, hfound⟩ := hspec
    obtain ⟨hsector, hentry, -⟩ := hfound.sector_hit hk hdata
    have he : e = e' := by
      have hslot := ht.slot
      rw [ht.unique hfound, hfound.slot] at hslot
      exact (Option.some.inj hslot).symm
    cases hisdir : isDirectory (entryAt b.data k) with
    | true => rwa [he, ← hentry]
    | false =>
      simp only [hisdir, Bool.false_eq_true, if_false,
        execute_deleteFound (not_faults_of_scanDir hscan) k b hsector] at hrest
      obtain ⟨d₂, -, hbad⟩ := Option.map_eq_some_iff.mp hrest
      cases (Prod.mk.inj hbad).1
  | stop b => exact absurd ht (not_found_of_scan hspec (by simp) n e lba)
  | through b => exact absurd ht (not_found_of_scan hspec (by simp) n e lba)

/-- **`rm`** marks the slot of the file it finds, when that file has no cluster. -/
theorem OneCluster.rm (h : OneCluster s c) (junk : Sector) (hfuel : 2 ^ 24 ≤ fuel) (w : Word)
    (hempty : ∀ n e lba, Target s.1 s.2 (deleteFileVerdict w.val) n e lba → isDirectory e = false →
      e.firstClusterLow = 0) :
    ∃ d', step junk fuel s (.rm w) = some (s.1, d') ∧ OneCluster (s.1, d') c ∧
      ((d' = s.2 ∧ ∀ n e lba, Target s.1 s.2 (deleteFileVerdict w.val) n e lba → isDirectory e = true) ∨
        ∃ n e lba, Target s.1 s.2 (deleteFileVerdict w.val) n e lba ∧ isDirectory e = false ∧
          ∀ m, dirSlot s.1 d' c m = if m = n then some (markDeleted e) else dirSlot s.1 s.2 c m) := by
  have hm := h.geometry.initialized
  have hfree : ∀ n e lba, Target s.1 s.2 (deleteFileVerdict w.val) n e lba → isDirectory e = false →
      freeCluster s.1 fuel e.firstClusterLow s.2 = some s.2 := by
    intro n e lba ht hisdir
    rw [hempty n e lba ht hisdir, freeCluster, if_pos (by decide)]
  obtain ⟨⟨r, d'⟩, hr⟩ := execute_fatDeleteFile_total junk hm (h.geometry.not_faults _)
    (leavesAt_of_none h.ends.1) (lt_of_lt_of_le h.ends.2 hfuel) fun n e lba ht hisdir => ⟨_, hfree n e lba ht hisdir⟩
  refine ⟨d', (step_rm junk fuel s w).trans (by rw [hr]; rfl), ?_⟩
  cases execute_fatDeleteFile hm hr with
  | inl hkept =>
    obtain ⟨rfl, rfl⟩ := hkept
    exact ⟨h, Or.inl ⟨rfl, fun n e lba ht => target_of_kept hm hr ht⟩⟩
  | inr hgone =>
    obtain ⟨-, n, e, lba, ht, hisdir, d₁, hd₁, rfl⟩ := hgone
    rw [hfree n e lba ht hisdir] at hd₁
    obtain rfl := Option.some.inj hd₁
    obtain ⟨hone, hslots⟩ := h.put (e := markDeleted e) ht.sector
    exact ⟨hone, Or.inr ⟨n, e, lba, ht, hisdir, hslots⟩⟩

/-! ### The ledger -/

/-- Entries with their slots. -/
abbrev Ledger := Set (ℕ × DirEntry)

/-- What `fat_create_entry` wrote in the current directory and `fat_delete_file` did not remove since. -/
def record (L : Ledger) (s : FileSystem) : Command → Ledger
  | .touch w => L ∪ {q | ∃ e lba, FreeSlot s.1 s.2 q.1 e lba ∧ q.2 = fillEntry e w.val 0 0 0}
  | .rm w => {q | q ∈ L ∧ ∀ e lba, Target s.1 s.2 (deleteFileVerdict w.val) q.1 e lba →
      isDirectory e = true}
  | _ => L

/-- One command line, with the ledger. -/
def stepRecord (junk : Sector) (fuel : ℕ) (x : FileSystem × Ledger) (c : Command) :
    Option (FileSystem × Ledger) :=
  (step junk fuel x.1 c).map fun s' => (s', record x.2 x.1 c)

/-- The slot holds `.`, `..` or a recorded entry. -/
def Genuine (c p : UInt16) (L : Ledger) (n : ℕ) (e : DirEntry) : Prop :=
  (n = 0 ∧ e = dotEntry "." c) ∨ (n = 1 ∧ e = dotEntry ".." p) ∨ (n, e) ∈ L

/-- **Nothing but genuine entries shows**: neither to `fat_find_file`, under any name, nor on the lines that
`fat_list` prints. -/
structure NoPhantoms (junk : Sector) (fuel : ℕ) (c p : UInt16) (x : FileSystem × Ledger) : Prop where
  find : ∀ w n e d', execute junk (fatFindFile x.1.1 fuel w) x.1.2 = some (some e, d') →
    FindAnswer x.1.1 x.1.2 w (some e) (some n) → Genuine c p x.2 n e
  prints : (fatList x.1.1 fuel).run (console junk) ⟨x.1.2, []⟩ =
    some ((), ⟨x.1.2, printed (listing x.1.1 x.1.2 fuel 0) ++ listHeader.reverse⟩)
  list : ∀ q ∈ listing x.1.1 x.1.2 fuel 0, Genuine c p x.2 q.1 q.2

/-- A byte of a valid name: printable, and none of the characters FAT names exclude. -/
def IsNameByte (b : UInt8) : Prop :=
  33 ≤ b ∧ b < 127 ∧ b ∉ [34, 42, 43, 44, 46, 47, 58, 59, 60, 61, 62, 63, 91, 92, 93, 124]

instance (b : UInt8) : Decidable (IsNameByte b) := inferInstanceAs (Decidable (_ ∧ _ ∧ _))

/-- A valid 8.3 name. -/
def Valid83 (w : List UInt8) : Prop :=
  ∃ base ext : List UInt8, (∀ b ∈ base ++ ext, IsNameByte b) ∧ base ≠ [] ∧ base.length ≤ 8 ∧
    ext.length ≤ 3 ∧ (w = base ∧ ext = [] ∨ w = base ++ 46 :: ext ∧ ext ≠ [])

/-- `touch` and `rm` with valid names. -/
def TouchOrRm : Command → Prop
  | .touch w => Valid83 w.val
  | .rm w => Valid83 w.val
  | _ => False

/-! ### What the slots hold -/

/-- Every slot is free, hidden or genuine, and recorded files have no cluster. -/
structure OnlyRecorded (c p : UInt16) (x : FileSystem × Ledger) : Prop where
  dir : OneCluster x.1 c
  slots : ∀ n e, dirSlot x.1.1 x.1.2 c n = some e →
    IsFree e ∨ isHidden e = true ∨ Genuine c p x.2 n e
  empty : ∀ q ∈ x.2, q.2.firstClusterLow = 0

theorem Genuine.mono {L L' : Ledger} {n : ℕ} {e : DirEntry} (h : Genuine c p L n e)
    (hL : (n, e) ∈ L → (n, e) ∈ L') : Genuine c p L' n e := by
  rcases h with h | h | h
  · exact Or.inl h
  · exact Or.inr (Or.inl h)
  · exact Or.inr (Or.inr (hL h))

/-- A plain file that a deletion takes is a recorded one. -/
theorem OnlyRecorded.target {x : FileSystem × Ledger} (h : OnlyRecorded c p x) {w : List UInt8}
    {n lba : ℕ} {e : DirEntry} (ht : Target x.1.1 x.1.2 (deleteFileVerdict w) n e lba)
    (hisdir : isDirectory e = false) : (n, e) ∈ x.2 := by
  have hhit := ht.hit
  rw [deleteFileVerdict_eq] at hhit
  have hslot := ht.slot
  rw [h.dir.cwd] at hslot
  rcases h.slots n e hslot with hfree | hhidden | hdot | hdot | hmem
  · rw [findVerdict] at hhit
    cases hfree with
    | inl h0 =>
      rw [if_pos h0] at hhit
      cases hhit
    | inr h5 =>
      rw [if_neg (by rw [h5]; decide), if_pos h5] at hhit
      cases hhit
  · rw [not_hidden_of_find hhit] at hhidden
    cases hhidden
  · rw [hdot.2, dotEntry_isDirectory] at hisdir
    cases hisdir
  · rw [hdot.2, dotEntry_isDirectory] at hisdir
    cases hisdir
  · exact hmem

/-- **One command.** -/
theorem onlyRecorded_step (junk : Sector) (hfuel : 2 ^ 24 ≤ fuel) (x : FileSystem × Ledger)
    (cmd : Command) (h : OnlyRecorded c p x) (hcmd : TouchOrRm cmd) :
    ∃ x', stepRecord junk fuel x cmd = some x' ∧ OnlyRecorded c p x' := by
  cases cmd with
  | touch w =>
    obtain ⟨d', hstep, hone, hslots⟩ := h.dir.touch junk hfuel w
    refine ⟨((x.1.1, d'), record x.2 x.1 (.touch w)), by rw [stepRecord, hstep]; rfl, hone, ?_, ?_⟩
    · intro n e he
      have hold : dirSlot x.1.1 x.1.2 c n = some e →
          IsFree e ∨ isHidden e = true ∨ Genuine c p (record x.2 x.1 (.touch w)) n e := by
        intro he
        rcases h.slots n e he with hfree | hhidden | hgen
        · exact Or.inl hfree
        · exact Or.inr (Or.inl hhidden)
        · exact Or.inr (Or.inr (hgen.mono Or.inl))
      cases hslots with
      | inl hfull =>
        rw [hfull.1] at he
        exact hold he
      | inr hcreated =>
        obtain ⟨m, e', lba, hslot, hafter⟩ := hcreated
        rw [hafter] at he
        split at he
        · rename_i hnm
          obtain rfl := Option.some.inj he
          exact Or.inr (Or.inr (Or.inr (Or.inr (Or.inr ⟨e', lba, hnm ▸ hslot, rfl⟩))))
        · exact hold he
    · rintro q (hq | ⟨e, lba, -, hfill⟩)
      · exact h.empty q hq
      · rw [hfill, fillEntry_firstClusterLow]
  | rm w =>
    have hclusters : ∀ n e lba, Target x.1.1 x.1.2 (deleteFileVerdict w.val) n e lba →
        isDirectory e = false → e.firstClusterLow = 0 :=
      fun n e lba ht hisdir => h.empty (n, e) (h.target ht hisdir)
    obtain ⟨d', hstep, hone, hslots⟩ := h.dir.rm junk hfuel w hclusters
    refine ⟨((x.1.1, d'), record x.2 x.1 (.rm w)), by rw [stepRecord, hstep]; rfl, hone, ?_, ?_⟩
    · intro n e he
      -- a recorded entry stays recorded, unless its slot is the one that is marked
      have hold : (∀ e' lba, Target x.1.1 x.1.2 (deleteFileVerdict w.val) n e' lba →
          isDirectory e' = true) → dirSlot x.1.1 x.1.2 c n = some e →
          IsFree e ∨ isHidden e = true ∨ Genuine c p (record x.2 x.1 (.rm w)) n e := by
        intro hkeep he
        rcases h.slots n e he with hfree | hhidden | hgen
        · exact Or.inl hfree
        · exact Or.inr (Or.inl hhidden)
        · exact Or.inr (Or.inr (hgen.mono fun hmem => ⟨hmem, hkeep⟩))
      cases hslots with
      | inl hkept =>
        rw [hkept.1] at he
        exact hold (fun e' lba ht => hkept.2 n e' lba ht) he
      | inr hgone =>
        obtain ⟨m, e', lba, ht, hisdir, hafter⟩ := hgone
        rw [hafter] at he
        split at he
        · obtain rfl := Option.some.inj he
          exact Or.inl (Or.inr (markDeleted_name_zero e'))
        · rename_i hne
          refine hold ?_ he
          intro e'' lba' ht'
          exact absurd (ht'.unique ht) hne
    · intro q hq
      exact h.empty q hq.1
  | cd w => exact hcmd.elim
  | mkdir w => exact hcmd.elim
  | rmdir w => exact hcmd.elim

/-- What shows is genuine. -/
theorem OnlyRecorded.noPhantoms {x : FileSystem × Ledger} (h : OnlyRecorded c p x) (junk : Sector)
    (hfuel : 2 ^ 24 ≤ fuel) : NoPhantoms junk fuel c p x := by
  have hvisible : ∀ {n e}, dirSlot x.1.1 x.1.2 x.1.1.currentDirCluster n = some e → Visible e →
      Genuine c p x.2 n e := by
    intro n e he hvis
    rw [h.dir.cwd] at he
    rcases h.slots n e he with hfree | hhidden | hgen
    · cases hfree with
      | inl h0 => exact absurd h0 hvis.1
      | inr h5 => exact absurd h5 hvis.2.1
    · rw [hvis.2.2] at hhidden
      cases hhidden
    · exact hgen
  refine ⟨?_, ?_, ?_⟩
  · intro w n e d' _ hanswer
    obtain ⟨e', lba, heq, hfound⟩ := hanswer
    obtain rfl := Option.some.inj heq
    have hlive := found_live hfound
    exact hvisible hfound.slot ⟨hlive.2.1, hlive.2.2.1, not_hidden_of_find hfound.hit⟩
  · exact run_fatList h.dir.geometry.initialized (h.dir.geometry.not_faults _) h.dir.ends.1
      (lt_of_lt_of_le h.dir.ends.2 hfuel)
  · intro q hq
    obtain ⟨-, -, hslot, hvis, -⟩ := mem_listing.mp hq
    exact hvisible hslot hvis

/-! ### The new directory -/

/-- No sector of the cluster but the first holds an entry that is in use and not hidden. -/
def CleanCluster (g : Globals) (d : Disk) (c : UInt16) : Prop :=
  ∀ i k, 0 < i → i < g.fatInfo.sectorsPerCluster.toNat → k < 16 →
    IsFree (entryAt (d.get (clusterLba g c + i)) k) ∨ isHidden (entryAt (d.get (clusterLba g c + i)) k) = true

/-- **`mkdir` and `cd` into the new directory**: it is one cluster, cleared in its first sector only. -/
theorem enter_new_dir {s s₁ s₂ : FileSystem} {w v : Word} {k : ℕ} (hok : FsOk s.1 s.2)
    (hk : FirstFree s.1 s.2 k) (hk16 : k < 65536) (hdata : IsData s.1 (UInt16.ofNat k))
    (h₁ : step junk fuel s (.mkdir w) = some s₁) (h₂ : step junk fuel s₁ (.cd v) = some s₂)
    (hin : s₂.1.currentDirCluster = UInt16.ofNat k) :
    OneCluster s₂ (UInt16.ofNat k) ∧ s₂.1.fatInfo = s.1.fatInfo ∧
      clusterLba s₂.1 (UInt16.ofNat k) = clusterLba s.1 (UInt16.ofNat k) ∧
      ∀ i, i < s.1.fatInfo.sectorsPerCluster.toNat →
        s₂.2.get (clusterLba s.1 (UInt16.ofNat k) + i) =
          if i = 0 then dotSector (UInt16.ofNat k) s.1.currentDirCluster
          else s.2.get (clusterLba s.1 (UInt16.ofNat k) + i) := by
  have hg := hok.geometry
  have hzero := firstFree_fatEntry hk hk16
  have hnew := hok.newDir_ok hdata.1 hdata.2.2.1 hzero
  have hm := hg.initialized
  -- the allocation and the first sector
  have hgetNew : ∀ i, i < s.1.fatInfo.sectorsPerCluster.toNat →
      (withNewDir s.1 s.2 (UInt16.ofNat k)).get (clusterLba s.1 (UInt16.ofNat k) + i) =
        if i = 0 then dotSector (UInt16.ofNat k) s.1.currentDirCluster
        else s.2.get (clusterLba s.1 (UInt16.ofNat k) + i) := by
    intro i hi
    have hlo := hg.rootDir_le_clusterLba (UInt16.ofNat k)
    rw [hg.get_withNewDir hdata.1 hdata.2.2.1 (by omega) (hg.cluster_lt _ hi)]
    by_cases h0 : i = 0
    · rw [if_pos (by omega), if_pos h0]
    · rw [if_neg (by omega), if_neg h0]
  have hfatNew : fatEntry s.1 (withNewDir s.1 s.2 (UInt16.ofNat k)) (UInt16.ofNat k) = 0xFFFF := by
    rw [hg.fatEntry_withNewDir hdata.1 hdata.2.2.1, if_pos rfl]
  -- the entry in the parent
  rw [step_mkdir, execute_cmdMkdir_free hk] at h₁
  obtain ⟨⟨r, d₁⟩, hr, rfl⟩ := Option.map_eq_some_iff.mp h₁
  obtain ⟨hfat₁, hget₁⟩ : fatEntry s.1 d₁ (UInt16.ofNat k) = 0xFFFF ∧
      ∀ i, i < s.1.fatInfo.sectorsPerCluster.toNat →
        d₁.get (clusterLba s.1 (UInt16.ofNat k) + i) =
          (withNewDir s.1 s.2 (UInt16.ofNat k)).get (clusterLba s.1 (UInt16.ofNat k) + i) := by
    cases execute_fatCreateEntry hm hr with
    | inl hcreated =>
      obtain ⟨-, n, e, lba, hslot, rfl⟩ := hcreated
      refine ⟨(hnew.fatEntry_putSlot hslot.sector hdata).trans hfatNew, ?_⟩
      intro i hi
      rw [hnew.get_putSlot hslot.sector (hg.cluster_lt _ hi),
        if_neg (hok.newDir_sector_ne hdata hzero hi hslot.sector)]
    | inr hfull =>
      obtain ⟨-, rfl, -⟩ := hfull
      exact ⟨hfatNew, fun i hi => rfl⟩
  -- `cd` moves in the globals only
  obtain ⟨g₂, d₂⟩ := s₂
  rw [step_cd] at h₂
  obtain ⟨hd₂, c', path, hg₂, -⟩ := execute_fatChangeDir h₂
  dsimp only at hd₂ hg₂
  subst hd₂
  subst hg₂
  refine ⟨⟨hg.move c' path, hdata, hin, ?_⟩, rfl, rfl, ?_⟩
  · exact hfat₁.symm ▸ (by decide)
  · intro i hi
    exact (hget₁ i hi).trans (hgetNew i hi)

/-- In a clean cluster every slot but the first two is free or hidden. -/
theorem onlyRecorded_start {s s₂ : FileSystem} {parent : UInt16} (hone : OneCluster s₂ c)
    (hinfo : s₂.1.fatInfo = s.1.fatInfo) (hlba : clusterLba s₂.1 c = clusterLba s.1 c)
    (hget : ∀ i, i < s.1.fatInfo.sectorsPerCluster.toNat → s₂.2.get (clusterLba s.1 c + i) =
      if i = 0 then dotSector c parent else s.2.get (clusterLba s.1 c + i))
    (hclean : CleanCluster s.1 s.2 c) : OnlyRecorded c parent (s₂, ∅) := by
  refine ⟨hone, ?_, fun q hq => absurd hq (Set.notMem_empty q)⟩
  intro n e he
  rw [hone.dirSlot_eq, hinfo, hlba] at he
  split at he
  · rename_i hn
    rw [hget _ (by omega)] at he
    obtain rfl := Option.some.inj he
    by_cases hi : n / 16 = 0
    · rw [if_pos hi]
      match n with
      | 0 => exact Or.inr (Or.inr (Or.inl ⟨rfl, dotSector_zero ..⟩))
      | 1 => exact Or.inr (Or.inr (Or.inr (Or.inl ⟨rfl, dotSector_one ..⟩)))
      | n + 2 => exact Or.inl (Or.inl (dotSector_rest c parent (by omega) (by omega)))
    · rw [if_neg hi]
      cases hclean (n / 16) (n % 16) (by omega) (by omega) (by omega) with
      | inl hfree => exact Or.inl hfree
      | inr hhidden => exact Or.inr (Or.inl hhidden)
  · cases he

/-! ### Bringing a stale entry out -/

/-- **A run of `touch`** that fills every free slot before slot `j`, by induction on the slots left. -/
theorem fill_before (junk : Sector) (hfuel : 2 ^ 24 ≤ fuel) {j : ℕ} {e : DirEntry} (rest : ℕ) :
    ∀ (m : ℕ) (x : FileSystem × Ledger), m + rest = j → OneCluster x.1 c →
      (∀ n, n < m → ∃ y, dirSlot x.1.1 x.1.2 c n = some y ∧ ¬ IsFree y) →
      dirSlot x.1.1 x.1.2 c j = some e → (∀ q ∈ x.2, q.1 < j) →
      ∃ cs x', (∀ cmd ∈ cs, cmd = .touch wordD) ∧ runOption (stepRecord junk fuel) x cs = some x' ∧
        OneCluster x'.1 c ∧ (∀ n, n < j → ∃ y, dirSlot x'.1.1 x'.1.2 c n = some y ∧ ¬ IsFree y) ∧
        dirSlot x'.1.1 x'.1.2 c j = some e ∧ ∀ q ∈ x'.2, q.1 < j := by
  induction rest with
  | zero =>
    intro m x hm hone hused hj hledger
    obtain rfl : m = j := by omega
    exact ⟨[], x, fun cmd hcmd => absurd hcmd List.not_mem_nil, rfl, hone, hused, hj, hledger⟩
  | succ rest ih =>
    intro m x hm hone hused hj hledger
    -- slot `m` exists, since slot `j` does
    obtain ⟨y, hy⟩ : ∃ y, dirSlot x.1.1 x.1.2 c m = some y := by
      rw [hone.dirSlot_eq] at hj ⊢
      split at hj
      · exact ⟨_, if_pos (by omega)⟩
      · cases hj
    by_cases hfree : IsFree y
    · obtain ⟨d', hstep, hone', hslots⟩ := hone.touch junk hfuel wordD
      cases hslots with
      | inl hfull =>
        obtain ⟨-, i, hnone, hskip⟩ := hfull
        rw [hone.cwd] at hnone hskip
        have hlt : m < 16 * i := by
          by_contra hge
          rw [dirSlot, dirLba_none_mono hnone (show i ≤ m / 16 from by omega)] at hy
          cases hy
        exact absurd (if_pos hfree) ((hskip m hlt).not_hit hy (by decide))
      | inr hcreated =>
        obtain ⟨n, e', lba, hslot, hafter⟩ := hcreated
        -- the slot taken is slot `m`: it is free, and those before it are not
        obtain ⟨hfree', hold, hbefore⟩ := freeSlot_spec hslot
        rw [hone.cwd] at hold hbefore
        have hnm : n = m := by
          rcases Nat.lt_trichotomy n m with hlt | heq | hgt
          · obtain ⟨z, hz, hz'⟩ := hused n hlt
            rw [hold] at hz
            exact absurd (Option.some.inj hz ▸ hfree') hz'
          · exact heq
          · obtain ⟨z, hz, hz0, hz5⟩ := hbefore m hgt
            rw [hy] at hz
            cases hz
            cases hfree with
            | inl h0 => exact absurd h0 hz0
            | inr h5 => exact absurd h5 hz5
        subst hnm
        have hnew : ¬ IsFree (fillEntry e' wordD.val 0 0 0) := by
          have hname : (fillEntry e' wordD.val 0 0 0).name 0 = 68 := rfl
          rw [IsFree, hname]
          decide
        have hledger' : ∀ q ∈ record x.2 x.1 (.touch wordD), q.1 < j := by
          rintro q (hq | ⟨e'', lba', hslot', -⟩)
          · exact hledger q hq
          · rw [hslot'.unique hslot]
            omega
        obtain ⟨cs, x', hcs, hrun, hrest⟩ := ih (n + 1) ((x.1.1, d'), record x.2 x.1 (.touch wordD))
          (by omega) hone' (by
            intro k hk
            rw [hafter]
            by_cases hkn : k = n
            · exact ⟨_, if_pos hkn, hnew⟩
            · rw [if_neg hkn]
              exact hused k (by omega)) (by rw [hafter, if_neg (by omega)]; exact hj) hledger'
        refine ⟨.touch wordD :: cs, x', ?_, ?_, hrest⟩
        · intro cmd hcmd
          cases List.mem_cons.mp hcmd with
          | inl heq => exact heq
          | inr hmem => exact hcs cmd hmem
        · rw [runOption, stepRecord, hstep]
          exact hrun
    · refine ih (m + 1) x (by omega) hone ?_ hj hledger
      intro n hn
      by_cases hnm : n = m
      · exact hnm ▸ ⟨y, hy, hfree⟩
      · exact hused n (by omega)

theorem valid83_wordD : Valid83 wordD.val := by
  refine ⟨[100], [], ?_, by decide, by decide, by decide, Or.inl ⟨rfl, rfl⟩⟩
  intro b hb
  rw [List.append_nil, List.mem_singleton] at hb
  rw [hb]
  decide

/-- **A stale entry comes out**: some run of `touch` ends with a phantom. -/
theorem exists_phantom (junk : Sector) (hfuel : 2 ^ 24 ≤ fuel) (hone : OneCluster s c) {j : ℕ}
    {e : DirEntry} (h2 : 2 ≤ j) (hj : dirSlot s.1 s.2 c j = some e) (hvis : Visible e)
    (parent : UInt16) :
    ∃ cs x, (∀ cmd ∈ cs, TouchOrRm cmd) ∧ runOption (stepRecord junk fuel) (s, ∅) cs = some x ∧
      ¬ NoPhantoms junk fuel c parent x := by
  obtain ⟨cs, x, hcs, hrun, hone', hused, hj', hledger⟩ := fill_before junk hfuel (c := c) j 0 (s, ∅)
    (Nat.zero_add j) hone (fun n hn => absurd hn (Nat.not_lt_zero n)) hj
    (fun q hq => absurd hq (Set.notMem_empty q))
  refine ⟨cs, x, ?_, hrun, ?_⟩
  · intro cmd hcmd
    rw [hcs cmd hcmd]
    exact valid83_wordD
  · intro hno
    have hlist : (j, e) ∈ listing x.1.1 x.1.2 fuel 0 := by
      rw [mem_listing, hone'.cwd]
      have hlt : j < 16 * x.1.1.fatInfo.sectorsPerCluster.toNat := by
        rw [hone'.dirSlot_eq] at hj'
        split at hj'
        · assumption
        · cases hj'
      have := hone'.ends.2
      refine ⟨by omega, by omega, hj', hvis, ?_⟩
      intro m _ hm
      obtain ⟨y, hy, hfree⟩ := hused m hm
      exact ⟨y, hy, fun h0 => hfree (Or.inl h0)⟩
    rcases hno.list _ hlist with hdot | hdot | hmem
    · have : j = 0 := hdot.1
      omega
    · have : j = 1 := hdot.1
      omega
    · exact absurd (hledger _ hmem) (lt_irrefl j)

/-! ### The result -/

section Result

variable {s s₁ s₂ : FileSystem} {w v : Word} {k : ℕ}

/-- **A stale entry comes out** of the new directory's cluster. -/
theorem exists_phantom_of_stale (hfuel : 2 ^ 24 ≤ fuel) (hok : FsOk s.1 s.2) (hk : FirstFree s.1 s.2 k)
    (hk16 : k < 65536) (hdata : IsData s.1 (UInt16.ofNat k))
    (h₁ : step junk fuel s (.mkdir w) = some s₁) (h₂ : step junk fuel s₁ (.cd v) = some s₂)
    (hin : s₂.1.currentDirCluster = UInt16.ofNat k) {i n : ℕ} (hi : 0 < i)
    (hlt : i < s.1.fatInfo.sectorsPerCluster.toNat) (hn : n < 16)
    (hvis : Visible (entryAt (s.2.get (clusterLba s.1 (UInt16.ofNat k) + i)) n)) :
    ∃ cs x, (∀ cmd ∈ cs, TouchOrRm cmd) ∧ runOption (stepRecord junk fuel) (s₂, ∅) cs = some x ∧
      ¬ NoPhantoms junk fuel (UInt16.ofNat k) s.1.currentDirCluster x := by
  obtain ⟨hone, hinfo, hlba, hget⟩ := enter_new_dir hok hk hk16 hdata h₁ h₂ hin
  have hslot : dirSlot s₂.1 s₂.2 (UInt16.ofNat k) (16 * i + n) =
      some (entryAt (s.2.get (clusterLba s.1 (UInt16.ofNat k) + i)) n) := by
    rw [hone.dirSlot_eq, hinfo, hlba, if_pos (by omega), show (16 * i + n) / 16 = i from by omega,
      show (16 * i + n) % 16 = n from by omega, hget i hlt, if_neg (by omega)]
  exact exists_phantom junk hfuel hone (by omega) hslot hvis s.1.currentDirCluster

/-- **No phantom entries.**  After `mkdir` and `cd` into the new directory, no run of `touch` and `rm` shows
an entry that was not created there exactly if no entry in use, hidden ones apart, stood in the sectors of
the cluster that `mkdir` does not clear. -/
theorem no_phantom_entries_iff (junk : Sector) {fuel : ℕ} (hfuel : 2 ^ 24 ≤ fuel)
    {s s₁ s₂ : FileSystem} {w v : Word} {k : ℕ} (hok : FsOk s.1 s.2) (hk : FirstFree s.1 s.2 k)
    (hk16 : k < 65536) (hdata : IsData s.1 (UInt16.ofNat k))
    (h₁ : step junk fuel s (.mkdir w) = some s₁) (h₂ : step junk fuel s₁ (.cd v) = some s₂)
    (hin : s₂.1.currentDirCluster = UInt16.ofNat k) :
    (∀ cs, (∀ cmd ∈ cs, TouchOrRm cmd) →
      ∃ x, runOption (stepRecord junk fuel) (s₂, ∅) cs = some x ∧
        NoPhantoms junk fuel (UInt16.ofNat k) s.1.currentDirCluster x) ↔
      CleanCluster s.1 s.2 (UInt16.ofNat k) := by
  constructor
  · intro hall i n hi hlt hn
    by_contra hstale
    rw [not_or, Bool.not_eq_true] at hstale
    obtain ⟨cs, x, hcs, hrun, hphantom⟩ := exists_phantom_of_stale hfuel hok hk hk16 hdata h₁ h₂ hin
      hi hlt hn ⟨fun h0 => hstale.1 (Or.inl h0), fun h5 => hstale.1 (Or.inr h5), hstale.2⟩
    obtain ⟨x', hrun', hno⟩ := hall cs hcs
    rw [hrun] at hrun'
    exact hphantom (Option.some.inj hrun' ▸ hno)
  · intro hclean cs hcs
    obtain ⟨hone, hinfo, hlba, hget⟩ := enter_new_dir hok hk hk16 hdata h₁ h₂ hin
    obtain ⟨x, hrun, hx⟩ := runOption_invariant
      (fun x cmd hx hcmd => onlyRecorded_step junk hfuel x cmd hx hcmd) (s₂, ∅)
      (onlyRecorded_start hone hinfo hlba hget hclean) cs
      (admitsOption_of_mem cs (fun cmd hcmd _ => hcs cmd hcmd) _)
    exact ⟨x, hrun, hx.noPhantoms junk hfuel⟩

end Result

theorem smallDisk_firstFree_two : FirstFree smallVolume smallDisk 2 := by
  refine ⟨by decide, ⟨by decide, rfl⟩, ?_⟩
  intro j hj hfree
  have := hfree.1
  omega

/-- `mkdir d` and `cd d` on the small volume, where a cluster is one sector. -/
theorem small_no_phantom_entries :
    ∃ s₁ s₂, step (fun _ => 0) (2 ^ 24) (smallVolume, smallDisk) (.mkdir wordD) = some s₁ ∧
      step (fun _ => 0) (2 ^ 24) s₁ (.cd wordD) = some s₂ ∧
      ((∀ cs, (∀ cmd ∈ cs, TouchOrRm cmd) →
        ∃ x, runOption (stepRecord (fun _ => 0) (2 ^ 24)) (s₂, ∅) cs = some x ∧
          NoPhantoms (fun _ => 0) (2 ^ 24) 2 0 x) ↔ CleanCluster smallVolume smallDisk 2) := by
  have hrun : ((step (fun _ => 0) (2 ^ 24) (smallVolume, smallDisk) (.mkdir wordD)).bind fun s₁ =>
      step (fun _ => 0) (2 ^ 24) s₁ (.cd wordD)).map (fun s => s.1.currentDirCluster) = some 2 := by
    decide +kernel
  obtain ⟨s₂, hs₂, hin⟩ := Option.map_eq_some_iff.mp hrun
  obtain ⟨s₁, h₁, h₂⟩ := Option.bind_eq_some_iff.mp hs₂
  exact ⟨s₁, s₂, h₁, h₂, no_phantom_entries_iff (fun _ => 0) le_rfl fsOk_small smallDisk_firstFree_two
    (by decide) ⟨by decide, by decide, by decide, by decide⟩ h₁ h₂ hin⟩

/-- The boot sector of the small volume, with two sectors per cluster. -/
def wideBootSector : Sector := fun i => if i.val = 13 then 2 else smallBootSector i

/-- The disk with this boot sector and an old entry `X` in the second sector of the first cluster. -/
def staleDisk : Disk := fun lba =>
  if lba = 0 then wideBootSector
  else if lba = 5 then putEntry (fun _ => 0) 0 (fillEntry (fun _ => 0) (text "x") 0 0 0)
  else fun _ => 0

/-- The globals after `mount` on this disk. -/
def wideVolume : Globals := ⟨Bpb.parse wideBootSector, 1, 3, 4, 0, text "/", true⟩

example : execute (fun _ => 0) (fatInit unmounted) staleDisk = some (wideVolume, staleDisk) := rfl

theorem geometry_wideVolume : Geometry wideVolume :=
  ⟨⟨rfl, by decide, rfl, rfl, rfl⟩, by decide, by decide, by decide⟩

theorem staleDisk_root {n : ℕ} {e : DirEntry} (h : dirSlot wideVolume staleDisk 0 n = some e) :
    e.name 0 = 0x00 := by
  rw [(dirSlot_root_single rfl h).2]
  rfl

/-- **Behind a full first sector** the old entry shows in the new directory. -/
theorem touch_shows_stale_entry :
    FsOk wideVolume staleDisk ∧
      ∃ s₁ s₂, step (fun _ => 0) (2 ^ 24) (wideVolume, staleDisk) (.mkdir wordD) = some s₁ ∧
        step (fun _ => 0) (2 ^ 24) s₁ (.cd wordD) = some s₂ ∧ s₂.1.currentDirCluster = 2 ∧
        ∃ cs x, (∀ cmd ∈ cs, TouchOrRm cmd) ∧
          runOption (stepRecord (fun _ => 0) (2 ^ 24)) (s₂, ∅) cs = some x ∧
          ¬ NoPhantoms (fun _ => 0) (2 ^ 24) 2 0 x := by
  have hok : FsOk wideVolume staleDisk :=
    fsOk_of_empty_root geometry_wideVolume rfl fun _ _ => staleDisk_root
  have hk : FirstFree wideVolume staleDisk 2 := by
    refine ⟨by decide, ⟨by decide, rfl⟩, ?_⟩
    intro j hj hfree
    have := hfree.1
    omega
  have hrun : ((step (fun _ => 0) (2 ^ 24) (wideVolume, staleDisk) (.mkdir wordD)).bind fun s₁ =>
      step (fun _ => 0) (2 ^ 24) s₁ (.cd wordD)).map (fun s => s.1.currentDirCluster) = some 2 := by
    decide +kernel
  obtain ⟨s₂, hs₂, hin⟩ := Option.map_eq_some_iff.mp hrun
  obtain ⟨s₁, h₁, h₂⟩ := Option.bind_eq_some_iff.mp hs₂
  refine ⟨hok, s₁, s₂, h₁, h₂, hin, ?_⟩
  exact exists_phantom_of_stale (i := 1) (n := 0) le_rfl hok hk (by decide)
    ⟨by decide, by decide, by decide, by decide⟩ h₁ h₂ hin (by decide) (by decide) (by decide)
    ⟨by decide, by decide, by decide⟩

end OsEojin.Fat
