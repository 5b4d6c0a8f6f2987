import OsEojin.DirSectors

/-!
# When directory scans end

The six functions of `fat.c` that scan a directory go on to the next sector until an entry, an end mark or the
end of the chain lets them leave.  Nothing counts the sectors, so in a directory whose links run in a circle a
scan that finds no reason to leave goes on for ever; and `fat_delete_file` and `fat_delete_dir` leave only the
sector at an end mark, where the others return.

* `dirLba_ends_iff`: a directory has a last sector if it is the root or its links end;
* `ScanEnds`, `scanDir_returns_iff`: when the shared loop comes to an end;
* `Scan`, `Scan.Ends`, `scans_end_iff`: when each of the six functions does.
-/

namespace OsEojin.Fat

open OsEojin.Lib.Programs OsEojin.Lib.Links OsEojin.Ata OsEojin.Shell

variable {junk : Sector} {g : Globals} {d : Disk} {c : UInt16} {n lba : ℕ} {w : List UInt8}

/-! ### Directories that end -/

theorem walk_eq_none_iff :
    walk g d n c = none ↔ ∃ m, m ≤ n ∧ EndsIn IsMark (fatEntry g d) m c := by
  induction n generalizing c with
  | zero =>
    rw [walk]
    by_cases hmark : c ≥ 0xFFF8
    · rw [if_pos hmark]
      exact ⟨fun _ => ⟨0, le_rfl, hmark⟩, fun _ => rfl⟩
    · rw [if_neg hmark]
      refine ⟨fun h => (by cases h), ?_⟩
      rintro ⟨m, hm, hends⟩
      obtain rfl : m = 0 := by omega
      exact absurd hends hmark
  | succ n ih =>
    rw [walk]
    by_cases hmark : c ≥ 0xFFF8
    · rw [if_pos hmark]
      exact ⟨fun _ => ⟨0, Nat.zero_le _, hmark⟩, fun _ => rfl⟩
    · rw [if_neg hmark, ih]
      constructor
      · rintro ⟨m, hm, hends⟩
        exact ⟨m + 1, by omega, hmark, hends⟩
      · rintro ⟨m, hm, hends⟩
        cases m with
        | zero => exact absurd hends hmark
        | succ m => exact ⟨m, by omega, hends.2⟩

/-- **Which directories have a last sector.** -/
theorem dirLba_ends_iff (hf : ¬ faults g c) :
    (∃ i, dirLba g d c i = none) ↔ c = 0 ∨ LinksEnd g d c := by
  by_cases h0 : c = 0
  · refine ⟨fun _ => Or.inl h0, fun _ => ⟨g.fatInfo.rootDirSectors, ?_⟩⟩
    rw [dirLba, if_pos h0, if_pos le_rfl]
  · rw [faults, if_neg h0] at hf
    constructor
    · rintro ⟨i, hi⟩
      rw [dirLba, if_neg h0, Option.map_eq_none_iff, walk_eq_none_iff] at hi
      obtain ⟨m, -, hends⟩ := hi
      exact Or.inr ⟨m, hends⟩
    · rintro (hroot | ⟨m, hends⟩)
      · exact absurd hroot h0
      · refine ⟨m * g.fatInfo.sectorsPerCluster.toNat, ?_⟩
        rw [dirLba, if_neg h0, Option.map_eq_none_iff, Nat.mul_div_cancel m (Nat.pos_of_ne_zero hf),
          walk_eq_none_iff]
        exact ⟨m, le_rfl, hends⟩

/-! ### The shared loop -/

section Loop

variable {endReturns : Bool} {verdict : DirEntry → Verdict}

/-- There is an entry to take, in front of the end mark of its sector, or an end mark to return at. -/
def Leaves (g : Globals) (d : Disk) (c : UInt16) (endReturns : Bool) (verdict : DirEntry → Verdict) : Prop :=
  ∃ n, (SlotIs g d c verdict .hit n ∧
      ∀ m, 16 * (n / 16) ≤ m → m < n → ¬ SlotIs g d c verdict .stop m) ∨
    (endReturns = true ∧ SlotIs g d c verdict .stop n)

/-- **What lets a scan end**: the end of the directory, or a slot at which it leaves. -/
def ScanEnds (g : Globals) (d : Disk) (c : UInt16) (endReturns : Bool) (verdict : DirEntry → Verdict) : Prop :=
  ¬ faults g c ∧ (c = 0 ∨ LinksEnd g d c ∨ Leaves g d c endReturns verdict)

theorem verdict_of_slotIs {v : Verdict} (hlba : dirLba g d c (n / 16) = some lba)
    (h : SlotIs g d c verdict v n) : verdict (entryAt (d.get lba) (n % 16)) = v := by
  obtain ⟨e, he, hv⟩ := h
  rw [dirSlot, hlba] at he
  have hentry : entryAt (d.get lba) (n % 16) = e := Option.some.inj he
  rw [hentry, hv]

/-- An entry to take in front of the end mark: its sector is left with an entry taken. -/
theorem leavesAt_of_hit (hhit : SlotIs g d c verdict .hit n)
    (hbefore : ∀ m, 16 * (n / 16) ≤ m → m < n → ¬ SlotIs g d c verdict .stop m) :
    LeavesAt g d c endReturns verdict (n / 16) := by
  intro lba hlba
  have htaken := verdict_of_slotIs hlba hhit
  cases hscan : scanSector verdict (d.get lba) 16 0 with
  | hit k => exact Or.inl ⟨k, rfl⟩
  | through =>
    have hskip := scanSector_through hscan (n % 16) (Nat.zero_le _) (by omega)
    rw [htaken] at hskip
    cases hskip
  | stop =>
    obtain ⟨j, -, hj, hstop, hskip⟩ := scanSector_stop hscan
    rcases Nat.lt_trichotomy (n % 16) j with hlt | heq | hgt
    · have hpassed := hskip (n % 16) (Nat.zero_le _) hlt
      rw [htaken] at hpassed
      cases hpassed
    · rw [← heq, htaken] at hstop
      cases hstop
    · exact absurd (slotIs_of_dirLba hlba (by omega) hstop)
        (hbefore (16 * (n / 16) + j) (by omega) (by omega))

/-- An end mark to return at: its sector is left one way or the other. -/
theorem leavesAt_of_stop (hstop : SlotIs g d c verdict .stop n) :
    LeavesAt g d c true verdict (n / 16) := by
  intro lba hlba
  cases hscan : scanSector verdict (d.get lba) 16 0 with
  | hit k => exact Or.inl ⟨k, rfl⟩
  | stop => exact Or.inr ⟨rfl, rfl⟩
  | through =>
    have hskip := scanSector_through hscan (n % 16) (Nat.zero_le _) (by omega)
    rw [verdict_of_slotIs hlba hstop] at hskip
    cases hskip

theorem ScanEnds.leavesAt (h : ScanEnds g d c endReturns verdict) :
    ∃ i, LeavesAt g d c endReturns verdict i := by
  obtain ⟨hf, hends⟩ := h
  rcases or_assoc.mpr hends with hend | ⟨n, ⟨hhit, hbefore⟩ | ⟨hret, hstop⟩⟩
  · obtain ⟨i, hi⟩ := (dirLba_ends_iff hf).mpr hend
    exact ⟨i, leavesAt_of_none hi⟩
  · exact ⟨n / 16, leavesAt_of_hit hhit hbefore⟩
  · rw [hret]
    exact ⟨n / 16, leavesAt_of_stop hstop⟩

/-- **When the shared loop comes to an end.** -/
theorem scanDir_returns_iff (b : Buffer) :
    (∃ fuel r, execute junk (scanDir g c endReturns verdict fuel 0 b) d = some r) ↔
      ScanEnds g d c endReturns verdict := by
  constructor
  · rintro ⟨fuel, ⟨r, d'⟩, h⟩
    have hf := not_faults_of_scanDir h
    refine ⟨hf, ?_⟩
    obtain ⟨-, hspec⟩ := execute_scanDir h
    cases r with
    | hit i k b =>
      obtain ⟨-, e, lba, -, hfound⟩ := hspec
      refine Or.inr (Or.inr ⟨_, Or.inl ⟨hfound.slotIs, ?_⟩⟩)
      intro m hle hlt hstop
      exact absurd ((hfound.skipped m hle hlt).unique hstop) (by decide)
    | stop b =>
      obtain ⟨hret, n, hstop, -⟩ := hspec
      exact Or.inr (Or.inr ⟨n, Or.inr ⟨hret, hstop⟩⟩)
    | through b =>
      obtain ⟨i, hnone, -⟩ := hspec
      exact or_assoc.mp (Or.inl ((dirLba_ends_iff hf).mp ⟨i, hnone⟩))
  · intro h
    obtain ⟨i, hi⟩ := h.leavesAt
    obtain ⟨r, hr, -⟩ := execute_scanDir_total junk endReturns verdict h.1 hi (Nat.lt_succ_self i) b
    exact ⟨i + 1, _, hr⟩

end Loop

/-! ### The deletions -/

/-- The freeing of an entry's clusters comes back. -/
def FreeEnds (g : Globals) (d : Disk) (c : UInt16) : Prop := c < 2 ∨ LinksEnd g d c ∨ LinksEnd g d 0

/-- Code that goes on from a search comes back only if the search does. -/
theorem search_returns {α : Type} {b : Buffer} {verdict : DirEntry → Verdict} {endReturns : Bool} {fuel : ℕ}
    {k : DirScan → Kernel α} {r : α × Disk}
    (h : execute junk (scanDir g c endReturns verdict fuel 0 b >>= k) d = some r) :
    ∃ s, execute junk (scanDir g c endReturns verdict fuel 0 b) d = some s := by
  rw [execute_bind] at h
  obtain ⟨s, hs, -⟩ := Option.bind_eq_some_iff.mp h
  exact ⟨s, hs⟩

theorem Found.unique_entry {endReturns : Bool} {verdict : DirEntry → Verdict} {n' lba' : ℕ} {e e' : DirEntry}
    (h : Found g d c endReturns verdict n e lba) (h' : Found g d c endReturns verdict n' e' lba') : e = e' := by
  have hslot := h.slot
  rw [h.unique h', h'.slot] at hslot
  exact (Option.some.inj hslot).symm

/-- **When `fat_delete_file` comes back.** -/
theorem fatDeleteFile_returns_iff (hm : Mounted g) :
    (∃ fuel r, execute junk (fatDeleteFile g fuel w) d = some r) ↔
      ScanEnds g d g.currentDirCluster false (deleteFileVerdict w) ∧
        ∀ n e lba, Target g d (deleteFileVerdict w) n e lba → isDirectory e = false →
          FreeEnds g d e.firstClusterLow := by
  constructor
  · rintro ⟨fuel, r, h⟩
    have hcode := h
    rw [fatDeleteFile, if_neg (by rw [hm.initialized]; decide), execute_bind, execute_kmalloc,
      Option.bind_some] at hcode
    obtain ⟨s, hs⟩ := search_returns hcode
    refine ⟨(scanDir_returns_iff _).mp ⟨fuel, s, hs⟩, ?_⟩
    intro n e lba ht hdir
    rw [execute_fatDeleteFile_target hm.initialized hs ht, hdir, if_neg Bool.false_ne_true] at h
    obtain ⟨d₁, hd₁, -⟩ := Option.map_eq_some_iff.mp h
    exact (freeCluster_returns_iff).mp ⟨fuel, d₁, hd₁⟩
  · rintro ⟨hends, hfree⟩
    obtain ⟨i, hi⟩ := hends.leavesAt
    -- fuel enough for the freeing, if there is something to free
    have hfuel : ∃ m, ∀ n e lba, Target g d (deleteFileVerdict w) n e lba → isDirectory e = false →
        ∃ d₁, freeCluster g m e.firstClusterLow d = some d₁ := by
      by_cases ht : ∃ n e lba, Target g d (deleteFileVerdict w) n e lba ∧ isDirectory e = false
      · obtain ⟨n, e, lba, ht, hdir⟩ := ht
        obtain ⟨m, d₁, hd₁⟩ := (freeCluster_returns_iff).mpr (hfree n e lba ht hdir)
        refine ⟨m, fun n' e' lba' ht' _ => ⟨d₁, ?_⟩⟩
        rw [ht'.unique_entry ht, hd₁]
      · exact ⟨0, fun n e lba hn hdir => absurd ⟨n, e, lba, hn, hdir⟩ ht⟩
    obtain ⟨m, hm'⟩ := hfuel
    obtain ⟨r, hr⟩ := execute_fatDeleteFile_total junk hm.initialized hends.1 hi
      (show i < i + 1 + m from by omega) fun n e lba ht hdir => by
        obtain ⟨d₁, hd₁⟩ := hm' n e lba ht hdir
        exact ⟨d₁, freeCluster_mono hd₁ (by omega)⟩
    exact ⟨_, r, hr⟩

/-- **When `fat_is_dir_empty` comes back.** -/
theorem fatIsDirEmpty_returns_iff :
    (∃ fuel r, execute junk (fatIsDirEmpty g fuel c) d = some r) ↔ ScanEnds g d c true emptyVerdict := by
  constructor
  · rintro ⟨fuel, r, h⟩
    simp only [fatIsDirEmpty, execute_bind, execute_kmalloc, Option.bind_some, freshBlock_ptr_ne,
      if_false] at h
    obtain ⟨s, hs, -⟩ := Option.bind_eq_some_iff.mp h
    exact (scanDir_returns_iff _).mp ⟨fuel, s, hs⟩
  · intro hends
    obtain ⟨i, hi⟩ := hends.leavesAt
    obtain ⟨r, hr⟩ := execute_fatIsDirEmpty_total junk hends.1 hi (Nat.lt_succ_self i)
    exact ⟨i + 1, _, hr⟩

/-- **When `fat_delete_dir` comes back.** -/
theorem fatDeleteDir_returns_iff (hm : Mounted g) :
    (∃ fuel r, execute junk (fatDeleteDir g fuel w) d = some r) ↔
      ScanEnds g d g.currentDirCluster false (deleteDirVerdict w) ∧
        ∀ n e lba, Target g d (deleteDirVerdict w) n e lba → isDirectory e = true →
          ScanEnds g d e.firstClusterLow true emptyVerdict ∧
            (DirEmpty g d e.firstClusterLow → FreeEnds g d e.firstClusterLow) := by
  constructor
  · rintro ⟨fuel, r, h⟩
    have hcode := h
    rw [fatDeleteDir, if_neg (by rw [hm.initialized]; decide), execute_bind, execute_kmalloc,
      Option.bind_some] at hcode
    obtain ⟨s, hs⟩ := search_returns hcode
    refine ⟨(scanDir_returns_iff _).mp ⟨fuel, s, hs⟩, ?_⟩
    intro n e lba ht hdir
    rw [execute_fatDeleteDir_target hm.initialized hs ht, if_pos hdir] at h
    obtain ⟨⟨empty, d₁⟩, hempty, hrest⟩ := Option.bind_eq_some_iff.mp h
    refine ⟨fatIsDirEmpty_returns_iff.mp ⟨fuel, _, hempty⟩, ?_⟩
    intro hnone
    rw [if_pos ((execute_fatIsDirEmpty hempty).2.mpr hnone)] at hrest
    obtain ⟨d₂, hd₂, -⟩ := Option.map_eq_some_iff.mp hrest
    exact (freeCluster_returns_iff).mp ⟨fuel, d₂, hd₂⟩
  · rintro ⟨hends, hrest⟩
    obtain ⟨i, hi⟩ := hends.leavesAt
    -- fuel enough to look into the directory and to free it, if there is one to delete
    have hfuel : ∃ m, ∀ n e lba, Target g d (deleteDirVerdict w) n e lba → isDirectory e = true →
        (¬ faults g e.firstClusterLow ∧ ∃ l, l < m ∧ LeavesAt g d e.firstClusterLow true emptyVerdict l) ∧
          (DirEmpty g d e.firstClusterLow → ∃ d₁, freeCluster g m e.firstClusterLow d = some d₁) := by
      by_cases ht : ∃ n e lba, Target g d (deleteDirVerdict w) n e lba ∧ isDirectory e = true
      · obtain ⟨n, e, lba, ht, hdir⟩ := ht
        obtain ⟨hinner, hfree⟩ := hrest n e lba ht hdir
        obtain ⟨l, hl⟩ := hinner.leavesAt
        have hm' : ∃ m, DirEmpty g d e.firstClusterLow → ∃ d₁, freeCluster g m e.firstClusterLow d = some d₁ := by
          by_cases hempty : DirEmpty g d e.firstClusterLow
          · obtain ⟨m, d₁, hd₁⟩ := (freeCluster_returns_iff).mpr (hfree hempty)
            exact ⟨m, fun _ => ⟨d₁, hd₁⟩⟩
          · exact ⟨0, fun h => absurd h hempty⟩
        obtain ⟨m, hm'⟩ := hm'
        refine ⟨l + 1 + m, fun n' e' lba' ht' _ => ?_⟩
        rw [ht'.unique_entry ht]
        refine ⟨⟨hinner.1, l, by omega, hl⟩, ?_⟩
        intro hempty
        obtain ⟨d₁, hd₁⟩ := hm' hempty
        exact ⟨d₁, freeCluster_mono hd₁ (by omega)⟩
      · exact ⟨0, fun n e lba hn hdir => absurd ⟨n, e, lba, hn, hdir⟩ ht⟩
    obtain ⟨m, hm'⟩ := hfuel
    obtain ⟨r, hr⟩ := execute_fatDeleteDir_total junk hm.initialized hends.1 hi
      (show i < i + 1 + m from by omega)
      (fun n e lba ht hdir => by
        obtain ⟨⟨hf, l, hl, hleaves⟩, -⟩ := hm' n e lba ht hdir
        exact ⟨hf, l, by omega, hleaves⟩)
      (fun n e lba ht hdir hempty => by
        obtain ⟨d₁, hd₁⟩ := (hm' n e lba ht hdir).2 hempty
        exact ⟨d₁, freeCluster_mono hd₁ (by omega)⟩)
    exact ⟨_, r, hr⟩

/-! ### The other functions -/

theorem fatFindFile_returns_iff (hm : Mounted g) :
    (∃ fuel r, execute junk (fatFindFile g fuel w) d = some r) ↔
      ScanEnds g d g.currentDirCluster true (findVerdict w) := by
  constructor
  · rintro ⟨fuel, r, h⟩
    simp only [fatFindFile, hm.initialized, Bool.not_true, Bool.false_eq_true, if_false, execute_bind,
      execute_kmalloc, Option.bind_some, freshBlock_ptr_ne] at h
    obtain ⟨s, hs, -⟩ := Option.bind_eq_some_iff.mp h
    exact (scanDir_returns_iff _).mp ⟨fuel, s, hs⟩
  · intro hends
    obtain ⟨i, hi⟩ := hends.leavesAt
    obtain ⟨r, hr⟩ := execute_fatFindFile_total junk hm.initialized hends.1 w hi (Nat.lt_succ_self i)
    exact ⟨i + 1, _, hr⟩

theorem fatCreateEntry_returns_iff (hm : Mounted g) {attr : UInt8} {cluster : UInt16} {size : ℕ} :
    (∃ fuel r, execute junk (fatCreateEntry g fuel w attr cluster size) d = some r) ↔
      ScanEnds g d g.currentDirCluster false freeVerdict := by
  constructor
  · rintro ⟨fuel, r, h⟩
    rw [fatCreateEntry, if_neg (by rw [hm.initialized]; decide), execute_bind, execute_kmalloc,
      Option.bind_some] at h
    obtain ⟨s, hs⟩ := search_returns h
    exact (scanDir_returns_iff _).mp ⟨fuel, s, hs⟩
  · intro hends
    obtain ⟨i, hi⟩ := hends.leavesAt
    obtain ⟨r, hr⟩ := execute_fatCreateEntry_total junk w hm.initialized hends.1 hi (Nat.lt_succ_self i) attr
      cluster size
    exact ⟨i + 1, _, hr⟩

theorem fatList_returns_iff (hm : Mounted g) :
    (∃ fuel r, execute junk (fatList g fuel) d = some r) ↔
      ScanEnds g d g.currentDirCluster true markVerdict := by
  have hcode : ∀ fuel, execute junk (fatList g fuel) d =
      (execute junk (scanDir g g.currentDirCluster true markVerdict fuel 0 (freshBlock junk)) d).map
        fun r => ((), r.2) := by
    intro fuel
    simp only [fatList, hm.initialized, Bool.not_true, Bool.false_eq_true, if_false, execute_bind,
      execute_kmalloc, Option.bind_some, freshBlock_ptr_ne, execute_kprint, execute_listLoop]
  rw [← scanDir_returns_iff (freshBlock junk)]
  constructor
  · rintro ⟨fuel, r, h⟩
    rw [hcode] at h
    obtain ⟨s, hs, -⟩ := Option.map_eq_some_iff.mp h
    exact ⟨fuel, s, hs⟩
  · rintro ⟨fuel, s, hs⟩
    exact ⟨fuel, _, by rw [hcode, hs, Option.map_some]⟩

/-! ### The six functions -/

/-- A call of one of the functions that scan a directory. -/
inductive Scan
  | fatFindFile (filename : List UInt8)
  | fatList
  | fatCreateEntry (filename : List UInt8) (attr : UInt8) (cluster : UInt16) (size : ℕ)
  | fatIsDirEmpty (cluster : UInt16)
  | fatDeleteFile (filename : List UInt8)
  | fatDeleteDir (dirname : List UInt8)

/-- The call among all those of `fat.c`. -/
def Scan.operation : Scan → Operation
  | fatFindFile filename => .fatFindFile filename
  | fatList => .fatList
  | fatCreateEntry filename attr cluster size => .fatCreateEntry filename attr cluster size
  | fatIsDirEmpty cluster => .fatIsDirEmpty cluster
  | fatDeleteFile filename => .fatDeleteFile filename
  | fatDeleteDir dirname => .fatDeleteDir dirname

/-- The call comes back. -/
def Terminates (junk : Sector) (g : Globals) (d : Disk) (o : Operation) : Prop :=
  ∃ fuel r, execute junk (o.code g fuel) d = some r

/-- **What lets the call come back**: its scan of the directory ends; for a deletion, so do the freeing of the
entry's clusters and, of a directory, the look into it. -/
def Scan.Ends (g : Globals) (d : Disk) : Scan → Prop
  | fatFindFile filename => ScanEnds g d g.currentDirCluster true (findVerdict filename)
  | fatList => ScanEnds g d g.currentDirCluster true markVerdict
  | fatCreateEntry _ _ _ _ => ScanEnds g d g.currentDirCluster false freeVerdict
  | fatIsDirEmpty cluster => ScanEnds g d cluster true emptyVerdict
  | fatDeleteFile filename => ScanEnds g d g.currentDirCluster false (deleteFileVerdict filename) ∧
      ∀ n e lba, Target g d (deleteFileVerdict filename) n e lba → isDirectory e = false →
        FreeEnds g d e.firstClusterLow
  | fatDeleteDir dirname => ScanEnds g d g.currentDirCluster false (deleteDirVerdict dirname) ∧
      ∀ n e lba, Target g d (deleteDirVerdict dirname) n e lba → isDirectory e = true →
        ScanEnds g d e.firstClusterLow true emptyVerdict ∧
          (DirEmpty g d e.firstClusterLow → FreeEnds g d e.firstClusterLow)

/-- Dropping the answer does not change whether there is one. -/
theorem drop_returns_iff {α : Type} {p : ℕ → Kernel α} :
    (∃ fuel r, execute junk (do let _ ← p fuel) d = some r) ↔ ∃ fuel r, execute junk (p fuel) d = some r := by
  constructor
  · rintro ⟨fuel, r, h⟩
    rw [execute_bind] at h
    obtain ⟨s, hs, -⟩ := Option.bind_eq_some_iff.mp h
    exact ⟨fuel, s, hs⟩
  · rintro ⟨fuel, s, hs⟩
    exact ⟨fuel, ((), s.2), by rw [execute_bind, hs]; rfl⟩

/-- **When the directory scans end.** -/
theorem scans_end_iff (junk : Sector) (g : Globals) (d : Disk) (hm : Mounted g) (s : Scan) :
    Terminates junk g d s.operation ↔ s.Ends g d := by
  cases s with
  | fatFindFile filename => exact drop_returns_iff.trans (fatFindFile_returns_iff hm)
  | fatList => exact fatList_returns_iff hm
  | fatCreateEntry filename attr cluster size => exact drop_returns_iff.trans (fatCreateEntry_returns_iff hm)
  | fatIsDirEmpty cluster => exact drop_returns_iff.trans fatIsDirEmpty_returns_iff
  | fatDeleteFile filename => exact drop_returns_iff.trans (fatDeleteFile_returns_iff hm)
  | fatDeleteDir dirname => exact drop_returns_iff.trans (fatDeleteDir_returns_iff hm)

/-- In the root directory a listing comes back. -/
theorem scans_end_small : Terminates (fun _ => 0) smallVolume smallDisk Scan.fatList.operation :=
  (scans_end_iff (fun _ => 0) smallVolume smallDisk geometry_smallVolume.toMounted .fatList).mpr
    ⟨geometry_smallVolume.not_faults 0, Or.inl rfl⟩

/-! ### A directory in a circle -/

/-- The small disk with a directory `D` in cluster 2, whose FAT entry leads back to itself. -/
def circularDisk : Disk :=
  putSlot (setFatEntry smallVolume smallDisk 2 2) 3 0 (fillEntry (fun _ => 0) (text "D") attrDirectory 2 0)

/-- The small volume after `cd D`. -/
def insideCircle : Globals := { smallVolume with currentDirCluster := 2, currentPath := text "/D" }

theorem walk_circle (n : ℕ) : walk insideCircle circularDisk n 2 = some 2 := by
  have hlink : fatEntry insideCircle circularDisk 2 = 2 := by
    decide +kernel
  induction n with
  | zero => rfl
  | succ n ih =>
    rw [walk, if_neg (by decide), hlink]
    exact ih

/-- Every slot of the directory holds an end mark. -/
theorem dirSlot_circle {e : DirEntry} (h : dirSlot insideCircle circularDisk 2 n = some e) : e.name 0 = 0 := by
  have hlba : dirLba insideCircle circularDisk 2 (n / 16) = some 4 := by
    rw [dirLba, if_neg (by decide), walk_circle, Option.map_some]
    have hmod : n / 16 % insideCircle.fatInfo.sectorsPerCluster.toNat = 0 := Nat.mod_one _
    rw [hmod]
    rfl
  have hzero : ∀ k, k < 16 → (entryAt (circularDisk.get 4) k).name 0 = 0 := by
    decide +kernel
  rw [dirSlot, hlba] at h
  rw [← Option.some.inj h]
  exact hzero (n % 16) (Nat.mod_lt _ (by decide))

/-- **`rm` in a directory that runs in a circle never comes back**, where `fat_find_file` returns at the end
mark in the first slot. -/
theorem circular_delete_hangs :
    Mounted smallVolume ∧
    (execute (fun _ => 0) (fatChangeDir smallVolume 1 (text "D")) circularDisk).map
      (fun r => r.1.currentDirCluster) = some 2 ∧
    Terminates (fun _ => 0) insideCircle circularDisk (Scan.fatFindFile (text "A")).operation ∧
    ¬ Terminates (fun _ => 0) insideCircle circularDisk (Scan.fatDeleteFile (text "A")).operation := by
  have hm : Mounted insideCircle := ⟨rfl, by decide, rfl, rfl, rfl⟩
  refine ⟨geometry_smallVolume.toMounted, by decide +kernel, ⟨1, ((), circularDisk), ?_⟩, ?_⟩
  · rfl
  · intro h
    obtain ⟨hends, -⟩ := (fatDeleteFile_returns_iff hm).mp (drop_returns_iff.mp h)
    rcases or_assoc.mpr hends.2 with hend | ⟨n, ⟨hhit, -⟩ | ⟨hret, -⟩⟩
    · obtain ⟨i, hi⟩ := (dirLba_ends_iff hends.1).mpr hend
      rw [dirLba, if_neg (by decide)] at hi
      exact absurd ((Option.map_eq_none_iff.mp hi).symm.trans (walk_circle _)) (by simp)
    · obtain ⟨e, he, hv⟩ := hhit
      rw [deleteFileVerdict, if_pos (dirSlot_circle he)] at hv
      cases hv
    · cases hret

end OsEojin.Fat
