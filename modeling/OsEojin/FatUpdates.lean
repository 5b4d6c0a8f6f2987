import OsEojin.FatSpec

/-!
# What the updating functions write

The functions of `fat.c` that write to the disk, each as the updates it makes when it comes back.

* `FirstFree`, `execute_fatAllocateCluster`: the allocation takes the first free FAT entry;
* `freeChain`, `execute_fatFreeClusterChain`: the freeing loop;
* `execute_fatCreateEntry`: one slot of one directory sector, or nothing;
* `execute_fatDeleteFile` / `execute_fatDeleteDir`: a freed chain and one marked slot, or nothing;
* `execute_cmdMkdir`: allocation, first sector and entry, in this order.
-/

namespace OsEojin.Fat

open OsEojin.Lib.Programs OsEojin.Ata OsEojin.Shell

variable {junk : Sector} {g : Globals} {d d' : Disk} {fuel : ℕ} {w : List UInt8}

/-! ### Allocation -/

/-- Word `k` of the FAT, counted through all its sectors. -/
def fatWord (g : Globals) (d : Disk) (k : ℕ) : UInt16 :=
  u16At (d.get (g.fatStartSector + k / 256)) (2 * (k % 256))

/-- Word `k` is one the allocation takes: free, and its number, cut to 16 bits, is neither 0 nor 1. -/
def FreeWord (g : Globals) (d : Disk) (k : ℕ) : Prop :=
  2 ≤ k % 65536 ∧ fatWord g d k = 0

/-- The first free word of the FAT. -/
def FirstFree (g : Globals) (d : Disk) (k : ℕ) : Prop :=
  k < 256 * g.fatInfo.fatSize16.toNat ∧ FreeWord g d k ∧ ∀ j, j < k → ¬ FreeWord g d j

/-- The words of the 16-bit cluster numbers are the FAT entries. -/
theorem fatWord_eq_fatEntry {k : ℕ} (hk : k < 65536) :
    fatWord g d k = fatEntry g d (UInt16.ofNat k) := by
  have htoNat : (UInt16.ofNat k).toNat = k := by
    rw [UInt16.toNat_ofNat']
    omega
  rw [fatWord, fatEntry, fatSector, entOffset, htoNat, show k * 2 / 512 = k / 256 from by omega,
    show k * 2 % 512 = 2 * (k % 256) from by omega]

/-- The cluster number of the first free word. -/
theorem firstFree_cluster {k : ℕ} (hk : FirstFree g d k) :
    2 ≤ (UInt16.ofNat k).toNat ∧ (UInt16.ofNat k).toNat < 256 * g.fatInfo.fatSize16.toNat := by
  obtain ⟨hlt, ⟨hlow, -⟩, -⟩ := hk
  rw [UInt16.toNat_ofNat', show 2 ^ 16 = 65536 from rfl]
  exact ⟨hlow, lt_of_le_of_lt (Nat.mod_le _ _) hlt⟩

/-- The loop over one sector of the FAT. -/
theorem allocInSector_cases (s : Sector) (i n j : ℕ) :
    (∃ m, j ≤ m ∧ m < j + n ∧ 2 ≤ (i * 256 + m) % 65536 ∧ u16At s (2 * m) = 0 ∧
        (∀ m', j ≤ m' → m' < m → ¬ (2 ≤ (i * 256 + m') % 65536 ∧ u16At s (2 * m') = 0)) ∧
        allocInSector s i n j = some (UInt16.ofNat (i * 256 + m))) ∨
      ((∀ m', j ≤ m' → m' < j + n → ¬ (2 ≤ (i * 256 + m') % 65536 ∧ u16At s (2 * m') = 0)) ∧
        allocInSector s i n j = none) := by
  induction n generalizing j with
  | zero => exact Or.inr ⟨fun m' h1 h2 => by omega, rfl⟩
  | succ n ih =>
    have hlow : (UInt16.ofNat (i * 256 + j) < 2) ↔ ¬ 2 ≤ (i * 256 + j) % 65536 := by
      rw [UInt16.lt_iff_toNat_lt, UInt16.toNat_ofNat', show (2 : UInt16).toNat = 2 from rfl]
      omega
    rw [allocInSector, Nat.mul_comm j 2]
    simp only [hlow]
    by_cases htake : 2 ≤ (i * 256 + j) % 65536 ∧ u16At s (2 * j) = 0
    · rw [if_neg (not_not.mpr htake.1), if_pos htake.2]
      exact Or.inl ⟨j, le_rfl, by omega, htake.1, htake.2, fun m' h1 h2 => by omega, rfl⟩
    · have hgo : (if ¬ 2 ≤ (i * 256 + j) % 65536 then allocInSector s i n (j + 1)
          else if u16At s (2 * j) = 0 then some (UInt16.ofNat (i * 256 + j))
          else allocInSector s i n (j + 1)) = allocInSector s i n (j + 1) := by
        by_cases h2 : 2 ≤ (i * 256 + j) % 65536
        · rw [if_neg (not_not.mpr h2), if_neg (fun h0 => htake ⟨h2, h0⟩)]
        · rw [if_pos h2]
      rw [hgo]
      have hext : ∀ m', j ≤ m' → j + 1 ≤ m' ∨ m' = j := fun m' h => by omega
      cases ih (j + 1) with
      | inl hfound =>
        obtain ⟨m, h1, h2, h3, h4, h5, h6⟩ := hfound
        refine Or.inl ⟨m, by omega, by omega, h3, h4, ?_, h6⟩
        intro m' hm' hlt
        cases hext m' hm' with
        | inl h => exact h5 m' h hlt
        | inr h => exact h ▸ htake
      | inr hnone =>
        refine Or.inr ⟨?_, hnone.2⟩
        intro m' hm' hlt
        cases hext m' hm' with
        | inl h => exact hnone.1 m' h (by omega)
        | inr h => exact h ▸ htake

theorem execute_allocLoop {n i : ℕ} (hn : n + i = g.fatInfo.fatSize16.toNat) (b : Buffer)
    (hbefore : ∀ j, j < 256 * i → ¬ FreeWord g d j) :
    (∃ k, FirstFree g d k ∧ execute junk (allocLoop g n i b) d =
        some (UInt16.ofNat k, setFatEntry g d (UInt16.ofNat k) 0xFFFF)) ∨
      ((∀ k, ¬ FirstFree g d k) ∧ execute junk (allocLoop g n i b) d = some (0, d)) := by
  induction n generalizing i b with
  | zero =>
    refine Or.inr ⟨?_, rfl⟩
    intro k hk
    exact hbefore k (by have := hk.1; omega) hk.2.1
  | succ n ih =>
    -- the words of sector `i` are numbered from `256 * i` on
    have hword : ∀ m, m < 256 → (FreeWord g d (256 * i + m) ↔
        2 ≤ (i * 256 + m) % 65536 ∧ u16At (d.get (g.fatStartSector + i)) (2 * m) = 0) := by
      intro m hm
      rw [FreeWord, fatWord, show (256 * i + m) / 256 = i from by omega,
        show (256 * i + m) % 256 = m from by omega, Nat.mul_comm i 256]
    cases allocInSector_cases (d.get (g.fatStartSector + i)) i 256 0 with
    | inl hfound =>
      obtain ⟨m, -, hm, h2, h0, hleast, heq⟩ := hfound
      refine Or.inl ⟨256 * i + m, ⟨by omega, (hword m (by omega)).mpr ⟨h2, h0⟩, ?_⟩, ?_⟩
      · intro j hj
        by_cases hlt : j < 256 * i
        · exact hbefore j hlt
        · rw [show j = 256 * i + (j - 256 * i) from by omega, hword _ (by omega)]
          exact hleast _ (Nat.zero_le _) (by omega)
      · rw [Nat.mul_comm 256 i]
        simp only [allocLoop, execute_bind, execute_ataReadSector, Option.bind_some, heq,
          execute_fatWriteFatEntry, execute_kfree, execute_pure]
    | inr hnone =>
      simp only [allocLoop, execute_bind, execute_ataReadSector, Option.bind_some, hnone.2]
      apply ih (by omega)
      intro j hj
      by_cases hlt : j < 256 * i
      · exact hbefore j hlt
      · rw [show j = 256 * i + (j - 256 * i) from by omega, hword _ (by omega)]
        exact hnone.1 _ (Nat.zero_le _) (by omega)

/-- **The allocation** takes the first free entry and marks it as an end of chain, or reports `0` and
writes nothing. -/
theorem execute_fatAllocateCluster (junk : Sector) (g : Globals) (d : Disk) :
    (∃ k, FirstFree g d k ∧ execute junk (fatAllocateCluster g) d =
        some (UInt16.ofNat k, setFatEntry g d (UInt16.ofNat k) 0xFFFF)) ∨
      ((∀ k, ¬ FirstFree g d k) ∧ execute junk (fatAllocateCluster g) d = some (0, d)) := by
  simp only [fatAllocateCluster, execute_bind, execute_kmalloc, Option.bind_some]
  exact execute_allocLoop (by omega) _ (fun j hj => by omega)

/-! ### Freeing -/

/-- The loop of `fat_free_cluster_chain`. -/
def freeChain (g : Globals) : ℕ → UInt16 → Disk → Option Disk
  | 0, _, _ => none
  | fuel + 1, curr, d =>
    if curr < 0xFFF8 then freeChain g fuel (fatEntry g d curr) (setFatEntry g d curr 0x0000)
    else some d

/-- The disk `fat_free_cluster_chain` leaves. -/
def freeCluster (g : Globals) (fuel : ℕ) (cluster : UInt16) (d : Disk) : Option Disk :=
  if cluster < 2 then some d else freeChain g fuel cluster d

theorem execute_freeLoop (fuel : ℕ) (curr : UInt16) (d : Disk) :
    execute junk (freeLoop g fuel curr) d = (freeChain g fuel curr d).map fun d' => ((), d') := by
  induction fuel generalizing curr d with
  | zero => rfl
  | succ fuel ih =>
    rw [freeLoop, freeChain]
    split
    · simp only [execute_bind, execute_fatNextCluster, execute_fatWriteFatEntry, Option.bind_some, ih]
    · rfl

theorem execute_fatFreeClusterChain (cluster : UInt16) :
    execute junk (fatFreeClusterChain g fuel cluster) d =
      (freeCluster g fuel cluster d).map fun d' => ((), d') := by
  rw [fatFreeClusterChain, freeCluster]
  split
  · rfl
  · exact execute_freeLoop fuel cluster d

/-! ### Creating an entry -/

/-- The disk after entry `k` of the sector at `lba` was replaced. -/
def putSlot (d : Disk) (lba k : ℕ) (e : DirEntry) : Disk := d.put lba (putEntry (d.get lba) k e)

theorem freeVerdict_ne_stop (e : DirEntry) : freeVerdict e ≠ .stop := by
  rw [freeVerdict]
  split <;> decide

/-- The slot a new entry goes to. -/
abbrev FreeSlot (g : Globals) (d : Disk) (n : ℕ) (e : DirEntry) (lba : ℕ) : Prop :=
  Found g d g.currentDirCluster false freeVerdict n e lba

/-- The directory ends without a free slot. -/
def DirFull (g : Globals) (d : Disk) : Prop :=
  ∃ i, dirLba g d g.currentDirCluster i = none ∧
    ∀ m, m < 16 * i → SlotIs g d g.currentDirCluster freeVerdict .skip m

/-- **`fat_create_entry`** fills the first free slot, or finds the directory full. -/
theorem execute_fatCreateEntry (hm : g.isFatInitialized = true) {attr : UInt8} {cluster : UInt16}
    {size : ℕ} {r : Bool}
    (h : execute junk (fatCreateEntry g fuel w attr cluster size) d = some (r, d')) :
    (r = true ∧ ∃ n e lba, FreeSlot g d n e lba ∧
        d' = putSlot d lba (n % 16) (fillEntry e w attr cluster size)) ∨
      (r = false ∧ d' = d ∧ DirFull g d) := by
  simp only [fatCreateEntry, hm, Bool.not_true, Bool.false_eq_true, if_false, execute_bind,
    execute_kmalloc, Option.bind_some] at h
  obtain ⟨⟨scan, d₁⟩, hscan, hrest⟩ := Option.bind_eq_some_iff.mp h
  obtain ⟨rfl, hspec⟩ := execute_scanDir hscan
  have hf := not_faults_of_scanDir hscan
  cases scan with
  | hit i k b =>
    obtain ⟨hk, e, lba, hdata, hfound⟩ := hspec
    obtain ⟨hsector, hentry, hmod⟩ := hfound.sector_hit hk hdata
    simp only [execute_bind, execute_writeBackLba hf hsector, Option.bind_some,
      execute_ataWriteSector, execute_kfree, execute_kprint, execute_pure] at hrest
    cases hrest
    refine Or.inl ⟨rfl, 16 * i + k, e, lba, hfound, ?_⟩
    rw [putSlot, hmod, hentry, hdata]
  | stop b => exact absurd hspec.1 (by decide)
  | through b =>
    obtain ⟨i, hnone, hpassed⟩ := hspec
    simp only [execute_bind, execute_kfree, execute_kprint, Option.bind_some, execute_pure] at hrest
    cases hrest
    exact Or.inr ⟨rfl, rfl, i, hnone, fun m hlt => (hpassed m hlt).skip (Or.inr freeVerdict_ne_stop)⟩

theorem execute_fatCreateEntry_total (junk : Sector) (w : List UInt8) (hm : g.isFatInitialized = true)
    (hf : ¬ faults g g.currentDirCluster) {last : ℕ}
    (hlast : LeavesAt g d g.currentDirCluster false freeVerdict last) (hfuel : last < fuel) (attr : UInt8)
    (cluster : UInt16) (size : ℕ) :
    ∃ r, execute junk (fatCreateEntry g fuel w attr cluster size) d = some r := by
  obtain ⟨scan, hscan, hspec⟩ :=
    execute_scanDir_total junk false freeVerdict hf hlast hfuel (freshBlock junk)
  simp only [fatCreateEntry, hm, Bool.not_true, Bool.false_eq_true, if_false, execute_bind,
    execute_kmalloc, Option.bind_some, hscan]
  cases scan with
  | hit i k b =>
    obtain ⟨hk, e, lba, -, hfound⟩ := hspec
    have hsector := hfound.sector
    rw [show (16 * i + k) / 16 = i from by omega] at hsector
    simp only [execute_bind, execute_writeBackLba hf hsector, Option.bind_some]
    exact ⟨_, rfl⟩
  | stop b => exact ⟨_, rfl⟩
  | through b => exact ⟨_, rfl⟩

/-! ### The empty directory -/

/-- No entry other than `.` and `..` stands before the end of the directory. -/
def DirEmpty (g : Globals) (d : Disk) (c : UInt16) : Prop :=
  ∀ n e, dirSlot g d c n = some e → (∀ m, m < n → ∃ x, dirSlot g d c m = some x ∧ x.name 0 ≠ 0) →
    emptyVerdict e ≠ .hit

theorem emptyVerdict_stop {e : DirEntry} (h : emptyVerdict e = .stop) : e.name 0 = 0 := by
  rw [emptyVerdict] at h
  split at h
  · assumption
  · split at h
    · cases h
    · split at h <;> cases h

theorem SlotIs.not_hit {c : UInt16} {verdict : DirEntry → Verdict} {n : ℕ} {e : DirEntry}
    {v : Verdict} (h : SlotIs g d c verdict v n) (he : dirSlot g d c n = some e) (hv : v ≠ .hit) :
    verdict e ≠ .hit := by
  obtain ⟨x, hx, hvx⟩ := h
  rw [he] at hx
  cases hx
  rw [hvx]
  exact hv

/-- A slot taken by the scan shows that the directory is not empty. -/
theorem Found.not_dirEmpty {c : UInt16} {n lba : ℕ} {e : DirEntry}
    (h : Found g d c true emptyVerdict n e lba) : ¬ DirEmpty g d c := by
  intro hempty
  refine hempty n e h.slot ?_ h.hit
  intro m hm
  obtain ⟨x, hx, hskip⟩ := h.skip (Or.inl rfl) hm
  refine ⟨x, hx, ?_⟩
  intro h0
  rw [emptyVerdict, if_pos h0] at hskip
  cases hskip

theorem execute_fatIsDirEmpty {c : UInt16} {r : Bool}
    (h : execute junk (fatIsDirEmpty g fuel c) d = some (r, d')) :
    d' = d ∧ (r = true ↔ DirEmpty g d c) := by
  simp only [fatIsDirEmpty, execute_bind, execute_kmalloc, Option.bind_some,
    freshBlock_ptr_ne, if_false] at h
  obtain ⟨⟨scan, d₁⟩, hscan, hrest⟩ := Option.bind_eq_some_iff.mp h
  obtain ⟨rfl, hspec⟩ := execute_scanDir hscan
  cases scan with
  | hit i k b =>
    cases hrest
    obtain ⟨-, e, lba, -, hfound⟩ := hspec
    exact ⟨rfl, fun hr => (by cases hr), fun hempty => absurd hempty hfound.not_dirEmpty⟩
  | stop b =>
    cases hrest
    obtain ⟨-, n₀, hstop, hskip⟩ := hspec
    refine ⟨rfl, ?_, fun _ => rfl⟩
    intro _ n e he hlive
    rcases Nat.lt_trichotomy n n₀ with hlt | rfl | hgt
    · exact (hskip n hlt).not_hit he (by decide)
    · exact hstop.not_hit he (by decide)
    · obtain ⟨x, hx, hv⟩ := hstop
      obtain ⟨y, hy, hy0⟩ := hlive n₀ hgt
      rw [hx] at hy
      cases hy
      exact absurd (emptyVerdict_stop hv) hy0
  | through b =>
    cases hrest
    obtain ⟨i, hnone, hpassed⟩ := hspec
    refine ⟨rfl, ?_, fun _ => rfl⟩
    intro _ n e he hlive
    by_cases hlt : n < 16 * i
    · exact ((hpassed n hlt).skip (Or.inl rfl)).not_hit he (by decide)
    · rw [dirSlot, dirLba_none_mono hnone (show i ≤ n / 16 from by omega)] at he
      cases he

theorem execute_fatIsDirEmpty_total (junk : Sector) {c : UInt16} (hf : ¬ faults g c) {last : ℕ}
    (hlast : LeavesAt g d c true emptyVerdict last) (hfuel : last < fuel) :
    ∃ r, execute junk (fatIsDirEmpty g fuel c) d = some (r, d) := by
  obtain ⟨scan, hscan, -⟩ :=
    execute_scanDir_total junk true emptyVerdict hf hlast hfuel (freshBlock junk)
  simp only [fatIsDirEmpty, execute_bind, execute_kmalloc, Option.bind_some,
    freshBlock_ptr_ne, if_false, hscan]
  cases scan with
  | hit i k b => exact ⟨_, rfl⟩
  | stop b => exact ⟨_, rfl⟩
  | through b => exact ⟨_, rfl⟩

/-! ### Deleting an entry -/

theorem execute_deleteFound (hf : ¬ faults g g.currentDirCluster) {i lba : ℕ} (k : ℕ) (b : Buffer)
    (hsector : dirLba g d g.currentDirCluster i = some lba) (message : String) :
    execute junk (deleteFound g fuel i k b message) d =
      (freeCluster g fuel (entryAt b.data k).firstClusterLow d).map fun d₁ =>
        (true, d₁.put lba (putEntry b.data k (markDeleted (entryAt b.data k)))) := by
  simp only [deleteFound, execute_bind, execute_writeBackLba hf hsector, Option.bind_some,
    execute_fatFreeClusterChain]
  cases freeCluster g fuel (entryAt b.data k).firstClusterLow d with
  | none => rfl
  | some d₁ => rfl

/-- The disk after the entry `e` in slot `n` was deleted. -/
def Deleted (g : Globals) (fuel : ℕ) (d : Disk) (n : ℕ) (e : DirEntry) (lba : ℕ) (d' : Disk) : Prop :=
  ∃ d₁, freeCluster g fuel e.firstClusterLow d = some d₁ ∧
    d' = d₁.put lba (putEntry (d.get lba) (n % 16) (markDeleted e))

/-- The slot a deletion takes. -/
abbrev Target (g : Globals) (d : Disk) (verdict : DirEntry → Verdict) (n : ℕ) (e : DirEntry)
    (lba : ℕ) : Prop :=
  Found g d g.currentDirCluster false verdict n e lba

/-- **`fat_delete_file`** writes nothing, or deletes the plain file it found. -/
theorem execute_fatDeleteFile (hm : g.isFatInitialized = true) {r : Bool}
    (h : execute junk (fatDeleteFile g fuel w) d = some (r, d')) :
    (r = false ∧ d' = d) ∨ (r = true ∧ ∃ n e lba, Target g d (deleteFileVerdict w) n e lba ∧
      isDirectory e = false ∧ Deleted g fuel d n e lba d') := by
  simp only [fatDeleteFile, hm, Bool.not_true, Bool.false_eq_true, if_false, execute_bind,
    execute_kmalloc, Option.bind_some] at h
  obtain ⟨⟨scan, d₁⟩, hscan, hrest⟩ := Option.bind_eq_some_iff.mp h
  obtain ⟨rfl, hspec⟩ := execute_scanDir hscan
  have hf := not_faults_of_scanDir hscan
  cases scan with
  | hit i k b =>
    obtain ⟨hk, e, lba, hdata, hfound⟩ := hspec
    obtain ⟨hsector, hentry, hmod⟩ := hfound.sector_hit hk hdata
    simp only [hentry] at hrest
    cases hdir : isDirectory e with
    | true =>
      simp only [hdir, if_true] at hrest
      cases hrest
      exact Or.inl ⟨rfl, rfl⟩
    | false =>
      simp only [hdir, Bool.false_eq_true, if_false, execute_deleteFound hf k b hsector, hentry] at hrest
      obtain ⟨d₂, hfree, heq⟩ := Option.map_eq_some_iff.mp hrest
      cases heq
      exact Or.inr ⟨rfl, _, e, lba, hfound, hdir, d₂, hfree, by rw [hmod, hdata]⟩
  | stop b => exact absurd hspec.1 (by decide)
  | through b =>
    cases hrest
    exact Or.inl ⟨rfl, rfl⟩

/-- **`fat_delete_dir`** writes nothing, or deletes the empty directory it found. -/
theorem execute_fatDeleteDir (hm : g.isFatInitialized = true) {r : Bool}
    (h : execute junk (fatDeleteDir g fuel w) d = some (r, d')) :
    (r = false ∧ d' = d) ∨ (r = true ∧ ∃ n e lba, Target g d (deleteDirVerdict w) n e lba ∧
      isDirectory e = true ∧ DirEmpty g d e.firstClusterLow ∧ Deleted g fuel d n e lba d') := by
  simp only [fatDeleteDir, hm, Bool.not_true, Bool.false_eq_true, if_false, execute_bind,
    execute_kmalloc, Option.bind_some] at h
  obtain ⟨⟨scan, d₁⟩, hscan, hrest⟩ := Option.bind_eq_some_iff.mp h
  obtain ⟨rfl, hspec⟩ := execute_scanDir hscan
  have hf := not_faults_of_scanDir hscan
  cases scan with
  | hit i k b =>
    obtain ⟨hk, e, lba, hdata, hfound⟩ := hspec
    obtain ⟨hsector, hentry, hmod⟩ := hfound.sector_hit hk hdata
    simp only [hentry] at hrest
    cases hdir : isDirectory e with
    | false =>
      simp only [hdir, Bool.not_false, if_true] at hrest
      cases hrest
      exact Or.inl ⟨rfl, rfl⟩
    | true =>
      simp only [hdir, Bool.not_true, Bool.false_eq_true, if_false, execute_bind] at hrest
      obtain ⟨⟨empty, d₂⟩, hempty, hrest⟩ := Option.bind_eq_some_iff.mp hrest
      obtain ⟨rfl, hspec⟩ := execute_fatIsDirEmpty hempty
      cases empty with
      | false =>
        cases hrest
        exact Or.inl ⟨rfl, rfl⟩
      | true =>
        simp only [Bool.not_true, Bool.false_eq_true, if_false, execute_deleteFound hf k b hsector,
          hentry] at hrest
        obtain ⟨d₃, hfree, heq⟩ := Option.map_eq_some_iff.mp hrest
        cases heq
        exact Or.inr ⟨rfl, _, e, lba, hfound, hdir, hspec.mp rfl, d₃, hfree, by rw [hmod, hdata]⟩
  | stop b => exact absurd hspec.1 (by decide)
  | through b =>
    cases hrest
    exact Or.inl ⟨rfl, rfl⟩

theorem execute_fatDeleteFile_total (junk : Sector) (hm : g.isFatInitialized = true)
    (hf : ¬ faults g g.currentDirCluster) {last : ℕ}
    (hlast : LeavesAt g d g.currentDirCluster false (deleteFileVerdict w) last) (hfuel : last < fuel)
    (hfree : ∀ n e lba, Target g d (deleteFileVerdict w) n e lba → isDirectory e = false →
      ∃ d₁, freeCluster g fuel e.firstClusterLow d = some d₁) :
    ∃ r, execute junk (fatDeleteFile g fuel w) d = some r := by
  obtain ⟨scan, hscan, hspec⟩ :=
    execute_scanDir_total junk false (deleteFileVerdict w) hf hlast hfuel (freshBlock junk)
  simp only [fatDeleteFile, hm, Bool.not_true, Bool.false_eq_true, if_false, execute_bind,
    execute_kmalloc, Option.bind_some, hscan]
  cases scan with
  | hit i k b =>
    obtain ⟨hk, e, lba, hdata, hfound⟩ := hspec
    obtain ⟨hsector, hentry, -⟩ := hfound.sector_hit hk hdata
    simp only [hentry]
    cases hdir : isDirectory e with
    | true => exact ⟨_, rfl⟩
    | false =>
      obtain ⟨d₁, hd₁⟩ := hfree _ e lba hfound hdir
      simp only [Bool.false_eq_true, if_false, execute_deleteFound hf k b hsector, hentry, hd₁]
      exact ⟨_, rfl⟩
  | stop b => exact ⟨_, rfl⟩
  | through b => exact ⟨_, rfl⟩

theorem execute_fatDeleteDir_total (junk : Sector) (hm : g.isFatInitialized = true)
    (hf : ¬ faults g g.currentDirCluster) {last : ℕ}
    (hlast : LeavesAt g d g.currentDirCluster false (deleteDirVerdict w) last) (hfuel : last < fuel)
    (hends : ∀ n e lba, Target g d (deleteDirVerdict w) n e lba → isDirectory e = true →
      ¬ faults g e.firstClusterLow ∧ ∃ l, l < fuel ∧ LeavesAt g d e.firstClusterLow true emptyVerdict l)
    (hfree : ∀ n e lba, Target g d (deleteDirVerdict w) n e lba → isDirectory e = true →
      DirEmpty g d e.firstClusterLow → ∃ d₁, freeCluster g fuel e.firstClusterLow d = some d₁) :
    ∃ r, execute junk (fatDeleteDir g fuel w) d = some r := by
  obtain ⟨scan, hscan, hspec⟩ :=
    execute_scanDir_total junk false (deleteDirVerdict w) hf hlast hfuel (freshBlock junk)
  simp only [fatDeleteDir, hm, Bool.not_true, Bool.false_eq_true, if_false, execute_bind,
    execute_kmalloc, Option.bind_some, hscan]
  cases scan with
  | hit i k b =>
    obtain ⟨hk, e, lba, hdata, hfound⟩ := hspec
    obtain ⟨hsector, hentry, -⟩ := hfound.sector_hit hk hdata
    simp only [hentry]
    cases hdir : isDirectory e with
    | false => exact ⟨_, rfl⟩
    | true =>
      obtain ⟨hf', l, hl, hleaves⟩ := hends _ e lba hfound hdir
      obtain ⟨empty, hempty⟩ := execute_fatIsDirEmpty_total junk hf' hleaves hl
      simp only [Bool.not_true, Bool.false_eq_true, if_false, execute_bind, hempty, Option.bind_some]
      cases empty with
      | false => exact ⟨_, rfl⟩
      | true =>
        obtain ⟨d₁, hd₁⟩ := hfree _ e lba hfound hdir ((execute_fatIsDirEmpty hempty).2.mp rfl)
        simp only [Bool.not_true, Bool.false_eq_true, if_false, execute_deleteFound hf k b hsector,
          hentry, hd₁]
        exact ⟨_, rfl⟩
  | stop b => exact ⟨_, rfl⟩
  | through b => exact ⟨_, rfl⟩

/-! ### `mkdir` -/

/-- The disk after `mkdir` allocated `c` and wrote its first sector. -/
def withNewDir (g : Globals) (d : Disk) (c : UInt16) : Disk :=
  (setFatEntry g d c 0xFFFF).put (fatLbaOfCluster g c) (dotSector c g.currentDirCluster)

theorem ofNat_ne_zero {k : ℕ} (h : 2 ≤ k % 65536) : UInt16.ofNat k ≠ 0 := by
  intro h0
  have := congrArg UInt16.toNat h0
  rw [UInt16.toNat_ofNat'] at this
  have hz : (0 : UInt16).toNat = 0 := rfl
  omega

theorem execute_cmdMkdir_free {k : ℕ} (hk : FirstFree g d k) :
    execute junk (cmdMkdir g fuel w) d =
      (execute junk (fatCreateEntry g fuel w attrDirectory (UInt16.ofNat k) 0)
        (withNewDir g d (UInt16.ofNat k))) := by
  cases execute_fatAllocateCluster junk g d with
  | inr hnone => exact absurd hk (hnone.1 k)
  | inl hsome =>
    obtain ⟨k', hk', hexec⟩ := hsome
    have hkk : k' = k := by
      rcases Nat.lt_trichotomy k' k with hlt | heq | hgt
      · exact absurd hk'.2.1 (hk.2.2 k' hlt)
      · exact heq
      · exact absurd hk.2.1 (hk'.2.2 k hgt)
    rw [hkk] at hexec
    simp only [cmdMkdir, execute_bind, hexec, Option.bind_some, ofNat_ne_zero hk.2.1.1, if_false,
      execute_kmalloc, execute_ataWriteSector, execute_kfree]
    show ((execute junk (fatCreateEntry g fuel w attrDirectory (UInt16.ofNat k) 0)
      (withNewDir g d (UInt16.ofNat k))).bind _) = _
    cases execute junk (fatCreateEntry g fuel w attrDirectory (UInt16.ofNat k) 0)
      (withNewDir g d (UInt16.ofNat k)) with
    | none => rfl
    | some r =>
      obtain ⟨created, d₁⟩ := r
      cases created <;> rfl

theorem execute_cmdMkdir_full (hfull : ∀ k, ¬ FirstFree g d k) :
    execute junk (cmdMkdir g fuel w) d = some (false, d) := by
  cases execute_fatAllocateCluster junk g d with
  | inl hsome =>
    obtain ⟨k, hk, -⟩ := hsome
    exact absurd hk (hfull k)
  | inr hnone =>
    simp only [cmdMkdir, execute_bind, hnone.2, Option.bind_some, if_true, execute_kprint, execute_pure]

end OsEojin.Fat
