import OsEojin.Shell

/-!
# What the file system's functions do on the device

Each function of `fat.c` that only reads has a pure counterpart here, a function of the globals and the
disk; each that writes is one update of the disk.  Nothing is assumed about the volume: broken chains
and cyclic directories are read as the code reads them.

* `fatEntry` / `setFatEntry`: the FAT as an array;
* `walk`, `dirLba`, `dirSlot`: a directory as a sequence of slots;
* `ScanSpec`, `execute_scanDir`: where the shared directory loop can end, and
  `execute_scanDir_total`: that it ends where there is a place to leave it.
-/

namespace OsEojin.Fat

open OsEojin.Lib.Programs OsEojin.Ata

variable {junk : Sector} {g : Globals} {d : Disk}

/-! ### The FAT as an array -/

/-- The FAT entry of a cluster, in the first copy. -/
def fatEntry (g : Globals) (d : Disk) (cluster : UInt16) : UInt16 :=
  u16At (d.get (fatSector g cluster)) (entOffset cluster)

/-- The disk after a FAT entry of the first copy was set. -/
def setFatEntry (g : Globals) (d : Disk) (cluster value : UInt16) : Disk :=
  d.put (fatSector g cluster) (putU16 (d.get (fatSector g cluster)) (entOffset cluster) value)

@[simp] theorem execute_fatNextCluster (cluster : UInt16) :
    execute junk (fatNextCluster g cluster) d = some (fatEntry g d cluster, d) := rfl

@[simp] theorem execute_fatWriteFatEntry (cluster value : UInt16) :
    execute junk (fatWriteFatEntry g cluster value) d = some ((), setFatEntry g d cluster value) := rfl

/-! ### A directory as a sequence of slots -/

/-- The cluster `n` links from `c` on, unless the chain ends first. -/
def walk (g : Globals) (d : Disk) : ℕ → UInt16 → Option UInt16
  | 0, c => if c ≥ 0xFFF8 then none else some c
  | n + 1, c => if c ≥ 0xFFF8 then none else walk g d n (fatEntry g d c)

/-- The address of sector `i` of a directory, as long as the directory has one. -/
def dirLba (g : Globals) (d : Disk) (startCluster : UInt16) (i : ℕ) : Option ℕ :=
  if startCluster = 0 then
    if g.fatInfo.rootDirSectors ≤ i then none else some (g.rootDirSector + i)
  else
    (walk g d (i / g.fatInfo.sectorsPerCluster.toNat) startCluster).map fun c =>
      fatLbaOfCluster g c + i % g.fatInfo.sectorsPerCluster.toNat

/-- Slot `n` of a directory, sixteen to a sector. -/
def dirSlot (g : Globals) (d : Disk) (startCluster : UInt16) (n : ℕ) : Option DirEntry :=
  (dirLba g d startCluster (n / 16)).map fun lba => entryAt (d.get lba) (n % 16)

/-- Where the links lead does not depend on the current directory. -/
theorem walk_move (g : Globals) (d : Disk) (c : UInt16) (path : List UInt8) (n : ℕ) (x : UInt16) :
    walk { g with currentDirCluster := c, currentPath := path } d n x = walk g d n x := by
  induction n generalizing x with
  | zero => rfl
  | succ n ih =>
    rw [walk, walk, ih]
    rfl

/-- Nor do the sectors of a directory. -/
theorem dirLba_move (g : Globals) (d : Disk) (c : UInt16) (path : List UInt8) (x : UInt16) (i : ℕ) :
    dirLba { g with currentDirCluster := c, currentPath := path } d x i = dirLba g d x i := by
  rw [dirLba, dirLba, walk_move]
  rfl

/-- Reading this directory divides by zero. -/
def faults (g : Globals) (startCluster : UInt16) : Prop :=
  if startCluster = 0 then g.fatInfo.bytesPerSector = 0
  else g.fatInfo.sectorsPerCluster.toNat = 0

theorem execute_dirClusterLoop (n : ℕ) (c : UInt16) :
    execute junk (dirClusterLoop g n c) d = some (walk g d n c, d) := by
  induction n generalizing c with
  | zero =>
    rw [dirClusterLoop, walk]
    split <;> rfl
  | succ n ih =>
    rw [dirClusterLoop, walk]
    split
    · rfl
    · simp only [execute_bind, execute_fatNextCluster, Option.bind_some, ih]

theorem execute_fatReadDirSector {c : UInt16} (h : ¬ faults g c) (i : ℕ) (b : Buffer) :
    execute junk (fatReadDirSector g c i b) d =
      some ((dirLba g d c i).map fun lba => { b with data := d.get lba }, d) := by
  rw [faults] at h
  rw [fatReadDirSector, dirLba]
  by_cases hc : c = 0
  · rw [if_pos hc] at h
    rw [if_pos hc, if_pos hc, if_neg h]
    split
    · rfl
    · rfl
  · rw [if_neg hc] at h
    simp only [if_neg hc, if_neg h, execute_bind, execute_dirClusterLoop, Option.bind_some]
    cases walk g d (i / g.fatInfo.sectorsPerCluster.toNat) c with
    | none => rfl
    | some curr => rfl

theorem execute_fatReadDirSector_fault {c : UInt16} (h : faults g c) (i : ℕ) (b : Buffer) :
    execute junk (fatReadDirSector g c i b) d = none := by
  rw [faults] at h
  rw [fatReadDirSector]
  by_cases hc : c = 0
  · rw [if_pos hc] at h
    rw [if_pos hc, if_pos h]
    rfl
  · rw [if_neg hc] at h
    simp only [if_neg hc, if_pos h]
    rfl

/-- Unchecked links end where the checked ones do. -/
theorem execute_followLinks {n : ℕ} {c curr : UInt16} (h : walk g d n c = some curr) :
    execute junk (followLinks g n c) d = some (curr, d) := by
  induction n generalizing c with
  | zero =>
    rw [walk] at h
    split at h
    · cases h
    · cases h
      rfl
  | succ n ih =>
    rw [walk] at h
    split at h
    · cases h
    · simp only [followLinks, execute_bind, execute_fatNextCluster, Option.bind_some]
      exact ih h

/-- **The write-back address** is the address the sector was read from. -/
theorem execute_writeBackLba (hf : ¬ faults g g.currentDirCluster) {i lba : ℕ}
    (h : dirLba g d g.currentDirCluster i = some lba) :
    execute junk (writeBackLba g i) d = some (lba, d) := by
  rw [faults] at hf
  rw [dirLba] at h
  rw [writeBackLba]
  by_cases hc : g.currentDirCluster = 0
  · rw [if_pos hc] at h ⊢
    split at h
    · cases h
    · cases h
      rfl
  · rw [if_neg hc] at h hf
    simp only [if_neg hc, if_neg hf]
    obtain ⟨curr, hcurr, rfl⟩ := Option.map_eq_some_iff.mp h
    simp only [execute_bind, execute_followLinks hcurr, Option.bind_some, execute_pure]

/-! ### The loop over one sector -/

section Sector

variable {verdict : DirEntry → Verdict} {s : Sector} {n k : ℕ}

theorem scanSector_hit {j : ℕ} (h : scanSector verdict s n k = .hit j) :
    k ≤ j ∧ j < k + n ∧ verdict (entryAt s j) = .hit ∧
      ∀ m, k ≤ m → m < j → verdict (entryAt s m) = .skip := by
  induction n generalizing k with
  | zero => cases h
  | succ n ih =>
    rw [scanSector] at h
    cases hv : verdict (entryAt s k) with
    | skip =>
      rw [hv] at h
      obtain ⟨h1, h2, h3, h4⟩ := ih h
      refine ⟨by omega, by omega, h3, ?_⟩
      intro m hkm hmj
      rcases Nat.eq_or_lt_of_le hkm with rfl | hlt
      · exact hv
      · exact h4 m hlt hmj
    | hit =>
      rw [hv] at h
      cases h
      exact ⟨le_rfl, by omega, hv, fun m h1 h2 => by omega⟩
    | stop =>
      rw [hv] at h
      cases h

theorem scanSector_stop (h : scanSector verdict s n k = .stop) :
    ∃ j, k ≤ j ∧ j < k + n ∧ verdict (entryAt s j) = .stop ∧
      ∀ m, k ≤ m → m < j → verdict (entryAt s m) = .skip := by
  induction n generalizing k with
  | zero => cases h
  | succ n ih =>
    rw [scanSector] at h
    cases hv : verdict (entryAt s k) with
    | skip =>
      rw [hv] at h
      obtain ⟨j, h1, h2, h3, h4⟩ := ih h
      refine ⟨j, by omega, by omega, h3, ?_⟩
      intro m hkm hmj
      rcases Nat.eq_or_lt_of_le hkm with rfl | hlt
      · exact hv
      · exact h4 m hlt hmj
    | hit =>
      rw [hv] at h
      cases h
    | stop => exact ⟨k, le_rfl, by omega, hv, fun m h1 h2 => by omega⟩

theorem scanSector_through (h : scanSector verdict s n k = .through) :
    ∀ m, k ≤ m → m < k + n → verdict (entryAt s m) = .skip := by
  induction n generalizing k with
  | zero =>
    intro m h1 h2
    omega
  | succ n ih =>
    rw [scanSector] at h
    cases hv : verdict (entryAt s k) with
    | skip =>
      rw [hv] at h
      intro m hkm hmn
      rcases Nat.eq_or_lt_of_le hkm with rfl | hlt
      · exact hv
      · exact ih h m hlt (by omega)
    | hit =>
      rw [hv] at h
      cases h
    | stop =>
      rw [hv] at h
      cases h

end Sector

/-! ### The loop over a directory -/

section Scan

variable {c : UInt16} {endReturns : Bool} {verdict : DirEntry → Verdict}

/-- Slot `m` is there and the test gives `v`. -/
def SlotIs (g : Globals) (d : Disk) (c : UInt16) (verdict : DirEntry → Verdict) (v : Verdict)
    (m : ℕ) : Prop :=
  ∃ e, dirSlot g d c m = some e ∧ verdict e = v

/-- The loop has left slot `m` behind: it skipped it, or it left the sector at an end mark before it. -/
def Passed (g : Globals) (d : Disk) (c : UInt16) (endReturns : Bool) (verdict : DirEntry → Verdict)
    (m : ℕ) : Prop :=
  SlotIs g d c verdict .skip m ∨
    (endReturns = false ∧ ∃ m', m' ≤ m ∧ m' / 16 = m / 16 ∧ SlotIs g d c verdict .stop m')

/-- **The slot the loop takes**: number `n`, holding `e`, in the sector at `lba`. -/
structure Found (g : Globals) (d : Disk) (c : UInt16) (endReturns : Bool)
    (verdict : DirEntry → Verdict) (n : ℕ) (e : DirEntry) (lba : ℕ) : Prop where
  sector : dirLba g d c (n / 16) = some lba
  entry : entryAt (d.get lba) (n % 16) = e
  hit : verdict e = .hit
  passed : ∀ m, m < 16 * (n / 16) → Passed g d c endReturns verdict m
  skipped : ∀ m, 16 * (n / 16) ≤ m → m < n → SlotIs g d c verdict .skip m

/-- **Where the loop can end**, and what it has seen by then. -/
def ScanSpec (g : Globals) (d : Disk) (c : UInt16) (endReturns : Bool)
    (verdict : DirEntry → Verdict) : DirScan → Prop
  | .hit i k b =>
    k < 16 ∧ ∃ e lba, b.data = d.get lba ∧ Found g d c endReturns verdict (16 * i + k) e lba
  | .stop _ =>
    endReturns = true ∧ ∃ n, SlotIs g d c verdict .stop n ∧ ∀ m, m < n → SlotIs g d c verdict .skip m
  | .through _ =>
    ∃ i, dirLba g d c i = none ∧ ∀ m, m < 16 * i → Passed g d c endReturns verdict m

theorem slotIs_of_dirLba {i lba m : ℕ} {v : Verdict} (h : dirLba g d c i = some lba) (hm : m < 16)
    (hv : verdict (entryAt (d.get lba) m) = v) : SlotIs g d c verdict v (16 * i + m) := by
  refine ⟨entryAt (d.get lba) m, ?_, hv⟩
  rw [dirSlot, show (16 * i + m) / 16 = i from by omega, h,
    show (16 * i + m) % 16 = m from by omega]
  rfl

/-- What was passed was skipped, where the loop returns at end marks or never meets one. -/
theorem Passed.skip {m : ℕ} (h : Passed g d c endReturns verdict m)
    (hstop : endReturns = true ∨ ∀ e, verdict e ≠ .stop) : SlotIs g d c verdict .skip m := by
  cases h with
  | inl h => exact h
  | inr h =>
    obtain ⟨her, m', -, -, e, -, he⟩ := h
    cases hstop with
    | inl htrue =>
      rw [htrue] at her
      cases her
    | inr hnever => exact absurd he (hnever e)

theorem Found.slot {n lba : ℕ} {e : DirEntry} (h : Found g d c endReturns verdict n e lba) :
    dirSlot g d c n = some e := by
  rw [dirSlot, h.sector, ← h.entry]
  rfl

theorem Found.skip {n lba : ℕ} {e : DirEntry} (h : Found g d c endReturns verdict n e lba)
    (hstop : endReturns = true ∨ ∀ e, verdict e ≠ .stop) {m : ℕ} (hm : m < n) :
    SlotIs g d c verdict .skip m := by
  by_cases hlt : m < 16 * (n / 16)
  · exact (h.passed m hlt).skip hstop
  · exact h.skipped m (by omega) hm

/-- The sector a scan stopped in, in the terms of the slot it found. -/
theorem Found.sector_hit {i k lba : ℕ} {e : DirEntry} {b : Buffer}
    (h : Found g d c endReturns verdict (16 * i + k) e lba) (hk : k < 16)
    (hdata : b.data = d.get lba) :
    dirLba g d c i = some lba ∧ entryAt b.data k = e ∧ (16 * i + k) % 16 = k := by
  have hdiv : (16 * i + k) / 16 = i := by omega
  have hmod : (16 * i + k) % 16 = k := by omega
  have hsector := h.sector
  have hentry := h.entry
  rw [hdiv] at hsector
  rw [hmod, ← hdata] at hentry
  exact ⟨hsector, hentry, hmod⟩

/-- One sector further: its sixteen slots were passed. -/
theorem passed_sector {i lba : ℕ} (h : dirLba g d c i = some lba)
    (hbefore : ∀ m, m < 16 * i → Passed g d c endReturns verdict m)
    (hscan : scanSector verdict (d.get lba) 16 0 = .through ∨
      (endReturns = false ∧ scanSector verdict (d.get lba) 16 0 = .stop)) :
    ∀ m, m < 16 * (i + 1) → Passed g d c endReturns verdict m := by
  intro m hm
  by_cases hlt : m < 16 * i
  · exact hbefore m hlt
  · have hsplit : m = 16 * i + (m - 16 * i) := by omega
    cases hscan with
    | inl hthrough =>
      have hskip := scanSector_through hthrough (m - 16 * i) (Nat.zero_le _) (by omega)
      rw [hsplit]
      exact Or.inl (slotIs_of_dirLba h (by omega) hskip)
    | inr hstop =>
      obtain ⟨j, -, hj, hvj, hskip⟩ := scanSector_stop hstop.2
      by_cases hmj : m - 16 * i < j
      · rw [hsplit]
        exact Or.inl (slotIs_of_dirLba h (by omega) (hskip _ (Nat.zero_le _) hmj))
      · exact Or.inr ⟨hstop.1, 16 * i + j, by omega, by omega, slotIs_of_dirLba h (by omega) hvj⟩

/-- The loop from sector `i` on, when everything before that sector was passed. -/
theorem execute_scanDir_from {fuel i : ℕ} {b : Buffer} {r : DirScan} {d' : Disk}
    (hbefore : ∀ m, m < 16 * i → Passed g d c endReturns verdict m)
    (h : execute junk (scanDir g c endReturns verdict fuel i b) d = some (r, d')) :
    d' = d ∧ ScanSpec g d c endReturns verdict r := by
  induction fuel generalizing i b with
  | zero => cases h
  | succ fuel ih =>
    by_cases hf : faults g c
    · simp only [scanDir, execute_bind, execute_fatReadDirSector_fault hf, Option.bind_none] at h
      cases h
    · simp only [scanDir, execute_bind, execute_fatReadDirSector hf, Option.bind_some] at h
      cases hlba : dirLba g d c i with
      | none =>
        simp only [hlba, Option.map_none, execute_pure] at h
        cases h
        exact ⟨rfl, i, hlba, hbefore⟩
      | some lba =>
        simp only [hlba, Option.map_some] at h
        cases hscan : scanSector verdict (d.get lba) 16 0 with
        | hit k =>
          simp only [hscan, execute_pure] at h
          cases h
          obtain ⟨-, hk, hhit, hskip⟩ := scanSector_hit hscan
          have hdiv : (16 * i + k) / 16 = i := by omega
          have hmod : (16 * i + k) % 16 = k := by omega
          refine ⟨rfl, by omega, _, lba, rfl, ⟨hdiv.symm ▸ hlba, rfl, hmod.symm ▸ hhit,
            hdiv.symm ▸ hbefore, ?_⟩⟩
          intro m h1 h2
          rw [show m = 16 * i + (m - 16 * i) from by omega]
          exact slotIs_of_dirLba hlba (by omega) (hskip _ (Nat.zero_le _) (by omega))
        | through =>
          simp only [hscan] at h
          exact ih (passed_sector hlba hbefore (Or.inl hscan)) h
        | stop =>
          simp only [hscan] at h
          cases endReturns with
          | false => exact ih (passed_sector hlba hbefore (Or.inr ⟨rfl, hscan⟩)) h
          | true =>
            simp only [if_true, execute_pure] at h
            cases h
            obtain ⟨j, -, hj, hstop, hskip⟩ := scanSector_stop hscan
            refine ⟨rfl, rfl, 16 * i + j, slotIs_of_dirLba hlba (by omega) hstop, ?_⟩
            intro m hm
            by_cases hlt : m < 16 * i
            · exact (hbefore m hlt).skip (Or.inl rfl)
            · rw [show m = 16 * i + (m - 16 * i) from by omega]
              exact slotIs_of_dirLba hlba (by omega) (hskip _ (Nat.zero_le _) (by omega))

/-- **The directory loop**: it leaves the disk alone and ends as `ScanSpec` says. -/
theorem execute_scanDir {fuel : ℕ} {b : Buffer} {r : DirScan} {d' : Disk}
    (h : execute junk (scanDir g c endReturns verdict fuel 0 b) d = some (r, d')) :
    d' = d ∧ ScanSpec g d c endReturns verdict r :=
  execute_scanDir_from (fun m hm => by omega) h

/-- The loop leaves at sector `i`: the directory has no such sector, or an entry of it is taken, or the function
returns at the end mark in it. -/
def LeavesAt (g : Globals) (d : Disk) (c : UInt16) (endReturns : Bool) (verdict : DirEntry → Verdict)
    (i : ℕ) : Prop :=
  ∀ lba, dirLba g d c i = some lba → (∃ k, scanSector verdict (d.get lba) 16 0 = .hit k) ∨
    (endReturns = true ∧ scanSector verdict (d.get lba) 16 0 = .stop)

theorem leavesAt_of_none {i : ℕ} (h : dirLba g d c i = none) : LeavesAt g d c endReturns verdict i := by
  intro lba hlba
  rw [h] at hlba
  cases hlba

/-- The loop from sector `i` on comes to a sector where it leaves. -/
theorem execute_scanDir_total_from (hf : ¬ faults g c) {last : ℕ}
    (hlast : LeavesAt g d c endReturns verdict last) {fuel i : ℕ} (hi : i ≤ last) (hfuel : last < i + fuel)
    (b : Buffer) :
    ∃ r, execute junk (scanDir g c endReturns verdict fuel i b) d = some (r, d) := by
  induction fuel generalizing i b with
  | zero => omega
  | succ fuel ih =>
    simp only [scanDir, execute_bind, execute_fatReadDirSector hf, Option.bind_some]
    cases hlba : dirLba g d c i with
    | none => exact ⟨.through b, rfl⟩
    | some lba =>
      have hnext : i ≠ last → ∀ b', ∃ r,
          execute junk (scanDir g c endReturns verdict fuel (i + 1) b') d = some (r, d) :=
        fun hne b' => ih (by omega) (by omega) b'
      cases hscan : scanSector verdict (d.get lba) 16 0 with
      | hit k =>
        simp only [Option.map_some, hscan]
        exact ⟨_, rfl⟩
      | through =>
        simp only [Option.map_some, hscan]
        apply hnext
        rintro rfl
        rcases hlast lba hlba with ⟨k, hk⟩ | ⟨-, hstop⟩
        · rw [hscan] at hk
          cases hk
        · rw [hscan] at hstop
          cases hstop
      | stop =>
        simp only [Option.map_some, hscan]
        cases endReturns with
        | true => exact ⟨_, rfl⟩
        | false =>
          apply hnext
          rintro rfl
          rcases hlast lba hlba with ⟨k, hk⟩ | ⟨hfalse, -⟩
          · rw [hscan] at hk
            cases hk
          · cases hfalse

/-- **A directory loop that leaves somewhere comes to an end**, given one unit of fuel for each sector. -/
theorem execute_scanDir_total (junk : Sector) (endReturns : Bool) (verdict : DirEntry → Verdict)
    (hf : ¬ faults g c) {last fuel : ℕ} (hlast : LeavesAt g d c endReturns verdict last) (hfuel : last < fuel)
    (b : Buffer) :
    ∃ r, execute junk (scanDir g c endReturns verdict fuel 0 b) d = some (r, d) ∧
      ScanSpec g d c endReturns verdict r := by
  have htotal : ∃ r, execute junk (scanDir g c endReturns verdict fuel 0 b) d = some (r, d) :=
    execute_scanDir_total_from hf hlast (Nat.zero_le last) (by omega) b
  obtain ⟨r, hr⟩ := htotal
  exact ⟨r, hr, (execute_scanDir hr).2⟩

theorem not_faults_of_scanDir {fuel i : ℕ} {b : Buffer} {r : DirScan × Disk}
    (h : execute junk (scanDir g c endReturns verdict fuel i b) d = some r) : ¬ faults g c := by
  intro hf
  cases fuel with
  | zero => cases h
  | succ fuel =>
    simp only [scanDir, execute_bind, execute_fatReadDirSector_fault hf, Option.bind_none] at h
    cases h

/-- A directory that has no sector `i` has none further on. -/
theorem dirLba_none_mono {i j : ℕ} (h : dirLba g d c i = none) (hij : i ≤ j) :
    dirLba g d c j = none := by
  have hwalk : ∀ n k c, walk g d n c = none → walk g d (n + k) c = none := by
    intro n
    induction n with
    | zero =>
      intro k c hn
      rw [walk] at hn
      split at hn
      · rename_i hc
        cases k with
        | zero => rw [walk, if_pos hc]
        | succ k => rw [Nat.zero_add, walk, if_pos hc]
      · cases hn
    | succ n ih =>
      intro k c hn
      rw [walk] at hn
      rw [Nat.succ_add, walk]
      split
      · rfl
      · rename_i hc
        rw [if_neg hc] at hn
        exact ih k _ hn
  rw [dirLba] at h ⊢
  by_cases hc : c = 0
  · rw [if_pos hc] at h ⊢
    split at h
    · rw [if_pos (by omega)]
    · cases h
  · rw [if_neg hc] at h ⊢
    rw [Option.map_eq_none_iff] at h ⊢
    have hle : i / g.fatInfo.sectorsPerCluster.toNat ≤ j / g.fatInfo.sectorsPerCluster.toNat :=
      Nat.div_le_div_right hij
    rw [← Nat.add_sub_cancel' hle]
    exact hwalk _ _ _ h

end Scan

/-! ### Listing -/

/-- The loop of `fat_list` looks for the end mark only. -/
def markVerdict (e : DirEntry) : Verdict := if e.name 0 = 0x00 then .stop else .skip

theorem execute_listEntry (junk : Sector) (d : Disk) (e : DirEntry) :
    execute junk (listEntry e) d = some ((), d) := by
  rw [listEntry]
  by_cases hext : trimBlanks (extBytes e) = []
  · cases hdir : isDirectory e with
    | true => simp [hext]
    | false => simp [hext]
  · cases hdir : isDirectory e with
    | true => simp [hext]
    | false => simp [hext]

theorem execute_listSector (junk : Sector) (d : Disk) (s : Sector) (n k : ℕ) :
    (scanSector markVerdict s n k = .stop ∧ execute junk (listSector s n k) d = some (true, d)) ∨
      (scanSector markVerdict s n k = .through ∧ execute junk (listSector s n k) d = some (false, d)) := by
  induction n generalizing k with
  | zero => exact Or.inr ⟨rfl, rfl⟩
  | succ n ih =>
    rw [scanSector, listSector, markVerdict]
    by_cases h0 : (entryAt s k).name 0 = 0x00
    · rw [if_pos h0, if_pos h0]
      exact Or.inl ⟨rfl, rfl⟩
    · rw [if_neg h0, if_neg h0]
      dsimp only
      split
      · exact ih (k + 1)
      · split
        · exact ih (k + 1)
        · simp only [execute_bind, execute_listEntry, Option.bind_some]
          exact ih (k + 1)

/-- **The loop of `fat_list`** goes through the directory as a scan for the end mark does. -/
theorem execute_listLoop (fuel i : ℕ) (b : Buffer) :
    execute junk (listLoop g fuel i b) d =
      (execute junk (scanDir g g.currentDirCluster true markVerdict fuel i b) d).map fun r => ((), r.2) := by
  induction fuel generalizing i b with
  | zero => rfl
  | succ fuel ih =>
    by_cases hf : faults g g.currentDirCluster
    · simp only [listLoop, scanDir, execute_bind, execute_fatReadDirSector_fault hf, Option.bind_none,
        Option.map_none]
    · simp only [listLoop, scanDir, execute_bind, execute_fatReadDirSector hf, Option.bind_some]
      cases dirLba g d g.currentDirCluster i with
      | none => rfl
      | some lba =>
        rcases execute_listSector junk d (d.get lba) 16 0 with ⟨hscan, hlist⟩ | ⟨hscan, hlist⟩
        · simp only [Option.map_some, execute_bind, hlist, hscan, Option.bind_some]
          rfl
        · simp only [Option.map_some, execute_bind, hlist, hscan, Option.bind_some]
          exact ih (i + 1) _

/-! ### Looking up -/

theorem execute_fatFindFile (hm : g.isFatInitialized = true) {fuel : ℕ} {w : List UInt8}
    {r : Option DirEntry} {d' : Disk}
    (h : execute junk (fatFindFile g fuel w) d = some (r, d')) :
    d' = d ∧ ∀ e, r = some e →
      ∃ n lba, Found g d g.currentDirCluster true (findVerdict w) n e lba := by
  simp only [fatFindFile, hm, Bool.not_true, Bool.false_eq_true, if_false, execute_bind, execute_kmalloc,
    Option.bind_some, freshBlock_ptr_ne] at h
  obtain ⟨⟨scan, d₁⟩, hscan, hrest⟩ := Option.bind_eq_some_iff.mp h
  obtain ⟨rfl, hspec⟩ := execute_scanDir hscan
  cases scan with
  | hit i k b =>
    obtain ⟨hk, e, lba, hdata, hfound⟩ := hspec
    simp only [execute_bind, execute_kfree, Option.bind_some, execute_pure] at hrest
    cases hrest
    refine ⟨rfl, ?_⟩
    intro e' he'
    cases he'
    rw [(hfound.sector_hit hk hdata).2.1]
    exact ⟨16 * i + k, lba, hfound⟩
  | stop b =>
    simp only [execute_bind, execute_kfree, Option.bind_some, execute_pure] at hrest
    cases hrest
    exact ⟨rfl, fun e he => by cases he⟩
  | through b =>
    simp only [execute_bind, execute_kfree, Option.bind_some, execute_pure] at hrest
    cases hrest
    exact ⟨rfl, fun e he => by cases he⟩

theorem execute_fatFindFile_total (junk : Sector) (hm : g.isFatInitialized = true)
    (hf : ¬ faults g g.currentDirCluster) (w : List UInt8) {last fuel : ℕ}
    (hlast : LeavesAt g d g.currentDirCluster true (findVerdict w) last) (hfuel : last < fuel) :
    ∃ r, execute junk (fatFindFile g fuel w) d = some (r, d) := by
  obtain ⟨scan, hscan, -⟩ :=
    execute_scanDir_total junk true (findVerdict w) hf hlast hfuel (freshBlock junk)
  simp only [fatFindFile, hm, Bool.not_true, Bool.false_eq_true, if_false, execute_bind, execute_kmalloc,
    Option.bind_some, freshBlock_ptr_ne, hscan]
  cases scan with
  | hit i k b => exact ⟨_, rfl⟩
  | stop b => exact ⟨_, rfl⟩
  | through b => exact ⟨_, rfl⟩

/-- `current_path` after `cd`, which found the entry `e` under the name `w`. -/
def changedPath (path w : List UInt8) (e : DirEntry) : List UInt8 :=
  if cString w = text ".." then pathUp path
  else if cString w = text "." then path
  else pathDown path (trimBlanks (nameBytes e))

/-- `cd` moves to the directory that `fat_find_file` finds. -/
theorem execute_fatChangeDir_found {fuel : ℕ} {w : List UInt8} {e : DirEntry} (hm : g.isFatInitialized = true)
    (hfind : execute junk (fatFindFile g fuel w) d = some (some e, d)) (hisdir : isDirectory e = true) :
    execute junk (fatChangeDir g fuel w) d =
      some ({ g with currentDirCluster := e.firstClusterLow, currentPath := changedPath g.currentPath w e }, d) := by
  rw [fatChangeDir, if_neg (by rw [hm]; decide)]
  simp only [execute_bind, hfind, Option.bind_some, hisdir, if_true, execute_kprint, execute_pure]
  rfl

/-- **`fat_change_dir`** leaves the disk alone and moves at most the current directory and the path. -/
theorem execute_fatChangeDir {junk : Sector} {g g' : Globals} {d d' : Disk} {fuel : ℕ} {w : List UInt8}
    (h : execute junk (fatChangeDir g fuel w) d = some (g', d')) :
    d' = d ∧ ∃ c path, g' = { g with currentDirCluster := c, currentPath := path } ∧
      (path = g.currentPath ∨ ∃ e, path = changedPath g.currentPath w e) := by
  by_cases hm : g.isFatInitialized = true
  · have hcode := h
    rw [fatChangeDir, if_neg (by rw [hm]; decide), execute_bind] at hcode
    obtain ⟨⟨r, d₁⟩, hfind, hrest⟩ := Option.bind_eq_some_iff.mp hcode
    obtain ⟨rfl, -⟩ := execute_fatFindFile hm hfind
    cases r with
    | none =>
      cases hrest
      exact ⟨rfl, g.currentDirCluster, g.currentPath, rfl, Or.inl rfl⟩
    | some e =>
      cases hisdir : isDirectory e with
      | false =>
        simp only [hisdir, Bool.false_eq_true, if_false, execute_bind, execute_kprint,
          Option.bind_some, execute_pure] at hrest
        cases hrest
        exact ⟨rfl, g.currentDirCluster, g.currentPath, rfl, Or.inl rfl⟩
      | true =>
        rw [execute_fatChangeDir_found hm hfind hisdir] at h
        cases h
        exact ⟨rfl, _, _, rfl, Or.inr ⟨e, rfl⟩⟩
  · rw [Bool.not_eq_true] at hm
    rw [fatChangeDir, if_pos (by rw [hm]; rfl)] at h
    cases h
    exact ⟨rfl, g.currentDirCluster, g.currentPath, rfl, Or.inl rfl⟩

end OsEojin.Fat
