import OsEojin.Boot

/-!
# The loader and the kernel read the same file

The boot sector and the kernel compute the place of a cluster and the next cluster of a chain each on their
own.  The loader's 16-bit registers, the high byte of `AX` that the BIOS clears between two sectors, and the
64 KB of its FAT copy are enough for the small volumes it was written for.

* `lbaAt`: the addresses `read_sectors` asks for;
* `readLoop_kept`, `readLoop_byte`: what it leaves in memory;
* `clusterToLba_eq_iff`: when the loader's layout is the kernel's;
* `nextCluster_copy`: when the copy answers like the FAT;
* `searchRoot_entry`: when the loader finds the file's entry;
* `loadLoop_chain`, `lbaFits_of_loadLoop`: the clusters of a chain, and what equal sequences need;
* `boot_reads_file`: the file's sectors.
-/

namespace OsEojin.Boot

open OsEojin.Lib.ByteMemory OsEojin.Ata OsEojin.Fat

/-! ### The addresses asked for -/

/-- The address of round `k`. -/
def lbaAt (ax : UInt16) : ℕ → UInt16
  | 0 => ax
  | k + 1 => lbaAt (afterInt13 ax + 1) k

theorem toNat_afterInt13 (ax : UInt16) : (afterInt13 ax).toNat = ax.toNat % 256 := by
  rw [afterInt13, UInt16.toNat_and]
  exact Nat.and_two_pow_sub_one_eq_mod ax.toNat 8

theorem toNat_afterInt13_succ (ax : UInt16) : (afterInt13 ax + 1).toNat = ax.toNat % 256 + 1 := by
  rw [UInt16.toNat_add, toNat_afterInt13]
  show (ax.toNat % 256 + 1) % 65536 = ax.toNat % 256 + 1
  omega

/-- Up to 256 the addresses count on. -/
theorem toNat_lbaAt {ax : UInt16} {k : ℕ} (h : k = 0 ∨ ax.toNat + k ≤ 256) :
    (lbaAt ax k).toNat = ax.toNat + k := by
  induction k generalizing ax with
  | zero => rfl
  | succ k ih =>
    have hnext := toNat_afterInt13_succ ax
    rw [lbaAt, ih (by omega), hnext]
    omega

/-- After the first round they never exceed 256. -/
theorem lbaAt_succ_le (ax : UInt16) (k : ℕ) : (lbaAt ax (k + 1)).toNat ≤ 256 := by
  induction k generalizing ax with
  | zero =>
    rw [lbaAt, lbaAt, toNat_afterInt13_succ]
    omega
  | succ k ih =>
    rw [lbaAt]
    exact ih (afterInt13 ax + 1)

/-! ### The loop of `read_sectors` -/

/-- Where the sector of round `k` is stored: `bx` wraps inside its segment. -/
def sectorAddr (es bx : UInt16) (k : ℕ) : ℕ := 16 * es.toNat + (bx.toNat + 512 * k) % 65536

theorem sectorAddr_zero (es bx : UInt16) : sectorAddr es bx 0 = linear es bx := by
  have hbx : bx.toNat < 65536 := UInt16.toNat_lt bx
  rw [sectorAddr, linear, Nat.mul_zero, Nat.add_zero, Nat.mod_eq_of_lt hbx]

theorem sectorAddr_succ (es bx : UInt16) (k : ℕ) : sectorAddr es (bx + 512) k = sectorAddr es bx (k + 1) := by
  rw [sectorAddr, sectorAddr, UInt16.toNat_add]
  show 16 * es.toNat + ((bx.toNat + 512) % 65536 + 512 * k) % 65536 = _
  omega

section Read

variable {d : Disk} {es : UInt16} {n : ℕ} {ax bx : UInt16} {m m' : Memory}

/-- The loader survives when every sector spares it. -/
theorem readLoop_spares (h : ∀ k, k < n → Spares (sectorAddr es bx k)) :
    ∃ m', (readLoop d es n ax bx m).2 = some m' := by
  induction n generalizing ax bx m with
  | zero => exact ⟨m, rfl⟩
  | succ n ih =>
    have hfirst := h 0 (Nat.succ_pos n)
    rw [sectorAddr_zero] at hfirst
    rw [readLoop, if_pos hfirst]
    apply ih
    intro k hk
    rw [sectorAddr_succ]
    exact h (k + 1) (by omega)

theorem readLoop_lost {k : ℕ} (hk : k < n) (h : ¬ Spares (sectorAddr es bx k)) :
    (readLoop d es n ax bx m).2 = none := by
  induction n generalizing ax bx m k with
  | zero => exact absurd hk (Nat.not_lt_zero k)
  | succ n ih =>
    rw [readLoop]
    split
    · rename_i hfirst
      cases k with
      | zero =>
        rw [sectorAddr_zero] at h
        exact absurd hfirst h
      | succ k =>
        rw [← sectorAddr_succ] at h
        exact ih (by omega) h
    · rfl

/-- Every address asked for is that of its round. -/
theorem readLoop_lba {k x : ℕ} (h : (readLoop d es n ax bx m).1[k]? = some x) :
    x = (lbaAt ax k).toNat := by
  induction n generalizing ax bx m k with
  | zero => cases h
  | succ n ih =>
    rw [readLoop] at h
    split at h
    · cases k with
      | zero => exact (Option.some.inj h).symm
      | succ k =>
        rw [lbaAt]
        exact ih h
    · cases k with
      | zero => exact (Option.some.inj h).symm
      | succ k => cases h

theorem readLoop_length_le : (readLoop d es n ax bx m).1.length ≤ n := by
  induction n generalizing ax bx m with
  | zero => exact le_rfl
  | succ n ih =>
    rw [readLoop]
    split
    · exact Nat.succ_le_succ ih
    · exact Nat.succ_le_succ (Nat.zero_le n)

theorem readLoop_length (h : (readLoop d es n ax bx m).2 = some m') :
    (readLoop d es n ax bx m).1.length = n := by
  induction n generalizing ax bx m with
  | zero => rfl
  | succ n ih =>
    rw [readLoop] at h ⊢
    split at h
    · rename_i hfirst
      rw [if_pos hfirst]
      exact congrArg Nat.succ (ih h)
    · cases h

/-- Bytes outside the sectors stay. -/
theorem readLoop_kept {x : ℕ} (h : (readLoop d es n ax bx m).2 = some m')
    (hx : ∀ k, k < n → x < sectorAddr es bx k ∨ sectorAddr es bx k + 512 ≤ x) : m' x = m x := by
  induction n generalizing ax bx m with
  | zero =>
    obtain rfl := Option.some.inj h
    rfl
  | succ n ih =>
    rw [readLoop] at h
    split at h
    · have hfirst := hx 0 (Nat.succ_pos n)
      rw [sectorAddr_zero] at hfirst
      rw [ih h fun k hk => by rw [sectorAddr_succ]; exact hx (k + 1) (by omega), storeSector,
        if_neg (by omega)]
    · cases h

/-- The last sector stored over a byte is the one it comes from. -/
theorem readLoop_byte {x K : ℕ} (h : (readLoop d es n ax bx m).2 = some m') (hK : K < n)
    (hin : sectorAddr es bx K ≤ x ∧ x < sectorAddr es bx K + 512)
    (hlast : ∀ k, K < k → k < n → x < sectorAddr es bx k ∨ sectorAddr es bx k + 512 ≤ x) :
    m' x = byteAt (d.get (lbaAt ax K).toNat) (x - sectorAddr es bx K) := by
  induction K generalizing n ax bx m with
  | zero =>
    cases n with
    | zero => exact absurd hK (Nat.not_lt_zero 0)
    | succ n =>
      rw [readLoop] at h
      split at h
      · rw [sectorAddr_zero] at hin ⊢
        rw [readLoop_kept h fun k hk => by rw [sectorAddr_succ]; exact hlast (k + 1) (by omega) (by omega),
          storeSector, if_pos hin]
        rfl
      · cases h
  | succ K ih =>
    cases n with
    | zero => exact absurd hK (Nat.not_lt_zero _)
    | succ n =>
      rw [readLoop] at h
      split at h
      · rw [← sectorAddr_succ] at hin ⊢
        exact ih h (by omega) hin fun k hk hk' => by
          rw [sectorAddr_succ]
          exact hlast (k + 1) (by omega) (by omega)
      · cases h

end Read

/-! ### The layout -/

section Layout

variable {g : Globals} {c : UInt16}

theorem toNat_ofUInt8 (x : UInt8) : (UInt16.ofNat x.toNat).toNat = x.toNat := by
  have hx : x.toNat < 256 := UInt8.toNat_lt x
  rw [UInt16.toNat_ofNat']
  omega

theorem toNat_rootSectors (b : Bpb) :
    (rootSectors b).toNat = b.rootDirEntries.toNat * 32 % 65536 / b.bytesPerSector.toNat := by
  rw [rootSectors, UInt16.toNat_div, UInt16.toNat_shiftLeft, Nat.shiftLeft_eq]
  rfl

theorem toNat_clusterToLba (b : Bpb) (hc : 2 ≤ c.toNat) :
    (clusterToLba b c).toNat = ((c.toNat - 2) * b.sectorsPerCluster.toNat +
      (b.fatSize16.toNat * b.fatCount.toNat + b.reservedSectors.toNat + (rootSectors b).toNat)) % 65536 := by
  have hsub : (c - 2).toNat = c.toNat - 2 := UInt16.toNat_sub_of_le c 2 (UInt16.le_iff_toNat_le.mpr hc)
  rw [clusterToLba, dataStart, rootDirStart, UInt16.toNat_add, UInt16.toNat_mul, hsub, toNat_ofUInt8,
    UInt16.toNat_add, UInt16.toNat_add, UInt16.toNat_mul, toNat_ofUInt8]
  generalize (c.toNat - 2) * b.sectorsPerCluster.toNat = x
  generalize b.fatSize16.toNat * b.fatCount.toNat = y
  omega

/-- Shifting out bits of `root_dir_entries` loses sectors. -/
theorem rootSectors_lt {b : Bpb} (hbytes : b.bytesPerSector ≠ 0) (h : 2048 ≤ b.rootDirEntries.toNat) :
    (rootSectors b).toNat < b.rootDirSectors := by
  have hpos : 0 < b.bytesPerSector.toNat := by
    rw [Nat.pos_iff_ne_zero]
    exact fun h0 => hbytes (UInt16.toNat_inj.mp h0)
  have hlt : b.bytesPerSector.toNat < 65536 := UInt16.toNat_lt _
  rw [toNat_rootSectors, Bpb.rootDirSectors, Nat.lt_iff_add_one_le, ← Nat.add_div_right _ hpos]
  apply Nat.div_le_div_right
  omega

theorem rootSectors_eq {b : Bpb} (h : b.rootDirEntries.toNat < 2048) :
    (rootSectors b).toNat = b.rootDirSectors := by
  rw [toNat_rootSectors, Bpb.rootDirSectors, Nat.mod_eq_of_lt (by omega)]

/-- **The loader's layout** is the kernel's for the clusters below sector 65536, on volumes with fewer than
2048 root entries. -/
theorem clusterToLba_eq_iff (hg : Mounted g) (hc : 2 ≤ c.toNat) :
    (clusterToLba g.fatInfo c).toNat = clusterLba g c ↔
      g.fatInfo.rootDirEntries.toNat < 2048 ∧ clusterLba g c < 65536 := by
  have hkernel : clusterLba g c = (c.toNat - 2) * g.fatInfo.sectorsPerCluster.toNat +
      (g.fatInfo.fatSize16.toNat * g.fatInfo.fatCount.toNat + g.fatInfo.reservedSectors.toNat +
        g.fatInfo.rootDirSectors) := by
    rw [clusterLba, hg.dataStart, hg.rootDir, hg.fatStart, Nat.mul_comm g.fatInfo.fatCount.toNat]
    omega
  rw [toNat_clusterToLba _ hc, hkernel]
  constructor
  · intro heq
    by_cases hentries : g.fatInfo.rootDirEntries.toNat < 2048
    · exact ⟨hentries, by omega⟩
    · have hless := rootSectors_lt hg.bytesPerSector (by omega)
      omega
  · rintro ⟨hentries, hlt⟩
    rw [rootSectors_eq hentries, Nat.mod_eq_of_lt hlt]

end Layout

/-! ### The copy of the FAT -/

section Copy

variable {d : Disk} {m m' : Memory} {g : Globals} {c : UInt16}

theorem sectorAddr_copy (k : ℕ) : sectorAddr 0x2000 0 k = 0x20000 + 512 * (k % 128) := by
  show 16 * 8192 + (0 + 512 * k) % 65536 = _
  omega

theorem entryAddr_eq (c : UInt16) : entryAddr c = 0x20000 + 2 * c.toNat % 65536 := by
  rw [entryAddr, linear, UInt16.toNat_shiftLeft, Nat.shiftLeft_eq]
  show 16 * 8192 + c.toNat * 2 ^ 1 % 65536 = _
  omega

/-- Look-ups only see the two bytes of their entry. -/
theorem nextCluster_congr (h : ∀ x, entryAddr c ≤ x → x < entryAddr c + 2 → m' x = m x) :
    nextCluster m' c = nextCluster m c := by
  rw [nextCluster, nextCluster, h _ le_rfl (by omega), h _ (by omega) (by omega)]

/-- The FAT sector of the cluster is in the copy, and the loader asked for the right one. -/
def InCopy (g : Globals) (c : UInt16) : Prop :=
  c.toNat / 256 < g.fatInfo.fatSize16.toNat ∧ g.fatInfo.fatSize16.toNat ≤ c.toNat / 256 + 128 ∧
    (c.toNat / 256 = 0 ∨ g.fatInfo.reservedSectors.toNat + c.toNat / 256 ≤ 256)

theorem rounds_eq {cx : UInt16} (h : cx ≠ 0) : rounds cx = cx.toNat := if_neg h

/-- Loading the FAT spares the loader. -/
theorem readFat_spares (b : Bpb) (d : Disk) (m : Memory) :
    ∃ m', (readSectors d b.reservedSectors b.fatSize16 0x2000 0 m).2 = some m' := by
  apply readLoop_spares
  intro k _
  rw [sectorAddr_copy]
  exact ⟨by omega, Or.inr (by omega)⟩

/-- **The copy answers like the FAT.** -/
theorem nextCluster_copy (hg : Mounted g) (hfat : g.fatInfo.fatSize16 ≠ 0)
    (h : (readSectors d g.fatInfo.reservedSectors g.fatInfo.fatSize16 0x2000 0 m).2 = some m')
    (hc : InCopy g c) : nextCluster m' c = fatEntry g d c := by
  obtain ⟨hin, hlast, hlba⟩ := hc
  have hc : c.toNat < 65536 := UInt16.toNat_lt c
  rw [readSectors, rounds_eq hfat] at h
  have hbyte : ∀ x, entryAddr c ≤ x → x < entryAddr c + 2 →
      m' x = byteAt (d.get (fatSector g c)) (2 * c.toNat % 512 + (x - entryAddr c)) := by
    intro x hx hx'
    rw [entryAddr_eq] at hx hx' ⊢
    have hsector : sectorAddr 0x2000 0 (c.toNat / 256) ≤ x ∧ x < sectorAddr 0x2000 0 (c.toNat / 256) + 512 := by
      rw [sectorAddr_copy]
      omega
    have hothers : ∀ k, c.toNat / 256 < k → k < g.fatInfo.fatSize16.toNat →
        x < sectorAddr 0x2000 0 k ∨ sectorAddr 0x2000 0 k + 512 ≤ x := by
      intro k hk hk'
      rw [sectorAddr_copy] at hsector ⊢
      omega
    rw [readLoop_byte h hin hsector hothers, toNat_lbaAt hlba, sectorAddr_copy, fatSector, hg.fatStart]
    congr 2
    · omega
    · omega
  rw [nextCluster, fatEntry, u16At, entOffset, hbyte _ le_rfl (by omega), hbyte _ (by omega) (by omega),
    Nat.sub_self, Nat.add_sub_cancel_left, Nat.add_zero, Nat.mul_comm]

end Copy

/-! ### The directory entry -/

/-- Byte `x` of the root directory. -/
def rootByte (g : Globals) (d : Disk) (x : ℕ) : UInt8 := byteAt (d.get (g.rootDirSector + x / 512)) x

/-- Entry `k` of a directory with the bytes `f` has the name. -/
def Named (f : ℕ → UInt8) (k : ℕ) : Prop := ∀ i, i < 11 → f (32 * k + i) = filename.getD i 0

instance (f : ℕ → UInt8) (k : ℕ) : Decidable (Named f k) := by
  unfold Named
  infer_instance

/-- `LOADER.BIN` is entry `j` of the root directory, the first with the name, and begins at cluster `c`. -/
structure LoaderEntry (g : Globals) (d : Disk) (j : ℕ) (c : UInt16) : Prop where
  inside : j < g.fatInfo.rootDirEntries.toNat
  named : Named (rootByte g d) j
  first : ∀ k, k < j → ¬ Named (rootByte g d) k
  cluster : le16 (rootByte g d (32 * j + 26)) (rootByte g d (32 * j + 27)) = c

/-- The loader loads the entry's sector of the directory, and asks for the right ones up to it. -/
def DirFits (g : Globals) (j : ℕ) : Prop :=
  j / 16 < (rootSectors g.fatInfo).toNat ∧ (j / 16 = 0 ∨ g.rootDirSector + j / 16 ≤ 256)

section Directory

variable {g : Globals} {d : Disk} {j : ℕ} {c : UInt16} {m m' : Memory}

theorem toNat_ofNat_add {a i : ℕ} (h : a + i < 65536) : (UInt16.ofNat a + UInt16.ofNat i).toNat = a + i := by
  rw [UInt16.toNat_add, UInt16.toNat_ofNat', UInt16.toNat_ofNat']
  omega

/-- **The search** finds the first entry with the name. -/
theorem searchRoot_found {a n : ℕ} {f : ℕ → UInt8} (ha : a + 32 * (j + 1) ≤ 65536)
    (hmem : ∀ x, x < 32 * (j + 1) → m (a + x) = f x) (hj : j < n) (hname : Named f j)
    (hfirst : ∀ k, k < j → ¬ Named f k) :
    searchRoot m n (UInt16.ofNat a) = some (le16 (f (32 * j + 26)) (f (32 * j + 27))) := by
  induction j generalizing n a f with
  | zero =>
    cases n with
    | zero => exact absurd hj (Nat.not_lt_zero 0)
    | succ n =>
      have hword : wordAt m (UInt16.ofNat a + 26) = le16 (f 26) (f 27) := by
        have hnext : UInt16.ofNat a + 26 + 1 = UInt16.ofNat a + UInt16.ofNat 27 := UInt16.add_assoc _ 26 1
        have hlow : (UInt16.ofNat a + 26).toNat = a + 26 := toNat_ofNat_add (i := 26) (by omega)
        rw [wordAt, hnext, toNat_ofNat_add (by omega), hmem 27 (by omega), hlow, hmem 26 (by omega)]
      rw [searchRoot, if_pos, hword]
      rw [List.all_eq_true]
      intro i hi
      have hi := List.mem_range.mp hi
      have hbyte := hname i hi
      rw [Nat.mul_zero, Nat.zero_add] at hbyte
      rw [toNat_ofNat_add (by omega), hmem i (by omega), hbyte]
      exact beq_self_eq_true _
  | succ j ih =>
    cases n with
    | zero => exact absurd hj (Nat.not_lt_zero _)
    | succ n =>
      have hother : ¬ ((List.range 11).all fun i =>
          m (UInt16.ofNat a + UInt16.ofNat i).toNat == filename.getD i 0) = true := by
        intro hall
        apply hfirst 0 (Nat.succ_pos j)
        intro i hi
        have hbyte := List.all_eq_true.mp hall i (List.mem_range.mpr hi)
        rw [toNat_ofNat_add (by omega), hmem i (by omega)] at hbyte
        rw [Nat.mul_zero, Nat.zero_add]
        exact eq_of_beq hbyte
      have hstep : UInt16.ofNat a + 32 = UInt16.ofNat (a + 32) := (UInt16.ofNat_add a 32).symm
      have hshift : ∀ k i, 32 + (32 * k + i) = 32 * (k + 1) + i := fun k i => by omega
      rw [searchRoot, if_neg hother, hstep, ih (f := fun x => f (32 + x)) (by omega) ?_ (by omega) ?_ ?_,
        hshift, hshift]
      · intro x hx
        rw [Nat.add_assoc]
        exact hmem (32 + x) (by omega)
      · intro i hi
        dsimp only
        rw [hshift]
        exact hname i hi
      · intro k hk hnamed
        apply hfirst (k + 1) (by omega)
        intro i hi
        rw [← hshift]
        exact hnamed i hi

theorem toNat_rootDirStart (hg : Mounted g) (h : g.rootDirSector < 65536) :
    (rootDirStart g.fatInfo).toNat = g.rootDirSector := by
  have hroot := hg.rootDir
  rw [hg.fatStart, Nat.mul_comm] at hroot
  rw [rootDirStart, UInt16.toNat_add, UInt16.toNat_mul, toNat_ofUInt8, hroot]
  rw [hroot] at h
  generalize g.fatInfo.fatSize16.toNat * g.fatInfo.fatCount.toNat = y at h ⊢
  omega

theorem sectorAddr_root {k : ℕ} (h : k ≤ 59) : sectorAddr 0 0x500 k = 0x500 + 512 * k := by
  show 16 * 0 + (1280 + 512 * k) % 65536 = _
  omega

/-- The 60th sector of the directory would be stored over the loader. -/
theorem readRoot_iff (b : Bpb) (d : Disk) (m : Memory) :
    (∃ m', (readSectors d (rootDirStart b) (rootSectors b) 0 0x500 m).2 = some m') ↔
      0 < (rootSectors b).toNat ∧ (rootSectors b).toNat ≤ 59 := by
  constructor
  · rintro ⟨m', hm'⟩
    have hspares : rounds (rootSectors b) ≤ 59 := by
      by_contra hmany
      have hover : ¬ Spares (sectorAddr 0 0x500 59) := by decide
      rw [readSectors, readLoop_lost (not_le.mp hmany) hover] at hm'
      cases hm'
    by_cases hzero : rootSectors b = 0
    · rw [rounds, if_pos hzero] at hspares
      omega
    · rw [rounds_eq hzero] at hspares
      refine ⟨?_, hspares⟩
      rw [Nat.pos_iff_ne_zero]
      exact fun h0 => hzero (UInt16.toNat_inj.mp h0)
  · rintro ⟨hpos, hle⟩
    have hzero : rootSectors b ≠ 0 := by
      intro h0
      rw [h0] at hpos
      exact absurd hpos (Nat.lt_irrefl 0)
    apply readLoop_spares
    intro k hk
    rw [rounds_eq hzero] at hk
    rw [sectorAddr_root (by omega)]
    exact ⟨by omega, Or.inl (by omega)⟩

/-- **The loader finds the file** where the directory has it. -/
theorem searchRoot_entry (hg : Mounted g) (hsector : g.rootDirSector < 65536) (hentry : LoaderEntry g d j c)
    (hdir : DirFits g j)
    (h : (readSectors d (rootDirStart g.fatInfo) (rootSectors g.fatInfo) 0 0x500 m).2 = some m') :
    searchRoot m' g.fatInfo.rootDirEntries.toNat 0x500 = some c := by
  obtain ⟨hloaded, hlba⟩ := hdir
  have hsize := ((readRoot_iff _ _ _).mp ⟨m', h⟩).2
  have hzero : rootSectors g.fatInfo ≠ 0 := by
    intro h0
    rw [h0] at hloaded
    exact absurd hloaded (Nat.not_lt_zero _)
  rw [readSectors, rounds_eq hzero] at h
  have hmem : ∀ x, x < 32 * (j + 1) → m' (0x500 + x) = rootByte g d x := by
    intro x hx
    have hin : sectorAddr 0 0x500 (x / 512) ≤ 0x500 + x ∧ 0x500 + x < sectorAddr 0 0x500 (x / 512) + 512 := by
      rw [sectorAddr_root (by omega)]
      omega
    have hothers : ∀ k, x / 512 < k → k < (rootSectors g.fatInfo).toNat →
        0x500 + x < sectorAddr 0 0x500 k ∨ sectorAddr 0 0x500 k + 512 ≤ 0x500 + x := by
      intro k hk hk'
      rw [sectorAddr_root (by omega)]
      omega
    have hroot := toNat_rootDirStart hg hsector
    rw [readLoop_byte h (by omega) hin hothers, toNat_lbaAt (by omega), hroot, sectorAddr_root (by omega),
      rootByte, byteAt, byteAt]
    congr 2
    omega
  rw [← hentry.cluster]
  have hroom : 0x500 + 32 * (j + 1) ≤ 65536 := by omega
  have hdi : (0x500 : UInt16) = UInt16.ofNat 0x500 := by decide
  rw [hdi]
  exact searchRoot_found hroom hmem hentry.inside hentry.named hentry.first

end Directory

/-! ### The file -/

/-- The sectors of a file as the kernel finds them: `fat_lba_of_cluster` with the sectors behind it, then
`fat_next_cluster`, at most `fuel` clusters. -/
def kernelRequests (g : Globals) (d : Disk) : ℕ → UInt16 → List ℕ
  | 0, _ => []
  | fuel + 1, cluster =>
    if cluster < 0xfff8 then
      ((List.range g.fatInfo.sectorsPerCluster.toNat).map fun i => fatLbaOfCluster g cluster + i) ++
        kernelRequests g d fuel (fatEntry g d cluster)
    else []

/-- A cluster number that is neither reserved nor an end mark. -/
def IsNumber (c : UInt16) : Prop := 2 ≤ c ∧ c < 0xfff8

theorem IsNumber.two_le {c : UInt16} (h : IsNumber c) : 2 ≤ c.toNat := UInt16.le_iff_toNat_le.mp h.1

/-- Where the loader stores sector `i` of the cluster `t` clusters behind `p`. -/
def fileAddr (b : Bpb) (p : UInt16 × UInt16) (t i : ℕ) : ℕ :=
  sectorAddr ((advance b)^[t] p).1 ((advance b)^[t] p).2 i

/-- The sectors stored before a look-up spare the loader and the entry that is looked up. -/
def Clears (b : Bpb) (p : UInt16 × UInt16) (l : List UInt16) : Prop :=
  ∀ t c, l[t]? = some c → ∀ t', t' ≤ t → ∀ i, i < b.sectorsPerCluster.toNat →
    Spares (fileAddr b p t' i) ∧ (fileAddr b p t' i + 512 ≤ entryAddr c ∨ entryAddr c + 2 ≤ fileAddr b p t' i)

/-- The loader asks for the right sectors of the cluster. -/
def LbaFits (g : Globals) (c : UInt16) : Prop :=
  clusterLba g c < 65536 ∧
    (g.fatInfo.sectorsPerCluster.toNat = 1 ∨ clusterLba g c + g.fatInfo.sectorsPerCluster.toNat ≤ 257)

section File

variable {g : Globals} {d : Disk} {b : Bpb} {p : UInt16 × UInt16} {c : UInt16} {l : List UInt16} {m m' : Memory}

theorem Clears.tail (h : Clears b p (c :: l)) : Clears b (advance b p) l := by
  intro t x hx t' ht' i hi
  have hstep := h (t + 1) x hx (t' + 1) (by omega) i hi
  rw [fileAddr, Function.iterate_succ_apply] at hstep
  exact hstep

theorem Clears.head {x : UInt16} (h : Clears b p l) (hx : x ∈ l) {i : ℕ}
    (hi : i < b.sectorsPerCluster.toNat) :
    Spares (sectorAddr p.1 p.2 i) ∧
      (sectorAddr p.1 p.2 i + 512 ≤ entryAddr x ∨ entryAddr x + 2 ≤ sectorAddr p.1 p.2 i) := by
  obtain ⟨t, ht⟩ := List.mem_iff_getElem?.mp hx
  exact h t x ht 0 (Nat.zero_le t) i hi

/-- What `read_sectors` asks for when it comes back. -/
theorem readLoop_lbas {es ax bx : UInt16} {n : ℕ} (h : (readLoop d es n ax bx m).2 = some m') :
    (readLoop d es n ax bx m).1 = (List.range n).map fun k => (lbaAt ax k).toNat := by
  have hlength := readLoop_length h
  apply List.ext_getElem
  · rw [hlength, List.length_map, List.length_range]
  · intro k hk hk'
    rw [List.getElem_map, List.getElem_range]
    exact readLoop_lba (List.getElem?_eq_getElem hk)

theorem rounds_sectorsPerCluster (hspc : b.sectorsPerCluster ≠ 0) :
    rounds (UInt16.ofNat b.sectorsPerCluster.toNat) = b.sectorsPerCluster.toNat := by
  have hne : UInt16.ofNat b.sectorsPerCluster.toNat ≠ 0 := by
    intro h
    have hzero := congrArg UInt16.toNat h
    rw [toNat_ofUInt8] at hzero
    exact hspc (UInt8.toNat_inj.mp hzero)
  rw [rounds_eq hne, toNat_ofUInt8]

/-- **One cluster**, when its sectors spare the entries still to be looked up. -/
theorem readCluster (hspc : g.fatInfo.sectorsPerCluster ≠ 0) (hclears : Clears g.fatInfo p l) (hc : c ∈ l)
    (hlba : (clusterToLba g.fatInfo c).toNat = clusterLba g c) (hfits : LbaFits g c) :
    ∃ m', readSectors d (clusterToLba g.fatInfo c) (UInt16.ofNat g.fatInfo.sectorsPerCluster.toNat) p.1 p.2 m =
        ((List.range g.fatInfo.sectorsPerCluster.toNat).map fun i => clusterLba g c + i, some m') ∧
      ∀ x ∈ l, nextCluster m' x = nextCluster m x := by
  rw [readSectors, rounds_sectorsPerCluster hspc]
  obtain ⟨m', hm'⟩ := readLoop_spares (d := d) (m := m) fun i hi => (hclears.head hc hi).1
  refine ⟨m', Prod.ext ?_ hm', ?_⟩
  · rw [readLoop_lbas hm']
    apply List.map_congr_left
    intro i hi
    have hi := List.mem_range.mp hi
    have hfits := hfits.2
    rw [toNat_lbaAt (by omega), hlba]
  · intro x hx
    apply nextCluster_congr
    intro y hy hy'
    apply readLoop_kept hm'
    intro i hi
    have hout := (hclears.head hx hi).2
    omega

/-- One round of the kernel. -/
theorem kernelRequests_succ (hg : Mounted g) (hc : IsNumber c) (fuel : ℕ) :
    kernelRequests g d (fuel + 1) c =
      ((List.range g.fatInfo.sectorsPerCluster.toNat).map fun i => clusterLba g c + i) ++
        kernelRequests g d fuel (fatEntry g d c) := by
  rw [kernelRequests, if_pos hc.2, hg.fatLbaOfCluster_eq hc.two_le]

theorem kernelRequests_end (h : 0xfff8 ≤ c) (fuel : ℕ) : kernelRequests g d fuel c = [] := by
  cases fuel with
  | zero => rfl
  | succ fuel => exact if_neg (UInt16.not_lt.mpr h)

theorem kernelRequests_ne_nil (hg : Mounted g) (hspc : g.fatInfo.sectorsPerCluster ≠ 0)
    (hchain : Chain (fatEntry g d) IsNumber c l) {fuel : ℕ} (hfuel : l.length ≤ fuel) :
    kernelRequests g d fuel c ≠ [] := by
  have hpos : 0 < l.length := List.length_pos_of_mem hchain.head_mem
  cases fuel with
  | zero => exact absurd hfuel (by omega)
  | succ fuel =>
    rw [kernelRequests_succ hg hchain.head_data]
    intro hnil
    have hlength := congrArg List.length (List.append_eq_nil_iff.mp hnil).1
    rw [List.length_map, List.length_range] at hlength
    exact hspc (UInt8.toNat_inj.mp hlength)

/-- **The clusters of a chain**, one after the other. -/
theorem loadLoop_chain (hg : Mounted g) (hspc : g.fatInfo.sectorsPerCluster ≠ 0)
    (hentries : g.fatInfo.rootDirEntries.toNat < 2048) (hchain : Chain (fatEntry g d) IsNumber c l) :
    ∀ {fuel : ℕ} {p : UInt16 × UInt16} {m : Memory}, l.length ≤ fuel → (∀ x ∈ l, LbaFits g x) →
      Clears g.fatInfo p l → (∀ x ∈ l, nextCluster m x = fatEntry g d x) →
      loadLoop g.fatInfo d fuel c p m = kernelRequests g d fuel c := by
  induction hchain with
  | @last c hdata hend =>
    intro fuel p m hfuel hfits hclears hcopy
    have hc : c ∈ [c] := List.mem_singleton_self c
    have hlba := (clusterToLba_eq_iff hg hdata.two_le).mpr ⟨hentries, (hfits c hc).1⟩
    cases fuel with
    | zero => exact absurd hfuel (Nat.not_succ_le_zero _)
    | succ fuel =>
      obtain ⟨m', hread, hkept⟩ := readCluster (d := d) (m := m) hspc hclears hc hlba (hfits c hc)
      rw [kernelRequests_succ hg hdata, kernelRequests_end hend, List.append_nil, loadLoop, hread]
      dsimp only
      rw [hkept c hc, hcopy c hc, if_pos (Or.inr hend)]
  | @link c l hdata hrest ih =>
    intro fuel p m hfuel hfits hclears hcopy
    have hc : c ∈ c :: l := List.mem_cons_self
    have hlba := (clusterToLba_eq_iff hg hdata.two_le).mpr ⟨hentries, (hfits c hc).1⟩
    have hnext := hrest.head_data
    cases fuel with
    | zero => exact absurd hfuel (Nat.not_succ_le_zero _)
    | succ fuel =>
      obtain ⟨m', hread, hkept⟩ := readCluster (d := d) (m := m) hspc hclears hc hlba (hfits c hc)
      have hgoes : ¬ (fatEntry g d c = 0 ∨ 0xfff8 ≤ fatEntry g d c) := by
        rintro (hzero | hend)
        · rw [hzero] at hnext
          exact absurd hnext.1 (by decide)
        · exact absurd hnext.2 (UInt16.not_lt.mpr hend)
      rw [kernelRequests_succ hg hdata, loadLoop, hread]
      dsimp only
      rw [hkept c hc, hcopy c hc, if_neg hgoes]
      congr 1
      refine ih (Nat.le_of_succ_le_succ hfuel) (fun x hx => hfits x (List.mem_cons_of_mem c hx)) hclears.tail ?_
      intro x hx
      rw [hkept x (List.mem_cons_of_mem c hx), hcopy x (List.mem_cons_of_mem c hx)]

/-- A round of the loader that begins with as many sectors as a cluster has: they are the first cluster's,
and what follows comes from the next rounds. -/
theorem loadLoop_group {fuel : ℕ} {group rest : List ℕ} (hspc : b.sectorsPerCluster ≠ 0)
    (hlength : group.length = b.sectorsPerCluster.toNat)
    (h : loadLoop b d (fuel + 1) c p m = group ++ rest) :
    (∀ i, i < b.sectorsPerCluster.toNat → group[i]? = some (lbaAt (clusterToLba b c) i).toNat) ∧
      (rest = [] ∨ ∃ next m', loadLoop b d fuel next (advance b p) m' = rest) := by
  have hlba : ∀ i x, (readLoop d p.1 b.sectorsPerCluster.toNat (clusterToLba b c) p.2 m).1[i]? = some x →
      x = (lbaAt (clusterToLba b c) i).toNat := fun i x hx => readLoop_lba hx
  have hle : (readLoop d p.1 b.sectorsPerCluster.toNat (clusterToLba b c) p.2 m).1.length ≤
      b.sectorsPerCluster.toNat := readLoop_length_le
  have hsome : ∀ m', (readLoop d p.1 b.sectorsPerCluster.toNat (clusterToLba b c) p.2 m).2 = some m' →
      (readLoop d p.1 b.sectorsPerCluster.toNat (clusterToLba b c) p.2 m).1.length =
        b.sectorsPerCluster.toNat := fun m' hm' => readLoop_length hm'
  rw [loadLoop, readSectors, rounds_sectorsPerCluster hspc] at h
  generalize readLoop d p.1 b.sectorsPerCluster.toNat (clusterToLba b c) p.2 m = r at h hlba hle hsome
  obtain ⟨lbas, memory⟩ := r
  -- the group is what was read
  have hgroup : lbas = group → ∀ i, i < b.sectorsPerCluster.toNat →
      group[i]? = some (lbaAt (clusterToLba b c) i).toNat := by
    rintro rfl i hi
    have hget := List.getElem?_eq_getElem (l := lbas) (i := i) (by omega)
    rw [hget, hlba i _ hget]
  have hall : lbas = group ++ rest → lbas = group ∧ rest = [] := by
    intro heq
    have hnil : rest = [] := by
      apply List.eq_nil_of_length_eq_zero
      have hlen := congrArg List.length heq
      rw [List.length_append] at hlen
      dsimp only at hle
      omega
    rw [hnil, List.append_nil] at heq
    exact ⟨heq, hnil⟩
  cases memory with
  | none =>
    obtain ⟨heq, hnil⟩ := hall h
    exact ⟨hgroup heq, Or.inl hnil⟩
  | some m' =>
    dsimp only at h
    split at h
    · obtain ⟨heq, hnil⟩ := hall h
      exact ⟨hgroup heq, Or.inl hnil⟩
    · obtain ⟨heq, hrest⟩ := List.append_inj h ((hsome m' rfl).trans hlength.symm)
      exact ⟨hgroup heq, Or.inr ⟨_, m', hrest⟩⟩

/-- The first cluster of equal sequences. -/
theorem lbaFits_of_group {x : UInt16} (hspc : g.fatInfo.sectorsPerCluster ≠ 0)
    (h : ∀ i, i < g.fatInfo.sectorsPerCluster.toNat →
      ((List.range g.fatInfo.sectorsPerCluster.toNat).map fun i => clusterLba g c + i)[i]? =
        some (lbaAt (clusterToLba g.fatInfo x) i).toNat) :
    (clusterToLba g.fatInfo x).toNat = clusterLba g c ∧ LbaFits g c := by
  have hpos : 0 < g.fatInfo.sectorsPerCluster.toNat := by
    rw [Nat.pos_iff_ne_zero]
    exact fun h0 => hspc (UInt8.toNat_inj.mp h0)
  have hnth : ∀ i, i < g.fatInfo.sectorsPerCluster.toNat →
      clusterLba g c + i = (lbaAt (clusterToLba g.fatInfo x) i).toNat := by
    intro i hi
    have hi' := h i hi
    rw [List.getElem?_map, List.getElem?_range hi] at hi'
    exact Option.some.inj hi'
  have hfirst := hnth 0 hpos
  refine ⟨hfirst.symm, ?_, ?_⟩
  · rw [Nat.add_zero] at hfirst
    rw [hfirst]
    exact UInt16.toNat_lt _
  · by_cases hone : g.fatInfo.sectorsPerCluster.toNat = 1
    · exact Or.inl hone
    · have hlast := hnth (g.fatInfo.sectorsPerCluster.toNat - 2 + 1) (by omega)
      have hle := lbaAt_succ_le (clusterToLba g.fatInfo x) (g.fatInfo.sectorsPerCluster.toNat - 2)
      exact Or.inr (by omega)

/-- **Equal sequences need clusters that fit**, whatever the loader's own clusters are. -/
theorem lbaFits_of_loadLoop (hg : Mounted g) (hspc : g.fatInfo.sectorsPerCluster ≠ 0)
    (hchain : Chain (fatEntry g d) IsNumber c l) :
    ∀ {fuel : ℕ} {x : UInt16} {p : UInt16 × UInt16} {m : Memory}, l.length ≤ fuel →
      loadLoop g.fatInfo d fuel x p m = kernelRequests g d fuel c →
      (clusterToLba g.fatInfo x).toNat = clusterLba g c ∧ ∀ y ∈ l, LbaFits g y := by
  have hlength : ∀ y : UInt16, ((List.range g.fatInfo.sectorsPerCluster.toNat).map fun i => clusterLba g y + i).length =
      g.fatInfo.sectorsPerCluster.toNat := by
    intro y
    rw [List.length_map, List.length_range]
  induction hchain with
  | @last c hdata hend =>
    intro fuel x p m hfuel heq
    cases fuel with
    | zero => exact absurd hfuel (Nat.not_succ_le_zero _)
    | succ fuel =>
      rw [kernelRequests_succ hg hdata] at heq
      obtain ⟨hlba, hfits⟩ := lbaFits_of_group hspc (loadLoop_group hspc (hlength c) heq).1
      refine ⟨hlba, ?_⟩
      intro y hy
      rw [List.mem_singleton.mp hy]
      exact hfits
  | @link c l hdata hrest ih =>
    intro fuel x p m hfuel heq
    cases fuel with
    | zero => exact absurd hfuel (Nat.not_succ_le_zero _)
    | succ fuel =>
      have hfuel : l.length ≤ fuel := Nat.le_of_succ_le_succ hfuel
      rw [kernelRequests_succ hg hdata] at heq
      obtain ⟨hgroup, hafter⟩ := loadLoop_group hspc (hlength c) heq
      obtain ⟨hlba, hfits⟩ := lbaFits_of_group hspc hgroup
      refine ⟨hlba, ?_⟩
      -- the kernel goes on, so the loader does
      obtain ⟨next, m', hnext⟩ := hafter.resolve_left (kernelRequests_ne_nil hg hspc hrest hfuel)
      intro y hy
      cases List.mem_cons.mp hy with
      | inl hhead =>
        rw [hhead]
        exact hfits
      | inr htail => exact (ih hfuel hnext).2 y htail

end File

/-! ### The whole loader -/

/-- The layout of the file's clusters, as far as 16 bits and a counting `AL` go. -/
structure LayoutFits (g : Globals) (l : List UInt16) : Prop where
  entries : g.fatInfo.rootDirEntries.toNat < 2048
  root : g.fatInfo.rootDirSectors ≤ 59
  lbas : ∀ c ∈ l, LbaFits g c

/-- The FAT copy has the entries of the file's clusters until they are looked up. -/
structure CopyFits (g : Globals) (l : List UInt16) : Prop where
  copied : ∀ c ∈ l, InCopy g c
  clears : Clears g.fatInfo (0, 0x7e00) l

section Boot

variable {g : Globals} {d : Disk} {j : ℕ} {c : UInt16} {l : List UInt16}

theorem rootDirSector_le (hg : Mounted g) (c : UInt16) :
    g.rootDirSector + g.fatInfo.rootDirSectors ≤ clusterLba g c := by
  rw [clusterLba, hg.dataStart]
  exact Nat.le_add_right _ _

/-- The loader up to the first cluster: it loads the directory, finds the file and copies the FAT. -/
theorem boot_eq (hg : Mounted g) (hboot : g.fatInfo = Bpb.parse (d.get 0))
    (hsector : g.rootDirSector < 65536) (hentry : LoaderEntry g d j c) (hdir : DirFits g j)
    (hroot : (rootSectors g.fatInfo).toNat ≤ 59) (m : Memory) (fuel : ℕ) :
    ∃ m₁ m₂, (readSectors d g.fatInfo.reservedSectors g.fatInfo.fatSize16 0x2000 0 m₁).2 = some m₂ ∧
      boot d m fuel = loadLoop g.fatInfo d fuel c (0, 0x7e00) m₂ := by
  have hpos : 0 < (rootSectors g.fatInfo).toNat := Nat.lt_of_le_of_lt (Nat.zero_le _) hdir.1
  obtain ⟨m₁, hm₁⟩ := (readRoot_iff g.fatInfo d m).mpr ⟨hpos, hroot⟩
  obtain ⟨m₂, hm₂⟩ := readFat_spares g.fatInfo d m₁
  have hfound := searchRoot_entry hg hsector hentry hdir hm₁
  refine ⟨m₁, m₂, hm₂, ?_⟩
  rw [boot, ← hboot, hm₁]
  dsimp only
  rw [hfound]
  dsimp only
  rw [hm₂]

/-- A loader that asks for a sector has loaded the directory and looks at some cluster. -/
theorem boot_ne_nil {m : Memory} {fuel : ℕ} (h : boot d m fuel ≠ []) :
    (rootSectors (Bpb.parse (d.get 0))).toNat ≤ 59 ∧
      ∃ x m₂, boot d m fuel = loadLoop (Bpb.parse (d.get 0)) d fuel x (0, 0x7e00) m₂ := by
  rw [boot] at h ⊢
  split at h
  · exact absurd rfl h
  · rename_i m₁ hm₁
    refine ⟨((readRoot_iff _ d m).mp ⟨m₁, hm₁⟩).2, ?_⟩
    split at h
    · exact absurd rfl h
    · rename_i x hx
      obtain ⟨m₂, hm₂⟩ := readFat_spares (Bpb.parse (d.get 0)) d m₁
      refine ⟨x, m₂, ?_⟩
      rw [hm₂]

/-- **The loader and the kernel read the same sectors** of `LOADER.BIN` when the directory, the layout and the
FAT copy fit, and when the directory does they only agree on volumes whose layout fits. -/
theorem boot_reads_file (hg : Mounted g) (hboot : g.fatInfo = Bpb.parse (d.get 0))
    (hspc : g.fatInfo.sectorsPerCluster ≠ 0) (hfat : g.fatInfo.fatSize16 ≠ 0)
    (hentry : LoaderEntry g d j c) (hchain : Chain (fatEntry g d) IsNumber c l) (m : Memory) {fuel : ℕ}
    (hfuel : l.length ≤ fuel) :
    (DirFits g j → LayoutFits g l → CopyFits g l → boot d m fuel = kernelRequests g d fuel c) ∧
      (DirFits g j → boot d m fuel = kernelRequests g d fuel c → LayoutFits g l) := by
  have hinside := rootDirSector_le hg c
  constructor
  · intro hdir hlayout hcopy
    have hroot := rootSectors_eq hlayout.entries
    have hlba := (hlayout.lbas c hchain.head_mem).1
    obtain ⟨m₁, m₂, hm₂, hload⟩ :=
      boot_eq hg hboot (by omega) hentry hdir (hroot.trans_le hlayout.root) m fuel
    rw [hload]
    refine loadLoop_chain hg hspc hlayout.entries hchain hfuel hlayout.lbas hcopy.clears ?_
    intro x hx
    exact nextCluster_copy hg hfat hm₂ (hcopy.copied x hx)
  · intro hdir heq
    have hsome : boot d m fuel ≠ [] := by
      rw [heq]
      exact kernelRequests_ne_nil hg hspc hchain hfuel
    -- the clusters fit whatever the loader found; so the directory is where it looks
    obtain ⟨hroot, x, m₂, hload⟩ := boot_ne_nil hsome
    rw [← hboot] at hroot hload
    have hlbas := (lbaFits_of_loadLoop hg hspc hchain hfuel (hload.symm.trans heq)).2
    have hlba := (hlbas c hchain.head_mem).1
    obtain ⟨m₁, m₂, hm₂, hload⟩ := boot_eq hg hboot (by omega) hentry hdir hroot m fuel
    have hfirst := (lbaFits_of_loadLoop hg hspc hchain hfuel (hload.symm.trans heq)).1
    have hentries := ((clusterToLba_eq_iff hg hchain.head_data.two_le).mp hfirst).1
    refine ⟨hentries, ?_, hlbas⟩
    rw [← rootSectors_eq hentries]
    exact hroot

end Boot

/-! ### A volume -/

/-- The BPB of `boot_fat16.asm`, with its own number of sectors in a cluster. -/
def loaderBootSector (sectorsPerCluster : UInt8) : Sector := fun i =>
  if i.val = 12 then 2 else if i.val = 13 then sectorsPerCluster else if i.val = 14 then 1
  else if i.val = 16 then 2 else if i.val = 18 then 2 else if i.val = 22 then 80 else 0

/-- A root directory with the one entry. -/
def loaderDirectory (c : UInt16) : Sector := fun i =>
  if i.val < 11 then filename.getD i.val 0 else if i.val = 26 then lo8 c else if i.val = 27 then hi8 c else 0

/-- The file's only cluster is `c`. -/
def loaderDisk (sectorsPerCluster : UInt8) (c : UInt16) : Disk := fun lba =>
  if lba = 0 then loaderBootSector sectorsPerCluster else if lba = 161 then loaderDirectory c
  else if lba = 1 + c.toNat / 256 then putU16 (fun _ => 0) (2 * c.toNat % 512) 0xffff else fun _ => 0

def loaderVolume (sectorsPerCluster : UInt8) : Globals :=
  ⟨Bpb.parse (loaderBootSector sectorsPerCluster), 1, 161, 193, 0, text "/", true⟩

/-- The kernel mounts the volume. -/
theorem mounted_loaderVolume (n : UInt8) : Mounted (loaderVolume n) where
  initialized := rfl
  bytesPerSector := by
    show (512 : UInt16) ≠ 0
    decide
  fatStart := rfl
  rootDir := rfl
  dataStart := by
    have hentries : (loaderVolume n).fatInfo.rootDirEntries = 512 := rfl
    have hbytes : (loaderVolume n).fatInfo.bytesPerSector = 512 := rfl
    rw [Bpb.rootDirSectors, hentries, hbytes]
    rfl

/-- The repository's own layout, one sector in a cluster, with `LOADER.BIN` in the clusters 2 and 3. -/
def twoClusterDisk : Disk :=
  Function.update (loaderDisk 1 2) 1 (putU16 (putU16 (fun _ => 0) 4 3) 6 0xffff)

theorem loaderEntry_two : LoaderEntry (loaderVolume 1) twoClusterDisk 0 2 where
  inside := by decide
  named := by decide +kernel
  first := fun k hk => absurd hk (Nat.not_lt_zero k)
  cluster := by decide +kernel

theorem chain_two : Chain (fatEntry (loaderVolume 1) twoClusterDisk) IsNumber 2 [2, 3] := by
  have hlink : fatEntry (loaderVolume 1) twoClusterDisk 2 = 3 := by decide +kernel
  refine Chain.link ⟨by decide, by decide⟩ ?_
  rw [hlink]
  exact Chain.last ⟨by decide, by decide⟩ (by decide +kernel)

theorem dirFits_two : DirFits (loaderVolume 1) 0 := ⟨by decide, Or.inl rfl⟩

theorem layoutFits_two : LayoutFits (loaderVolume 1) [2, 3] where
  entries := by decide
  root := by decide
  lbas := by
    intro c hc
    rcases List.mem_pair.mp hc with rfl | rfl
    · exact ⟨by decide, Or.inl (by decide)⟩
    · exact ⟨by decide, Or.inl (by decide)⟩

theorem copyFits_two : CopyFits (loaderVolume 1) [2, 3] where
  copied := by
    intro c hc
    rcases List.mem_pair.mp hc with rfl | rfl
    · exact ⟨by decide, by decide, Or.inl (by decide)⟩
    · exact ⟨by decide, by decide, Or.inl (by decide)⟩
  clears := by
    intro t c hc t' ht' i hi
    have hone : (loaderVolume 1).fatInfo.sectorsPerCluster.toNat = 1 := by decide
    rw [hone] at hi
    obtain rfl : i = 0 := by omega
    match t, t', hc, ht' with
    | 0, 0, hc, _ =>
      obtain rfl := Option.some.inj hc
      exact ⟨by decide, Or.inl (by decide)⟩
    | 1, 0, hc, _ =>
      obtain rfl := Option.some.inj hc
      exact ⟨by decide, Or.inl (by decide)⟩
    | 1, 1, hc, _ =>
      obtain rfl := Option.some.inj hc
      exact ⟨by decide, Or.inl (by decide)⟩

/-- The loader reads both clusters, and the sectors are those the kernel reads. -/
theorem boot_reads_two_clusters :
    boot twoClusterDisk (fun _ => 0) 2 = kernelRequests (loaderVolume 1) twoClusterDisk 2 2 ∧
      kernelRequests (loaderVolume 1) twoClusterDisk 2 2 = [193, 194] :=
  ⟨(boot_reads_file (mounted_loaderVolume 1) rfl (by decide) (by decide) loaderEntry_two chain_two (fun _ => 0)
    le_rfl).1 dirFits_two layoutFits_two copyFits_two, by decide +kernel⟩

/-- **Cluster 20000, four sectors in a cluster**: its sector 80185 has 17 bits, and the ones behind it would
need the high byte of `AX`. -/
theorem boot_misses_cluster_20000 :
    Mounted (loaderVolume 4) ∧ (loaderVolume 4).fatInfo = Bpb.parse ((loaderDisk 4 20000).get 0) ∧
      LoaderEntry (loaderVolume 4) (loaderDisk 4 20000) 0 20000 ∧
      Chain (fatEntry (loaderVolume 4) (loaderDisk 4 20000)) IsNumber 20000 [20000] ∧
      boot (loaderDisk 4 20000) (fun _ => 0) 1 = [14649, 58, 59, 60] ∧
      kernelRequests (loaderVolume 4) (loaderDisk 4 20000) 1 20000 = [80185, 80186, 80187, 80188] := by
  have hentry : LoaderEntry (loaderVolume 4) (loaderDisk 4 20000) 0 20000 :=
    ⟨by decide, by decide +kernel, fun k hk => absurd hk (Nat.not_lt_zero k), by decide +kernel⟩
  have hchain : Chain (fatEntry (loaderVolume 4) (loaderDisk 4 20000)) IsNumber 20000 [20000] :=
    Chain.last ⟨by decide, by decide⟩ (by decide +kernel)
  have hboot : boot (loaderDisk 4 20000) (fun _ => 0) 1 = [14649, 58, 59, 60] := by decide +kernel
  have hkernel : kernelRequests (loaderVolume 4) (loaderDisk 4 20000) 1 20000 =
      [80185, 80186, 80187, 80188] := by decide +kernel
  exact ⟨mounted_loaderVolume 4, rfl, hentry, hchain, hboot, hkernel⟩

end OsEojin.Boot
