import OsEojin.FatSpec

/-!
# FAT operations when reads fail

`ata_read_sector` returns nothing: when the drive reports an error or times out, the buffer keeps the bytes
it had, and the file system goes on with them.  Here every read may fail.

* `flaky`: the handler, for an arbitrary pattern of failing reads; it keeps a log of the writes and, for
  each buffer, the sector whose content it holds;
* `Allowed`: the one change an operation may make to a sector;
* `Keeps`, `Holds`: code that writes allowed sectors only as long as what it writes back was read, and the
  buffers it leaves alone;
* `fresh_writes_allowed`: a sector written from a buffer that was filled by a successful read of that
  sector is changed in the entry or slot being updated, and nowhere else.
-/

namespace OsEojin.ReadFailure

open OsEojin.Lib.Programs OsEojin.Lib.Programs.Program OsEojin.Ata OsEojin.Fat

/-! ### A drive whose reads fail -/

/-- A write: the sector before and after, and whether the buffer had been filled by a successful read of
this sector, not written since. -/
structure Write where
  lba : ℕ
  before : Sector
  after : Sector
  fresh : Bool

/-- The disk, the numbers of reads and allocations so far, the sector each buffer holds the content of,
and the writes, the last one first. -/
structure Machine where
  disk : Disk
  reads : ℕ
  allocations : ℕ
  filled : ℕ → Option ℕ
  log : List Write

/-- The machine at the start of an operation. -/
def start (d : Disk) : Machine := ⟨d, 0, 0, fun _ => none, []⟩

/-- **The flaky drive**: read number `n` leaves the buffer unfilled where `fails n`.  The `n`-th buffer is
block `n + 1`, with the bytes `junk n` in it. -/
def flaky (junk : ℕ → Sector) (fails : ℕ → Bool) : (o : Call) → Machine → Option (o.Res × Machine)
  | .kmalloc _, m =>
    some (⟨m.allocations + 1, junk m.allocations⟩,
      { m with
        allocations := m.allocations + 1
        filled := fun p => if p = m.allocations + 1 then none else m.filled p })
  | .kfree _, m => some ((), m)
  | .ataReadSector lba b, m =>
    if fails m.reads then some (b.data, { m with reads := m.reads + 1 })
    else some (m.disk.get lba, { m with
      reads := m.reads + 1
      filled := fun p => if p = b.ptr then some (lba % lbaSpace) else m.filled p })
  | .ataWriteSector lba b, m =>
    some ((), { m with
      disk := m.disk.put lba b.data
      filled := fun p => if m.filled p = some (lba % lbaSpace) then none else m.filled p
      log := ⟨lba, m.disk.get lba, b.data, m.filled b.ptr == some (lba % lbaSpace)⟩ :: m.log })
  | .kprint _, m => some ((), m)
  | .clearScreen, m => some ((), m)
  | .printMemoryMap, m => some ((), m)
  | .pmmAllocBlock, m => some (0, m)
  | .outw _ _, m => some ((), m)
  | .divideError, _ => none

/-! ### What an operation may change -/

/-- The FAT entry of some cluster is set to `v`. -/
def SetsEntry (g : Globals) (v : UInt16) (w : Write) : Prop :=
  ∃ c, w.lba = fatSector g c ∧ w.after = putU16 w.before (entOffset c) v

/-- One directory slot is updated by `f`. -/
def SetsSlot (f : DirEntry → DirEntry) (w : Write) : Prop :=
  ∃ k, k < 16 ∧ w.after = putEntry w.before k (f (entryAt w.before k))

/-- **The change an operation may make to a sector**: the FAT entry or the directory slot it updates, all
other bytes as they were. -/
def Allowed (g : Globals) : Operation → Write → Prop
  | .fatWriteFatEntry c v, w => w.lba = fatSector g c ∧ w.after = putU16 w.before (entOffset c) v
  | .fatAllocateCluster, w => SetsEntry g 0xFFFF w
  | .fatCreateEntry filename attr cluster size, w =>
    SetsSlot (fun old => fillEntry old filename attr cluster size) w
  | .fatFreeClusterChain _, w => SetsEntry g 0x0000 w
  | .fatDeleteFile _, w => SetsEntry g 0x0000 w ∨ SetsSlot markDeleted w
  | .fatDeleteDir _, w => SetsEntry g 0x0000 w ∨ SetsSlot markDeleted w
  | _, _ => False

/-! ### The invariant -/

section Calculus

variable {α β : Type} (A : Write → Prop) (junk : ℕ → Sector) (fails : ℕ → Bool)

/-- The fresh writes of the log are all in `A`. -/
def Good (m : Machine) : Prop := ∀ w ∈ m.log, w.fresh = true → A w

/-- An allocated buffer has the bytes of the sector it was filled from. -/
def Holds (m : Machine) (b : Buffer) : Prop :=
  b.ptr ≤ m.allocations ∧ ∀ lba, m.filled b.ptr = some lba → b.data = m.disk lba

/-- The assertion that stays true while somebody else holds the buffer `c`. -/
def Inv (c : Buffer) (m : Machine) : Prop := Good A m ∧ Holds m c

/-- **Code that keeps every buffer**: it leaves the buffers of its callers alone. -/
def Keeps (p : Kernel α) : Prop :=
  ∀ c, Triple (flaky junk fails) (Inv A c) p fun _ => Inv A c

variable {A junk fails}

theorem keeps_pure (a : α) : Keeps A junk fails (pure a) := fun _ => triple_pure fun _ h => h

theorem keeps_hang : Keeps A junk fails (.hang : Kernel α) := fun _ => triple_hang

theorem keeps_divideError : Keeps A junk fails (divideError : Kernel α) := by
  intro c m r _ hr
  cases hr

theorem keeps_bind {p : Kernel α} {f : α → Kernel β} (hp : Keeps A junk fails p)
    (hf : ∀ a, Keeps A junk fails (f a)) : Keeps A junk fails (p >>= f) :=
  fun c => triple_bind (hp c) fun a => hf a c

theorem keeps_kfree (b : Buffer) : Keeps A junk fails (Ata.kfree b) := by
  intro c m r hm hr
  rw [← Option.some.inj hr]
  exact hm

theorem keeps_kprint (message : List UInt8) : Keeps A junk fails (kprint message) := by
  intro c m r hm hr
  rw [← Option.some.inj hr]
  exact hm

/-- A buffer of its own: distinct from the one somebody else holds, and not filled yet. -/
theorem triple_kmalloc (c : Buffer) :
    Triple (flaky junk fails) (Inv A c) (Ata.kmalloc 512)
      fun b m => Inv A c m ∧ Holds m b ∧ c.ptr ≠ b.ptr := by
  intro m r hm hr
  obtain ⟨hgood, hc, hdata⟩ := hm
  rw [← Option.some.inj hr]
  have hne : c.ptr ≠ m.allocations + 1 := by omega
  refine ⟨⟨hgood, Nat.le_succ_of_le hc, ?_⟩, ⟨le_rfl, ?_⟩, hne⟩
  · intro lba hl
    simp only [if_neg hne] at hl
    exact hdata lba hl
  · intro lba hl
    simp only [if_true] at hl
    cases hl

/-- A read, failed or not, leaves in the buffer the bytes of the sector it is filled from. -/
theorem triple_ataReadSector (c b : Buffer) (hne : c.ptr ≠ b.ptr) (lba : ℕ) :
    Triple (flaky junk fails) (fun m => Inv A c m ∧ Holds m b) (ataReadSector lba b)
      fun b' m => Inv A c m ∧ Holds m b' ∧ b'.ptr = b.ptr := by
  refine triple_bind (R := fun s m => Inv A c m ∧ Holds m { b with data := s })
    (triple_perform ?_) fun s => triple_pure fun m hm => ⟨hm.1, hm.2, rfl⟩
  intro m r hm hr
  obtain ⟨⟨hgood, hc, hdata⟩, hb, hbdata⟩ := hm
  simp only [flaky] at hr
  split at hr
  · rw [← Option.some.inj hr]
    exact ⟨⟨hgood, hc, hdata⟩, hb, hbdata⟩
  · rw [← Option.some.inj hr]
    refine ⟨⟨hgood, hc, ?_⟩, hb, ?_⟩
    · intro l hl
      simp only [if_neg hne] at hl
      exact hdata l hl
    · intro l hl
      simp only [if_true, Option.some.injEq] at hl
      rw [← hl]
      rfl

/-- **A write of a changed buffer** is allowed as far as it is fresh: then the bytes changed are those of
the sector it goes to. -/
theorem triple_ataWriteSector (c b : Buffer) (lba : ℕ) (f : Sector → Sector)
    (hA : ∀ w : Write, w.lba = lba → w.after = f w.before → A w) :
    Triple (flaky junk fails) (fun m => Inv A c m ∧ Holds m b)
      (ataWriteSector lba { b with data := f b.data }) fun _ => Inv A c := by
  intro m r hm hr
  obtain ⟨⟨hgood, hc, hdata⟩, hb, hbdata⟩ := hm
  rw [← Option.some.inj hr]
  refine ⟨?_, hc, ?_⟩
  · intro w hw hfresh
    cases List.mem_cons.mp hw with
    | inl hw =>
      rw [hw] at hfresh ⊢
      refine hA _ rfl ?_
      rw [hbdata _ (eq_of_beq hfresh)]
      rfl
    | inr hw => exact hgood w hw hfresh
  · intro l hl
    simp only at hl
    split at hl
    · cases hl
    · rename_i hne
      rw [hdata l hl]
      refine (Function.update_of_ne ?_ _ _).symm
      intro he
      rw [he] at hl
      exact hne hl

/-- While a buffer is in use, code that keeps every buffer keeps this one too. -/
theorem triple_keeps (c b : Buffer) {p : Kernel α} (hp : Keeps A junk fails p) :
    Triple (flaky junk fails) (fun m => Inv A c m ∧ Holds m b) p
      fun _ m => Inv A c m ∧ Holds m b := by
  refine ((hp c).and (hp b)).consequence ?_ ?_
  · intro m hm
    exact ⟨hm.1, hm.1.1, hm.2⟩
  · intro _ m hm
    exact ⟨hm.1, hm.2.2⟩

/-- Code that takes a buffer and works on it. -/
theorem keeps_kmalloc {k : Buffer → Kernel α}
    (hk : ∀ c b : Buffer, c.ptr ≠ b.ptr →
      Triple (flaky junk fails) (fun m => Inv A c m ∧ Holds m b) (k b) fun _ => Inv A c) :
    Keeps A junk fails (Ata.kmalloc 512 >>= k) := by
  intro c
  refine triple_bind (triple_kmalloc c) fun b => ?_
  exact (triple_assume (hk c b)).consequence (fun _ hm => ⟨⟨hm.1, hm.2.1⟩, hm.2.2⟩) fun _ _ => id

/-- Code that no longer uses its buffer. -/
theorem triple_done (c b : Buffer) {p : Kernel α} (hp : Keeps A junk fails p) :
    Triple (flaky junk fails) (fun m => Inv A c m ∧ Holds m b) p fun _ => Inv A c :=
  (hp c).consequence (fun _ hm => hm.1) fun _ _ => id

/-- A read, followed by code that works on the buffer. -/
theorem triple_read (c b : Buffer) (hne : c.ptr ≠ b.ptr) (lba : ℕ) {k : Buffer → Kernel α}
    {Q : α → Machine → Prop}
    (hk : ∀ b' : Buffer, b'.ptr = b.ptr →
      Triple (flaky junk fails) (fun m => Inv A c m ∧ Holds m b') (k b') Q) :
    Triple (flaky junk fails) (fun m => Inv A c m ∧ Holds m b) (ataReadSector lba b >>= k) Q := by
  refine triple_bind (triple_ataReadSector c b hne lba) fun b' => ?_
  exact (triple_assume (hk b')).consequence (fun _ hm => ⟨⟨hm.1, hm.2.1⟩, hm.2.2⟩) fun _ _ => id

end Calculus

/-! ### The functions of `fat.c` -/

section Functions

variable {A : Write → Prop} {junk : ℕ → Sector} {fails : ℕ → Bool} (g : Globals)

theorem keeps_fatNextCluster (cluster : UInt16) :
    Keeps A junk fails (fatNextCluster g cluster) := by
  refine keeps_kmalloc fun c b hne => triple_read c b hne _ fun b' _ => ?_
  exact triple_done c b' (keeps_bind (keeps_kfree b') fun _ => keeps_pure _)

theorem keeps_fatWriteFatEntry (cluster value : UInt16)
    (hA : ∀ w : Write, w.lba = fatSector g cluster →
      w.after = putU16 w.before (entOffset cluster) value → A w) :
    Keeps A junk fails (fatWriteFatEntry g cluster value) := by
  refine keeps_kmalloc fun c b hne => triple_read c b hne _ fun b' _ => ?_
  refine triple_bind ?_ fun _ => keeps_kfree _ c
  exact triple_ataWriteSector c b' _ (fun s => putU16 s (entOffset cluster) value) hA

theorem keeps_allocLoop (hA : ∀ w, SetsEntry g 0xFFFF w → A w) (n : ℕ) : ∀ i (c b : Buffer),
    c.ptr ≠ b.ptr → Triple (flaky junk fails) (fun m => Inv A c m ∧ Holds m b)
      (allocLoop g n i b) fun _ => Inv A c := by
  induction n with
  | zero =>
    intro i c b _
    exact triple_done c b (keeps_bind (keeps_kfree b) fun _ => keeps_pure _)
  | succ n ih =>
    intro i c b hne
    refine triple_read c b hne _ fun b' hb' => ?_
    cases allocInSector b'.data i 256 0 with
    | some cluster =>
      refine triple_done c b' (keeps_bind (keeps_fatWriteFatEntry g cluster 0xFFFF ?_) fun _ => ?_)
      · intro w hl ha
        exact hA w ⟨cluster, hl, ha⟩
      · exact keeps_bind (keeps_kfree b') fun _ => keeps_pure _
    | none => exact ih (i + 1) c b' (by rw [hb']; exact hne)

theorem keeps_fatAllocateCluster (hA : ∀ w, SetsEntry g 0xFFFF w → A w) :
    Keeps A junk fails (fatAllocateCluster g) :=
  keeps_kmalloc fun c b hne => keeps_allocLoop g hA _ 0 c b hne

theorem keeps_dirClusterLoop (n : ℕ) : ∀ curr, Keeps A junk fails (dirClusterLoop g n curr) := by
  induction n with
  | zero =>
    intro curr
    rw [dirClusterLoop]
    split
    · exact keeps_pure _
    · exact keeps_pure _
  | succ n ih =>
    intro curr
    rw [dirClusterLoop]
    split
    · exact keeps_pure _
    · exact keeps_bind (keeps_fatNextCluster g curr) ih

theorem keeps_followLinks (n : ℕ) : ∀ curr, Keeps A junk fails (followLinks g n curr) := by
  induction n with
  | zero =>
    intro curr
    exact keeps_pure _
  | succ n ih =>
    intro curr
    exact keeps_bind (keeps_fatNextCluster g curr) ih

theorem keeps_writeBackLba (i : ℕ) : Keeps A junk fails (writeBackLba g i) := by
  rw [writeBackLba]
  split
  · exact keeps_pure _
  · simp only
    split
    · exact keeps_divideError
    · exact keeps_bind (keeps_followLinks g _ _) fun _ => keeps_pure _

theorem keeps_freeLoop (hA : ∀ w, SetsEntry g 0x0000 w → A w) (fuel : ℕ) : ∀ curr,
    Keeps A junk fails (freeLoop g fuel curr) := by
  induction fuel with
  | zero =>
    intro curr
    exact keeps_hang
  | succ fuel ih =>
    intro curr
    rw [freeLoop]
    split
    · refine keeps_bind (keeps_fatNextCluster g curr) fun next => ?_
      refine keeps_bind (keeps_fatWriteFatEntry g curr 0x0000 ?_) fun _ => ih next
      intro w hl ha
      exact hA w ⟨curr, hl, ha⟩
    · exact keeps_pure _

theorem keeps_fatFreeClusterChain (hA : ∀ w, SetsEntry g 0x0000 w → A w) (fuel : ℕ)
    (cluster : UInt16) : Keeps A junk fails (fatFreeClusterChain g fuel cluster) := by
  rw [fatFreeClusterChain]
  split
  · exact keeps_pure _
  · exact keeps_freeLoop g hA fuel cluster

/-- A directory sector arrives in the buffer, or the buffer stays as it was. -/
theorem triple_fatReadDirSector (startCluster : UInt16) (i : ℕ) (c b : Buffer) (hne : c.ptr ≠ b.ptr) :
    Triple (flaky junk fails) (fun m => Inv A c m ∧ Holds m b) (fatReadDirSector g startCluster i b)
      fun r m => (Inv A c m ∧ Holds m (r.getD b)) ∧ (r.getD b).ptr = b.ptr := by
  have hread : ∀ lba, Triple (flaky junk fails) (fun m => Inv A c m ∧ Holds m b)
      (do let b ← ataReadSector lba b; pure (some b))
      fun r m => (Inv A c m ∧ Holds m (r.getD b)) ∧ (r.getD b).ptr = b.ptr :=
    fun lba => triple_read c b hne lba fun b' hb' => triple_pure fun m hm => ⟨hm, hb'⟩
  have hnone : Triple (flaky junk fails) (fun m => Inv A c m ∧ Holds m b) (pure none)
      fun r m => (Inv A c m ∧ Holds m (r.getD b)) ∧ (r.getD b).ptr = b.ptr :=
    triple_pure fun m hm => ⟨hm, rfl⟩
  have herror : Triple (flaky junk fails) (fun m => Inv A c m ∧ Holds m b)
      (divideError : Kernel (Option Buffer))
      fun r m => (Inv A c m ∧ Holds m (r.getD b)) ∧ (r.getD b).ptr = b.ptr := by
    intro m r _ hr
    cases hr
  rw [fatReadDirSector]
  split
  · split
    · exact herror
    · split
      · exact hnone
      · exact hread _
  · simp only
    split
    · exact herror
    · refine triple_bind (triple_keeps c b (keeps_dirClusterLoop g _ startCluster)) fun r => ?_
      cases r with
      | none => exact hnone
      | some curr => exact hread _

/-- **A scan** ends with the buffer holding what its last successful read put there. -/
theorem triple_scanDir (startCluster : UInt16) (e : Bool) (v : DirEntry → Verdict) (fuel : ℕ) :
    ∀ i (c b : Buffer), c.ptr ≠ b.ptr →
      Triple (flaky junk fails) (fun m => Inv A c m ∧ Holds m b) (scanDir g startCluster e v fuel i b)
        fun r m => (Inv A c m ∧ Holds m r.buffer) ∧
          r.buffer.ptr = b.ptr ∧ ∀ i k b', r = .hit i k b' → k < 16 := by
  induction fuel with
  | zero =>
    intro i c b _
    exact triple_hang
  | succ fuel ih =>
    intro i c b hne
    refine triple_bind (triple_fatReadDirSector g startCluster i c b hne) fun r => ?_
    refine triple_assume fun hptr => ?_
    cases r with
    | none => exact triple_pure fun m hm => ⟨hm, rfl, by simp⟩
    | some b' =>
      simp only [Option.getD_some] at hptr ⊢
      have hnext := ih (i + 1) c b' (by rw [hptr]; exact hne)
      rw [hptr] at hnext
      split
      · rename_i k hk
        refine triple_pure fun m hm => ⟨hm, hptr, ?_⟩
        intro i' k' b'' heq
        obtain ⟨-, rfl, -⟩ := DirScan.hit.inj heq
        have := (scanSector_hit hk).2.1
        omega
      · exact hnext
      · split
        · exact triple_pure fun m hm => ⟨hm, hptr, by simp⟩
        · exact hnext

theorem keeps_fatIsDirEmpty (fuel : ℕ) (cluster : UInt16) :
    Keeps A junk fails (fatIsDirEmpty g fuel cluster) := by
  refine keeps_kmalloc fun c b hne => ?_
  split
  · exact triple_done c b (keeps_pure _)
  · refine triple_bind (triple_scanDir g cluster true emptyVerdict fuel 0 c b hne) fun r => ?_
    refine triple_assume fun _ => triple_done c r.buffer ?_
    cases r with
    | hit i k b' => exact keeps_bind (keeps_kfree b') fun _ => keeps_pure _
    | stop b' => exact keeps_bind (keeps_kfree b') fun _ => keeps_pure _
    | through b' => exact keeps_bind (keeps_kfree b') fun _ => keeps_pure _

theorem keeps_fatCreateEntry (fuel : ℕ) (filename : List UInt8) (attr : UInt8) (cluster : UInt16)
    (size : ℕ) (hA : ∀ w, SetsSlot (fun old => fillEntry old filename attr cluster size) w → A w) :
    Keeps A junk fails (fatCreateEntry g fuel filename attr cluster size) := by
  rw [fatCreateEntry]
  split
  · exact keeps_pure _
  · refine keeps_kmalloc fun c b hne => ?_
    refine triple_bind (triple_scanDir g _ false freeVerdict fuel 0 c b hne) fun r => ?_
    refine triple_assume fun hr => ?_
    cases r with
    | hit i k b' =>
      have hk : k < 16 := hr.2 i k b' rfl
      refine triple_bind (triple_keeps c b' (keeps_writeBackLba g i)) fun lba => ?_
      refine triple_bind (triple_ataWriteSector c b' lba
        (fun s => putEntry s k (fillEntry (entryAt s k) filename attr cluster size)) ?_) fun _ => ?_
      · intro w _ ha
        exact hA w ⟨k, hk, ha⟩
      · refine keeps_bind (keeps_kfree _) (fun _ => ?_) c
        refine keeps_bind (keeps_kprint _) fun _ => keeps_bind (keeps_kprint _) fun _ => ?_
        exact keeps_bind (keeps_kprint _) fun _ => keeps_pure _
    | stop b' =>
      refine triple_done c b' (keeps_bind (keeps_kfree b') fun _ => ?_)
      exact keeps_bind (keeps_kprint _) fun _ => keeps_pure _
    | through b' =>
      refine triple_done c b' (keeps_bind (keeps_kfree b') fun _ => ?_)
      exact keeps_bind (keeps_kprint _) fun _ => keeps_pure _

/-- The directory buffer stays out while the chain is freed. -/
theorem triple_deleteFound (fuel i k : ℕ) (hk : k < 16) (c b : Buffer) (message : String)
    (hE : ∀ w, SetsEntry g 0x0000 w → A w) (hS : ∀ w, SetsSlot markDeleted w → A w) :
    Triple (flaky junk fails) (fun m => Inv A c m ∧ Holds m b)
      (deleteFound g fuel i k b message) fun _ => Inv A c := by
  refine triple_bind (triple_keeps c b (keeps_writeBackLba g i)) fun lba => ?_
  refine triple_bind (triple_keeps c b (keeps_fatFreeClusterChain g hE fuel _)) fun _ => ?_
  refine triple_bind (triple_ataWriteSector c b lba
    (fun s => putEntry s k (markDeleted (entryAt s k))) ?_) fun _ => ?_
  · intro w _ ha
    exact hS w ⟨k, hk, ha⟩
  · refine keeps_bind (keeps_kfree _) (fun _ => ?_) c
    exact keeps_bind (keeps_kprint _) fun _ => keeps_pure _

theorem keeps_fatDeleteFile (fuel : ℕ) (filename : List UInt8)
    (hE : ∀ w, SetsEntry g 0x0000 w → A w) (hS : ∀ w, SetsSlot markDeleted w → A w) :
    Keeps A junk fails (fatDeleteFile g fuel filename) := by
  rw [fatDeleteFile]
  split
  · exact keeps_pure _
  · refine keeps_kmalloc fun c b hne => ?_
    refine triple_bind (triple_scanDir g _ false (deleteFileVerdict filename) fuel 0 c b hne)
      fun r => ?_
    refine triple_assume fun hr => ?_
    cases r with
    | hit i k b' =>
      simp only
      split
      · refine triple_done c b' (keeps_bind (keeps_kprint _) fun _ => ?_)
        exact keeps_bind (keeps_kfree b') fun _ => keeps_pure _
      · exact triple_deleteFound g fuel i k (hr.2 i k b' rfl) c b' _ hE hS
    | stop b' =>
      refine triple_done c b' (keeps_bind (keeps_kfree b') fun _ => ?_)
      exact keeps_bind (keeps_kprint _) fun _ => keeps_pure _
    | through b' =>
      refine triple_done c b' (keeps_bind (keeps_kfree b') fun _ => ?_)
      exact keeps_bind (keeps_kprint _) fun _ => keeps_pure _

theorem keeps_fatDeleteDir (fuel : ℕ) (dirname : List UInt8)
    (hE : ∀ w, SetsEntry g 0x0000 w → A w) (hS : ∀ w, SetsSlot markDeleted w → A w) :
    Keeps A junk fails (fatDeleteDir g fuel dirname) := by
  rw [fatDeleteDir]
  split
  · exact keeps_pure _
  · refine keeps_kmalloc fun c b hne => ?_
    refine triple_bind (triple_scanDir g _ false (deleteDirVerdict dirname) fuel 0 c b hne)
      fun r => ?_
    refine triple_assume fun hr => ?_
    cases r with
    | hit i k b' =>
      simp only
      split
      · refine triple_done c b' (keeps_bind (keeps_kprint _) fun _ => ?_)
        exact keeps_bind (keeps_kfree b') fun _ => keeps_pure _
      · refine triple_bind (triple_keeps c b' (keeps_fatIsDirEmpty g fuel _)) fun empty => ?_
        split
        · refine triple_done c b' (keeps_bind (keeps_kprint _) fun _ => ?_)
          exact keeps_bind (keeps_kfree b') fun _ => keeps_pure _
        · exact triple_deleteFound g fuel i k (hr.2 i k b' rfl) c b' _ hE hS
    | stop b' =>
      refine triple_done c b' (keeps_bind (keeps_kfree b') fun _ => ?_)
      exact keeps_bind (keeps_kprint _) fun _ => keeps_pure _
    | through b' =>
      refine triple_done c b' (keeps_bind (keeps_kfree b') fun _ => ?_)
      exact keeps_bind (keeps_kprint _) fun _ => keeps_pure _

end Functions

/-! ### The main theorem -/

/-- The operations that write to the disk. -/
def IsWriter : Operation → Prop
  | .fatWriteFatEntry _ _ => True
  | .fatAllocateCluster => True
  | .fatCreateEntry _ _ _ _ => True
  | .fatFreeClusterChain _ => True
  | .fatDeleteFile _ => True
  | .fatDeleteDir _ => True
  | _ => False

theorem keeps_code {junk : ℕ → Sector} {fails : ℕ → Bool} (g : Globals) (fuel : ℕ) (op : Operation)
    (hop : IsWriter op) : Keeps (Allowed g op) junk fails (op.code g fuel) := by
  cases op with
  | fatWriteFatEntry cluster value =>
    exact keeps_fatWriteFatEntry g cluster value fun w hl ha => ⟨hl, ha⟩
  | fatAllocateCluster =>
    exact keeps_bind (keeps_fatAllocateCluster g fun w hw => hw) fun _ => keeps_pure _
  | fatCreateEntry filename attr cluster size =>
    exact keeps_bind (keeps_fatCreateEntry g fuel filename attr cluster size fun w hw => hw)
      fun _ => keeps_pure _
  | fatFreeClusterChain cluster => exact keeps_fatFreeClusterChain g (fun w hw => hw) fuel cluster
  | fatDeleteFile filename =>
    exact keeps_bind (keeps_fatDeleteFile g fuel filename (fun w hw => Or.inl hw)
      fun w hw => Or.inr hw) fun _ => keeps_pure _
  | fatDeleteDir dirname =>
    exact keeps_bind (keeps_fatDeleteDir g fuel dirname (fun w hw => Or.inl hw)
      fun w hw => Or.inr hw) fun _ => keeps_pure _
  | _ => exact hop.elim

/-- Every fresh write of a run is allowed. -/
theorem fresh_allowed {junk : ℕ → Sector} {fails : ℕ → Bool} {g : Globals} {fuel : ℕ} {d : Disk}
    {op : Operation} (hop : IsWriter op) {r : Unit × Machine}
    (hr : (op.code g fuel).run (flaky junk fails) (start d) = some r) :
    ∀ w ∈ r.2.log, w.fresh = true → Allowed g op w := by
  have hstart : Inv (Allowed g op) ⟨0, fun _ => 0⟩ (start d) := by
    refine ⟨fun w hw => ?_, Nat.zero_le _, fun lba hl => ?_⟩
    · cases hw
    · cases hl
  exact (keeps_code g fuel op hop _ (start d) r hstart hr).1

section Entry

variable (junk : ℕ → Sector) (fails : ℕ → Bool) (g : Globals) (fuel : ℕ) (d : Disk)
  (cluster value : UInt16)

/-- The one write of `fat_write_fat_entry`, for a failed and for a successful read. -/
def entryWrite : Write where
  lba := fatSector g cluster
  before := d.get (fatSector g cluster)
  after := putU16 (if fails 0 then junk 0 else d.get (fatSector g cluster)) (entOffset cluster) value
  fresh := !fails 0

theorem run_fatWriteFatEntry :
    (((Operation.fatWriteFatEntry cluster value).code g fuel).run (flaky junk fails) (start d)).map
      (fun r => r.2.log) = some [entryWrite junk fails g d cluster value] := by
  cases h : fails 0 with
  | true =>
    simp only [Operation.code, fatWriteFatEntry, Ata.kmalloc, ataReadSector, ataWriteSector, Ata.kfree,
      run_bind, run_perform, run_pure, flaky, start, h, if_true, Option.bind_some, Option.map_some,
      entryWrite, Bool.not_true]
    rfl
  | false =>
    simp only [Operation.code, fatWriteFatEntry, Ata.kmalloc, ataReadSector, ataWriteSector, Ata.kfree,
      run_bind, run_perform, run_pure, flaky, start, h, Option.bind_some, Option.map_some,
      entryWrite, Bool.not_false, Bool.false_eq_true, if_false, if_true, beq_self_eq_true]

/-- A byte the entry does not cover. -/
theorem putU16_other (s t : Sector) {off : ℕ} {v : UInt16} (h : putU16 s off v = putU16 t off v)
    (i : Fin 512) (hi : i.val ≠ off ∧ i.val ≠ off + 1) : s i = t i := by
  have := congrFun h i
  simp only [putU16, if_neg hi.1, if_neg hi.2] at this
  exact this

/-- **For a FAT entry the condition is exact**: whatever the block held before, the write is allowed
exactly if the read did not fail. -/
theorem entry_write_allowed_iff :
    (∀ junk r, ((Operation.fatWriteFatEntry cluster value).code g fuel).run (flaky junk fails) (start d)
        = some r → ∀ w ∈ r.2.log, Allowed g (.fatWriteFatEntry cluster value) w) ↔
      fails 0 = false := by
  refine ⟨fun hall => ?_, fun hok junk r hr w hw => ?_⟩
  · by_contra hfail
    rw [Bool.not_eq_false] at hfail
    -- a block that differs from the sector in every byte
    have hrun := run_fatWriteFatEntry (fun _ i => d.get (fatSector g cluster) i + 1) fails g fuel d
      cluster value
    obtain ⟨r, hr, hlog⟩ := Option.map_eq_some_iff.mp hrun
    have hw := hall _ r hr _ (by rw [hlog]; exact List.mem_singleton_self _)
    have heq : putU16 (fun i => d.get (fatSector g cluster) i + 1) (entOffset cluster) value =
        putU16 (d.get (fatSector g cluster)) (entOffset cluster) value := by
      have := hw.2
      simp only [entryWrite, hfail, if_true] at this
      exact this
    have hne : ∀ x : UInt8, x + 1 ≠ x := by
      intro x hx
      have hlt := UInt8.toNat_lt x
      have hnat := congrArg UInt8.toNat hx
      rw [UInt8.toNat_add, show (1 : UInt8).toNat = 1 from rfl] at hnat
      omega
    by_cases hoff : entOffset cluster = 0
    · exact hne _ (putU16_other _ _ heq ⟨2, by decide⟩ (by rw [hoff]; decide))
    · refine hne _ (putU16_other _ _ heq ⟨0, by decide⟩ ⟨Ne.symm hoff, ?_⟩)
      simp
  · have hrun := run_fatWriteFatEntry junk fails g fuel d cluster value
    rw [hr, Option.map_some, Option.some.injEq] at hrun
    rw [hrun, List.mem_singleton] at hw
    rw [hw]
    refine ⟨rfl, ?_⟩
    simp only [entryWrite, hok]
    rfl

end Entry

/-- **A failed read spares the disk where nothing it left unread is written back.**  For every disk,
every operation that writes and every pattern of failing reads: if every sector the operation writes comes
from a buffer that was filled by a successful read of that very sector, not written since, each of them
changes in the FAT entry or directory slot being updated and nowhere else.  For a single FAT entry that is
so, whatever the buffer held before, exactly if its one read succeeds. -/
theorem fresh_writes_allowed (fails : ℕ → Bool) (g : Globals) (fuel : ℕ) (d : Disk) :
    (∀ junk op, IsWriter op → ∀ r, (op.code g fuel).run (flaky junk fails) (start d) = some r →
      (∀ w ∈ r.2.log, w.fresh = true) → ∀ w ∈ r.2.log, Allowed g op w) ∧
    ∀ cluster value,
      (∀ junk r, ((Operation.fatWriteFatEntry cluster value).code g fuel).run (flaky junk fails)
          (start d) = some r → ∀ w ∈ r.2.log, Allowed g (.fatWriteFatEntry cluster value) w) ↔
        fails 0 = false := by
  refine ⟨?_, ?_⟩
  · intro junk op hop r hr hfresh w hw
    exact fresh_allowed hop hr w hw (hfresh w hw)
  · intro cluster value
    exact entry_write_allowed_iff fails g fuel d cluster value

/-- The first read fails, and the others do not. -/
def firstFails (n : ℕ) : Bool := n == 0

/-- Creating a file on an empty volume with two sectors of root directory, the first of which is not read: its
slots look taken, and the entry goes to the second sector. -/
theorem create_entry_writes_allowed :
    ∃ r, ((Operation.fatCreateEntry (text "A") 0x20 0 0).code twoSectorRoot 2).run
        (flaky (fun _ _ => 0xAA) firstFails) (start fun _ _ => 0) = some r ∧
      r.2.log.map Write.lba = [3] ∧
        ∀ w ∈ r.2.log, Allowed twoSectorRoot (.fatCreateEntry (text "A") 0x20 0 0) w := by
  have hlog : (((Operation.fatCreateEntry (text "A") 0x20 0 0).code twoSectorRoot 2).run
      (flaky (fun _ _ => 0xAA) firstFails) (start fun _ _ => 0)).map
        (fun r => (r.2.log.map Write.lba, r.2.log.map Write.fresh)) = some ([3], [true]) := by decide
  obtain ⟨r, hr, hboth⟩ := Option.map_eq_some_iff.mp hlog
  obtain ⟨hlba, hfresh⟩ := Prod.mk.inj hboth
  refine ⟨r, hr, hlba, (fresh_writes_allowed firstFails twoSectorRoot 2 (fun _ _ => 0)).1 _
    (.fatCreateEntry (text "A") 0x20 0 0) trivial r hr ?_⟩
  intro w hw
  have hmem := List.mem_map_of_mem (f := Write.fresh) hw
  rw [hfresh] at hmem
  exact List.mem_singleton.mp hmem

/-- Marking cluster 2 as an end of chain with the read failing: the FAT sector, all zero before, is
filled with what the heap block held. -/
theorem failed_read_overwrites_fat :
    ¬ ∀ r, ((Operation.fatWriteFatEntry 2 0xFFFF).code twoSectorRoot 2).run
        (flaky (fun _ _ => 0xAA) fun _ => true) (start fun _ _ => 0) = some r →
      ∀ w ∈ r.2.log, Allowed twoSectorRoot (.fatWriteFatEntry 2 0xFFFF) w := by
  intro hall
  have hrun := run_fatWriteFatEntry (fun _ _ => 0xAA) (fun _ => true) twoSectorRoot 2 (fun _ _ => 0)
    2 0xFFFF
  obtain ⟨r, hr, hlog⟩ := Option.map_eq_some_iff.mp hrun
  have hw := hall r hr _ (by rw [hlog]; exact List.mem_singleton_self _)
  have hbyte := putU16_other _ _ hw.2 ⟨0, by decide⟩ (by decide)
  exact absurd hbyte (by decide)

end OsEojin.ReadFailure
