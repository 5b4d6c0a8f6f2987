import OsEojin.FatCalls

/-!
# FAT operations on an exhausted heap

Some functions of `fat.c` test the buffer they get from `kmalloc`, some do not.  Here the allocator may
return null at any call; a transfer through a null buffer is where the model stops, since what the code
does from there on depends on what it finds at address 0.

* `oom`: the handler, for an arbitrary pattern of failing calls;
* `Handled`: the operation returns, writes nothing after the failure and does all or nothing;
* `Strict`: code that comes back only if it did not reach the failing call;
* `checkedCall`: the one call of each operation whose answer is tested, or never used;
* `exhaustion_handled_iff`: the failure is handled exactly if it strikes that call.
-/

namespace OsEojin.HeapExhaustion

open OsEojin.Lib.Programs OsEojin.Lib.Programs.Program OsEojin.Ata OsEojin.Fat

/-- The disk, the number of allocations, whether one failed, and the writes since. -/
structure Machine where
  disk : Disk
  allocations : ℕ
  failed : Bool
  lateWrites : ℕ

/-- The machine at the start of an operation. -/
def start (d : Disk) : Machine := ⟨d, 0, false, 0⟩

/-- **The failing allocator**: call number `n` of `kmalloc` returns null where `fails n`.  The run stops
at a transfer through a null buffer. -/
def oom (junk : ℕ → Sector) (fails : ℕ → Bool) : (o : Call) → Machine → Option (o.Res × Machine)
  | .kmalloc _, m =>
    if fails m.allocations then
      some (⟨0, junk m.allocations⟩, { m with allocations := m.allocations + 1, failed := true })
    else some (freshBlock (junk m.allocations), { m with allocations := m.allocations + 1 })
  | .kfree _, m => some ((), m)
  | .ataReadSector lba b, m => if b.ptr = 0 then none else some (m.disk.get lba, m)
  | .ataWriteSector lba b, m =>
    if b.ptr = 0 then none
    else some ((), { m with
      disk := m.disk.put lba b.data
      lateWrites := if m.failed then m.lateWrites + 1 else m.lateWrites })
  | .kprint _, m => some ((), m)
  | .clearScreen, m => some ((), m)
  | .printMemoryMap, m => some ((), m)
  | .pmmAllocBlock, m => some (0, m)
  | .outw _ _, m => some ((), m)
  | .divideError, _ => none

/-- The pattern of an allocator with room for every call. -/
def never : ℕ → Bool := fun _ => false

/-- **The failure is handled**: the operation comes back without a transfer through a null buffer, has
written nothing since the failure, and has done nothing at all or everything it does on a heap with
room. -/
def Handled (junk : ℕ → Sector) (fails : ℕ → Bool) (g : Globals) (fuel : ℕ) (d : Disk)
    (op : Operation) : Prop :=
  ∃ r, (op.code g fuel).run (oom junk fails) (start d) = some r ∧ r.2.lateWrites = 0 ∧
    (r.2.disk = d ∨ ∃ q, (op.code g fuel).run (oom junk never) (start d) = some q ∧
      r.2.disk = q.2.disk)

/-- Call number `n` is the first to fail. -/
def FirstFailure (fails : ℕ → Bool) (n : ℕ) : Prop := fails n = true ∧ ∀ j, j < n → fails j = false

/-! ### Before the failure -/

section Before

variable {α β : Type} {junk : ℕ → Sector} {fails : ℕ → Bool} {n : ℕ}

theorem allocations_le {p : Kernel α} {m : Machine} {r : α × Machine}
    (hr : p.run (oom junk fails) m = some r) : m.allocations ≤ r.2.allocations := by
  refine (calls_true p).run_relates (T := fun s t => s.allocations ≤ t.allocations)
    (fun _ => le_rfl) (fun _ _ _ => Nat.le_trans) ?_ hr
  intro o s q _ hq
  cases o with
  | kmalloc size =>
    simp only [oom] at hq
    split at hq
    · rw [← Option.some.inj hq]
      exact Nat.le_succ _
    · rw [← Option.some.inj hq]
      exact Nat.le_succ _
  | ataReadSector lba b =>
    simp only [oom] at hq
    split at hq
    · cases hq
    · rw [← Option.some.inj hq]
  | ataWriteSector lba b =>
    simp only [oom] at hq
    split at hq
    · cases hq
    · rw [← Option.some.inj hq]
  | divideError => cases hq
  | _ => rw [← Option.some.inj hq]

/-- A call made before the failing one is answered alike by every allocator that works so far. -/
theorem oom_agree {fails' : ℕ → Bool} (h : ∀ j, j < n → fails j = false)
    (h' : ∀ j, j < n → fails' j = false) {o : Call} {m : Machine} {q : o.Res × Machine}
    (hq : oom junk fails o m = some q) (hn : q.2.allocations ≤ n) :
    oom junk fails' o m = some q := by
  cases o with
  | kmalloc size =>
    have hle : m.allocations + 1 ≤ n := by
      simp only [oom] at hq
      split at hq
      · rw [← Option.some.inj hq] at hn
        exact hn
      · rw [← Option.some.inj hq] at hn
        exact hn
    simp only [oom, h _ hle, h' _ hle] at hq ⊢
    exact hq
  | _ => exact hq

/-- **So is a whole program** that comes back without having reached it. -/
theorem run_agree {fails' : ℕ → Bool} (h : ∀ j, j < n → fails j = false)
    (h' : ∀ j, j < n → fails' j = false) {p : Kernel α} {m : Machine} {r : α × Machine}
    (hr : p.run (oom junk fails) m = some r) (hn : r.2.allocations ≤ n) :
    p.run (oom junk fails') m = some r := by
  induction p generalizing m with
  | ret a => exact hr
  | call o k ih =>
    obtain ⟨q, hq, hrest⟩ := Option.bind_eq_some_iff.mp hr
    have hle : q.2.allocations ≤ n := Nat.le_trans (allocations_le hrest) hn
    exact Option.bind_eq_some_iff.mpr ⟨q, oom_agree h h' hq hle, ih q.1 hrest⟩
  | hang => cases hr

end Before

/-! ### Code that does not survive the failure -/

section Strictness

variable {α β : Type} (junk : ℕ → Sector) (fails : ℕ → Bool) (n : ℕ)

/-- **Strict code** comes back only if it did not reach the failing call. -/
def Strict (p : Kernel α) : Prop :=
  Triple (oom junk fails) (fun m => m.allocations ≤ n) p fun _ m => m.allocations ≤ n

/-- Code that never comes back: it transfers a sector through a null buffer. -/
def Dead (p : Kernel α) : Prop := ∀ m, p.run (oom junk fails) m = none

variable {junk fails n}

theorem strict_pure (a : α) : Strict junk fails n (pure a) := triple_pure fun _ h => h

theorem Strict.weaken {p : Kernel α} (hp : Strict junk fails n p) :
    Triple (oom junk fails) (fun m => m.allocations < n) p fun _ m => m.allocations ≤ n :=
  hp.consequence (fun _ => Nat.le_of_lt) fun _ _ => id

theorem strict_hang : Strict junk fails n (.hang : Kernel α) := triple_hang

theorem Dead.strict {p : Kernel α} (hp : Dead junk fails p) : Strict junk fails n p := by
  intro m r _ hr
  rw [hp m] at hr
  cases hr

theorem dead_divideError : Dead junk fails (divideError : Kernel α) := fun _ => rfl

theorem strict_bind {p : Kernel α} {f : α → Kernel β} (hp : Strict junk fails n p)
    (hf : ∀ a, Strict junk fails n (f a)) : Strict junk fails n (p >>= f) := triple_bind hp hf

theorem dead_bind {p : Kernel α} {f : α → Kernel β} (hp : Dead junk fails p) :
    Dead junk fails (p >>= f) := by
  intro m
  rw [run_bind, hp m, Option.bind_none]

/-- Calls other than `kmalloc` are strict. -/
theorem strict_perform {o : Call} (ho : ∀ size, o ≠ .kmalloc size) :
    Strict junk fails n (perform o) := by
  refine triple_perform ?_
  intro m r hm hr
  cases o with
  | kmalloc size => exact absurd rfl (ho size)
  | ataReadSector lba b =>
    simp only [oom] at hr
    split at hr
    · cases hr
    · rw [← Option.some.inj hr]
      exact hm
  | ataWriteSector lba b =>
    simp only [oom] at hr
    split at hr
    · cases hr
    · rw [← Option.some.inj hr]
      exact hm
  | divideError => cases hr
  | _ =>
    rw [← Option.some.inj hr]
    exact hm

theorem strict_kprint (message : List UInt8) : Strict junk fails n (kprint message) :=
  strict_perform (by simp)

theorem strict_print (message : List UInt8) {k : Unit → Kernel α}
    (hk : Strict junk fails n (k ())) : Strict junk fails n (kprint message >>= k) :=
  strict_bind (strict_kprint message) fun _ => hk

/-- Code that only prints. -/
theorem strict_of_prints {p : Kernel α} (hp : Calls IsPrint p) : Strict junk fails n p := by
  intro m r hm hr
  rw [hp.run_keeps (V := Machine.allocations) ?_ hr]
  · exact hm
  · intro o s q ho hq
    obtain ⟨message, rfl⟩ := ho
    rw [← Option.some.inj hq]

theorem strict_kfree (b : Buffer) : Strict junk fails n (Ata.kfree b) := strict_perform (by simp)

theorem strict_ataWriteSector (lba : ℕ) (b : Buffer) :
    Strict junk fails n (ataWriteSector lba b) := strict_perform (by simp)

theorem strict_ataReadSector (lba : ℕ) (b : Buffer) : Strict junk fails n (ataReadSector lba b) :=
  strict_bind (strict_perform (by simp)) fun _ => strict_pure _

/-- A read into a null buffer is where the run stops. -/
theorem dead_ataReadSector (lba : ℕ) {b : Buffer} (hb : b.ptr = 0) :
    Dead junk fails (ataReadSector lba b) := by
  refine dead_bind fun m => ?_
  rw [run_perform]
  exact if_pos hb

theorem run_kmalloc_null {m : Machine} (hm : fails m.allocations = true) (k : Buffer → Kernel α) :
    (Ata.kmalloc 512 >>= k).run (oom junk fails) m = (k ⟨0, junk m.allocations⟩).run (oom junk fails)
      { m with allocations := m.allocations + 1, failed := true } := by
  rw [run_bind, Ata.kmalloc, run_perform, oom, if_pos hm]
  rfl

theorem run_kmalloc_room {m : Machine} (hm : fails m.allocations = false) (k : Buffer → Kernel α) :
    (Ata.kmalloc 512 >>= k).run (oom junk fails) m = (k (freshBlock (junk m.allocations))).run
      (oom junk fails) { m with allocations := m.allocations + 1 } := by
  rw [run_bind, Ata.kmalloc, run_perform, oom, if_neg (by rw [hm]; decide)]
  rfl

/-- With a call to spare the buffer is not null. -/
theorem triple_kmalloc (h : FirstFailure fails n) {k : Buffer → Kernel α}
    (hk : ∀ b : Buffer, b.ptr ≠ 0 → Strict junk fails n (k b)) :
    Triple (oom junk fails) (fun m => m.allocations < n) (Ata.kmalloc 512 >>= k)
      fun _ m => m.allocations ≤ n := by
  intro m r hm hr
  rw [run_kmalloc_room (h.2 _ hm)] at hr
  refine hk _ (by simp) _ r ?_ hr
  exact hm

/-- **A buffer that is used unchecked** makes the code strict. -/
theorem strict_kmalloc (h : FirstFailure fails n) {k : Buffer → Kernel α}
    (hdead : ∀ b : Buffer, b.ptr = 0 → Dead junk fails (k b))
    (hk : ∀ b : Buffer, b.ptr ≠ 0 → Strict junk fails n (k b)) :
    Strict junk fails n (Ata.kmalloc 512 >>= k) := by
  intro m r hm hr
  by_cases hlt : m.allocations < n
  · exact triple_kmalloc h hk m r hlt hr
  · have heq : m.allocations = n := by omega
    rw [run_kmalloc_null (by rw [heq]; exact h.1), hdead _ rfl] at hr
    cases hr

end Strictness

/-! ### The functions of `fat.c` -/

section Functions

variable {junk : ℕ → Sector} {fails : ℕ → Bool} {n : ℕ} (h : FirstFailure fails n) (g : Globals)

include h

theorem strict_fatNextCluster (cluster : UInt16) :
    Strict junk fails n (fatNextCluster g cluster) := by
  refine strict_kmalloc h (fun b hb => dead_bind (dead_ataReadSector _ hb)) fun b _ => ?_
  refine strict_bind (strict_ataReadSector _ b) fun b' => ?_
  exact strict_bind (strict_kfree b') fun _ => strict_pure _

theorem strict_fatWriteFatEntry (cluster value : UInt16) :
    Strict junk fails n (fatWriteFatEntry g cluster value) := by
  refine strict_kmalloc h (fun b hb => dead_bind (dead_ataReadSector _ hb)) fun b _ => ?_
  refine strict_bind (strict_ataReadSector _ b) fun b' => ?_
  exact strict_bind (strict_ataWriteSector _ _) fun _ => strict_kfree _

theorem strict_allocLoop (k : ℕ) : ∀ i (b : Buffer), Strict junk fails n (allocLoop g k i b) := by
  induction k with
  | zero =>
    intro i b
    exact strict_bind (strict_kfree b) fun _ => strict_pure _
  | succ k ih =>
    intro i b
    refine strict_bind (strict_ataReadSector _ b) fun b' => ?_
    cases allocInSector b'.data i 256 0 with
    | some cluster =>
      refine strict_bind (strict_fatWriteFatEntry h g cluster 0xFFFF) fun _ => ?_
      exact strict_bind (strict_kfree b') fun _ => strict_pure _
    | none => exact ih (i + 1) b'

theorem strict_dirClusterLoop (k : ℕ) : ∀ curr, Strict junk fails n (dirClusterLoop g k curr) := by
  induction k with
  | zero =>
    intro curr
    rw [dirClusterLoop]
    split
    · exact strict_pure _
    · exact strict_pure _
  | succ k ih =>
    intro curr
    rw [dirClusterLoop]
    split
    · exact strict_pure _
    · exact strict_bind (strict_fatNextCluster h g curr) ih

theorem strict_followLinks (k : ℕ) : ∀ curr, Strict junk fails n (followLinks g k curr) := by
  induction k with
  | zero =>
    intro curr
    exact strict_pure _
  | succ k ih =>
    intro curr
    exact strict_bind (strict_fatNextCluster h g curr) ih

theorem strict_writeBackLba (i : ℕ) : Strict junk fails n (writeBackLba g i) := by
  rw [writeBackLba]
  split
  · exact strict_pure _
  · simp only
    split
    · exact dead_divideError.strict
    · exact strict_bind (strict_followLinks h g _ _) fun _ => strict_pure _

theorem strict_fatReadDirSector (c : UInt16) (i : ℕ) (b : Buffer) :
    Strict junk fails n (fatReadDirSector g c i b) := by
  have hread : ∀ lba, Strict junk fails n (do let b ← ataReadSector lba b; pure (some b)) :=
    fun lba => strict_bind (strict_ataReadSector lba b) fun _ => strict_pure _
  rw [fatReadDirSector]
  split
  · split
    · exact dead_divideError.strict
    · split
      · exact strict_pure _
      · exact hread _
  · simp only
    split
    · exact dead_divideError.strict
    · refine strict_bind (strict_dirClusterLoop h g _ c) fun r => ?_
      cases r with
      | none => exact strict_pure _
      | some curr => exact hread _

theorem strict_scanDir (c : UInt16) (e : Bool) (v : DirEntry → Verdict) (fuel : ℕ) :
    ∀ i (b : Buffer), Strict junk fails n (scanDir g c e v fuel i b) := by
  induction fuel with
  | zero =>
    intro i b
    exact strict_hang
  | succ fuel ih =>
    intro i b
    refine strict_bind (strict_fatReadDirSector h g c i b) fun r => ?_
    cases r with
    | none => exact strict_pure _
    | some b' =>
      simp only
      split
      · exact strict_pure _
      · exact ih (i + 1) b'
      · split
        · exact strict_pure _
        · exact ih (i + 1) b'

theorem strict_listLoop (fuel : ℕ) : ∀ i (b : Buffer), Strict junk fails n (listLoop g fuel i b) := by
  induction fuel with
  | zero =>
    intro i b
    exact strict_hang
  | succ fuel ih =>
    intro i b
    refine strict_bind (strict_fatReadDirSector h g _ i b) fun r => ?_
    cases r with
    | none => exact strict_kfree b
    | some b' =>
      refine strict_bind (strict_of_prints (calls_listSector b'.data 16 0)) fun last => ?_
      cases last with
      | true => exact strict_kfree b'
      | false => exact ih (i + 1) b'

theorem strict_freeLoop (fuel : ℕ) : ∀ curr, Strict junk fails n (freeLoop g fuel curr) := by
  induction fuel with
  | zero =>
    intro curr
    exact strict_hang
  | succ fuel ih =>
    intro curr
    rw [freeLoop]
    split
    · refine strict_bind (strict_fatNextCluster h g curr) fun next => ?_
      exact strict_bind (strict_fatWriteFatEntry h g curr 0x0000) fun _ => ih next
    · exact strict_pure _

theorem strict_fatFreeClusterChain (fuel : ℕ) (cluster : UInt16) :
    Strict junk fails n (fatFreeClusterChain g fuel cluster) := by
  rw [fatFreeClusterChain]
  split
  · exact strict_pure _
  · exact strict_freeLoop h g fuel cluster

theorem strict_deleteFound (fuel i k : ℕ) (b : Buffer) (message : String) :
    Strict junk fails n (deleteFound g fuel i k b message) := by
  refine strict_bind (strict_writeBackLba h g i) fun lba => ?_
  refine strict_bind (strict_fatFreeClusterChain h g fuel _) fun _ => ?_
  refine strict_bind (strict_ataWriteSector lba _) fun _ => ?_
  refine strict_bind (strict_kfree _) fun _ => ?_
  exact strict_bind (strict_kprint _) fun _ => strict_pure _

/-! With a call to spare at the start, only what follows the first buffer can meet the failure. -/

theorem triple_fatInit : Triple (oom junk fails) (fun m => m.allocations < n) (fatInit g)
    fun _ m => m.allocations ≤ n := by
  refine triple_kmalloc h fun b h0 => ?_
  rw [if_neg h0]
  refine strict_bind (strict_ataReadSector 0 b) fun b' => ?_
  refine strict_print _ (strict_print _ (strict_bind (strict_of_prints (calls_prints _)) fun _ => ?_))
  repeat refine strict_print _ ?_
  split
  · exact dead_divideError.strict
  · repeat refine strict_print _ ?_
    exact strict_bind (strict_kfree b') fun _ => strict_pure _

theorem triple_fatList (fuel : ℕ) :
    Triple (oom junk fails) (fun m => m.allocations < n) (fatList g fuel)
      fun _ m => m.allocations ≤ n := by
  rw [fatList]
  split
  · exact Strict.weaken (strict_kprint _)
  · refine triple_kmalloc h fun b h0 => ?_
    rw [if_neg h0]
    exact strict_print _ (strict_print _ (strict_listLoop h g fuel 0 b))

theorem triple_fatFindFile (fuel : ℕ) (filename : List UInt8) :
    Triple (oom junk fails) (fun m => m.allocations < n) (fatFindFile g fuel filename)
      fun _ m => m.allocations ≤ n := by
  rw [fatFindFile]
  split
  · exact Strict.weaken (strict_print _ (strict_pure _))
  · refine triple_kmalloc h fun b h0 => ?_
    rw [if_neg h0]
    refine strict_bind (strict_scanDir h g _ true (findVerdict filename) fuel 0 b) fun r => ?_
    cases r with
    | hit i k b' => exact strict_bind (strict_kfree b') fun _ => strict_pure _
    | stop b' => exact strict_bind (strict_kfree b') fun _ => strict_pure _
    | through b' => exact strict_bind (strict_kfree b') fun _ => strict_pure _

theorem triple_fatChangeDir (fuel : ℕ) (dirname : List UInt8) :
    Triple (oom junk fails) (fun m => m.allocations < n) (fatChangeDir g fuel dirname)
      fun _ m => m.allocations ≤ n := by
  rw [fatChangeDir]
  split
  · exact Strict.weaken (strict_print _ (strict_pure _))
  · refine triple_bind (triple_fatFindFile h g fuel dirname) fun r => ?_
    cases r with
    | none => exact strict_print _ (strict_pure _)
    | some entry =>
      simp only
      split
      · exact strict_print _ (strict_pure _)
      · exact strict_print _ (strict_pure _)

theorem triple_fatAllocateCluster :
    Triple (oom junk fails) (fun m => m.allocations < n) (fatAllocateCluster g)
      fun _ m => m.allocations ≤ n :=
  triple_kmalloc h fun b _ => strict_allocLoop h g _ 0 b

theorem triple_fatCreateEntry (fuel : ℕ) (filename : List UInt8) (attr : UInt8) (cluster : UInt16)
    (size : ℕ) :
    Triple (oom junk fails) (fun m => m.allocations < n)
      (fatCreateEntry g fuel filename attr cluster size) fun _ m => m.allocations ≤ n := by
  rw [fatCreateEntry]
  split
  · exact Strict.weaken (strict_pure _)
  · refine triple_kmalloc h fun b _ => ?_
    refine strict_bind (strict_scanDir h g _ false freeVerdict fuel 0 b) fun r => ?_
    cases r with
    | hit i k b' =>
      refine strict_bind (strict_writeBackLba h g i) fun lba => ?_
      refine strict_bind (strict_ataWriteSector lba _) fun _ => ?_
      refine strict_bind (strict_kfree _) fun _ => ?_
      exact strict_print _ (strict_print _ (strict_print _ (strict_pure _)))
    | stop b' => exact strict_bind (strict_kfree b') fun _ => strict_print _ (strict_pure _)
    | through b' => exact strict_bind (strict_kfree b') fun _ => strict_print _ (strict_pure _)

theorem triple_fatIsDirEmpty (fuel : ℕ) (cluster : UInt16) :
    Triple (oom junk fails) (fun m => m.allocations < n) (fatIsDirEmpty g fuel cluster)
      fun _ m => m.allocations ≤ n := by
  refine triple_kmalloc h fun b h0 => ?_
  rw [if_neg h0]
  refine strict_bind (strict_scanDir h g cluster true emptyVerdict fuel 0 b) fun r => ?_
  cases r with
  | hit i k b' => exact strict_bind (strict_kfree b') fun _ => strict_pure _
  | stop b' => exact strict_bind (strict_kfree b') fun _ => strict_pure _
  | through b' => exact strict_bind (strict_kfree b') fun _ => strict_pure _

theorem triple_fatDeleteFile (fuel : ℕ) (filename : List UInt8) :
    Triple (oom junk fails) (fun m => m.allocations < n) (fatDeleteFile g fuel filename)
      fun _ m => m.allocations ≤ n := by
  rw [fatDeleteFile]
  split
  · exact Strict.weaken (strict_pure _)
  · refine triple_kmalloc h fun b _ => ?_
    refine strict_bind (strict_scanDir h g _ false (deleteFileVerdict filename) fuel 0 b) fun r => ?_
    cases r with
    | hit i k b' =>
      simp only
      split
      · exact strict_print _ (strict_bind (strict_kfree b') fun _ => strict_pure _)
      · exact strict_deleteFound h g fuel i k b' _
    | stop b' => exact strict_bind (strict_kfree b') fun _ => strict_print _ (strict_pure _)
    | through b' => exact strict_bind (strict_kfree b') fun _ => strict_print _ (strict_pure _)

end Functions

/-! ### The calls whose failure is harmless -/

/-- The current directory has no sector at all, so that a buffer for it is never used. -/
def noSector (g : Globals) : Bool :=
  if g.currentDirCluster = 0 then
    g.fatInfo.bytesPerSector != 0 && g.fatInfo.rootDirSectors == 0
  else g.fatInfo.sectorsPerCluster != 0 && decide (g.currentDirCluster ≥ 0xFFF8)

/-- The search of `fat_delete_dir` for the named directory. -/
def rmdirSearch (g : Globals) (fuel : ℕ) (dirname : List UInt8) : Kernel DirScan := do
  let buffer ← kmalloc 512
  scanDir g g.currentDirCluster false (deleteDirVerdict dirname) fuel 0 buffer

/-- The number of the call that `fat_is_dir_empty` makes in `fat_delete_dir`: the calls before it are
those of the search that found the directory. -/
def emptyCheck (junk : ℕ → Sector) (g : Globals) (fuel : ℕ) (d : Disk) (dirname : List UInt8) :
    Option ℕ :=
  match (rmdirSearch g fuel dirname).run (oom junk never) (start d) with
  | some (.hit _ k b, m) => if isDirectory (entryAt b.data k) then some m.allocations else none
  | _ => none

/-- **The call whose failure is harmless**: the one buffer that `fat_init`, `fat_list`,
`fat_find_file` and `fat_is_dir_empty` test, and a buffer that nothing is read into because the FAT or the
directory has no sector. -/
def checkedCall (junk : ℕ → Sector) (g : Globals) (fuel : ℕ) (d : Disk) : Operation → Option ℕ
  | .fatInit => some 0
  | .fatList => some 0
  | .fatFindFile _ => some 0
  | .fatChangeDir _ => some 0
  | .fatIsDirEmpty _ => some 0
  | .fatAllocateCluster => if g.fatInfo.fatSize16 = 0 then some 0 else none
  | .fatCreateEntry _ _ _ _ => if noSector g then some 0 else none
  | .fatDeleteFile _ => if noSector g then some 0 else none
  | .fatDeleteDir dirname => if noSector g then some 0 else emptyCheck junk g fuel d dirname
  | .fatNextCluster _ => none
  | .fatWriteFatEntry _ _ => none
  | .fatFreeClusterChain _ => none

section Harmless

variable {junk : ℕ → Sector} {fails : ℕ → Bool} {g : Globals}

/-- A directory without sectors is through at once. -/
theorem scanDir_noSector (hg : noSector g = true) (e : Bool) (v : DirEntry → Verdict) (fuel : ℕ)
    (b : Buffer) : scanDir g g.currentDirCluster e v (fuel + 1) 0 b = pure (.through b) := by
  have hread : fatReadDirSector g g.currentDirCluster 0 b = pure none := by
    rw [noSector] at hg
    rw [fatReadDirSector]
    split at hg
    · rename_i hc
      simp only [Bool.and_eq_true, bne_iff_ne, ne_eq, beq_iff_eq] at hg
      rw [if_pos hc, if_neg hg.1, if_pos (by rw [hg.2])]
    · rename_i hc
      simp only [Bool.and_eq_true, bne_iff_ne, ne_eq, decide_eq_true_eq] at hg
      have hspc : ¬ g.fatInfo.sectorsPerCluster.toNat = 0 := by
        intro h0
        exact hg.1 (UInt8.toNat_inj.mp h0)
      simp only
      rw [if_neg hc, if_neg hspc, Nat.zero_div, dirClusterLoop, if_pos hg.2]
      rfl
  rw [scanDir, hread]
  rfl

/-- Any other directory has a first sector, and a null buffer does not survive it. -/
theorem dead_scanDir (hg : noSector g = false) (e : Bool) (v : DirEntry → Verdict) (fuel : ℕ)
    {b : Buffer} (hb : b.ptr = 0) :
    Dead junk fails (scanDir g g.currentDirCluster e v (fuel + 1) 0 b) := by
  have hdead : ∀ lba, Dead junk fails (do let b ← ataReadSector lba b; pure (some b)) :=
    fun lba => dead_bind (dead_ataReadSector lba hb)
  refine dead_bind ?_
  rw [noSector] at hg
  rw [fatReadDirSector]
  split at hg
  · rename_i hc
    rw [if_pos hc]
    split
    · exact dead_divideError
    · rename_i hbps
      rw [if_neg ?_]
      · exact hdead _
      · intro h0
        simp [hbps, Nat.le_zero.mp h0] at hg
  · rename_i hc
    simp only
    rw [if_neg hc]
    split
    · exact dead_divideError
    · rename_i hspc
      have hcurr : ¬ g.currentDirCluster ≥ 0xFFF8 := by
        intro hge
        have hspc' : g.fatInfo.sectorsPerCluster ≠ 0 := by
          intro h0
          rw [h0] at hspc
          exact hspc rfl
        simp [hspc', hge] at hg
      rw [Nat.zero_div, dirClusterLoop, if_neg hcurr]
      exact hdead _

/-- The machine right after a failed allocation. -/
def Machine.afterNull (m : Machine) : Machine :=
  { m with allocations := m.allocations + 1, failed := true }

variable {m : Machine} (hm : fails m.allocations = true)

include hm

theorem run_fatInit_null :
    (fatInit g).run (oom junk fails) m = some (g, m.afterNull) := by
  rw [fatInit, run_kmalloc_null hm, if_pos rfl]
  rfl

theorem run_fatList_null (hg : g.isFatInitialized = true) (fuel : ℕ) :
    (fatList g fuel).run (oom junk fails) m = some ((), m.afterNull) := by
  rw [fatList, if_neg (by simp [hg]), run_kmalloc_null hm, if_pos rfl]
  rfl

theorem run_fatFindFile_null (hg : g.isFatInitialized = true) (fuel : ℕ) (filename : List UInt8) :
    (fatFindFile g fuel filename).run (oom junk fails) m = some (none, m.afterNull) := by
  rw [fatFindFile, if_neg (by simp [hg]), run_kmalloc_null hm, if_pos rfl]
  rfl

theorem run_fatIsDirEmpty_null (fuel : ℕ) (cluster : UInt16) :
    (fatIsDirEmpty g fuel cluster).run (oom junk fails) m = some (false, m.afterNull) := by
  rw [fatIsDirEmpty, run_kmalloc_null hm, if_pos rfl]
  rfl

end Harmless

/-! ### Handled or not -/

/-- Call number `n` is made: with room for every call, the operation does not come back with fewer. -/
def Reached (junk : ℕ → Sector) (g : Globals) (fuel : ℕ) (d : Disk) (op : Operation) (n : ℕ) : Prop :=
  ∀ q, (op.code g fuel).run (oom junk never) (start d) = some q → n < q.2.allocations

theorem reached_of_count {junk : ℕ → Sector} {g : Globals} {fuel : ℕ} {d : Disk} {op : Operation}
    {n c : ℕ} (hc : ((op.code g fuel).run (oom junk never) (start d)).map (fun q => q.2.allocations)
      = some c) (hn : n < c) : Reached junk g fuel d op n := by
  intro q hq
  rw [hq, Option.map_some, Option.some.injEq] at hc
  rw [hc]
  exact hn

section Main

variable {junk : ℕ → Sector} {fails : ℕ → Bool} {n : ℕ} {g : Globals} {fuel : ℕ} {d : Disk}
  {op : Operation}

/-- An operation that can only return without having met the failure does not handle it. -/
theorem not_handled (h : FirstFailure fails n) (hn : Reached junk g fuel d op n)
    (hrun : ∀ r, (op.code g fuel).run (oom junk fails) (start d) = some r → r.2.allocations ≤ n) :
    ¬ Handled junk fails g fuel d op := by
  intro hh
  obtain ⟨r, hr, -, -⟩ := hh
  have hle : r.2.allocations ≤ n := hrun r hr
  have hlt : n < r.2.allocations := hn r (run_agree h.2 (fun _ _ => rfl) hr hle)
  omega

theorem not_handled_of_strict (h : FirstFailure fails n) (hn : Reached junk g fuel d op n)
    (hs : Strict junk fails n (op.code g fuel)) : ¬ Handled junk fails g fuel d op :=
  not_handled h hn fun r hr => hs (start d) r (Nat.zero_le n) hr

/-- An operation that takes the failure of its first call, and of no other. -/
theorem handled_iff_of_null (h : FirstFailure fails n) (hn : Reached junk g fuel d op n)
    (ht : Triple (oom junk fails) (fun m => m.allocations < n) (op.code g fuel)
      fun _ m => m.allocations ≤ n)
    (hnull : fails 0 = true →
      (op.code g fuel).run (oom junk fails) (start d) = some ((), (start d).afterNull)) :
    Handled junk fails g fuel d op ↔ some 0 = some n := by
  cases Nat.eq_zero_or_pos n with
  | inl hz =>
    refine ⟨fun _ => by rw [hz], fun _ => ?_⟩
    exact ⟨_, hnull (by rw [← hz]; exact h.1), rfl, Or.inl rfl⟩
  | inr hp =>
    refine ⟨fun hh => ?_, fun hc => absurd (Option.some.inj hc) (Nat.ne_of_lt hp)⟩
    exact absurd hh (not_handled h hn fun r hr => ht (start d) r hp hr)

/-- An operation that does not survive the failure of any call. -/
theorem handled_iff_of_dead (h : FirstFailure fails n) (hn : Reached junk g fuel d op n)
    (ht : Triple (oom junk fails) (fun m => m.allocations < n) (op.code g fuel)
      fun _ m => m.allocations ≤ n)
    (hdead : fails 0 = true → (op.code g fuel).run (oom junk fails) (start d) = none) :
    Handled junk fails g fuel d op ↔ (none : Option ℕ) = some n := by
  refine ⟨fun hh => ?_, fun hc => by cases hc⟩
  cases Nat.eq_zero_or_pos n with
  | inl hz =>
    obtain ⟨r, hr, -, -⟩ := hh
    rw [hdead (by rw [← hz]; exact h.1)] at hr
    cases hr
  | inr hp => exact absurd hh (not_handled h hn fun r hr => ht (start d) r hp hr)

/-- An unmounted file system makes no allocation. -/
theorem initialized_of_reached (hn : Reached junk g fuel d op n)
    (hcode : g.isFatInitialized = false →
      (op.code g fuel).run (oom junk never) (start d) = some ((), start d)) :
    g.isFatInitialized = true := by
  cases hg : g.isFatInitialized with
  | true => rfl
  | false => exact absurd (hn _ (hcode hg)) (Nat.not_lt_zero n)

/-! ### The functions that test their buffer -/

theorem handled_iff_fatInit (h : FirstFailure fails n) (hn : Reached junk g fuel d .fatInit n) :
    Handled junk fails g fuel d .fatInit ↔ some 0 = some n := by
  refine handled_iff_of_null h hn (triple_bind (triple_fatInit h g) fun _ => strict_pure _) ?_
  intro h0
  rw [Operation.code, run_bind, run_fatInit_null h0]
  rfl

theorem handled_iff_fatList (h : FirstFailure fails n) (hn : Reached junk g fuel d .fatList n) :
    Handled junk fails g fuel d .fatList ↔ some 0 = some n := by
  have hg : g.isFatInitialized = true := by
    refine initialized_of_reached hn fun hg => ?_
    rw [Operation.code, fatList, if_pos (by simp [hg])]
    rfl
  refine handled_iff_of_null h hn (triple_fatList h g fuel) fun h0 => ?_
  rw [Operation.code, run_fatList_null h0 hg]

theorem handled_iff_fatFindFile (h : FirstFailure fails n) {filename : List UInt8}
    (hn : Reached junk g fuel d (.fatFindFile filename) n) :
    Handled junk fails g fuel d (.fatFindFile filename) ↔ some 0 = some n := by
  have hg : g.isFatInitialized = true := by
    refine initialized_of_reached hn fun hg => ?_
    rw [Operation.code, fatFindFile, if_pos (by simp [hg])]
    rfl
  refine handled_iff_of_null h hn
    (triple_bind (triple_fatFindFile h g fuel filename) fun _ => strict_pure _) ?_
  intro h0
  rw [Operation.code, run_bind, run_fatFindFile_null h0 hg]
  rfl

theorem handled_iff_fatChangeDir (h : FirstFailure fails n) {dirname : List UInt8}
    (hn : Reached junk g fuel d (.fatChangeDir dirname) n) :
    Handled junk fails g fuel d (.fatChangeDir dirname) ↔ some 0 = some n := by
  have hg : g.isFatInitialized = true := by
    refine initialized_of_reached hn fun hg => ?_
    rw [Operation.code, fatChangeDir, if_pos (by simp [hg])]
    rfl
  refine handled_iff_of_null h hn
    (triple_bind (triple_fatChangeDir h g fuel dirname) fun _ => strict_pure _) ?_
  intro h0
  rw [Operation.code, run_bind, fatChangeDir, if_neg (by simp [hg]), run_bind,
    run_fatFindFile_null h0 hg]
  rfl

theorem handled_iff_fatIsDirEmpty (h : FirstFailure fails n) {cluster : UInt16}
    (hn : Reached junk g fuel d (.fatIsDirEmpty cluster) n) :
    Handled junk fails g fuel d (.fatIsDirEmpty cluster) ↔ some 0 = some n := by
  refine handled_iff_of_null h hn
    (triple_bind (triple_fatIsDirEmpty h g fuel cluster) fun _ => strict_pure _) ?_
  intro h0
  rw [Operation.code, run_bind, run_fatIsDirEmpty_null h0]
  rfl

/-! ### The functions that do not -/

theorem handled_iff_fatAllocateCluster (h : FirstFailure fails n)
    (hn : Reached junk g fuel d .fatAllocateCluster n) :
    Handled junk fails g fuel d .fatAllocateCluster ↔
      (if g.fatInfo.fatSize16 = 0 then some 0 else none) = some n := by
  have ht : Triple (oom junk fails) (fun m => m.allocations < n)
      (Operation.fatAllocateCluster.code g fuel) fun _ m => m.allocations ≤ n :=
    triple_bind (triple_fatAllocateCluster h g) fun _ => strict_pure _
  by_cases hz : g.fatInfo.fatSize16 = 0
  · rw [if_pos hz]
    refine handled_iff_of_null h hn ht fun h0 => ?_
    rw [Operation.code, fatAllocateCluster, run_bind, run_kmalloc_null h0, hz]
    rfl
  · rw [if_neg hz]
    refine handled_iff_of_dead h hn ht fun h0 => ?_
    obtain ⟨k, hk⟩ : ∃ k, g.fatInfo.fatSize16.toNat = k + 1 :=
      Nat.exists_eq_succ_of_ne_zero fun he => hz (UInt16.toNat_inj.mp he)
    rw [Operation.code, fatAllocateCluster, run_bind, run_kmalloc_null h0, hk, allocLoop,
      dead_bind (dead_ataReadSector _ rfl), Option.bind_none]

theorem handled_iff_fatCreateEntry (h : FirstFailure fails n) {filename : List UInt8} {attr : UInt8}
    {cluster : UInt16} {size : ℕ}
    (hn : Reached junk g (fuel + 1) d (.fatCreateEntry filename attr cluster size) n) :
    Handled junk fails g (fuel + 1) d (.fatCreateEntry filename attr cluster size) ↔
      (if noSector g then some 0 else none) = some n := by
  have hg : ¬ (!g.isFatInitialized) = true := by
    rw [initialized_of_reached hn fun hg => ?_]
    · decide
    · rw [Operation.code, fatCreateEntry, if_pos (by simp [hg])]
      rfl
  have ht : Triple (oom junk fails) (fun m => m.allocations < n)
      ((Operation.fatCreateEntry filename attr cluster size).code g (fuel + 1))
      fun _ m => m.allocations ≤ n :=
    triple_bind (triple_fatCreateEntry h g _ filename attr cluster size) fun _ => strict_pure _
  cases hs : noSector g with
  | true =>
    refine handled_iff_of_null h hn ht fun h0 => ?_
    rw [Operation.code, fatCreateEntry, if_neg hg, run_bind, run_kmalloc_null h0,
      scanDir_noSector hs]
    rfl
  | false =>
    refine handled_iff_of_dead h hn ht fun h0 => ?_
    rw [Operation.code, fatCreateEntry, if_neg hg, run_bind, run_kmalloc_null h0,
      dead_bind (dead_scanDir hs _ _ _ rfl), Option.bind_none]

theorem handled_iff_fatDeleteFile (h : FirstFailure fails n) {filename : List UInt8}
    (hn : Reached junk g (fuel + 1) d (.fatDeleteFile filename) n) :
    Handled junk fails g (fuel + 1) d (.fatDeleteFile filename) ↔
      (if noSector g then some 0 else none) = some n := by
  have hg : ¬ (!g.isFatInitialized) = true := by
    rw [initialized_of_reached hn fun hg => ?_]
    · decide
    · rw [Operation.code, fatDeleteFile, if_pos (by simp [hg])]
      rfl
  have ht : Triple (oom junk fails) (fun m => m.allocations < n)
      ((Operation.fatDeleteFile filename).code g (fuel + 1)) fun _ m => m.allocations ≤ n :=
    triple_bind (triple_fatDeleteFile h g _ filename) fun _ => strict_pure _
  cases hs : noSector g with
  | true =>
    refine handled_iff_of_null h hn ht fun h0 => ?_
    rw [Operation.code, fatDeleteFile, if_neg hg, run_bind, run_kmalloc_null h0,
      scanDir_noSector hs]
    rfl
  | false =>
    refine handled_iff_of_dead h hn ht fun h0 => ?_
    rw [Operation.code, fatDeleteFile, if_neg hg, run_bind, run_kmalloc_null h0,
      dead_bind (dead_scanDir hs _ _ _ rfl), Option.bind_none]

end Main

/-! ### `fat_delete_dir` -/

section Rmdir

variable {junk : ℕ → Sector} {fails : ℕ → Bool} {n : ℕ} {g : Globals} {fuel : ℕ} {d : Disk}
  {dirname : List UInt8}

/-- What `fat_delete_dir` does once the search is over. -/
def rmdirFound (g : Globals) (fuel : ℕ) : DirScan → Kernel Bool
  | .hit sectorIdx k buffer =>
    if !isDirectory (entryAt buffer.data k) then do
      kprint (text "Error: Not a directory.\n")
      kfree buffer
      pure false
    else do
      if !(← fatIsDirEmpty g fuel (entryAt buffer.data k).firstClusterLow) then
        kprint (text "Error: Directory not empty.\n")
        kfree buffer
        pure false
      else deleteFound g fuel sectorIdx k buffer "Directory deleted.\n"
  | .stop buffer => do
    kfree buffer
    kprint (text "Directory not found.\n")
    pure false
  | .through buffer => do
    kfree buffer
    kprint (text "Directory not found.\n")
    pure false

/-- The function is its search and the rest. -/
theorem run_fatDeleteDir (hg : g.isFatInitialized = true) (m : Machine) :
    ((Operation.fatDeleteDir dirname).code g fuel).run (oom junk fails) m =
      ((rmdirSearch g fuel dirname).run (oom junk fails) m).bind fun r =>
        ((rmdirFound g fuel r.1 >>= fun _ => pure ()).run (oom junk fails) r.2) := by
  rw [Operation.code, fatDeleteDir, if_neg (by simp [hg]), rmdirSearch]
  simp only [run_bind, Option.bind_assoc]
  rfl

theorem triple_rmdirSearch (h : FirstFailure fails n) :
    Triple (oom junk fails) (fun m => m.allocations < n) (rmdirSearch g fuel dirname)
      fun _ m => m.allocations ≤ n :=
  triple_kmalloc h fun b _ => strict_scanDir h g _ false _ fuel 0 b

/-- The search fetches sectors and changes nothing. -/
theorem rmdirSearch_keeps {r : DirScan × Machine}
    (hr : (rmdirSearch g fuel dirname).run (oom junk fails) (start d) = some r) :
    r.2.disk = d ∧ r.2.lateWrites = 0 := by
  have hcalls : Calls IsFetch (rmdirSearch g fuel dirname) :=
    calls_bind (calls_perform trivial) fun b =>
      calls_scanDir (fun _ => IsTransfer.isFetch) g (fun _ => trivial) false _ fuel 0 b
  have hkeep := hcalls.run_keeps (V := fun m : Machine => (m.disk, m.lateWrites)) ?_ hr
  · exact Prod.mk.inj hkeep
  · intro o s q ho hq
    cases o with
    | kmalloc size =>
      simp only [oom] at hq
      split at hq
      · rw [← Option.some.inj hq]
      · rw [← Option.some.inj hq]
    | kfree ptr => rw [← Option.some.inj hq]
    | ataReadSector lba b =>
      simp only [oom] at hq
      split at hq
      · cases hq
      · rw [← Option.some.inj hq]
    | divideError => cases hq
    | _ => exact ho.elim

/-- After a search that found no directory, the rest makes no allocation. -/
theorem strict_rmdirFound {r : DirScan}
    (hr : ∀ i k b, r = .hit i k b → isDirectory (entryAt b.data k) = false) :
    Strict junk fails n (rmdirFound g fuel r) := by
  cases r with
  | hit i k b =>
    rw [rmdirFound, hr i k b rfl]
    exact strict_print _ (strict_bind (strict_kfree b) fun _ => strict_pure _)
  | stop b => exact strict_bind (strict_kfree b) fun _ => strict_print _ (strict_pure _)
  | through b => exact strict_bind (strict_kfree b) fun _ => strict_print _ (strict_pure _)

/-- After one that did, with a call to spare, only what follows the emptiness check's buffer can meet
the failure. -/
theorem triple_rmdirFound (h : FirstFailure fails n) (r : DirScan) :
    Triple (oom junk fails) (fun m => m.allocations < n) (rmdirFound g fuel r)
      fun _ m => m.allocations ≤ n := by
  cases r with
  | hit i k b =>
    rw [rmdirFound]
    split
    · exact (strict_print _ (strict_bind (strict_kfree b) fun _ => strict_pure _)).weaken
    · refine triple_bind (triple_fatIsDirEmpty h g fuel _) fun empty => ?_
      split
      · exact strict_print _ (strict_bind (strict_kfree b) fun _ => strict_pure _)
      · exact strict_deleteFound h g fuel i k b _
  | stop b => exact (strict_rmdirFound (by simp)).weaken
  | through b => exact (strict_rmdirFound (by simp)).weaken

/-- The failing emptiness check is taken for a directory that is not empty. -/
theorem run_rmdirFound_null {m : Machine} (hm : fails m.allocations = true) {i k : ℕ} {b : Buffer}
    (hdir : isDirectory (entryAt b.data k) = true) :
    (rmdirFound g fuel (.hit i k b)).run (oom junk fails) m = some (false, m.afterNull) := by
  rw [rmdirFound, if_neg (by simp [hdir]), run_bind, run_fatIsDirEmpty_null hm]
  rfl

theorem handled_of_emptyCheck (hg : g.isFatInitialized = true) {i k : ℕ} {b : Buffer} {m : Machine}
    (hsearch : (rmdirSearch g fuel dirname).run (oom junk fails) (start d) = some (.hit i k b, m))
    (hm : fails m.allocations = true) (hdir : isDirectory (entryAt b.data k) = true) :
    Handled junk fails g fuel d (.fatDeleteDir dirname) := by
  obtain ⟨hdisk, hwrites⟩ := rmdirSearch_keeps hsearch
  refine ⟨((), m.afterNull), ?_, hwrites, Or.inl hdisk⟩
  rw [run_fatDeleteDir hg, hsearch, Option.bind_some, run_bind, run_rmdirFound_null hm hdir]
  rfl

/-- The emptiness check is never the first call. -/
theorem emptyCheck_ne_zero : emptyCheck junk g fuel d dirname ≠ some 0 := by
  intro hc
  rw [emptyCheck] at hc
  split at hc
  · rename_i i k b m hsearch
    split at hc
    · rw [rmdirSearch, run_kmalloc_room rfl] at hsearch
      have hle := allocations_le hsearch
      have h0 : m.allocations = 0 := Option.some.inj hc
      simp only [start, h0] at hle
      omega
    · cases hc
  · cases hc

/-- With the first call successful: the failure is handled exactly if it strikes the emptiness check. -/
theorem handled_iff_emptyCheck (h : FirstFailure fails n) (hp : 0 < n)
    (hg : g.isFatInitialized = true) (hn : Reached junk g fuel d (.fatDeleteDir dirname) n) :
    Handled junk fails g fuel d (.fatDeleteDir dirname) ↔
      emptyCheck junk g fuel d dirname = some n := by
  refine ⟨fun hh => ?_, fun hc => ?_⟩
  · by_contra hne
    refine not_handled h hn (fun r hr => ?_) hh
    rw [run_fatDeleteDir hg] at hr
    obtain ⟨q, hq, hrest⟩ := Option.bind_eq_some_iff.mp hr
    have hle : q.2.allocations ≤ n := triple_rmdirSearch h (start d) q hp hq
    have hperfect : (rmdirSearch g fuel dirname).run (oom junk never) (start d) = some q :=
      run_agree h.2 (fun _ _ => rfl) hq hle
    by_cases hlt : q.2.allocations < n
    · exact triple_bind (triple_rmdirFound h q.1) (fun _ => strict_pure _) q.2 r hlt hrest
    · -- the search used up the calls, so it found no directory
      refine strict_bind (strict_rmdirFound ?_) (fun _ => strict_pure _) q.2 r hle hrest
      intro i k b hb
      by_contra hdir
      rw [Bool.not_eq_false] at hdir
      obtain ⟨scan, m⟩ := q
      simp only at hb hle hlt
      rw [hb] at hperfect
      refine hne ?_
      rw [emptyCheck, hperfect]
      simp only [hdir, if_true, Option.some.injEq]
      omega
  · rw [emptyCheck] at hc
    split at hc
    · rename_i i k b m hsearch
      split at hc
      · rename_i hdir
        have hm : m.allocations = n := Option.some.inj hc
        have hsearch' := run_agree (fun _ _ => rfl) h.2 hsearch (by rw [← hm])
        exact handled_of_emptyCheck hg hsearch' (by rw [hm]; exact h.1) hdir
      · cases hc
    · cases hc

theorem handled_iff_fatDeleteDir (h : FirstFailure fails n)
    (hn : Reached junk g (fuel + 1) d (.fatDeleteDir dirname) n) :
    Handled junk fails g (fuel + 1) d (.fatDeleteDir dirname) ↔
      (if noSector g then some 0 else emptyCheck junk g (fuel + 1) d dirname) = some n := by
  have hg : g.isFatInitialized = true := by
    refine initialized_of_reached hn fun hg => ?_
    rw [Operation.code, fatDeleteDir, if_pos (by simp [hg])]
    rfl
  cases hs : noSector g with
  | true =>
    -- the one buffer is all that is ever allocated
    have hz : n = 0 := by
      have hrun : ((Operation.fatDeleteDir dirname).code g (fuel + 1)).run (oom junk never) (start d)
          = some ((), { start d with allocations := 1 }) := by
        rw [run_fatDeleteDir hg, rmdirSearch, run_kmalloc_room rfl, scanDir_noSector hs]
        rfl
      have := hn _ hrun
      simp only at this
      omega
    refine ⟨fun _ => by rw [hz]; rfl, fun _ => ?_⟩
    refine ⟨((), (start d).afterNull), ?_, rfl, Or.inl rfl⟩
    rw [run_fatDeleteDir hg, rmdirSearch, run_kmalloc_null (by rw [← h.1, hz]; rfl),
      scanDir_noSector hs]
    rfl
  | false =>
    cases Nat.eq_zero_or_pos n with
    | inl hz =>
      rw [hz]
      refine ⟨fun hh => ?_, fun hc => absurd hc emptyCheck_ne_zero⟩
      obtain ⟨r, hr, -, -⟩ := hh
      rw [run_fatDeleteDir hg, rmdirSearch, run_kmalloc_null (by rw [← h.1, hz]; rfl),
        dead_scanDir hs _ _ _ rfl] at hr
      cases hr
    | inr hp => exact handled_iff_emptyCheck h hp hg hn

end Rmdir

/-! ### The main theorem -/

/-- **Out of heap is handled at the tested buffers only.**  Whatever the disk, the operation and its
arguments: when call number `n` of `kmalloc` is the first to return null, the operation stops in time,
without a transfer through the null buffer and without a further change to the disk, exactly if `n` is
the call whose answer it tests, or never uses. -/
theorem exhaustion_handled_iff (junk : ℕ → Sector) (fails : ℕ → Bool) (g : Globals) (fuel : ℕ)
    (d : Disk) (op : Operation) (n : ℕ) (h : FirstFailure fails n)
    (hn : Reached junk g (fuel + 1) d op n) :
    Handled junk fails g (fuel + 1) d op ↔ checkedCall junk g (fuel + 1) d op = some n := by
  cases op with
  | fatInit => exact handled_iff_fatInit h hn
  | fatList => exact handled_iff_fatList h hn
  | fatFindFile filename => exact handled_iff_fatFindFile h hn
  | fatChangeDir dirname => exact handled_iff_fatChangeDir h hn
  | fatNextCluster cluster =>
    refine ⟨fun hh => absurd hh (not_handled_of_strict h hn ?_), fun hc => by cases hc⟩
    exact strict_bind (strict_fatNextCluster h g cluster) fun _ => strict_pure _
  | fatWriteFatEntry cluster value =>
    refine ⟨fun hh => absurd hh (not_handled_of_strict h hn ?_), fun hc => by cases hc⟩
    exact strict_fatWriteFatEntry h g cluster value
  | fatAllocateCluster => exact handled_iff_fatAllocateCluster h hn
  | fatCreateEntry filename attr cluster size => exact handled_iff_fatCreateEntry h hn
  | fatFreeClusterChain cluster =>
    refine ⟨fun hh => absurd hh (not_handled_of_strict h hn ?_), fun hc => by cases hc⟩
    exact strict_fatFreeClusterChain h g _ cluster
  | fatIsDirEmpty cluster => exact handled_iff_fatIsDirEmpty h hn
  | fatDeleteFile filename => exact handled_iff_fatDeleteFile h hn
  | fatDeleteDir dirname => exact handled_iff_fatDeleteDir h hn

/-- The buffer of `fat_find_file` is tested. -/
theorem find_file_exhaustion_handled :
    FirstFailure (fun _ => true) 0 ∧
      Handled (fun _ _ => 0xAA) (fun _ => true) twoSectorRoot 3 (fun _ _ => 0)
        (.fatFindFile (text "A")) := by
  have h : FirstFailure (fun _ => true) 0 := ⟨rfl, fun j hj => absurd hj (Nat.not_lt_zero j)⟩
  have hn : Reached (fun _ _ => 0xAA) twoSectorRoot 3 (fun _ _ => 0) (.fatFindFile (text "A")) 0 :=
    reached_of_count (c := 1) (by decide) (by decide)
  exact ⟨h, (exhaustion_handled_iff _ _ _ 2 _ _ 0 h hn).mpr rfl⟩

/-- A disk whose FAT holds the chain of the clusters 2 and 3. -/
def chainDisk : Disk := fun lba =>
  if lba = 1 then putU16 (putU16 (fun _ => 0) 4 3) 6 0xFFFF else fun _ => 0

/-- Freeing that chain with no room for the third buffer: cluster 2 is already free when the FAT sector
of cluster 3 is read through a null pointer. -/
theorem free_chain_not_handled :
    FirstFailure (fun i => i == 2) 2 ∧
      Reached (fun _ _ => 0xAA) twoSectorRoot 3 chainDisk (.fatFreeClusterChain 2) 2 ∧
      ¬ Handled (fun _ _ => 0xAA) (fun i => i == 2) twoSectorRoot 3 chainDisk
        (.fatFreeClusterChain 2) := by
  refine ⟨⟨rfl, ?_⟩, ?_, ?_⟩
  · intro j hj
    simp only [beq_eq_false_iff_ne]
    exact Nat.ne_of_lt hj
  · exact reached_of_count (c := 4) (by decide) (by decide)
  · intro hh
    obtain ⟨r, hr, -, -⟩ := hh
    have hnone : (((Operation.fatFreeClusterChain 2).code twoSectorRoot 3).run
        (oom (fun _ _ => 0xAA) fun i => i == 2) (start chainDisk)).isNone = true := by decide
    rw [hr] at hnone
    cases hnone

end OsEojin.HeapExhaustion
