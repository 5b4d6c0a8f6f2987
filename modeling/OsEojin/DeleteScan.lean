import OsEojin.FatUpdates
import OsEojin.FatCalls

/-!
# One name, one entry

`fat_find_file`, `fat_delete_file` and `fat_delete_dir` each search the current directory with a loop of
their own.  The loops differ in two ways: `fat_find_file` returns at the end mark where the other two leave
only the sector, and `fat_delete_dir` does not skip volume labels and long names.

* `Found.unique`, `not_found_of_scan`: a loop takes one slot or none;
* `FindAnswer`, `FileAnswer`, `DirAnswer`: what each function did, and because of which slot;
* `one_name_one_entry_iff`: the slots are the same exactly if the one the deletion takes stands before
  every end mark and, for a directory, is not hidden.
-/

namespace OsEojin.Fat

open OsEojin.Lib.Programs OsEojin.Lib.Programs.Program OsEojin.Ata

variable {junk : Sector} {g : Globals} {d : Disk} {fuel : ℕ} {w : List UInt8}

/-! ### A loop takes one slot or none -/

section Slots

variable {c : UInt16} {endReturns : Bool} {verdict : DirEntry → Verdict}

theorem SlotIs.unique {m : ℕ} {v v' : Verdict} (h : SlotIs g d c verdict v m)
    (h' : SlotIs g d c verdict v' m) : v = v' := by
  obtain ⟨e, he, hv⟩ := h
  obtain ⟨e', he', hv'⟩ := h'
  rw [he] at he'
  rw [← hv, ← hv', Option.some.inj he']

theorem Found.slotIs {n lba : ℕ} {e : DirEntry} (h : Found g d c endReturns verdict n e lba) :
    SlotIs g d c verdict .hit n :=
  ⟨e, h.slot, h.hit⟩

/-- A slot the loop took was not passed by it. -/
theorem Found.not_passed {n lba : ℕ} {e : DirEntry} (h : Found g d c endReturns verdict n e lba) :
    ¬ Passed g d c endReturns verdict n := by
  intro hp
  cases hp with
  | inl hskip => exact absurd (h.slotIs.unique hskip) (by decide)
  | inr hstop =>
    obtain ⟨-, m, hle, hsector, hm⟩ := hstop
    cases Nat.eq_or_lt_of_le hle with
    | inl heq =>
      rw [heq] at hm
      exact absurd (h.slotIs.unique hm) (by decide)
    | inr hlt => exact absurd ((h.skipped m (by omega) hlt).unique hm) (by decide)

/-- **The slot is determined.** -/
theorem Found.unique {n n' lba lba' : ℕ} {e e' : DirEntry}
    (h : Found g d c endReturns verdict n e lba) (h' : Found g d c endReturns verdict n' e' lba') :
    n = n' := by
  have hno : ∀ {n n' lba lba' : ℕ} {e e' : DirEntry}, Found g d c endReturns verdict n e lba →
      Found g d c endReturns verdict n' e' lba' → ¬ n < n' := by
    intro n n' lba lba' e e' h h' hlt
    by_cases hsector : n < 16 * (n' / 16)
    · exact h.not_passed (h'.passed n hsector)
    · exact h.not_passed (Or.inl (h'.skipped n (by omega) hlt))
  have := hno h h'
  have := hno h' h
  omega

/-- A loop that ended without a slot left none to take. -/
theorem not_found_of_scan {r : DirScan} (h : ScanSpec g d c endReturns verdict r)
    (hr : ∀ i k b, r ≠ .hit i k b) (n : ℕ) (e : DirEntry) (lba : ℕ) :
    ¬ Found g d c endReturns verdict n e lba := by
  intro hfound
  cases r with
  | hit i k b => exact hr i k b rfl
  | stop b =>
    obtain ⟨hret, n₀, hstop, hskip⟩ := h
    rcases Nat.lt_trichotomy n n₀ with hlt | heq | hgt
    · exact absurd (hfound.slotIs.unique (hskip n hlt)) (by decide)
    · rw [← heq] at hstop
      exact absurd (hfound.slotIs.unique hstop) (by decide)
    · exact absurd ((hfound.skip (Or.inl hret) hgt).unique hstop) (by decide)
  | through b =>
    obtain ⟨i, hnone, hpassed⟩ := h
    by_cases hlt : n < 16 * i
    · exact hfound.not_passed (hpassed n hlt)
    · have hsector := hfound.sector
      rw [dirLba_none_mono hnone (show i ≤ n / 16 from by omega)] at hsector
      cases hsector

/-- A loop that came to an end has taken the slot there is to take. -/
theorem Found.scan {r : DirScan} {n lba : ℕ} {e : DirEntry} (h : Found g d c endReturns verdict n e lba)
    (hr : ScanSpec g d c endReturns verdict r) :
    ∃ i k b, r = .hit i k b ∧ dirLba g d c i = some lba ∧ b.data = d.get lba ∧ entryAt b.data k = e ∧
      n % 16 = k := by
  cases r with
  | hit i k b =>
    obtain ⟨hk, e', lba', hdata, hfound⟩ := hr
    obtain ⟨hsector, hentry, hmod⟩ := hfound.sector_hit hk hdata
    have hn := hfound.unique h
    have hlba : lba = lba' := by
      have hsame := hfound.sector
      rw [hn, h.sector] at hsame
      exact Option.some.inj hsame
    refine ⟨i, k, b, rfl, hlba ▸ hsector, hlba ▸ hdata, ?_, hn ▸ hmod⟩
    rw [← h.entry, ← hn, hmod, hlba, hdata]
  | stop b => exact absurd h (not_found_of_scan hr (by simp) n e lba)
  | through b => exact absurd h (not_found_of_scan hr (by simp) n e lba)

end Slots

/-! ### What a deletion does to the slot it takes -/

section Targets

variable {n lba : ℕ} {e : DirEntry} {s : DirScan × Disk}

theorem execute_fatDeleteFile_target (hm : g.isFatInitialized = true)
    (hscan : execute junk (scanDir g g.currentDirCluster false (deleteFileVerdict w) fuel 0
      (freshBlock junk)) d = some s)
    (ht : Target g d (deleteFileVerdict w) n e lba) :
    execute junk (fatDeleteFile g fuel w) d =
      if isDirectory e = true then some (false, d)
      else (freeCluster g fuel e.firstClusterLow d).map fun d₁ =>
        (true, d₁.put lba (putEntry (d.get lba) (n % 16) (markDeleted e))) := by
  obtain ⟨scan, d₁⟩ := s
  have hf := not_faults_of_scanDir hscan
  obtain ⟨rfl, hspec⟩ := execute_scanDir hscan
  obtain ⟨i, k, b, rfl, hsector, hdata, hentry, hmod⟩ := ht.scan hspec
  simp only [fatDeleteFile, hm, Bool.not_true, Bool.false_eq_true, if_false, execute_bind,
    execute_kmalloc, Option.bind_some, hscan, hentry]
  split
  · rfl
  · rw [execute_deleteFound hf k b hsector, hentry, hdata, hmod]

theorem execute_fatDeleteDir_target (hm : g.isFatInitialized = true)
    (hscan : execute junk (scanDir g g.currentDirCluster false (deleteDirVerdict w) fuel 0
      (freshBlock junk)) d = some s)
    (ht : Target g d (deleteDirVerdict w) n e lba) :
    execute junk (fatDeleteDir g fuel w) d =
      if isDirectory e = true then
        (execute junk (fatIsDirEmpty g fuel e.firstClusterLow) d).bind fun r =>
          if r.1 = true then (freeCluster g fuel e.firstClusterLow d).map fun d₁ =>
            (true, d₁.put lba (putEntry (d.get lba) (n % 16) (markDeleted e)))
          else some (false, d)
      else some (false, d) := by
  obtain ⟨scan, d₁⟩ := s
  have hf := not_faults_of_scanDir hscan
  obtain ⟨rfl, hspec⟩ := execute_scanDir hscan
  obtain ⟨i, k, b, rfl, hsector, hdata, hentry, hmod⟩ := ht.scan hspec
  simp only [fatDeleteDir, hm, Bool.not_true, Bool.false_eq_true, if_false, execute_bind,
    execute_kmalloc, Option.bind_some, hscan, hentry]
  cases isDirectory e with
  | false => rfl
  | true =>
    simp only [Bool.not_true, Bool.false_eq_true, if_false, if_true, execute_bind]
    cases hempty : execute junk (fatIsDirEmpty g fuel e.firstClusterLow) d₁ with
    | none => rfl
    | some r =>
      obtain ⟨empty, d₂⟩ := r
      obtain ⟨rfl, -⟩ := execute_fatIsDirEmpty hempty
      simp only [Option.bind_some]
      cases empty with
      | false => rfl
      | true =>
        simp only [Bool.not_true, Bool.false_eq_true, if_false, if_true]
        rw [execute_deleteFound hf k b hsector, hentry, hdata, hmod]

end Targets

/-! ### The tests compared -/

/-- No slot before `n` holds an end mark. -/
def NoMarkBefore (g : Globals) (d : Disk) (c : UInt16) (n : ℕ) : Prop :=
  ∀ m, m < n → ∀ e, dirSlot g d c m = some e → e.name 0 ≠ 0

/-- A long name is a volume label too, as far as the attribute bit goes. -/
theorem isHidden_iff (e : DirEntry) : isHidden e = true ↔ e.attributes &&& attrVolumeId ≠ 0 := by
  rw [isHidden, Bool.or_eq_true, beq_iff_eq, bne_iff_ne]
  refine ⟨fun h => ?_, Or.inr⟩
  cases h with
  | inl h =>
    rw [h]
    decide
  | inr h => exact h

/-- `fat_delete_file` tests an entry as `fat_find_file` does. -/
theorem deleteFileVerdict_eq : deleteFileVerdict w = findVerdict w := by
  funext e
  rw [deleteFileVerdict, findVerdict]
  by_cases h : isHidden e = true
  · rw [if_pos h, if_pos ((isHidden_iff e).mp h)]
  · rw [if_neg h, if_neg (mt (isHidden_iff e).mpr h)]

theorem findVerdict_stop_iff (e : DirEntry) : findVerdict w e = .stop ↔ e.name 0 = 0 := by
  rw [findVerdict]
  by_cases h0 : e.name 0 = 0
  · rw [if_pos h0]
    exact ⟨fun _ => h0, fun _ => rfl⟩
  · rw [if_neg h0]
    refine ⟨fun h => ?_, fun h => absurd h h0⟩
    split at h
    · cases h
    · split at h
      · cases h
      · split at h <;> cases h

theorem deleteDirVerdict_stop_iff (e : DirEntry) : deleteDirVerdict w e = .stop ↔ e.name 0 = 0 := by
  rw [deleteDirVerdict]
  by_cases h0 : e.name 0 = 0
  · rw [if_pos h0]
    exact ⟨fun _ => h0, fun _ => rfl⟩
  · rw [if_neg h0]
    refine ⟨fun h => ?_, fun h => absurd h h0⟩
    split at h
    · cases h
    · split at h <;> cases h

/-- The two tests agree on entries that are not hidden. -/
theorem deleteDirVerdict_eq {e : DirEntry} (h : isHidden e = false) :
    deleteDirVerdict w e = findVerdict w e := by
  rw [deleteDirVerdict, findVerdict]
  split
  · rfl
  · split
    · rfl
    · rw [h, if_neg Bool.false_ne_true]

theorem not_hidden_of_find {e : DirEntry} (h : findVerdict w e = .hit) : isHidden e = false := by
  rw [findVerdict] at h
  split at h
  · cases h
  · split at h
    · cases h
    · split at h
      · cases h
      · rename_i hh
        rw [Bool.not_eq_true] at hh
        exact hh

/-- What `fat_delete_dir` skips, `fat_find_file` skips. -/
theorem findVerdict_skip {e : DirEntry} (h : deleteDirVerdict w e = .skip) :
    findVerdict w e = .skip := by
  cases hh : isHidden e with
  | false => rw [← deleteDirVerdict_eq hh, h]
  | true =>
    rw [findVerdict]
    have h0 : e.name 0 ≠ 0 := by
      intro h0
      rw [(deleteDirVerdict_stop_iff e).mpr h0] at h
      cases h
    rw [if_neg h0, hh, if_pos rfl, ite_self]

/-! ### The runs on the console -/

theorem quiet_transfer (o : Call) (ho : IsTransfer o) : IsQuiet o := ho.isQuiet

theorem quiet_scanDir (g : Globals) (c : UInt16) (e : Bool) (v : DirEntry → Verdict) (fuel i : ℕ) (b : Buffer) :
    Calls IsQuiet (scanDir g c e v fuel i b) :=
  calls_scanDir quiet_transfer g (fun _ => trivial) e v fuel i b

/-- A quiet search, and code that goes on from what it found. -/
theorem run_console_search {α : Type} {verdict : DirEntry → Verdict} {k : DirScan → Kernel α}
    {r : α × Console}
    (h : (do
        let b ← kmalloc 512
        let scan ← scanDir g g.currentDirCluster false verdict fuel 0 b
        k scan).run (console junk) ⟨d, []⟩ = some r) :
    ∃ scan, ScanSpec g d g.currentDirCluster false verdict scan ∧ ¬ faults g g.currentDirCluster ∧
      (k scan).run (console junk) ⟨d, []⟩ = some r := by
  rw [run_bind] at h
  obtain ⟨⟨b, s₁⟩, hb, hrest⟩ := Option.bind_eq_some_iff.mp h
  obtain ⟨rfl, rfl⟩ := Prod.mk.inj (Option.some.inj hb)
  rw [run_bind, run_console_quiet (quiet_scanDir g _ false verdict fuel 0 _), Option.bind_map] at hrest
  obtain ⟨⟨scan, d₁⟩, hscan, hrest⟩ := Option.bind_eq_some_iff.mp hrest
  obtain ⟨rfl, hspec⟩ := execute_scanDir hscan
  exact ⟨scan, hspec, not_faults_of_scanDir hscan, hrest⟩

/-- The deletion of the entry found prints its message last. -/
theorem run_console_deleteFound (hf : ¬ faults g g.currentDirCluster) {i lba : ℕ} (k : ℕ) (b : Buffer)
    (hsector : dirLba g d g.currentDirCluster i = some lba) (message : String) :
    (deleteFound g fuel i k b message).run (console junk) ⟨d, []⟩ =
      (freeCluster g fuel (entryAt b.data k).firstClusterLow d).map fun d₁ =>
        (true, (⟨d₁.put lba (putEntry b.data k (markDeleted (entryAt b.data k))),
          [text message]⟩ : Console)) := by
  rw [deleteFound, run_bind, run_console_quiet (calls_writeBackLba quiet_transfer g (fun _ => trivial) i),
    execute_writeBackLba hf hsector, Option.map_some, Option.bind_some, run_bind,
    run_console_quiet (calls_fatFreeClusterChain quiet_transfer g (fun _ _ => trivial) fuel _),
    execute_fatFreeClusterChain]
  cases freeCluster g fuel (entryAt b.data k).firstClusterLow d with
  | none => rfl
  | some d₁ => rfl

/-! ### What each function did -/

/-- `fat_find_file` answered `answer`, the entry in this slot, or that there is none. -/
def FindAnswer (g : Globals) (d : Disk) (w : List UInt8) (answer : Option DirEntry) :
    Option ℕ → Prop
  | some n => ∃ e lba, answer = some e ∧
      Found g d g.currentDirCluster true (findVerdict w) n e lba
  | none => answer = none ∧
      ∀ n e lba, ¬ Found g d g.currentDirCluster true (findVerdict w) n e lba

/-- `fat_delete_file` acted on the entry in this slot or rejected the name because of it, or reported that
there is none. -/
def FileAnswer (g : Globals) (fuel : ℕ) (d : Disk) (w : List UInt8) (r : Bool) (s : Console) :
    Option ℕ → Prop
  | some n => ∃ e lba, Target g d (deleteFileVerdict w) n e lba ∧
      ((isDirectory e = true ∧ r = false ∧ s = ⟨d, [text "Error: Is a directory.\n"]⟩) ∨
        (isDirectory e = false ∧ r = true ∧ Deleted g fuel d n e lba s.disk ∧
          s.messages = [text "File deleted.\n"]))
  | none => (∀ n e lba, ¬ Target g d (deleteFileVerdict w) n e lba) ∧ r = false ∧
      s = ⟨d, [text "File not found.\n"]⟩

/-- The same of `fat_delete_dir`. -/
def DirAnswer (g : Globals) (fuel : ℕ) (d : Disk) (w : List UInt8) (r : Bool) (s : Console) :
    Option ℕ → Prop
  | some n => ∃ e lba, Target g d (deleteDirVerdict w) n e lba ∧
      ((isDirectory e = false ∧ r = false ∧ s = ⟨d, [text "Error: Not a directory.\n"]⟩) ∨
        (isDirectory e = true ∧ r = false ∧ s = ⟨d, [text "Error: Directory not empty.\n"]⟩) ∨
        (isDirectory e = true ∧ r = true ∧ DirEmpty g d e.firstClusterLow ∧
          Deleted g fuel d n e lba s.disk ∧ s.messages = [text "Directory deleted.\n"]))
  | none => (∀ n e lba, ¬ Target g d (deleteDirVerdict w) n e lba) ∧ r = false ∧
      s = ⟨d, [text "Directory not found.\n"]⟩

theorem exists_findAnswer (hm : g.isFatInitialized = true) {answer : Option DirEntry} {d' : Disk}
    (h : execute junk (fatFindFile g fuel w) d = some (answer, d')) :
    ∃ slot, FindAnswer g d w answer slot := by
  simp only [fatFindFile, hm, Bool.not_true, Bool.false_eq_true, if_false, execute_bind, execute_kmalloc,
    Option.bind_some, freshBlock_ptr_ne] at h
  obtain ⟨⟨scan, d₁⟩, hscan, hrest⟩ := Option.bind_eq_some_iff.mp h
  obtain ⟨rfl, hspec⟩ := execute_scanDir hscan
  cases scan with
  | hit i k b =>
    obtain ⟨hk, e, lba, hdata, hfound⟩ := hspec
    cases hrest
    refine ⟨some (16 * i + k), e, lba, ?_, hfound⟩
    rw [(hfound.sector_hit hk hdata).2.1]
  | stop b =>
    cases hrest
    exact ⟨none, rfl, not_found_of_scan hspec (by simp)⟩
  | through b =>
    cases hrest
    exact ⟨none, rfl, not_found_of_scan hspec (by simp)⟩

/-- **`fat_delete_file`** acts on the slot its loop takes. -/
theorem exists_fileAnswer (hm : g.isFatInitialized = true) {r : Bool} {s : Console}
    (h : (fatDeleteFile g fuel w).run (console junk) ⟨d, []⟩ = some (r, s)) :
    ∃ slot, FileAnswer g fuel d w r s slot := by
  rw [fatDeleteFile, if_neg (by rw [hm]; decide)] at h
  obtain ⟨scan, hspec, hf, hrest⟩ := run_console_search h
  cases scan with
  | hit i k b =>
    obtain ⟨hk, e, lba, hdata, hfound⟩ := hspec
    obtain ⟨hsector, hentry, hmod⟩ := hfound.sector_hit hk hdata
    refine ⟨some (16 * i + k), e, lba, hfound, ?_⟩
    simp only [hentry] at hrest
    cases hdir : isDirectory e with
    | true =>
      simp only [hdir, if_true] at hrest
      cases hrest
      exact Or.inl ⟨rfl, rfl, rfl⟩
    | false =>
      simp only [hdir, Bool.false_eq_true, if_false, run_console_deleteFound hf k b hsector,
        hentry] at hrest
      obtain ⟨d₁, hfree, heq⟩ := Option.map_eq_some_iff.mp hrest
      cases heq
      refine Or.inr ⟨rfl, rfl, ⟨d₁, hfree, ?_⟩, rfl⟩
      rw [hmod, hdata]
  | stop b => exact absurd hspec.1 (by decide)
  | through b =>
    cases hrest
    exact ⟨none, not_found_of_scan hspec (by simp), rfl, rfl⟩

/-- **`fat_delete_dir`** acts on the slot its loop takes. -/
theorem exists_dirAnswer (hm : g.isFatInitialized = true) {r : Bool} {s : Console}
    (h : (fatDeleteDir g fuel w).run (console junk) ⟨d, []⟩ = some (r, s)) :
    ∃ slot, DirAnswer g fuel d w r s slot := by
  rw [fatDeleteDir, if_neg (by rw [hm]; decide)] at h
  obtain ⟨scan, hspec, hf, hrest⟩ := run_console_search h
  cases scan with
  | hit i k b =>
    obtain ⟨hk, e, lba, hdata, hfound⟩ := hspec
    obtain ⟨hsector, hentry, hmod⟩ := hfound.sector_hit hk hdata
    refine ⟨some (16 * i + k), e, lba, hfound, ?_⟩
    simp only [hentry] at hrest
    cases hdir : isDirectory e with
    | false =>
      simp only [hdir, Bool.not_false, if_true] at hrest
      cases hrest
      exact Or.inl ⟨rfl, rfl, rfl⟩
    | true =>
      simp only [hdir, Bool.not_true, Bool.false_eq_true, if_false, run_bind,
        run_console_quiet (calls_fatIsDirEmpty quiet_transfer g (fun _ => trivial) fuel), Option.bind_map] at hrest
      obtain ⟨⟨empty, d₁⟩, hempty, hrest⟩ := Option.bind_eq_some_iff.mp hrest
      obtain ⟨rfl, hspec⟩ := execute_fatIsDirEmpty hempty
      cases empty with
      | false =>
        cases hrest
        exact Or.inr (Or.inl ⟨rfl, rfl, rfl⟩)
      | true =>
        simp only [Function.comp_apply, Bool.not_true, Bool.false_eq_true, if_false,
          run_console_deleteFound hf k b hsector, hentry] at hrest
        obtain ⟨d₂, hfree, heq⟩ := Option.map_eq_some_iff.mp hrest
        cases heq
        refine Or.inr (Or.inr ⟨rfl, rfl, hspec.mp rfl, ⟨d₂, hfree, ?_⟩, rfl⟩)
        rw [hmod, hdata]
  | stop b => exact absurd hspec.1 (by decide)
  | through b =>
    cases hrest
    exact ⟨none, not_found_of_scan hspec (by simp), rfl, rfl⟩

/-! ### One slot -/

/-- The first slot the test takes, when all before it are skipped. -/
theorem found_of_skip {c : UInt16} {verdict : DirEntry → Verdict} (endReturns : Bool) {n : ℕ}
    (hhit : SlotIs g d c verdict .hit n) (hskip : ∀ m, m < n → SlotIs g d c verdict .skip m) :
    ∃ e lba, Found g d c endReturns verdict n e lba := by
  obtain ⟨e, he, hv⟩ := hhit
  obtain ⟨lba, hlba, hentry⟩ := Option.map_eq_some_iff.mp he
  exact ⟨e, lba, hlba, hentry, hv, fun m hm => Or.inl (hskip m (by omega)),
    fun m _ hm => hskip m hm⟩

/-- What `fat_find_file` finds, `fat_delete_file` takes. -/
theorem target_of_find_file {n lba : ℕ} {e : DirEntry}
    (h : Found g d g.currentDirCluster true (findVerdict w) n e lba) :
    ∃ e lba, Target g d (deleteFileVerdict w) n e lba := by
  rw [deleteFileVerdict_eq]
  exact found_of_skip false h.slotIs fun m hm => h.skip (Or.inl rfl) hm

/-- Where `fat_find_file` finds an entry, `fat_delete_dir` takes one, at that slot or before it. -/
theorem target_of_find_dir {n lba : ℕ} {e : DirEntry}
    (h : Found g d g.currentDirCluster true (findVerdict w) n e lba) :
    ∃ m e lba, Target g d (deleteDirVerdict w) m e lba := by
  have hhit : SlotIs g d g.currentDirCluster (deleteDirVerdict w) .hit n := by
    refine ⟨e, h.slot, ?_⟩
    rw [deleteDirVerdict_eq (not_hidden_of_find h.hit)]
    exact h.hit
  -- the first slot the other test takes
  classical
  have hex : ∃ m, SlotIs g d g.currentDirCluster (deleteDirVerdict w) .hit m := ⟨n, hhit⟩
  refine ⟨Nat.find hex, found_of_skip false (Nat.find_spec hex) ?_⟩
  intro m hm
  have hmn : m < n := Nat.lt_of_lt_of_le hm (Nat.find_min' hex hhit)
  obtain ⟨x, hx, hxskip⟩ := h.skip (Or.inl rfl) hmn
  refine ⟨x, hx, ?_⟩
  cases hv : deleteDirVerdict w x with
  | skip => rfl
  | hit => exact absurd ⟨x, hx, hv⟩ (Nat.find_min hex hm)
  | stop =>
    rw [(findVerdict_stop_iff x).mpr ((deleteDirVerdict_stop_iff x).mp hv)] at hxskip
    cases hxskip

/-- A slot passed by a loop that goes on at end marks, with no end mark around, was skipped. -/
theorem Passed.skip_of_noMark {c : UInt16} {verdict : DirEntry → Verdict} {n m : ℕ}
    (hstop : ∀ e, verdict e = .stop → e.name 0 = 0) (hmark : NoMarkBefore g d c n) (hm : m < n)
    (h : Passed g d c false verdict m) : SlotIs g d c verdict .skip m := by
  cases h with
  | inl hskip => exact hskip
  | inr hmarked =>
    obtain ⟨-, m', hle, -, e, he, hv⟩ := hmarked
    exact absurd (hstop e hv) (hmark m' (by omega) e he)

/-- The slot a deletion takes, as `fat_find_file` sees it. -/
theorem find_of_target {verdict : DirEntry → Verdict} {n lba : ℕ} {e : DirEntry}
    (h : Target g d verdict n e lba) (hstop : ∀ e, verdict e = .stop → e.name 0 = 0)
    (hskip : ∀ e, verdict e = .skip → findVerdict w e = .skip) (hhit : findVerdict w e = .hit)
    (hmark : NoMarkBefore g d g.currentDirCluster n) :
    ∃ e lba, Found g d g.currentDirCluster true (findVerdict w) n e lba := by
  refine found_of_skip true ⟨e, h.slot, hhit⟩ ?_
  intro m hm
  have hm' : SlotIs g d g.currentDirCluster verdict .skip m := by
    by_cases hlt : m < 16 * (n / 16)
    · exact (h.passed m hlt).skip_of_noMark hstop hmark hm
    · exact h.skipped m (by omega) hm
  obtain ⟨x, hx, hv⟩ := hm'
  exact ⟨x, hx, hskip x hv⟩

/-- Before the entry `fat_find_file` returns there is no end mark. -/
theorem noMark_of_find {n lba : ℕ} {e : DirEntry}
    (h : Found g d g.currentDirCluster true (findVerdict w) n e lba) :
    NoMarkBefore g d g.currentDirCluster n := by
  intro m hm x hx h0
  obtain ⟨y, hy, hskip⟩ := h.skip (Or.inl rfl) hm
  rw [hx] at hy
  rw [← Option.some.inj hy, (findVerdict_stop_iff x).mpr h0] at hskip
  cases hskip

theorem FindAnswer.of_found {answer : Option DirEntry} {slot : Option ℕ} {n lba : ℕ} {e : DirEntry}
    (h : FindAnswer g d w answer slot)
    (hfound : Found g d g.currentDirCluster true (findVerdict w) n e lba) :
    FindAnswer g d w answer (some n) := by
  cases slot with
  | none => exact absurd hfound (h.2 n e lba)
  | some n' =>
    obtain ⟨e', lba', ha, hfound'⟩ := h
    rw [hfound.unique hfound']
    exact ⟨e', lba', ha, hfound'⟩

theorem file_agrees_iff (hm : g.isFatInitialized = true) {answer : Option DirEntry} {d' : Disk}
    (hfind : execute junk (fatFindFile g fuel w) d = some (answer, d')) {r : Bool} {s : Console}
    (hdel : (fatDeleteFile g fuel w).run (console junk) ⟨d, []⟩ = some (r, s)) :
    (∃ slot, FindAnswer g d w answer slot ∧ FileAnswer g fuel d w r s slot) ↔
      ∀ n e lba, Target g d (deleteFileVerdict w) n e lba →
        NoMarkBefore g d g.currentDirCluster n := by
  refine ⟨fun hone n e lba htarget => ?_, fun hcond => ?_⟩
  · obtain ⟨slot, hf, hd⟩ := hone
    cases slot with
    | none => exact absurd htarget (hd.1 n e lba)
    | some n' =>
      obtain ⟨e₁, lba₁, -, hfound⟩ := hf
      obtain ⟨e₂, lba₂, htarget', -⟩ := hd
      rw [htarget.unique htarget']
      exact noMark_of_find hfound
  · obtain ⟨slot, hf⟩ := exists_findAnswer hm hfind
    obtain ⟨slot', hd⟩ := exists_fileAnswer hm hdel
    cases slot' with
    | none =>
      refine ⟨none, ?_, hd⟩
      cases slot with
      | none => exact hf
      | some n =>
        obtain ⟨e, lba, -, hfound⟩ := hf
        obtain ⟨e', lba', htarget⟩ := target_of_find_file hfound
        exact absurd htarget (hd.1 n e' lba')
    | some n =>
      obtain ⟨e, lba, htarget, -⟩ := id hd
      have hmark := hcond n e lba htarget
      rw [deleteFileVerdict_eq] at htarget
      obtain ⟨e', lba', hfound⟩ := find_of_target htarget
        (fun x => (findVerdict_stop_iff x).mp) (fun _ => id) htarget.hit hmark
      exact ⟨some n, hf.of_found hfound, hd⟩

theorem dir_agrees_iff (hm : g.isFatInitialized = true) {answer : Option DirEntry} {d' : Disk}
    (hfind : execute junk (fatFindFile g fuel w) d = some (answer, d')) {r : Bool} {s : Console}
    (hdel : (fatDeleteDir g fuel w).run (console junk) ⟨d, []⟩ = some (r, s)) :
    (∃ slot, FindAnswer g d w answer slot ∧ DirAnswer g fuel d w r s slot) ↔
      ∀ n e lba, Target g d (deleteDirVerdict w) n e lba →
        NoMarkBefore g d g.currentDirCluster n ∧ isHidden e = false := by
  refine ⟨fun hone n e lba htarget => ?_, fun hcond => ?_⟩
  · obtain ⟨slot, hf, hd⟩ := hone
    cases slot with
    | none => exact absurd htarget (hd.1 n e lba)
    | some n' =>
      obtain ⟨e₁, lba₁, -, hfound⟩ := hf
      obtain ⟨e₂, lba₂, htarget', -⟩ := hd
      have hn : n = n' := htarget.unique htarget'
      have he : e = e₁ := by
        have hslot := htarget.slot
        rw [hn, hfound.slot] at hslot
        exact (Option.some.inj hslot).symm
      rw [hn, he]
      exact ⟨noMark_of_find hfound, not_hidden_of_find hfound.hit⟩
  · obtain ⟨slot, hf⟩ := exists_findAnswer hm hfind
    obtain ⟨slot', hd⟩ := exists_dirAnswer hm hdel
    cases slot' with
    | none =>
      refine ⟨none, ?_, hd⟩
      cases slot with
      | none => exact hf
      | some n =>
        obtain ⟨e, lba, -, hfound⟩ := hf
        obtain ⟨m, e', lba', htarget⟩ := target_of_find_dir hfound
        exact absurd htarget (hd.1 m e' lba')
    | some n =>
      obtain ⟨e, lba, htarget, -⟩ := id hd
      obtain ⟨hmark, hvisible⟩ := hcond n e lba htarget
      have hhit : findVerdict w e = .hit := by
        rw [← deleteDirVerdict_eq hvisible]
        exact htarget.hit
      obtain ⟨e', lba', hfound⟩ := find_of_target htarget
        (fun x => (deleteDirVerdict_stop_iff x).mp) (fun _ => findVerdict_skip) hhit hmark
      exact ⟨some n, hf.of_found hfound, hd⟩

/-- **One name, one entry, as far as the end mark.**  For every content of the current directory and every
name: `fat_delete_file` acts on, or rejects the name because of, the entry `fat_find_file` returns, and
reports "not found" when that returns none, exactly if no end mark stands before the slot its own loop
takes; the same holds of `fat_delete_dir` exactly if, moreover, that slot is not hidden. -/
theorem one_name_one_entry_iff (junk : Sector) (g : Globals) (d : Disk) (fuel : ℕ) (w : List UInt8)
    (hm : g.isFatInitialized = true) (answer : Option DirEntry) (d' : Disk)
    (hfind : execute junk (fatFindFile g fuel w) d = some (answer, d')) :
    (∀ r s, (fatDeleteFile g fuel w).run (console junk) ⟨d, []⟩ = some (r, s) →
      ((∃ slot, FindAnswer g d w answer slot ∧ FileAnswer g fuel d w r s slot) ↔
        ∀ n e lba, Target g d (deleteFileVerdict w) n e lba →
          NoMarkBefore g d g.currentDirCluster n)) ∧
    (∀ r s, (fatDeleteDir g fuel w).run (console junk) ⟨d, []⟩ = some (r, s) →
      ((∃ slot, FindAnswer g d w answer slot ∧ DirAnswer g fuel d w r s slot) ↔
        ∀ n e lba, Target g d (deleteDirVerdict w) n e lba →
          NoMarkBefore g d g.currentDirCluster n ∧ isHidden e = false)) :=
  ⟨fun _ _ hdel => file_agrees_iff hm hfind hdel, fun _ _ hdel => dir_agrees_iff hm hfind hdel⟩

/-- A disk with the file `A` in the first slot of one sector. -/
def oneFileDisk (lba : ℕ) : Disk := fun i =>
  if i = lba then putEntry (fun _ => 0) 0 (fillEntry (fun _ => 0) (text "A") 0x20 0 0) else fun _ => 0

/-- The file in the first sector of the directory: it is found, and it is what is deleted. -/
theorem delete_file_agrees :
    ∃ answer d' r s, execute (fun _ => 0) (fatFindFile twoSectorRoot 3 (text "a")) (oneFileDisk 2)
        = some (answer, d') ∧
      (fatDeleteFile twoSectorRoot 3 (text "a")).run (console fun _ => 0) ⟨oneFileDisk 2, []⟩
        = some (r, s) ∧
      ∃ slot, FindAnswer twoSectorRoot (oneFileDisk 2) (text "a") answer slot ∧
        FileAnswer twoSectorRoot 3 (oneFileDisk 2) (text "a") r s slot := by
  have hsome : (execute (fun _ => 0) (fatFindFile twoSectorRoot 3 (text "a")) (oneFileDisk 2)).isSome
      = true := by decide
  have hsome' : ((fatDeleteFile twoSectorRoot 3 (text "a")).run (console fun _ => 0)
      ⟨oneFileDisk 2, []⟩).isSome = true := by decide
  obtain ⟨⟨answer, d'⟩, hfind⟩ := Option.isSome_iff_exists.mp hsome
  obtain ⟨⟨r, s⟩, hdel⟩ := Option.isSome_iff_exists.mp hsome'
  have hslot : Target twoSectorRoot (oneFileDisk 2) (deleteFileVerdict (text "a")) 0
      (entryAt ((oneFileDisk 2).get 2) 0) 2 :=
    ⟨rfl, rfl, by decide, fun m hm => absurd hm (Nat.not_lt_zero m),
      fun m _ hm => absurd hm (Nat.not_lt_zero m)⟩
  refine ⟨answer, d', r, s, hfind, hdel, ?_⟩
  refine ((one_name_one_entry_iff _ twoSectorRoot (oneFileDisk 2) 3 (text "a") rfl answer d' hfind).1 r s
    hdel).mpr ?_
  intro n e lba htarget m hm
  rw [htarget.unique hslot] at hm
  exact absurd hm (Nat.not_lt_zero m)

/-- The file in the second sector, behind an end mark in the first: `fat_find_file` does not see it and
`fat_delete_file` deletes it. -/
theorem delete_file_behind_mark :
    ∃ answer d' r s, execute (fun _ => 0) (fatFindFile twoSectorRoot 3 (text "a")) (oneFileDisk 3)
        = some (answer, d') ∧
      (fatDeleteFile twoSectorRoot 3 (text "a")).run (console fun _ => 0) ⟨oneFileDisk 3, []⟩
        = some (r, s) ∧
      ¬ ∃ slot, FindAnswer twoSectorRoot (oneFileDisk 3) (text "a") answer slot ∧
        FileAnswer twoSectorRoot 3 (oneFileDisk 3) (text "a") r s slot := by
  have hnone : (execute (fun _ => 0) (fatFindFile twoSectorRoot 3 (text "a")) (oneFileDisk 3)).map
      (fun q => q.1.isSome) = some false := by decide
  have htrue : ((fatDeleteFile twoSectorRoot 3 (text "a")).run (console fun _ => 0)
      ⟨oneFileDisk 3, []⟩).map (fun q => q.1) = some true := by decide
  obtain ⟨⟨answer, d'⟩, hfind, hanswer⟩ := Option.map_eq_some_iff.mp hnone
  obtain ⟨⟨r, s⟩, hdel, hr⟩ := Option.map_eq_some_iff.mp htrue
  refine ⟨answer, d', r, s, hfind, hdel, ?_⟩
  intro hone
  obtain ⟨slot, hf, hd⟩ := hone
  cases slot with
  | none =>
    rw [hd.2.1] at hr
    cases hr
  | some n =>
    obtain ⟨e, lba, he, -⟩ := hf
    simp only [he] at hanswer
    cases hanswer

end OsEojin.Fat
