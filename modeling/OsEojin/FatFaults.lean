import OsEojin.FatCalls
import OsEojin.Lib.Answers

/-!
# Divisions by zero

`fat_init` copies the BPB from LBA 0 without a look at it.  `bytes_per_sector` is a divisor in `fat_init` and
wherever the root directory is read, `sectors_per_cluster` wherever another directory is.  The medium answers
every later read as it likes.

* `MayDivideByZero`: some run of kernel code divides by zero;
* `Listed`, `Later`: the calls that follow a mount, and the globals they lead to;
* `DivisorsSet`: what `fat_init` does not check;
* `mounting_never_faults_iff`: no call divides by zero exactly when it holds.
-/

namespace OsEojin.Fat

open OsEojin.Lib.Programs OsEojin.Lib.Programs.Program OsEojin.Ata

variable {g g₁ g₂ : Globals} {s : Sector}

/-! ### What the medium answers -/

/-- Any answer to any call: allocations may fail, and the medium may send what it likes. -/
def anyAnswer (o : Call) (_ : o.Res) : Prop := True

/-- The same, but LBA 0 holds `s`. -/
def bootSector (s : Sector) : (o : Call) → o.Res → Prop
  | .ataReadSector 0 _, r => r = s
  | _, _ => True

/-- Some run of the code divides by zero. -/
def MayDivideByZero {α : Type} (A : (o : Call) → o.Res → Prop) (p : Kernel α) : Prop :=
  MayCall A p .divideError

/-- The globals `fat_init` leaves when it has read `s`. -/
def mountedFrom (g : Globals) (s : Sector) : Globals :=
  { g with
    fatInfo := Bpb.parse s
    fatStartSector := (Bpb.parse s).reservedSectors.toNat
    rootDirSector := (Bpb.parse s).reservedSectors.toNat +
      (Bpb.parse s).fatCount.toNat * (Bpb.parse s).fatSize16.toNat
    dataStartSector := (Bpb.parse s).reservedSectors.toNat +
      (Bpb.parse s).fatCount.toNat * (Bpb.parse s).fatSize16.toNat + (Bpb.parse s).rootDirSectors
    isFatInitialized := true }

/-! ### `fat_init` -/

section Init

variable {α : Type}

theorem not_print_divideError : ¬ IsPrint .divideError := by
  rintro ⟨message, h⟩
  cases h

/-- Messages do not matter. -/
theorem mayDivide_print_bind {A : (o : Call) → o.Res → Prop} {p : Kernel Unit} {k : Unit → Kernel α}
    (hp : Calls IsPrint p) (hret : MayReturn A p ()) :
    MayDivideByZero A (p >>= k) ↔ MayDivideByZero A (k ()) := by
  rw [MayDivideByZero, mayCall_bind, or_iff_right (hp.not_mayCall not_print_divideError)]
  exact ⟨fun ⟨_, _, h⟩ => h, fun h => ⟨(), hret, h⟩⟩

theorem mayDivide_kprint_bind (message : List UInt8) (k : Unit → Kernel α) :
    MayDivideByZero (bootSector s) (kprint message >>= k) ↔ MayDivideByZero (bootSector s) (k ()) :=
  mayDivide_print_bind (calls_kprint message) (mayReturn_perform.mpr trivial)

theorem mayReturn_prints (bytes : List UInt8) :
    MayReturn (bootSector s) (bytes.forM fun c => kprint (cString [c])) () := by
  induction bytes with
  | nil => rfl
  | cons c bytes ih => exact mayReturn_bind.mpr ⟨(), mayReturn_perform.mpr trivial, ih⟩

theorem mayDivide_prints_bind (bytes : List UInt8) (k : Unit → Kernel α) :
    MayDivideByZero (bootSector s) ((bytes.forM fun c => kprint (cString [c])) >>= k) ↔
      MayDivideByZero (bootSector s) (k ()) :=
  mayDivide_print_bind (calls_prints bytes) (mayReturn_prints bytes)

theorem mayDivide_kmalloc_bind (k : Buffer → Kernel α) :
    MayDivideByZero (bootSector s) (kmalloc 512 >>= k) ↔ ∃ b, MayDivideByZero (bootSector s) (k b) := by
  rw [MayDivideByZero, mayCall_bind, kmalloc, mayCall_perform]
  constructor
  · rintro (h | ⟨b, -, h⟩)
    · cases h
    · exact ⟨b, h⟩
  · rintro ⟨b, h⟩
    exact Or.inr ⟨b, mayReturn_perform.mpr trivial, h⟩

theorem mayReturn_boot_read (b b' : Buffer) :
    MayReturn (bootSector s) (ataReadSector 0 b) b' ↔ b' = { b with data := s } := by
  rw [ataReadSector, mayReturn_bind]
  constructor
  · rintro ⟨data, hdata, rfl⟩
    obtain rfl : data = s := mayReturn_perform.mp hdata
    rfl
  · rintro rfl
    exact ⟨s, mayReturn_perform.mpr rfl, rfl⟩

theorem mayDivide_read_bind (b : Buffer) (k : Buffer → Kernel α) :
    MayDivideByZero (bootSector s) (ataReadSector 0 b >>= k) ↔
      MayDivideByZero (bootSector s) (k { b with data := s }) := by
  rw [MayDivideByZero, mayCall_bind, or_iff_right]
  · constructor
    · rintro ⟨b', hb, h⟩
      rw [(mayReturn_boot_read b b').mp hb] at h
      exact h
    · exact fun h => ⟨_, (mayReturn_boot_read b _).mpr rfl, h⟩
  · rintro (h | ⟨_, _, h⟩)
    · cases h
    · exact h

/-- **`fat_init` divides by zero** when `bytes_per_sector` is zero. -/
theorem mayDivide_fatInit :
    MayDivideByZero (bootSector s) (fatInit g) ↔ (Bpb.parse s).bytesPerSector = 0 := by
  rw [fatInit, mayDivide_kmalloc_bind]
  constructor
  · rintro ⟨b, h⟩
    by_cases hptr : b.ptr = 0
    · rw [if_pos hptr, mayDivide_kprint_bind] at h
      exact h.elim
    · rw [if_neg hptr, mayDivide_read_bind] at h
      simp only [mayDivide_kprint_bind, mayDivide_prints_bind] at h
      by_contra hbps
      rw [if_neg hbps] at h
      simp only [mayDivide_kprint_bind] at h
      obtain (h | ⟨-, -, h⟩) := mayCall_bind.mp h
      · cases mayCall_perform.mp h
      · exact h.elim
  · intro hbps
    refine ⟨freshBlock fun _ => 0, ?_⟩
    rw [if_neg (by decide), mayDivide_read_bind]
    simp only [mayDivide_kprint_bind, mayDivide_prints_bind]
    rw [if_pos hbps]
    exact Or.inl rfl

theorem mayReturn_unit_bind {A : (o : Call) → o.Res → Prop} {p : Kernel Unit} {k : Unit → Kernel α} {a : α}
    (hret : MayReturn A p ()) : MayReturn A (p >>= k) a ↔ MayReturn A (k ()) a := by
  rw [mayReturn_bind]
  exact ⟨fun ⟨_, _, h⟩ => h, fun h => ⟨(), hret, h⟩⟩

theorem mayReturn_kprint_bind (message : List UInt8) (k : Unit → Kernel α) (a : α) :
    MayReturn (bootSector s) (kprint message >>= k) a ↔ MayReturn (bootSector s) (k ()) a :=
  mayReturn_unit_bind (mayReturn_perform.mpr trivial)

theorem mayReturn_prints_bind (bytes : List UInt8) (k : Unit → Kernel α) (a : α) :
    MayReturn (bootSector s) ((bytes.forM fun c => kprint (cString [c])) >>= k) a ↔
      MayReturn (bootSector s) (k ()) a :=
  mayReturn_unit_bind (mayReturn_prints bytes)

theorem mayReturn_read_bind (b : Buffer) (k : Buffer → Kernel α) (a : α) :
    MayReturn (bootSector s) (ataReadSector 0 b >>= k) a ↔
      MayReturn (bootSector s) (k { b with data := s }) a := by
  simp only [mayReturn_bind, mayReturn_boot_read, exists_eq_left]

/-- **What `fat_init` leaves**: the old globals where the heap gave no buffer, else those of the boot sector. -/
theorem mayReturn_fatInit :
    MayReturn (bootSector s) (fatInit g) g₁ ↔
      g₁ = g ∨ (Bpb.parse s).bytesPerSector ≠ 0 ∧ g₁ = mountedFrom g s := by
  rw [fatInit, mayReturn_bind]
  constructor
  · rintro ⟨b, -, h⟩
    by_cases hptr : b.ptr = 0
    · rw [if_pos hptr, mayReturn_kprint_bind] at h
      exact Or.inl h.symm
    · rw [if_neg hptr, mayReturn_read_bind] at h
      simp only [mayReturn_kprint_bind, mayReturn_prints_bind] at h
      by_cases hbps : (Bpb.parse s).bytesPerSector = 0
      · rw [if_pos hbps] at h
        obtain ⟨r, -, -⟩ := h
        exact r.elim
      · rw [if_neg hbps] at h
        simp only [mayReturn_kprint_bind] at h
        rw [mayReturn_unit_bind (mayReturn_perform.mpr trivial)] at h
        exact Or.inr ⟨hbps, h.symm⟩
  · rintro (rfl | ⟨hbps, rfl⟩)
    · refine ⟨⟨0, fun _ => 0⟩, mayReturn_perform.mpr trivial, ?_⟩
      rw [if_pos rfl, mayReturn_kprint_bind]
      rfl
    · refine ⟨freshBlock fun _ => 0, mayReturn_perform.mpr trivial, ?_⟩
      rw [if_neg (by decide), mayReturn_read_bind]
      simp only [mayReturn_kprint_bind, mayReturn_prints_bind]
      rw [if_neg hbps]
      simp only [mayReturn_kprint_bind]
      rw [mayReturn_unit_bind (mayReturn_perform.mpr trivial)]
      rfl

end Init

/-! ### The calls that follow a mount -/

/-- The calls that may follow: `ls`, the lookup, `cd`, the creation and the two deletions. -/
def Operation.Listed : Operation → Prop
  | fatList => True
  | fatFindFile _ => True
  | fatChangeDir _ => True
  | fatCreateEntry _ _ _ _ => True
  | fatDeleteFile _ => True
  | fatDeleteDir _ => True
  | _ => False

/-- The call as kernel code that hands on the globals. -/
def Operation.exec (g : Globals) (fuel : ℕ) : Operation → Kernel Globals
  | fatInit => Fat.fatInit g
  | fatChangeDir dirname => Fat.fatChangeDir g fuel dirname
  | op => do
    op.code g fuel
    pure g

/-- The globals that a sequence of such calls can lead to. -/
def Later : Globals → Globals → Prop :=
  Relation.ReflTransGen fun g g' => ∃ fuel op, Operation.Listed op ∧ MayReturn anyAnswer (op.exec g fuel) g'

/-- What `fat_init` does not check: `bytes_per_sector` is set, and so is `sectors_per_cluster`, unless the
current directory is the root and has no sector. -/
def DivisorsSet (g : Globals) : Prop :=
  g.fatInfo.bytesPerSector ≠ 0 ∧
    (g.fatInfo.sectorsPerCluster ≠ 0 ∨ g.currentDirCluster = 0 ∧ g.fatInfo.rootDirSectors = 0)

/-- **Mounting LBA 0 with the content `s`**: neither `fat_init` nor any call after it divides by zero. -/
def NeverDividesByZero (g : Globals) (s : Sector) : Prop :=
  ¬ MayDivideByZero (bootSector s) (fatInit g) ∧
    ∀ g₁, MayReturn (bootSector s) (fatInit g) g₁ → g₁.fatInfo = Bpb.parse s →
      ∀ g₂, Later g₁ g₂ → ∀ fuel op, Operation.Listed op → ¬ MayDivideByZero anyAnswer (op.code g₂ fuel)

/-! ### Calls that do not divide by zero -/

def NoDivide (o : Call) : Prop := o ≠ .divideError

theorem noDivide_transfer (o : Call) (ho : IsTransfer o) : NoDivide o := by
  rintro rfl
  exact ho

theorem noDivide_print (o : Call) (ho : IsPrint o) : NoDivide o := by
  rintro rfl
  exact not_print_divideError ho

section Safe

variable {α : Type} {A : (o : Call) → o.Res → Prop} {fuel : ℕ}

theorem not_mayDivide {p : Kernel α} (hp : Calls NoDivide p) : ¬ MayDivideByZero A p :=
  hp.not_mayCall fun h => h rfl

theorem calls_noDivide_kprint (message : List UInt8) : Calls NoDivide (kprint message) :=
  (calls_kprint message).mono noDivide_print

/-- A message in front. -/
theorem calls_noDivide_print {message : List UInt8} {p : Kernel α} (hp : Calls NoDivide p) :
    Calls NoDivide (do kprint message; p) :=
  calls_bind (calls_noDivide_kprint message) fun _ => hp

theorem DivisorsSet.not_faults (h : DivisorsSet g) : ¬ faults g g.currentDirCluster := by
  rw [faults]
  obtain ⟨hbps, hspc⟩ := h
  split
  · exact hbps
  · rename_i hc
    obtain hspc | ⟨h0, -⟩ := hspc
    · exact fun h0 => hspc (UInt8.toNat_inj.mp h0)
    · exact absurd h0 hc

variable (hf : ¬ faults g g.currentDirCluster)
include hf

theorem safe_scanDir (e : Bool) (v : DirEntry → Verdict) (b : Buffer) :
    Calls NoDivide (scanDir g g.currentDirCluster e v fuel 0 b) :=
  calls_scanDir noDivide_transfer g (fun h => absurd h hf) e v fuel 0 b

theorem safe_listLoop (fuel : ℕ) : ∀ i (b : Buffer), Calls NoDivide (listLoop g fuel i b) := by
  induction fuel with
  | zero =>
    intro i b
    trivial
  | succ fuel ih =>
    intro i b
    refine calls_bind (calls_fatReadDirSector noDivide_transfer g (fun h => absurd h hf) i b) fun r => ?_
    cases r with
    | none => exact calls_kfree noDivide_transfer b
    | some b' =>
      refine calls_bind ((calls_listSector _ _ 0).mono noDivide_print) fun last => ?_
      cases last with
      | true => exact calls_kfree noDivide_transfer b'
      | false => exact ih (i + 1) b'

theorem safe_fatList : Calls NoDivide (fatList g fuel) := by
  rw [fatList]
  split
  · exact calls_noDivide_kprint _
  · refine calls_bind (calls_kmalloc noDivide_transfer 512) fun b => ?_
    split
    · exact calls_noDivide_kprint _
    · exact calls_noDivide_print (calls_noDivide_print (safe_listLoop hf fuel 0 b))

theorem safe_fatFindFile (name : List UInt8) : Calls NoDivide (fatFindFile g fuel name) := by
  rw [fatFindFile]
  split
  · exact calls_noDivide_print (calls_pure _)
  · refine calls_bind (calls_kmalloc noDivide_transfer 512) fun b => ?_
    split
    · exact calls_pure _
    · refine calls_bind (safe_scanDir hf true (findVerdict name) b) fun scan => ?_
      cases scan with
      | hit i k b' => exact calls_bind (calls_kfree noDivide_transfer b') fun _ => calls_pure _
      | stop b' => exact calls_bind (calls_kfree noDivide_transfer b') fun _ => calls_pure _
      | through b' => exact calls_bind (calls_kfree noDivide_transfer b') fun _ => calls_pure _

theorem safe_fatChangeDir (name : List UInt8) : Calls NoDivide (fatChangeDir g fuel name) := by
  rw [fatChangeDir]
  split
  · exact calls_noDivide_print (calls_pure _)
  · refine calls_bind (safe_fatFindFile hf name) fun found => ?_
    cases found with
    | none => exact calls_noDivide_print (calls_pure _)
    | some entry =>
      dsimp only
      split
      · exact calls_noDivide_print (calls_pure _)
      · exact calls_noDivide_print (calls_pure _)

theorem safe_fatCreateEntry (name : List UInt8) (attr : UInt8) (cluster : UInt16) (size : ℕ) :
    Calls NoDivide (fatCreateEntry g fuel name attr cluster size) := by
  have hfull : ∀ b, Calls NoDivide (do
      kfree b
      kprint (text "Directory full or error.\n")
      pure false) :=
    fun b => calls_bind (calls_kfree noDivide_transfer b) fun _ => calls_noDivide_print (calls_pure _)
  rw [fatCreateEntry]
  split
  · exact calls_pure _
  · refine calls_bind (calls_kmalloc noDivide_transfer 512) fun b => ?_
    refine calls_bind (safe_scanDir hf false freeVerdict b) fun scan => ?_
    cases scan with
    | hit i k b' =>
      refine calls_bind (calls_writeBackLba noDivide_transfer g (fun h => absurd h hf) i) fun lba => ?_
      refine calls_bind (calls_perform (by rintro ⟨⟩)) fun _ => ?_
      refine calls_bind (calls_kfree noDivide_transfer _) fun _ => ?_
      exact calls_noDivide_print (calls_noDivide_print (calls_noDivide_print (calls_pure _)))
    | stop b' => exact hfull b'
    | through b' => exact hfull b'

theorem safe_deleteFound (i k : ℕ) (b : Buffer) (message : String) :
    Calls NoDivide (deleteFound g fuel i k b message) := by
  refine calls_bind (calls_writeBackLba noDivide_transfer g (fun h => absurd h hf) i) fun lba => ?_
  refine calls_bind (calls_fatFreeClusterChain noDivide_transfer g (fun _ _ => by rintro ⟨⟩) fuel _) fun _ => ?_
  refine calls_bind (calls_perform (by rintro ⟨⟩)) fun _ => ?_
  refine calls_bind (calls_kfree noDivide_transfer _) fun _ => ?_
  exact calls_noDivide_print (calls_pure _)

theorem safe_fatDeleteFile (name : List UInt8) : Calls NoDivide (fatDeleteFile g fuel name) := by
  have hnone : ∀ b, Calls NoDivide (do
      kfree b
      kprint (text "File not found.\n")
      pure false) :=
    fun b => calls_bind (calls_kfree noDivide_transfer b) fun _ => calls_noDivide_print (calls_pure _)
  rw [fatDeleteFile]
  split
  · exact calls_pure _
  · refine calls_bind (calls_kmalloc noDivide_transfer 512) fun b => ?_
    refine calls_bind (safe_scanDir hf false (deleteFileVerdict name) b) fun scan => ?_
    cases scan with
    | hit i k b' =>
      dsimp only
      split
      · exact calls_noDivide_print (calls_bind (calls_kfree noDivide_transfer b') fun _ => calls_pure _)
      · exact safe_deleteFound hf i k b' _
    | stop b' => exact hnone b'
    | through b' => exact hnone b'

omit hf in
/-- `rmdir` also reads the directory it is to remove. -/
theorem safe_fatDeleteDir (hall : ∀ c, ¬ faults g c) (name : List UInt8) :
    Calls NoDivide (fatDeleteDir g fuel name) := by
  have hnone : ∀ b, Calls NoDivide (do
      kfree b
      kprint (text "Directory not found.\n")
      pure false) :=
    fun b => calls_bind (calls_kfree noDivide_transfer b) fun _ => calls_noDivide_print (calls_pure _)
  rw [fatDeleteDir]
  split
  · exact calls_pure _
  · refine calls_bind (calls_kmalloc noDivide_transfer 512) fun b => ?_
    refine calls_bind (safe_scanDir (hall _) false (deleteDirVerdict name) b) fun scan => ?_
    cases scan with
    | hit i k b' =>
      dsimp only
      split
      · exact calls_noDivide_print (calls_bind (calls_kfree noDivide_transfer b') fun _ => calls_pure _)
      · refine calls_bind (calls_fatIsDirEmpty noDivide_transfer g (fun h => absurd h (hall _)) fuel)
          fun empty => ?_
        cases empty with
        | false => exact calls_noDivide_print (calls_bind (calls_kfree noDivide_transfer b') fun _ => calls_pure _)
        | true => exact safe_deleteFound (hall _) i k b' _
    | stop b' => exact hnone b'
    | through b' => exact hnone b'

end Safe

/-! ### A root directory without sectors -/

/-- The current directory is the root, and the root has no sector. -/
structure EmptyRoot (g : Globals) : Prop where
  bytesPerSector : g.fatInfo.bytesPerSector ≠ 0
  root : g.currentDirCluster = 0
  noSectors : g.fatInfo.rootDirSectors = 0

section EmptyRoot

variable {A : (o : Call) → o.Res → Prop} {fuel : ℕ}

/-- The loop over its sectors ends at once. -/
theorem EmptyRoot.scanDir (h : EmptyRoot g) {e : Bool} {v : DirEntry → Verdict} {b : Buffer} {r : DirScan}
    (hr : MayReturn A (scanDir g g.currentDirCluster e v fuel 0 b) r) : r = .through b := by
  cases fuel with
  | zero => exact hr.elim
  | succ fuel =>
    have hread : fatReadDirSector g g.currentDirCluster 0 b = pure none := by
      rw [fatReadDirSector, if_pos h.root, if_neg h.bytesPerSector, if_pos h.noSectors.le]
    rw [Fat.scanDir, hread] at hr
    exact hr.symm

theorem EmptyRoot.fatFindFile (h : EmptyRoot g) {name : List UInt8} {r : Option DirEntry}
    (hr : MayReturn A (fatFindFile g fuel name) r) : r = none := by
  rw [Fat.fatFindFile] at hr
  split at hr
  · obtain ⟨-, -, hr⟩ := mayReturn_bind.mp hr
    exact hr.symm
  · obtain ⟨b, -, hr⟩ := mayReturn_bind.mp hr
    split at hr
    · exact hr.symm
    · obtain ⟨scan, hscan, hr⟩ := mayReturn_bind.mp hr
      rw [h.scanDir hscan] at hr
      obtain ⟨-, -, hr⟩ := mayReturn_bind.mp hr
      exact hr.symm

theorem EmptyRoot.fatDeleteDir (h : EmptyRoot g) (hf : ¬ faults g g.currentDirCluster) (name : List UInt8) :
    ¬ MayDivideByZero A (fatDeleteDir g fuel name) := by
  intro hdiv
  rw [Fat.fatDeleteDir] at hdiv
  split at hdiv
  · exact hdiv
  · obtain hdiv | ⟨b, -, hdiv⟩ := mayCall_bind.mp hdiv
    · exact not_mayDivide (calls_kmalloc noDivide_transfer 512) hdiv
    · obtain hdiv | ⟨scan, hscan, hdiv⟩ := mayCall_bind.mp hdiv
      · exact not_mayDivide (safe_scanDir hf false _ b) hdiv
      · rw [h.scanDir hscan] at hdiv
        refine not_mayDivide ?_ hdiv
        exact calls_bind (calls_kfree noDivide_transfer b) fun _ => calls_noDivide_print (calls_pure _)

end EmptyRoot

/-! ### Runs of calls -/

section Runs

variable {fuel : ℕ} {op : Operation}

/-- Either no directory's divisor is zero, or there is no directory to read. -/
theorem DivisorsSet.cases (h : DivisorsSet g) : (∀ c, ¬ faults g c) ∨ EmptyRoot g := by
  obtain ⟨hbps, hspc | ⟨hroot, hnone⟩⟩ := h
  · left
    intro c
    rw [faults]
    split
    · exact hbps
    · exact fun h0 => hspc (UInt8.toNat_inj.mp h0)
  · exact Or.inr ⟨hbps, hroot, hnone⟩

/-- **One call** does not divide by zero. -/
theorem DivisorsSet.safe (h : DivisorsSet g) (hop : op.Listed) (fuel : ℕ) {A : (o : Call) → o.Res → Prop} :
    ¬ MayDivideByZero A (op.code g fuel) := by
  have hf := h.not_faults
  have hdrop : ∀ {α : Type} {p : Kernel α}, Calls NoDivide p → ¬ MayDivideByZero A (do let _ ← p) :=
    fun hp => not_mayDivide (calls_bind hp fun _ => calls_pure _)
  cases op with
  | fatList => exact not_mayDivide (safe_fatList hf)
  | fatFindFile name => exact hdrop (safe_fatFindFile hf name)
  | fatChangeDir name => exact hdrop (safe_fatChangeDir hf name)
  | fatCreateEntry name attr cluster size => exact hdrop (safe_fatCreateEntry hf name attr cluster size)
  | fatDeleteFile name => exact hdrop (safe_fatDeleteFile hf name)
  | fatDeleteDir name =>
    cases h.cases with
    | inl hall => exact hdrop (safe_fatDeleteDir hall name)
    | inr hroot =>
      intro hdiv
      obtain hdiv | ⟨_, _, hdiv⟩ := mayCall_bind.mp hdiv
      · exact hroot.fatDeleteDir hf name hdiv
      · exact hdiv
  | fatInit => exact hop.elim
  | fatNextCluster cluster => exact hop.elim
  | fatWriteFatEntry cluster value => exact hop.elim
  | fatAllocateCluster => exact hop.elim
  | fatFreeClusterChain cluster => exact hop.elim
  | fatIsDirEmpty cluster => exact hop.elim

/-- `cd` moves to an entry it has found, or nowhere. -/
theorem mayReturn_fatChangeDir {A : (o : Call) → o.Res → Prop} {name : List UInt8}
    (hr : MayReturn A (fatChangeDir g fuel name) g₂) :
    g₂ = g ∨ ∃ e path, MayReturn A (fatFindFile g fuel name) (some e) ∧
      g₂ = { g with currentDirCluster := e.firstClusterLow, currentPath := path } := by
  rw [fatChangeDir] at hr
  split at hr
  · obtain ⟨-, -, hr⟩ := mayReturn_bind.mp hr
    exact Or.inl hr.symm
  · obtain ⟨found, hfound, hr⟩ := mayReturn_bind.mp hr
    cases found with
    | none =>
      obtain ⟨-, -, hr⟩ := mayReturn_bind.mp hr
      exact Or.inl hr.symm
    | some e =>
      dsimp only at hr
      split at hr
      · obtain ⟨-, -, hr⟩ := mayReturn_bind.mp hr
        exact Or.inr ⟨e, _, hfound, hr.symm⟩
      · obtain ⟨-, -, hr⟩ := mayReturn_bind.mp hr
        exact Or.inl hr.symm

/-- **One call** keeps the divisors set. -/
theorem DivisorsSet.step (h : DivisorsSet g) (hop : op.Listed) (hr : MayReturn anyAnswer (op.exec g fuel) g₂) :
    DivisorsSet g₂ := by
  have hsame : ∀ {p : Kernel Unit}, MayReturn anyAnswer (do p; pure g) g₂ → DivisorsSet g₂ := by
    intro p hp
    obtain ⟨-, -, rfl⟩ := mayReturn_bind.mp hp
    exact h
  cases op with
  | fatChangeDir name =>
    obtain rfl | ⟨e, path, hfound, rfl⟩ := mayReturn_fatChangeDir hr
    · exact h
    · obtain ⟨hbps, hspc | ⟨hroot, hnone⟩⟩ := h
      · exact ⟨hbps, Or.inl hspc⟩
      · -- nothing is found in a root directory without sectors
        cases EmptyRoot.fatFindFile ⟨hbps, hroot, hnone⟩ hfound
  | fatInit => exact hop.elim
  | fatList => exact hsame hr
  | fatFindFile name => exact hsame hr
  | fatCreateEntry name attr cluster size => exact hsame hr
  | fatDeleteFile name => exact hsame hr
  | fatDeleteDir name => exact hsame hr
  | fatNextCluster cluster => exact hop.elim
  | fatWriteFatEntry cluster value => exact hop.elim
  | fatAllocateCluster => exact hop.elim
  | fatFreeClusterChain cluster => exact hop.elim
  | fatIsDirEmpty cluster => exact hop.elim

/-- **Every sequence of calls** does. -/
theorem DivisorsSet.later (h : DivisorsSet g₁) (hlater : Later g₁ g₂) : DivisorsSet g₂ := by
  induction hlater with
  | refl => exact h
  | tail _ hstep ih =>
    obtain ⟨fuel, op, hop, hr⟩ := hstep
    exact ih.step hop hr

end Runs

/-! ### Where a divisor is zero -/

section Faulting

theorem fatReadDirSector_faults {c : UInt16} (hf : faults g c) (i : ℕ) (b : Buffer) :
    fatReadDirSector g c i b = divideError := by
  rw [faults] at hf
  rw [fatReadDirSector]
  by_cases hc : c = 0
  · rw [if_pos hc] at hf
    rw [if_pos hc, if_pos hf]
  · rw [if_neg hc] at hf
    rw [if_neg hc]
    exact if_pos hf

/-- `ls` in a directory that cannot be read. -/
theorem mayDivide_fatList (hinit : g.isFatInitialized = true) (hf : faults g g.currentDirCluster) :
    MayDivideByZero anyAnswer (fatList g 1) := by
  have hprint : ∀ message, MayReturn anyAnswer (kprint message) () := fun _ => mayReturn_perform.mpr trivial
  rw [fatList, if_neg (by rw [hinit]; decide)]
  refine mayCall_bind.mpr (Or.inr ⟨freshBlock fun _ => 0, mayReturn_perform.mpr trivial, ?_⟩)
  rw [if_neg (by decide)]
  refine mayCall_bind.mpr (Or.inr ⟨(), hprint _, ?_⟩)
  refine mayCall_bind.mpr (Or.inr ⟨(), hprint _, ?_⟩)
  rw [listLoop, fatReadDirSector_faults hf]
  exact mayCall_bind.mpr (Or.inl (Or.inl rfl))

/-- The entry of a directory `D` with the cluster 2. -/
def entryD : DirEntry := fillEntry (fun _ => 0) (text "d") attrDirectory 2 0

/-- A sector that begins with it. -/
def sectorD : Sector := putEntry (fun _ => 0) 0 entryD

/-- On a disk full of such sectors the lookup finds it, where the root directory has a sector. -/
theorem execute_find_entryD (hinit : g.isFatInitialized = true) (hbps : g.fatInfo.bytesPerSector ≠ 0)
    (hroot : g.currentDirCluster = 0) (hsome : g.fatInfo.rootDirSectors ≠ 0) :
    execute (fun _ => 0) (fatFindFile g 1 (text "d")) (fun _ => sectorD) =
      some (some entryD, fun _ => sectorD) := by
  have hf : ¬ faults g g.currentDirCluster := by
    rw [faults, if_pos hroot]
    exact hbps
  have hlba : dirLba g (fun _ => sectorD) g.currentDirCluster 0 = some g.rootDirSector := by
    rw [dirLba, if_pos hroot, if_neg (by omega)]
    rfl
  have hscan : scanSector (findVerdict (text "d")) sectorD 16 0 = .hit 0 := rfl
  have hget : Disk.get (fun _ => sectorD) g.rootDirSector = sectorD := rfl
  have hentry : entryAt sectorD 0 = entryD := entryAt_putEntry_same _ entryD (by decide)
  rw [fatFindFile, if_neg (by rw [hinit]; decide)]
  simp only [execute_bind, execute_kmalloc, Option.bind_some, freshBlock_ptr_ne, if_false, scanDir,
    execute_fatReadDirSector hf, hlba, Option.map_some, hget, hscan, execute_pure, execute_kfree, hentry]

/-- `cd d` into it, with answers the medium may give. -/
theorem later_cd (hinit : g.isFatInitialized = true) (hbps : g.fatInfo.bytesPerSector ≠ 0)
    (hroot : g.currentDirCluster = 0) (hsome : g.fatInfo.rootDirSectors ≠ 0) :
    ∃ path, Later g { g with currentDirCluster := 2, currentPath := path } := by
  have hcd := execute_fatChangeDir_found hinit (execute_find_entryD hinit hbps hroot hsome)
    (show isDirectory entryD = true from by decide +kernel)
  refine ⟨changedPath g.currentPath (text "d") entryD, Relation.ReflTransGen.single ?_⟩
  exact ⟨1, .fatChangeDir (text "d"), trivial, MayReturn.of_run (fun _ _ _ _ => trivial) hcd⟩

end Faulting

/-- **Mounting hostile media never faults** exactly when the divisors of the boot sector are set. -/
theorem mounting_never_faults_iff (g : Globals) (s : Sector) :
    NeverDividesByZero g s ↔ DivisorsSet (mountedFrom g s) := by
  constructor
  · rintro ⟨hinit, hlater⟩
    have hbps : (Bpb.parse s).bytesPerSector ≠ 0 := fun h0 => hinit (mayDivide_fatInit.mpr h0)
    have hmounted : MayReturn (bootSector s) (fatInit g) (mountedFrom g s) :=
      mayReturn_fatInit.mpr (Or.inr ⟨hbps, rfl⟩)
    -- `ls` faults in no directory that can be reached
    have hls : ∀ g₂, Later (mountedFrom g s) g₂ → g₂.isFatInitialized = true →
        ¬ faults g₂ g₂.currentDirCluster :=
      fun g₂ h₂ hi hf => hlater _ hmounted rfl g₂ h₂ 1 .fatList trivial (mayDivide_fatList hi hf)
    refine ⟨hbps, ?_⟩
    by_contra hnot
    have hspc : (Bpb.parse s).sectorsPerCluster = 0 := by
      by_contra hspc
      exact hnot (Or.inl hspc)
    have hroot : (mountedFrom g s).currentDirCluster = 0 := by
      by_contra hc
      refine hls _ Relation.ReflTransGen.refl rfl ?_
      rw [faults, if_neg hc]
      exact congrArg UInt8.toNat hspc
    obtain ⟨path, hcd⟩ := later_cd (g := mountedFrom g s) rfl hbps hroot fun h0 => hnot (Or.inr ⟨hroot, h0⟩)
    refine hls _ hcd rfl ?_
    rw [faults, if_neg (show ¬ (2 : UInt16) = 0 from by decide)]
    exact congrArg UInt8.toNat hspc
  · intro hset
    refine ⟨fun hdiv => hset.1 (mayDivide_fatInit.mp hdiv), ?_⟩
    intro g₁ h₁ hinfo g₂ h₂ fuel op hop
    have hset₁ : DivisorsSet g₁ := by
      obtain rfl | ⟨-, rfl⟩ := mayReturn_fatInit.mp h₁
      · rw [DivisorsSet, hinfo]
        exact hset
      · exact hset
    exact (hset₁.later h₂).safe hop fuel

/-- **An empty boot sector** is enough: `fat_init` itself divides by zero. -/
theorem empty_boot_sector_faults : ¬ ∀ g s, NeverDividesByZero g s := by
  intro hall
  exact (hall twoSectorRoot fun _ => 0).1 (mayDivide_fatInit.mpr rfl)

end OsEojin.Fat
