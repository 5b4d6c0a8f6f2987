import OsEojin.FatSpec

/-!
# The calls the file system makes

Which calls the functions of `fat.c` can make, whatever they are answered: the same for every property of
calls that the transfers have, and the division where a divisor is zero.

* `IsTransfer`: blocks taken and freed, sectors read;
* `calls_scanDir`, `calls_writeBackLba`: the loop over a directory, and the address it is written back to;
* `calls_fatFreeClusterChain`, `calls_fatIsDirEmpty`: what the deletions call.
-/

namespace OsEojin.Fat

open OsEojin.Lib.Programs OsEojin.Lib.Programs.Program OsEojin.Ata

/-- The calls that bring sectors into buffers. -/
def IsTransfer : Call → Prop
  | .kmalloc _ => True
  | .kfree _ => True
  | .ataReadSector _ _ => True
  | _ => False

theorem IsTransfer.isFetch {o : Call} (ho : IsTransfer o) : IsFetch o := by
  cases o <;> first | exact ho | trivial

theorem IsTransfer.isQuiet {o : Call} (ho : IsTransfer o) : IsQuiet o := by
  cases o <;> first | exact ho | trivial

section Calling

variable {C : Call → Prop} (hC : ∀ o, IsTransfer o → C o) (g : Globals)
include hC

/-! ### Reading -/

theorem calls_kmalloc (size : ℕ) : Calls C (kmalloc size) := calls_perform (hC _ trivial)

theorem calls_kfree (b : Buffer) : Calls C (kfree b) := calls_perform (hC _ trivial)

theorem calls_ataReadSector (lba : ℕ) (b : Buffer) : Calls C (ataReadSector lba b) :=
  calls_bind (calls_perform (hC _ trivial)) fun _ => calls_pure _

theorem calls_fatNextCluster (cluster : UInt16) : Calls C (fatNextCluster g cluster) := by
  refine calls_bind (calls_kmalloc hC 512) fun b => ?_
  refine calls_bind (calls_ataReadSector hC _ b) fun b' => ?_
  exact calls_bind (calls_kfree hC b') fun _ => calls_pure _

theorem calls_dirClusterLoop (n : ℕ) : ∀ curr, Calls C (dirClusterLoop g n curr) := by
  induction n with
  | zero =>
    intro curr
    rw [dirClusterLoop]
    split
    · exact calls_pure _
    · exact calls_pure _
  | succ n ih =>
    intro curr
    rw [dirClusterLoop]
    split
    · exact calls_pure _
    · exact calls_bind (calls_fatNextCluster hC g curr) ih

theorem calls_followLinks (n : ℕ) : ∀ curr, Calls C (followLinks g n curr) := by
  induction n with
  | zero =>
    intro curr
    exact calls_pure _
  | succ n ih =>
    intro curr
    exact calls_bind (calls_fatNextCluster hC g curr) ih

omit hC in
theorem calls_divideError {α : Type} (hdiv : C .divideError) : Calls C (divideError : Kernel α) :=
  ⟨hdiv, fun e => e.elim⟩

/-! ### Directories -/

theorem calls_fatReadDirSector {c : UInt16} (hdiv : faults g c → C .divideError) (i : ℕ) (b : Buffer) :
    Calls C (fatReadDirSector g c i b) := by
  have hread : ∀ lba, Calls C (do let b ← ataReadSector lba b; pure (some b)) :=
    fun lba => calls_bind (calls_ataReadSector hC lba b) fun _ => calls_pure _
  rw [faults] at hdiv
  rw [fatReadDirSector]
  by_cases hc : c = 0
  · rw [if_pos hc] at hdiv
    rw [if_pos hc]
    split
    · rename_i h0
      exact calls_divideError (hdiv h0)
    · split
      · exact calls_pure _
      · exact hread _
  · rw [if_neg hc] at hdiv
    rw [if_neg hc]
    simp only
    split
    · rename_i h0
      exact calls_divideError (hdiv h0)
    · refine calls_bind (calls_dirClusterLoop hC g _ c) fun r => ?_
      cases r with
      | none => exact calls_pure _
      | some curr => exact hread _

/-- **A scan of a directory** only fetches its sectors. -/
theorem calls_scanDir {c : UInt16} (hdiv : faults g c → C .divideError) (e : Bool)
    (v : DirEntry → Verdict) (fuel : ℕ) : ∀ i (b : Buffer), Calls C (scanDir g c e v fuel i b) := by
  induction fuel with
  | zero =>
    intro i b
    trivial
  | succ fuel ih =>
    intro i b
    refine calls_bind (calls_fatReadDirSector hC g hdiv i b) fun r => ?_
    cases r with
    | none => exact calls_pure _
    | some b' =>
      simp only
      split
      · exact calls_pure _
      · exact ih (i + 1) b'
      · split
        · exact calls_pure _
        · exact ih (i + 1) b'

theorem calls_writeBackLba (hdiv : faults g g.currentDirCluster → C .divideError) (i : ℕ) :
    Calls C (writeBackLba g i) := by
  rw [faults] at hdiv
  rw [writeBackLba]
  by_cases hc : g.currentDirCluster = 0
  · rw [if_pos hc]
    exact calls_pure _
  · rw [if_neg hc] at hdiv
    rw [if_neg hc]
    simp only
    split
    · rename_i h0
      exact calls_divideError (hdiv h0)
    · exact calls_bind (calls_followLinks hC g _ _) fun _ => calls_pure _

theorem calls_fatIsDirEmpty {cluster : UInt16} (hdiv : faults g cluster → C .divideError) (fuel : ℕ) :
    Calls C (fatIsDirEmpty g fuel cluster) := by
  refine calls_bind (calls_kmalloc hC 512) fun b => ?_
  split
  · exact calls_pure _
  · refine calls_bind (calls_scanDir hC g hdiv true emptyVerdict fuel 0 b) fun r => ?_
    cases r with
    | hit i k b' => exact calls_bind (calls_kfree hC b') fun _ => calls_pure _
    | stop b' => exact calls_bind (calls_kfree hC b') fun _ => calls_pure _
    | through b' => exact calls_bind (calls_kfree hC b') fun _ => calls_pure _

/-! ### Writing -/

variable (hwrite : ∀ lba b, C (.ataWriteSector lba b))
include hwrite

theorem calls_fatWriteFatEntry (cluster value : UInt16) : Calls C (fatWriteFatEntry g cluster value) := by
  refine calls_bind (calls_kmalloc hC 512) fun b => ?_
  refine calls_bind (calls_ataReadSector hC _ b) fun b' => ?_
  exact calls_bind (calls_perform (hwrite _ _)) fun _ => calls_kfree hC _

theorem calls_freeLoop (fuel : ℕ) : ∀ curr, Calls C (freeLoop g fuel curr) := by
  induction fuel with
  | zero =>
    intro curr
    trivial
  | succ fuel ih =>
    intro curr
    rw [freeLoop]
    split
    · refine calls_bind (calls_fatNextCluster hC g curr) fun next => ?_
      exact calls_bind (calls_fatWriteFatEntry hC g hwrite curr 0x0000) fun _ => ih next
    · exact calls_pure _

theorem calls_fatFreeClusterChain (fuel : ℕ) (cluster : UInt16) :
    Calls C (fatFreeClusterChain g fuel cluster) := by
  rw [fatFreeClusterChain]
  split
  · exact calls_pure _
  · exact calls_freeLoop hC g hwrite fuel cluster

end Calling

end OsEojin.Fat
