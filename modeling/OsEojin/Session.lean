import OsEojin.FatDelete
import OsEojin.FatFaults
import OsEojin.ShellBuffers

/-!
# A session at the prompt

Lines are typed one after another, whatever they say: commands on files, commands that only read, words that are
no command, and `mount` again.  A session ends where a program is loaded: its image may lie over memory in use, and
its pages change the map of the kernel.  On a well-formed volume each line comes back, unless it turns the machine
off or outgrows an array of the shell, and what stands in front of the first FAT and between the first FAT and the
root directory is never written.  So the boot sector stays, and the volume mounted from it stays the same volume.

* `typeLine`: one line; `Reserved`: the sectors in question; `SessionOk`: a mounted well-formed volume;
* `LineOk`: the lines that leave the kernel its memory, and the disk to the file system;
* `FsOk.reserved_putSlot`, `Geometry.reserved_zeroed`: the updates of the disk spare them;
* `branch_rule`: what the commands of a line keep, the line keeps; `line_ok`: one line;
* `session_keeps_volume`: every session.
-/

namespace OsEojin.Session

open OsEojin.Lib.Programs OsEojin.Lib.Runs OsEojin.Ata OsEojin.Fat OsEojin.Shell

/-- One typed line, up to the next prompt; there is no next line of the session when `exec` has loaded a file. -/
def typeLine (junk : Sector) (fuel : ℕ) (s : FileSystem) (input : List UInt8) : Option FileSystem :=
  (execute junk (userInput s.1 fuel input) s.2).bind fun r =>
    match r.1.exec with
    | none => some (r.1.fat, r.2)
    | some _ => none

/-- The sectors in front of the FAT, the boot sector the first of them, and all copies of the FAT but the first. -/
def Reserved (g : Globals) (lba : ℕ) : Prop :=
  lba < g.fatStartSector ∨ g.fatStartSector + g.fatInfo.fatSize16.toNat ≤ lba ∧ lba < g.rootDirSector

/-- **A mounted well-formed volume**: the globals are those `fat_init` reads from the boot sector. -/
structure SessionOk (s : FileSystem) : Prop where
  ok : FsOk s.1 s.2
  mounted : mountedFrom s.1 (s.2.get 0) = s.1

/-! ### Words of a line -/

/-- What `get_next_token` delimits is a word. -/
theorem isWord_of_token {input word : List UInt8} {offset stop : ℕ}
    (h : getNextToken input offset = (some word, stop)) : IsWord word := by
  rw [getNextToken] at h
  set i := offset + ((input.drop offset).takeWhile fun c => c == 32).length with hi
  by_cases h0 : input.getD i 0 = 0
  · rw [if_pos h0] at h
    cases h
  · simp only [if_neg h0, Prod.mk.injEq, Option.some.injEq] at h
    obtain ⟨rfl, -⟩ := h
    constructor
    · -- the blanks end at `i`, so the word has a first character
      have hdrop : input.drop i = (input.drop offset).dropWhile fun c => c == 32 := by
        have hsplit : ((input.drop offset).takeWhile fun c => c == 32) ++
            ((input.drop offset).dropWhile fun c => c == 32) = input.drop offset := List.takeWhile_append_dropWhile
        have hleft : (((input.drop offset).takeWhile fun c => c == 32) ++
            ((input.drop offset).dropWhile fun c => c == 32)).drop
              ((input.drop offset).takeWhile fun c => c == 32).length =
            (input.drop offset).dropWhile fun c => c == 32 := List.drop_left
        rw [hsplit] at hleft
        rw [hi, ← List.drop_drop, hleft]
      intro hempty
      cases hl : input.drop i with
      | nil =>
        rw [List.getD_eq_getElem?_getD, List.getElem?_eq_none (List.drop_eq_nil_iff.mp hl)] at h0
        exact h0 rfl
      | cons c cs =>
        have hc : input.getD i 0 = c := by
          rw [List.getD_eq_getElem?_getD, ← Nat.add_zero i, ← List.getElem?_drop, hl]
          rfl
        have h32 : c ≠ 32 := by
          intro h32
          have hhead := List.head?_dropWhile_not (fun c : UInt8 => c == 32) (input.drop offset)
          rw [← hdrop, hl] at hhead
          simp [h32] at hhead
        have hword : (c != 32 && c != 0) = true := by
          rw [hc] at h0
          simp [h32, h0]
        rw [hl, List.takeWhile_cons, if_pos hword] at hempty
        cases hempty
    · intro c hc
      have h := List.mem_takeWhile_imp hc
      simpa using h

/-! ### The reserved sectors -/

section Updates

variable {g : Globals} {d : Disk} {lba : ℕ}

theorem Reserved.lt_rootDir (hg : Geometry g) (h : Reserved g lba) : lba < g.rootDirSector := by
  have hfat := hg.fat_le_rootDir
  cases h with
  | inl hbefore => omega
  | inr hcopies => exact hcopies.2

/-- A sector from the root directory on is written. -/
theorem Geometry.reserved_put (hg : Geometry g) {at' : ℕ} (hlo : g.rootDirSector ≤ at') (hhi : at' < lbaSpace)
    (s : Sector) (h : Reserved g lba) : (d.put at' s).get lba = d.get lba := by
  have hlt := Reserved.lt_rootDir hg h
  rw [get_put s hhi (by omega), if_neg (by omega)]

/-- An entry of the first FAT is set. -/
theorem Geometry.reserved_setFatEntry (hg : Geometry g) {c : UInt16}
    (hc : c.toNat < 256 * g.fatInfo.fatSize16.toNat) (v : UInt16) (h : Reserved g lba) :
    (setFatEntry g d c v).get lba = d.get lba := by
  have hsector : fatSector g c = g.fatStartSector + c.toNat * 2 / 512 := rfl
  have hlt : lba < lbaSpace := by
    have := Reserved.lt_rootDir hg h
    have := hg.dataStart_lt
    have := hg.dataStart
    rw [lbaSpace]
    omega
  rw [setFatEntry, get_put _ (hg.fatSector_lt c) hlt, if_neg]
  cases h with
  | inl hbefore => omega
  | inr hcopies => omega

/-- The entries of a chain are set to zero. -/
theorem Geometry.reserved_zeroed (hg : Geometry g) {l : List UInt16}
    (hl : ∀ c ∈ l, c.toNat < 256 * g.fatInfo.fatSize16.toNat) (h : Reserved g lba) :
    (zeroed g d l).get lba = d.get lba := by
  induction l generalizing d with
  | nil => rfl
  | cons c l ih =>
    rw [zeroed_cons, ih fun x hx => hl x (List.mem_cons_of_mem c hx)]
    exact Geometry.reserved_setFatEntry hg (hl c List.mem_cons_self) 0 h

/-- A cluster is taken for a new directory. -/
theorem Geometry.reserved_withNewDir (hg : Geometry g) {c : UInt16} (h2 : 2 ≤ c.toNat)
    (hc : c.toNat < 256 * g.fatInfo.fatSize16.toNat) (h : Reserved g lba) :
    (withNewDir g d c).get lba = d.get lba := by
  rw [withNewDir, hg.fatLbaOfCluster_eq h2,
    Geometry.reserved_put hg (hg.rootDir_le_clusterLba c) (hg.clusterLba_lt c) _ h]
  exact Geometry.reserved_setFatEntry hg hc 0xFFFF h

end Updates

/-! ### The commands that write -/

/-- The volume is still well-formed and no reserved sector was written. -/
def Saves (g : Globals) (d d' : Disk) : Prop := FsOk g d' ∧ ∀ lba, Reserved g lba → d'.get lba = d.get lba

section Commands

variable {g : Globals} {d : Disk} {fuel : ℕ}

/-- The slot of an entry is written. -/
theorem FsOk.reserved_putSlot (h : FsOk g d) {n lba : ℕ} {e : DirEntry}
    (hsector : dirLba g d g.currentDirCluster (n / 16) = some lba) {lba' : ℕ} (hres : Reserved g lba') :
    (putSlot d lba (n % 16) e).get lba' = d.get lba' := by
  obtain ⟨p, hcwd⟩ := h.tree.cwd
  obtain ⟨hlo, hhi⟩ := h.dirLba_region hcwd hsector
  exact Geometry.reserved_put h.geometry hlo hhi _ hres

/-- An entry is marked after its clusters were freed. -/
theorem FsOk.reserved_deleted (h : FsOk g d) {n lba : ℕ} {e : DirEntry} {l : List UInt16}
    (hsector : dirLba g d g.currentDirCluster (n / 16) = some lba) (hl : EntryClusters g d e l)
    (hfuel : 65536 ≤ fuel) (s : Sector) :
    ∃ d₁, freeCluster g fuel e.firstClusterLow d = some d₁ ∧
      ∀ lba', Reserved g lba' → (d₁.put lba s).get lba' = d.get lba' := by
  obtain ⟨p, hcwd⟩ := h.tree.cwd
  obtain ⟨hlo, hhi⟩ := h.dirLba_region hcwd hsector
  refine ⟨zeroed g d l, freeCluster_eq_zeroed hfuel hl.1 hl.2, ?_⟩
  intro lba' hres
  rw [Geometry.reserved_put h.geometry hlo hhi s hres]
  apply Geometry.reserved_zeroed h.geometry _ hres
  intro c hc
  by_cases h0 : e.firstClusterLow = 0
  · rw [hl.2 h0] at hc
    cases hc
  · exact ((hl.1 h0).data_of_mem hc).2.2.1

theorem FsOk.saves_touch (h : FsOk g d) (junk : Sector) (hfuel : 2 ^ 24 ≤ fuel) (w : Word)
    (hc : Admissible (g, d) (.touch w)) :
    ∃ r, execute junk (fatCreateEntry g fuel w.val 0 0 0) d = some r ∧ Saves g d r.2 := by
  obtain ⟨r, hr, heff⟩ := h.touch junk hfuel w hc
  obtain ⟨r', hr', hres⟩ := h.createEntry_rule (P := fun d' => ∀ lba, Reserved g lba → d'.get lba = d.get lba)
    junk hfuel w.val (fun _ _ => rfl) 0 0 0 fun n e lba hslot lba' hl => FsOk.reserved_putSlot h hslot.sector hl
  obtain rfl := Option.some.inj (hr.symm.trans hr')
  exact ⟨r, hr, h.effect heff, hres⟩

theorem FsOk.saves_mkdir (h : FsOk g d) (junk : Sector) (hfuel : 2 ^ 24 ≤ fuel) (w : Word)
    (hc : Admissible (g, d) (.mkdir w)) :
    ∃ r, execute junk (cmdMkdir g fuel w.val) d = some r ∧ Saves g d r.2 := by
  obtain ⟨r, hr, heff⟩ := h.mkdir junk hfuel w hc
  refine ⟨r, hr, h.effect heff, ?_⟩
  by_cases hnone : ∀ k, ¬ FirstFree g d k
  · obtain rfl := Option.some.inj (hr.symm.trans (execute_cmdMkdir_full hnone))
    exact fun _ _ => rfl
  · push Not at hnone
    obtain ⟨k, hk⟩ := hnone
    obtain ⟨hk16, hdata, -⟩ := hc k hk
    have hok := h.newDir_ok hdata.1 hdata.2.2.1 (firstFree_fatEntry hk hk16)
    have hkept : ∀ lba, Reserved g lba → (withNewDir g d (UInt16.ofNat k)).get lba = d.get lba :=
      fun lba hl => Geometry.reserved_withNewDir h.geometry hdata.1 hdata.2.2.1 hl
    obtain ⟨r', hr', hres⟩ :=
      hok.createEntry_rule (P := fun d' => ∀ lba, Reserved g lba → d'.get lba = d.get lba) junk hfuel w.val hkept
        attrDirectory (UInt16.ofNat k) 0 fun n e lba hslot lba' hl =>
          (FsOk.reserved_putSlot hok hslot.sector hl).trans (hkept lba' hl)
    rw [execute_cmdMkdir_free hk] at hr
    obtain rfl := Option.some.inj (hr.symm.trans hr')
    exact hres

theorem FsOk.saves_rm (h : FsOk g d) (junk : Sector) (hfuel : 2 ^ 24 ≤ fuel) (w : Word)
    (hc : Admissible (g, d) (.rm w)) :
    ∃ r, execute junk (fatDeleteFile g fuel w.val) d = some r ∧ Saves g d r.2 := by
  obtain ⟨r, hr, heff⟩ := h.rm junk hfuel w hc
  obtain ⟨r', hr', hres⟩ := h.deleteFile_rule (P := fun d' => ∀ lba, Reserved g lba → d'.get lba = d.get lba)
    junk hfuel w.val (fun _ _ => rfl) fun n e lba ht hplain => by
      have hlive := hc n e lba ht hplain
      obtain ⟨l, hl⟩ := h.entryClusters hlive (h.named_of_plain hlive hplain)
      exact FsOk.reserved_deleted h ht.sector hl (show 65536 ≤ fuel from by omega) _
  obtain rfl := Option.some.inj (hr.symm.trans hr')
  exact ⟨r, hr, h.effect heff, hres⟩

theorem FsOk.saves_rmdir (h : FsOk g d) (junk : Sector) (hfuel : 2 ^ 24 ≤ fuel) (w : Word)
    (hc : Admissible (g, d) (.rmdir w)) :
    ∃ r, execute junk (fatDeleteDir g fuel w.val) d = some r ∧ Saves g d r.2 := by
  obtain ⟨p, hcwd⟩ := h.tree.cwd
  obtain ⟨r, hr, heff⟩ := h.rmdir junk hfuel w hc
  obtain ⟨r', hr', hres⟩ := h.deleteDir_rule (P := fun d' => ∀ lba, Reserved g lba → d'.get lba = d.get lba)
    junk hfuel w.val (fun _ _ => rfl) (fun n e lba ht hisdir => (hc n e lba ht hisdir).1)
    fun n e lba ht hisdir hempty => by
      obtain ⟨hlive, hnodot⟩ := hc n e lba ht hisdir
      obtain ⟨l, hl⟩ : ∃ l, EntryClusters g d e l := by
        rcases h.kind_of_empty hlive hempty with hnamed | hdot | hroot
        · exact h.entryClusters hlive hnamed
        · -- `.` is only removed in the root, where it has no clusters
          have hzero := (h.tree.dot hcwd hlive hdot).2.trans (hnodot hdot hempty)
          exact ⟨[], fun hne => absurd hzero hne, fun _ => rfl⟩
        · exact ⟨[], fun hne => absurd hroot.2 hne, fun _ => rfl⟩
      exact FsOk.reserved_deleted h ht.sector hl (show 65536 ≤ fuel from by omega) _
  obtain rfl := Option.some.inj (hr.symm.trans hr')
  exact ⟨r, hr, h.effect heff, hres⟩

/-- Sector 200, which `write` replaces, lies behind the FATs and in no directory. -/
def WriteSafe (s : FileSystem) : Prop :=
  s.1.rootDirSector ≤ 200 ∧
    ∀ dir parent, Dir (volume s.1 s.2) dir parent → ∀ i, dirLba s.1 s.2 dir i ≠ some 200

theorem FsOk.saves_write (h : FsOk g d) (hsafe : WriteSafe (g, d)) (s : Sector) : Saves g d (d.put 200 s) := by
  obtain ⟨hlo, hdirs⟩ := hsafe
  have hhi : 200 < lbaSpace := by decide
  refine ⟨⟨h.geometry, WellFormed.frame ?_ h.tree (dataRange g) ?_⟩, ?_⟩
  · intro dir parent hdir m
    refine dirSlot_congr (h.dirLba_same hdir ?_) ?_ m
    · intro l hl x hx
      exact h.geometry.fatEntry_put s hlo hhi (hl.data_of_mem hx).2.2.1
    · intro i lba hlba
      rw [get_put s hhi (h.dirLba_region hdir hlba).2, if_neg]
      intro h200
      rw [h200] at hlba
      exact hdirs dir parent hdir i hlba
  · intro x hx _
    exact h.geometry.fatEntry_put s hlo hhi hx.2.2.1
  · intro lba hres
    exact Geometry.reserved_put h.geometry hlo hhi s hres

end Commands

/-! ### One line -/

/-- A command is its name and its word. -/
theorem Command.ext_words {c c' : Command} (hname : c.name = c'.name) (hword : c.word.val = c'.word.val) :
    c = c' := by
  cases c <;> cases c' <;> simp only [Command.name] at hname <;>
    first
    | exact congrArg _ (Subtype.ext hword)
    | exact absurd hname (by decide)

/-- What a line must not be: longer than `key_buffer`; one with a word that outgrows its array, or an `exec` that
loads a file (`fits`); one that turns the machine off; a `write` onto the file system; a command on files the volume
has no room for or whose word names what a deletion may not take. -/
structure LineOk (junk : Sector) (s : FileSystem) (input : List UInt8) : Prop where
  short : input.length ≤ 255
  fits : ShellBuffers.LineFits (device junk) s.2 s.1 input
  on : ∀ command offset, getNextToken input 0 = (some command, offset) →
    ¬ (command = text "shutdown" ∨ command = text "halt")
  write : ∀ offset, getNextToken input 0 = (some (text "write"), offset) → WriteSafe s
  command : ∀ (c : Command) offset, getNextToken input 0 = (some c.name, offset) →
    (getNextToken input offset).1 = some c.word.val → Admissible s c

/-- The same volume, seen from another directory. -/
def SameVolume (g g' : Globals) : Prop :=
  ∃ cluster path, g' = { g with currentDirCluster := cluster, currentPath := path }

/-- The lines of the commands on files are such lines when the command is admissible. -/
theorem lineOk_command (junk : Sector) {s : FileSystem} {c : Command} (hc : Admissible s c)
    (hlength : c.word.val.length < 32) : LineOk junk s c.line := by
  obtain ⟨hname, hword⟩ := line_tokens c
  have hother : c.name ≠ text "shutdown" ∧ c.name ≠ text "halt" ∧ c.name ≠ text "write" := by
    cases c <;> simp only [Command.name] <;> decide
  have hshort : c.name.length ≤ 5 := by
    cases c <;> simp only [Command.name] <;> decide
  constructor
  · rw [Command.line, List.length_append, List.length_cons]
    omega
  · have hexec : c.name ≠ text "exec" := by
      cases c <;> simp only [Command.name] <;> decide
    refine ShellBuffers.lineFits_of_token hname (lt_of_le_of_lt hshort (by decide)) hexec ⟨?_, ?_⟩
    · intro b hb word hsome
      obtain rfl := Option.some.inj (hword.symm.trans hsome)
      have hsize : b.size = 32 := by
        rw [ShellBuffers.wordBuffer] at hb
        split at hb
        · obtain rfl := Option.some.inj hb
          rfl
        · split at hb
          · obtain rfl := Option.some.inj hb
            rfl
          · cases hb
      rw [hsize]
      exact hlength
    · exact fun hwrite => absurd hwrite hother.2.2
  · intro command offset htoken
    rw [hname, Prod.mk.injEq, Option.some.injEq] at htoken
    rw [← htoken.1]
    exact not_or.mpr ⟨hother.1, hother.2.1⟩
  · intro offset htoken
    rw [hname, Prod.mk.injEq, Option.some.injEq] at htoken
    exact absurd htoken.1 hother.2.2
  · intro c' offset htoken hword'
    rw [hname, Prod.mk.injEq, Option.some.injEq] at htoken
    obtain ⟨hsame, rfl⟩ := htoken
    rw [hword, Option.some.injEq] at hword'
    rwa [← Command.ext_words hsame hword']

theorem SameVolume.refl (g : Globals) : SameVolume g g := ⟨g.currentDirCluster, g.currentPath, rfl⟩

theorem SameVolume.trans {g₁ g₂ g₃ : Globals} (h₁ : SameVolume g₁ g₂) (h₂ : SameVolume g₂ g₃) :
    SameVolume g₁ g₃ := by
  obtain ⟨c, path, rfl⟩ := h₁
  obtain ⟨c', path', rfl⟩ := h₂
  exact ⟨c', path', rfl⟩

theorem SameVolume.reserved {g g' : Globals} (h : SameVolume g g') (lba : ℕ) :
    Reserved g' lba ↔ Reserved g lba := by
  obtain ⟨c, path, rfl⟩ := h
  rfl

/-- `fat_init` on a sector that divides well. -/
theorem execute_fatInit (junk : Sector) {g : Globals} {d : Disk}
    (h : (Bpb.parse (d.get 0)).bytesPerSector ≠ 0) :
    execute junk (fatInit g) d = some (mountedFrom g (d.get 0), d) := by
  simp only [fatInit, execute_bind, execute_kmalloc, Option.bind_some, freshBlock_ptr_ne, if_false,
    execute_ataReadSector, execute_kprint, execute_forM_kprint, if_neg h, execute_kfree, execute_pure]
  rfl

/-- On a mounted volume `mount` changes nothing. -/
theorem SessionOk.remount {s : FileSystem} (h : SessionOk s) (junk : Sector) :
    execute junk (fatInit s.1) s.2 = some (s.1, s.2) := by
  have hinfo : Bpb.parse (s.2.get 0) = s.1.fatInfo := congrArg Globals.fatInfo h.mounted
  rw [execute_fatInit junk (by rw [hinfo]; exact h.ok.geometry.bytesPerSector), h.mounted]

section Line

variable {s : FileSystem} {fuel : ℕ}

/-- The boot sector is not written, so the volume stays mounted. -/
theorem SessionOk.saved (h : SessionOk s) {d : Disk} (hsaves : Saves s.1 s.2 d) : SessionOk (s.1, d) := by
  refine ⟨hsaves.1, ?_⟩
  have hboot : Reserved s.1 0 := by
    refine Or.inl ?_
    have hreserved := h.ok.geometry.reservedSectors
    have hstart := h.ok.geometry.fatStart
    have hne : s.1.fatInfo.reservedSectors.toNat ≠ 0 := fun h0 => hreserved (UInt16.toNat_inj.mp h0)
    omega
  rw [hsaves.2 0 hboot]
  exact h.mounted

/-- `exec` that does not load. -/
theorem SessionOk.exec_refused (h : SessionOk s) (junk : Sector) (hfuel : 2 ^ 24 ≤ fuel) (w : List UInt8)
    (hnever : ∀ d, execute junk (ShellBuffers.execLoad s.1 fuel w) s.2 ≠ some (true, d)) :
    execute junk (cmdExec s.1 fuel w) s.2 = some (none, s.2) := by
  obtain ⟨r, hr⟩ := h.ok.lookup junk hfuel w
  cases r with
  | none =>
    simp only [cmdExec, execute_bind, hr, Option.bind_some, execute_fileNotFound, execute_pure]
  | some e =>
    obtain ⟨n, rfl⟩ : ∃ n, fuel = n + 1 := ⟨fuel - 1, by omega⟩
    have hsize := fileSize_lt e
    obtain ⟨⟨b, image⟩, hb⟩ := execute_loadLoop junk s.1 s.2 n
      (show e.fileSize ≤ 512 * n from by omega) e.firstClusterLow (freshBlock junk) []
    refine absurd ?_ (hnever s.2)
    simp only [ShellBuffers.execLoad, execute_bind, hr, execute_kmalloc, Option.bind_some, freshBlock_ptr_ne,
      if_false, hb, execute_kprint, execute_kfree, execute_pure]

/-- `cd` stays on the volume. -/
theorem SessionOk.moved (h : SessionOk s) {c : UInt16} (hdir : ∃ p, Dir (volume s.1 s.2) c p)
    (path : List UInt8) : SessionOk ({ s.1 with currentDirCluster := c, currentPath := path }, s.2) := by
  refine ⟨h.ok.move hdir path, ?_⟩
  have hsame : mountedFrom { s.1 with currentDirCluster := c, currentPath := path } (s.2.get 0) =
      { mountedFrom s.1 (s.2.get 0) with currentDirCluster := c, currentPath := path } := rfl
  rw [hsame, h.mounted]

/-- **The branches**: what the commands that write keep, whichever branch is taken keeps, and it comes back. -/
theorem branch_rule (junk : Sector) {g : Globals} {d : Disk} (h : FsOk g d) (hfuel : 2 ^ 24 ≤ fuel)
    {P : Disk → Prop} (command input : List UInt8) (offset : ℕ) (hkept : P d)
    (hon : ¬ (command = text "shutdown" ∨ command = text "halt"))
    (hwrite : command = text "write" → ∀ sector, P (d.put 200 sector))
    (htouch : command = text "touch" → ∀ w, (getNextToken input offset).1 = some w →
      ∃ r, execute junk (fatCreateEntry g fuel w 0 0 0) d = some r ∧ P r.2)
    (hmkdir : command = text "mkdir" → ∀ w, (getNextToken input offset).1 = some w →
      ∃ r, execute junk (cmdMkdir g fuel w) d = some r ∧ P r.2)
    (hrm : command = text "rm" → ∀ w, (getNextToken input offset).1 = some w →
      ∃ r, execute junk (fatDeleteFile g fuel w) d = some r ∧ P r.2)
    (hrmdir : command = text "rmdir" → ∀ w, (getNextToken input offset).1 = some w →
      ∃ r, execute junk (fatDeleteDir g fuel w) d = some r ∧ P r.2) :
    ∃ d', execute junk (branch g command input offset fuel) d = some ((), d') ∧ P d' := by
  have hquiet : ∀ {p : Kernel Unit}, execute junk p d = some ((), d) →
      ∃ d', execute junk p d = some ((), d') ∧ P d' := fun hp => ⟨d, hp, hkept⟩
  have harg := fun usage body => execute_withArg junk (P := P) usage (getNextToken input offset).1 body hkept
  rw [branch]
  by_cases h1 : command = text "help"
  · rw [if_pos h1]
    apply hquiet
    simp only [cmdHelp, execute_bind, execute_kprint, Option.bind_some]
  rw [if_neg h1]
  by_cases h2 : command = text "clear"
  · rw [if_pos h2]
    exact hquiet rfl
  rw [if_neg h2, if_neg hon]
  by_cases h3 : command = text "memory"
  · rw [if_pos h3]
    exact hquiet rfl
  rw [if_neg h3]
  by_cases h4 : command = text "echo"
  · rw [if_pos h4]
    apply hquiet
    simp only [execute_bind, execute_kprint, Option.bind_some]
  rw [if_neg h4]
  by_cases h5 : command = text "write"
  · rw [if_pos h5]
    exact ⟨_, execute_cmdWrite junk d _, hwrite h5 _⟩
  rw [if_neg h5]
  by_cases h6 : command = text "read"
  · rw [if_pos h6]
    apply hquiet
    simp only [cmdRead, execute_bind, execute_kmalloc, execute_kprint, execute_ataReadSector, execute_kfree,
      Option.bind_some]
  rw [if_neg h6]
  by_cases h7 : command = text "ls"
  · rw [if_pos h7]
    exact hquiet (h.ls junk hfuel)
  rw [if_neg h7]
  by_cases h8 : command = text "cat"
  · rw [if_pos h8]
    exact harg _ _ fun w _ => hquiet (h.cat junk hfuel w)
  rw [if_neg h8]
  by_cases h9 : command = text "touch"
  · rw [if_pos h9]
    apply harg
    intro w hw
    obtain ⟨⟨created, d'⟩, hr, hP⟩ := htouch h9 w hw
    refine ⟨d', ?_, hP⟩
    rw [cmdTouch, execute_bind, hr]
    cases created with
    | true => exact execute_kprint junk d' _
    | false => rfl
  rw [if_neg h9]
  by_cases h10 : command = text "mkdir"
  · rw [if_pos h10]
    exact harg _ _ fun w hw => execute_dropped junk (hmkdir h10 w hw)
  rw [if_neg h10]
  by_cases h11 : command = text "rm"
  · rw [if_pos h11]
    exact harg _ _ fun w hw => execute_dropped junk (hrm h11 w hw)
  rw [if_neg h11]
  by_cases h12 : command = text "rmdir"
  · rw [if_pos h12]
    exact harg _ _ fun w hw => execute_dropped junk (hrmdir h12 w hw)
  rw [if_neg h12]
  by_cases h13 : command = text "alloc"
  · rw [if_pos h13]
    exact hquiet (execute_cmdAlloc junk d)
  rw [if_neg h13]
  by_cases h14 : command = text "heap_test"
  · rw [if_pos h14]
    exact hquiet (execute_cmdHeapTest junk d)
  rw [if_neg h14]
  apply hquiet
  simp only [execute_bind, execute_kprint, Option.bind_some]

/-- A branch of an allowed line. -/
theorem SessionOk.branch (h : SessionOk s) (junk : Sector) (hfuel : 2 ^ 24 ≤ fuel) {command input : List UInt8}
    {offset : ℕ} (hline : LineOk junk s input) (htoken : getNextToken input 0 = (some command, offset)) :
    ∃ d, execute junk (branch s.1 command input offset fuel) s.2 = some ((), d) ∧ Saves s.1 s.2 d := by
  have hword : ∀ w, (getNextToken input offset).1 = some w → IsWord w := by
    intro w hw
    have htok : getNextToken input offset = (some w, (getNextToken input offset).2) := Prod.ext hw rfl
    exact isWord_of_token htok
  apply branch_rule junk h.ok hfuel command input offset ⟨h.ok, fun _ _ => rfl⟩ (hline.on _ _ htoken)
  · rintro rfl sector
    exact FsOk.saves_write h.ok (hline.write offset htoken) sector
  · rintro rfl w hw
    have hc := hline.command (.touch ⟨w, hword w hw⟩) offset htoken hw
    exact FsOk.saves_touch h.ok junk hfuel ⟨w, hword w hw⟩ hc
  · rintro rfl w hw
    have hc := hline.command (.mkdir ⟨w, hword w hw⟩) offset htoken hw
    exact FsOk.saves_mkdir h.ok junk hfuel ⟨w, hword w hw⟩ hc
  · rintro rfl w hw
    have hc := hline.command (.rm ⟨w, hword w hw⟩) offset htoken hw
    exact FsOk.saves_rm h.ok junk hfuel ⟨w, hword w hw⟩ hc
  · rintro rfl w hw
    have hc := hline.command (.rmdir ⟨w, hword w hw⟩) offset htoken hw
    exact FsOk.saves_rmdir h.ok junk hfuel ⟨w, hword w hw⟩ hc

/-- What holds after a line, or after many. -/
structure After (s s' : FileSystem) : Prop where
  session : SessionOk s'
  volume : SameVolume s.1 s'.1
  reserved : ∀ lba, Reserved s.1 lba → s'.2.get lba = s.2.get lba

theorem SessionOk.after (h : SessionOk s) : After s s := ⟨h, SameVolume.refl s.1, fun _ _ => rfl⟩

theorem After.trans {s' s'' : FileSystem} (h : After s s') (h' : After s' s'') : After s s'' := by
  refine ⟨h'.session, h.volume.trans h'.volume, ?_⟩
  intro lba hlba
  rw [h'.reserved lba ((h.volume.reserved lba).mpr hlba), h.reserved lba hlba]

/-- `cd` with its word. -/
theorem SessionOk.cd (h : SessionOk s) (junk : Sector) (hfuel : 2 ^ 24 ≤ fuel) (w : List UInt8) :
    ∃ g, execute junk (fatChangeDir s.1 fuel w) s.2 = some (g, s.2) ∧ After s (g, s.2) := by
  obtain ⟨g, hg, hmoved⟩ := h.ok.cd junk hfuel w
  refine ⟨g, hg, ?_⟩
  rcases hmoved with rfl | ⟨n, lba, e, hfound, hisdir, rfl⟩
  · exact h.after
  · exact ⟨h.moved (h.ok.dir_of_live (found_live hfound) hisdir) _, ⟨_, _, rfl⟩, fun _ _ => rfl⟩

/-- **One line**: it comes back. -/
theorem line_ok (junk : Sector) (hfuel : 2 ^ 24 ≤ fuel) (h : SessionOk s) {input : List UInt8}
    (hline : LineOk junk s input) : ∃ s', typeLine junk fuel s input = some s' ∧ After s s' := by
  rw [typeLine]
  cases htoken : getNextToken input 0 with
  | mk first offset =>
    cases first with
    | none =>
      simp only [userInput, htoken, execute_bind, execute_prompt, Option.bind_some, execute_pure]
      exact ⟨_, rfl, h.after⟩
    | some command =>
      by_cases hmount : command = text "mount"
      · simp only [userInput, htoken, if_pos hmount, execute_bind, h.remount junk, execute_prompt,
          Option.bind_some, execute_pure]
        exact ⟨_, rfl, h.after⟩
      by_cases hcd : command = text "cd"
      · simp only [userInput, htoken, if_neg hmount, if_pos hcd]
        cases (getNextToken input offset).1 with
        | none =>
          simp only [execute_bind, execute_kprint, execute_prompt, Option.bind_some, execute_pure]
          exact ⟨_, rfl, h.after⟩
        | some w =>
          obtain ⟨g, hg, hafter⟩ := h.cd junk hfuel w
          simp only [execute_bind, hg, execute_prompt, Option.bind_some, execute_pure]
          exact ⟨_, rfl, hafter⟩
      by_cases hexec : command = text "exec"
      · simp only [userInput, htoken, if_neg hmount, if_neg hcd, if_pos hexec]
        cases hw : (getNextToken input offset).1 with
        | none =>
          simp only [execute_bind, execute_kprint, execute_prompt, Option.bind_some, execute_pure]
          exact ⟨_, rfl, h.after⟩
        | some w =>
          have hr := h.exec_refused junk hfuel w fun d =>
            hline.fits.exec offset w fuel d (hexec ▸ htoken) hw
          simp only [execute_bind, hr, Option.bind_some, execute_prompt, execute_pure]
          exact ⟨_, rfl, h.after⟩
      obtain ⟨d, hd, hsaves⟩ := h.branch junk hfuel hline htoken
      rw [userInput_branch junk fuel htoken hmount hcd hexec, hd]
      exact ⟨_, rfl, h.saved hsaves, SameVolume.refl s.1, hsaves.2⟩

end Line

/-! ### A session -/

/-- **The volume survives a session.**  Whatever lines are typed on a well-formed volume, buffers and transfers
succeeding, as long as none outgrows the arrays of the shell, loads a program, turns the machine off, writes onto the
file system with `write`, or is a command on files the volume cannot take: each comes back to the prompt, the volume
stays well-formed, no reserved sector is written, and in the end `mount` still reads the very volume the session works
on. -/
theorem session_keeps_volume (junk : Sector) {fuel : ℕ} (hfuel : 2 ^ 24 ≤ fuel) (s : FileSystem)
    (hs : SessionOk s) (lines : List (List UInt8)) (hadm : AdmitsOption (typeLine junk fuel) (LineOk junk) s lines) :
    ∃ s', runOption (typeLine junk fuel) s lines = some s' ∧ FsOk s'.1 s'.2 ∧ SameVolume s.1 s'.1 ∧
      (∀ lba, Reserved s.1 lba → s'.2.get lba = s.2.get lba) ∧
      execute junk (fatInit s'.1) s'.2 = some (s'.1, s'.2) := by
  have hstep : ∀ s₁ input, After s s₁ → LineOk junk s₁ input →
      ∃ s₂, typeLine junk fuel s₁ input = some s₂ ∧ After s s₂ := by
    intro s₁ input hafter hline
    obtain ⟨s₂, hs₂, hafter'⟩ := line_ok junk hfuel hafter.session hline
    exact ⟨s₂, hs₂, hafter.trans hafter'⟩
  obtain ⟨s', hrun, hafter⟩ := runOption_invariant hstep s hs.after lines hadm
  exact ⟨s', hrun, hafter.session.ok, hafter.volume, hafter.reserved, hafter.session.remount junk⟩

theorem sessionOk_small : SessionOk (smallVolume, smallDisk) := ⟨fsOk_small, rfl⟩

theorem lineOk_mount (junk : Sector) (s : FileSystem) : LineOk junk s (text "mount") := by
  have htoken : getNextToken (text "mount") 0 = (some (text "mount"), 5) := by decide
  constructor
  · decide
  · exact ShellBuffers.lineFits_of_token htoken (by decide) (by decide)
      (ShellBuffers.wordFits_of_plain (by decide) (by decide))
  · intro command offset h
    rw [htoken, Prod.mk.injEq, Option.some.injEq] at h
    rw [← h.1]
    decide
  · intro offset h
    rw [htoken, Prod.mk.injEq, Option.some.injEq] at h
    exact absurd h.1 (by decide)
  · intro c offset h _
    rw [htoken, Prod.mk.injEq, Option.some.injEq] at h
    cases c <;> exact absurd h.1 (by simp only [Command.name]; decide)

/-- `mount` and `mkdir d` on the empty volume. -/
theorem session_keeps_volume_small :
    ∃ s', runOption (typeLine (fun _ => 0) (2 ^ 24)) (smallVolume, smallDisk)
        [text "mount", (Command.mkdir wordD).line] = some s' ∧ FsOk s'.1 s'.2 ∧ SameVolume smallVolume s'.1 ∧
      (∀ lba, Reserved smallVolume lba → s'.2.get lba = smallDisk.get lba) ∧
      execute (fun _ => 0) (fatInit s'.1) s'.2 = some (s'.1, s'.2) := by
  apply session_keeps_volume (fun _ => 0) le_rfl (smallVolume, smallDisk) sessionOk_small
  refine ⟨lineOk_mount _ _, ?_⟩
  intro s' hs'
  have hmount : typeLine (fun _ => 0) (2 ^ 24) (smallVolume, smallDisk) (text "mount") =
      some (smallVolume, smallDisk) := rfl
  obtain rfl := Option.some.inj (hmount.symm.trans hs')
  exact ⟨lineOk_command _ (smallDisk_admits_mkdir wordD) (by decide), fun _ _ => trivial⟩

end OsEojin.Session
