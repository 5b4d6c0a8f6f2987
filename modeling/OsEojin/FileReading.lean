import OsEojin.DeleteScan
import OsEojin.FatGeometry

/-!
# The two loops that read a file

`cat` prints a file and `exec` stages one, each with a loop of its own.  Both read one sector of every cluster
they visit, and both stop with the size or the chain, whichever ends first.

* `visited`, `staged`: the clusters a loop visits and the bytes it reads, for any disk;
* `Reader`, `reader`: the console with an account of the sectors read;
* `run_catLoop`, `run_loadLoop`: the two loops on it;
* `cat_and_exec_read_alike`: where their bytes differ;
* `fileBytes`, `staged_chain`: the file of a well-formed chain, and what the loops read of it;
* `cat_faithful_iff`: when `cat` prints the file.
-/

namespace OsEojin.FileReading

open OsEojin.Lib.Programs OsEojin.Lib.Programs.Program OsEojin.Ata OsEojin.Fat OsEojin.Shell

variable {junk : Sector} {g : Globals} {d : Disk}

/-! ### What a loop reads -/

section Loops

variable (g d)

/-- The clusters a loop visits, `n` at most. -/
def visited : ℕ → ℕ → UInt16 → List UInt16
  | 0, _, _ => []
  | n + 1, size, c =>
    if 0 < size ∧ c < 0xFFF8 then c :: visited n (size - min 512 size) (fatEntry g d c) else []

/-- The bytes it reads there: of each cluster the first sector, or what is left of the size. -/
def staged : ℕ → ℕ → UInt16 → List UInt8
  | 0, _, _ => []
  | n + 1, size, c =>
    if 0 < size ∧ c < 0xFFF8 then
      takeBytes (d.get (fatLbaOfCluster g c)) (min 512 size) ++
        staged n (size - min 512 size) (fatEntry g d c)
    else []

/-- None of the bytes is NUL. -/
def NulFree : ℕ → ℕ → UInt16 → Prop
  | 0, _, _ => True
  | n + 1, size, c =>
    0 < size ∧ c < 0xFFF8 → (∀ i < min 512 size, byteAt (d.get (fatLbaOfCluster g c)) i ≠ 0) ∧
      NulFree n (size - min 512 size) (fatEntry g d c)

end Loops

theorem mem_takeBytes {s : Sector} {n : ℕ} {b : UInt8} : b ∈ takeBytes s n ↔ ∃ i < n, byteAt s i = b := by
  simp [takeBytes]

@[simp] theorem length_takeBytes (s : Sector) (n : ℕ) : (takeBytes s n).length = n := by
  simp [takeBytes]

theorem nulFree_iff (n : ℕ) : ∀ size c, NulFree g d n size c ↔ ∀ b ∈ staged g d n size c, b ≠ 0 := by
  induction n with
  | zero =>
    intro size c
    simp [NulFree, staged]
  | succ n ih =>
    intro size c
    rw [NulFree, staged]
    split
    · rename_i hcond
      rw [ih]
      simp only [hcond, and_self, forall_const, List.mem_append, mem_takeBytes]
      constructor
      · intro h b hb
        cases hb with
        | inl hb =>
          obtain ⟨i, hi, hib⟩ := hb
          rw [← hib]
          exact h.1 i hi
        | inr hb => exact h.2 b hb
      · intro h
        exact ⟨fun i hi => h _ (Or.inl ⟨i, hi, rfl⟩), fun b hb => h b (Or.inr hb)⟩
    · rename_i hcond
      simp [hcond]

/-- What `kprint` shows of bytes handed to it one by one. -/
theorem flatten_cString (l : List UInt8) : (l.map fun b => cString [b]).flatten = l.filter (· ≠ 0) := by
  induction l with
  | nil => rfl
  | cons b l ih =>
    rw [List.map_cons, List.flatten_cons, ih]
    by_cases hb : b = 0
    · simp [hb, cString]
    · simp [hb, cString]

/-! ### The loops -/

/-- The console and the sectors read so far. -/
structure Reader where
  console : Console
  reads : List ℕ

/-- The account after a call. -/
def noteRead : Call → List ℕ → List ℕ
  | .ataReadSector lba _, reads => reads ++ [lba]
  | _, reads => reads

/-- The console with an account of the sectors read. -/
def reader (junk : Sector) (o : Call) (s : Reader) : Option (o.Res × Reader) :=
  (console junk o s.console).map fun r => (r.1, ⟨r.2, noteRead o s.reads⟩)

theorem run_reader_console {α : Type} (junk : Sector) (p : Kernel α) (s : Reader) :
    (p.run (reader junk) s).map (fun r => (r.1, r.2.console)) = p.run (console junk) s.console := by
  refine run_project (f := Reader.console) ?_ p s
  intro o t
  rw [reader]
  cases console junk o t.console with
  | none => rfl
  | some r => rfl

/-- The sectors read on the way through a cluster: its first one, and the one of its FAT entry. -/
def clusterReads (g : Globals) (c : UInt16) : List ℕ := [fatLbaOfCluster g c, fatSector g c]

theorem run_ataReadSector (lba : ℕ) (b : Buffer) (ms : List (List UInt8)) (reads : List ℕ) :
    (ataReadSector lba b).run (reader junk) ⟨⟨d, ms⟩, reads⟩ =
      some ({ b with data := d.get lba }, ⟨⟨d, ms⟩, reads ++ [lba]⟩) := rfl

theorem run_fatNextCluster (c : UInt16) (ms : List (List UInt8)) (reads : List ℕ) :
    (fatNextCluster g c).run (reader junk) ⟨⟨d, ms⟩, reads⟩ =
      some (fatEntry g d c, ⟨⟨d, ms⟩, reads ++ [fatSector g c]⟩) := rfl

/-- Induction on the bytes printed. -/
theorem run_forM_kprint (f : UInt8 → List UInt8) (reads : List ℕ) (l : List UInt8) :
    ∀ ms : List (List UInt8), (l.forM fun c => kprint (f c)).run (reader junk) ⟨⟨d, ms⟩, reads⟩ =
      some ((), ⟨⟨d, (l.map f).reverse ++ ms⟩, reads⟩) := by
  induction l with
  | nil =>
    intro ms
    rfl
  | cons c l ih =>
    intro ms
    simp only [List.forM_eq_forM, List.forM_cons, run_bind] at ih ⊢
    rw [List.map_cons, List.reverse_cons, List.append_assoc]
    exact ih (f c :: ms)

/-- **The loop of `cat`** ends with the size, wherever the links lead. -/
theorem run_catLoop (junk : Sector) (g : Globals) (d : Disk) (n : ℕ) : ∀ (size : ℕ) (c : UInt16)
    (b : Buffer) (ms : List (List UInt8)) (reads : List ℕ), size ≤ 512 * n →
    ∃ b', (catLoop g (n + 1) size c b).run (reader junk) ⟨⟨d, ms⟩, reads⟩ =
      some (b', ⟨⟨d, ((staged g d n size c).map fun x => cString [x]).reverse ++ ms⟩,
        reads ++ (visited g d n size c).flatMap (clusterReads g)⟩) := by
  induction n with
  | zero =>
    intro size c b ms reads hsize
    rw [catLoop, if_neg (by omega)]
    exact ⟨b, by simp [staged, visited]⟩
  | succ n ih =>
    intro size c b ms reads hsize
    rw [catLoop, staged, visited]
    split
    · obtain ⟨b', hb'⟩ := ih (size - min 512 size) (fatEntry g d c) { b with data := d.get (fatLbaOfCluster g c) }
        (((takeBytes (d.get (fatLbaOfCluster g c)) (min 512 size)).map fun x => cString [x]).reverse ++ ms)
        (reads ++ [fatLbaOfCluster g c] ++ [fatSector g c]) (by omega)
      refine ⟨b', ?_⟩
      rw [run_bind, run_ataReadSector, Option.bind_some, run_bind, run_forM_kprint, Option.bind_some, run_bind,
        run_fatNextCluster, Option.bind_some, hb']
      simp [clusterReads]
    · exact ⟨b, by simp⟩

/-- **The loop of `exec`** likewise, with the bytes in its image. -/
theorem run_loadLoop (junk : Sector) (g : Globals) (d : Disk) (n : ℕ) : ∀ (size : ℕ) (c : UInt16)
    (b : Buffer) (image : List UInt8) (ms : List (List UInt8)) (reads : List ℕ), size ≤ 512 * n →
    ∃ b', (loadLoop g (n + 1) size c b image).run (reader junk) ⟨⟨d, ms⟩, reads⟩ =
      some ((b', image ++ staged g d n size c),
        ⟨⟨d, ms⟩, reads ++ (visited g d n size c).flatMap (clusterReads g)⟩) := by
  induction n with
  | zero =>
    intro size c b image ms reads hsize
    rw [loadLoop, if_neg (by omega)]
    exact ⟨b, by simp [staged, visited]⟩
  | succ n ih =>
    intro size c b image ms reads hsize
    have hcopy : (if 512 < size then 512 else size) = min 512 size := by
      split
      · omega
      · omega
    rw [loadLoop, staged, visited]
    split
    · obtain ⟨b', hb'⟩ := ih (size - min 512 size) (fatEntry g d c) { b with data := d.get (fatLbaOfCluster g c) }
        (image ++ takeBytes (d.get (fatLbaOfCluster g c)) (min 512 size)) ms
        (reads ++ [fatLbaOfCluster g c] ++ [fatSector g c]) (by omega)
      refine ⟨b', ?_⟩
      rw [run_bind, run_ataReadSector, Option.bind_some]
      dsimp only
      rw [run_bind, run_fatNextCluster, Option.bind_some, hcopy, hb']
      simp [clusterReads]
    · exact ⟨b, by simp⟩

/-! ### The loops side by side -/

/-- The bytes on the console. -/
def printed (messages : List (List UInt8)) : List UInt8 := messages.reverse.flatten

/-- Both loops end on the entry `e`, they read the same sectors, and what one prints the other stores. -/
def ReadsAlike (junk : Sector) (g : Globals) (d : Disk) (n : ℕ) (e : DirEntry) (buf : Buffer) : Prop :=
  ∃ b s r t, (catLoop g (n + 1) e.fileSize e.firstClusterLow buf).run (reader junk) ⟨⟨d, []⟩, []⟩ = some (b, s) ∧
    (loadLoop g (n + 1) e.fileSize e.firstClusterLow buf []).run (reader junk) ⟨⟨d, []⟩, []⟩ = some (r, t) ∧
    s.reads = t.reads ∧ printed s.console.messages = r.2

theorem printed_staged (l : List UInt8) (ms : List (List UInt8)) :
    printed ((l.map fun x => cString [x]).reverse ++ ms) = printed ms ++ l.filter (· ≠ 0) := by
  rw [printed, List.reverse_append, List.reverse_reverse, List.flatten_append, flatten_cString]
  rfl

theorem readsAlike_iff {n : ℕ} {e : DirEntry} (hn : e.fileSize ≤ 512 * n) (buf : Buffer) :
    ReadsAlike junk g d n e buf ↔ NulFree g d n e.fileSize e.firstClusterLow := by
  obtain ⟨b, hcat⟩ := run_catLoop junk g d n e.fileSize e.firstClusterLow buf [] [] hn
  obtain ⟨b', hload⟩ := run_loadLoop junk g d n e.fileSize e.firstClusterLow buf [] [] [] hn
  rw [nulFree_iff]
  constructor
  · intro halike x hx h0
    obtain ⟨b₁, s, r, t, hs, ht, -, heq⟩ := halike
    rw [hcat] at hs
    rw [hload] at ht
    rw [← (Prod.mk.inj (Option.some.inj hs)).2, ← (Prod.mk.inj (Option.some.inj ht)).1, printed_staged] at heq
    have hmem : x ∈ (staged g d n e.fileSize e.firstClusterLow).filter (· ≠ 0) := by
      have hsame : (staged g d n e.fileSize e.firstClusterLow).filter (· ≠ 0)
          = staged g d n e.fileSize e.firstClusterLow := heq
      rw [hsame]
      exact hx
    exact of_decide_eq_true (List.mem_filter.mp hmem).2 h0
  · intro hfree
    refine ⟨b, _, (b', _), _, hcat, hload, rfl, ?_⟩
    rw [printed_staged, List.filter_eq_self.mpr fun x hx => decide_eq_true (hfree x hx)]
    rfl

/-- **`cat` and `exec` read alike, up to NUL bytes.**  For every disk and every directory entry both loops end,
on the same clusters in the same order; what `exec` stores is what `cat` prints exactly when none of the bytes
read is NUL, for a NUL in front of `kprint`'s own terminator is an empty string. -/
theorem cat_and_exec_read_alike (junk : Sector) (g : Globals) (d : Disk) (e : DirEntry) (buf : Buffer) (n : ℕ)
    (hn : e.fileSize ≤ 512 * n) :
    (∃ b s r t, (catLoop g (n + 1) e.fileSize e.firstClusterLow buf).run (reader junk) ⟨⟨d, []⟩, []⟩ = some (b, s) ∧
      (loadLoop g (n + 1) e.fileSize e.firstClusterLow buf []).run (reader junk) ⟨⟨d, []⟩, []⟩ = some (r, t) ∧
      s.reads = (visited g d n e.fileSize e.firstClusterLow).flatMap (clusterReads g) ∧
      t.reads = (visited g d n e.fileSize e.firstClusterLow).flatMap (clusterReads g)) ∧
    (ReadsAlike junk g d n e buf ↔ NulFree g d n e.fileSize e.firstClusterLow) := by
  obtain ⟨b, hcat⟩ := run_catLoop junk g d n e.fileSize e.firstClusterLow buf [] [] hn
  obtain ⟨b', hload⟩ := run_loadLoop junk g d n e.fileSize e.firstClusterLow buf [] [] [] hn
  exact ⟨⟨b, _, _, _, hcat, hload, rfl, rfl⟩, readsAlike_iff hn buf⟩

/-- An entry of one byte in cluster `2`. -/
def oneByteEntry : DirEntry := fun i => if i.val = 26 then 2 else if i.val = 28 then 1 else 0

/-- A file that holds the letter `A`. -/
theorem cat_and_exec_letter :
    ReadsAlike (fun _ => 0) twoSectorRoot (fun _ _ => 65) 1 oneByteEntry (freshBlock fun _ => 0) := by
  refine (cat_and_exec_read_alike (fun _ => 0) twoSectorRoot (fun _ _ => 65) oneByteEntry
    (freshBlock fun _ => 0) 1 (by decide)).2.mpr ?_
  intro _
  exact ⟨fun i _ => by decide +revert, trivial⟩

/-- A file that holds a NUL: `exec` stores it, `cat` prints nothing. -/
theorem cat_and_exec_nul :
    ¬ ReadsAlike (fun _ => 0) twoSectorRoot (fun _ _ => 0) 1 oneByteEntry (freshBlock fun _ => 0) := by
  rw [readsAlike_iff (by decide)]
  intro hfree
  exact (hfree ⟨by decide, by decide⟩).1 0 (by decide) rfl

/-! ### A file and its chain -/

/-- The number of sectors of a cluster. -/
def spc (g : Globals) : ℕ := g.fatInfo.sectorsPerCluster.toNat

/-- The bytes of a cluster, all its sectors. -/
def clusterBytes (g : Globals) (d : Disk) (c : UInt16) : List UInt8 :=
  (List.range (spc g)).flatMap fun k => takeBytes (d.get (fatLbaOfCluster g c + k)) 512

/-- The clusters of a chain one after the other. -/
def fileBytes (g : Globals) (d : Disk) (l : List UInt16) : List UInt8 := l.flatMap (clusterBytes g d)

/-- Their first sectors one after the other. -/
def firstSectors (g : Globals) (d : Disk) (l : List UInt16) : List UInt8 :=
  l.flatMap fun c => takeBytes (d.get (fatLbaOfCluster g c)) 512

/-- The chain of a file: none, or linked data clusters up to an end mark. -/
def FileChain (g : Globals) (d : Disk) (c : UInt16) (l : List UInt16) : Prop :=
  l = [] ∨ Chain (fatEntry g d) (fun x => 2 ≤ x ∧ x < 0xFFF8) c l

/-- Blocks of one length: the place of an element. -/
theorem getElem?_flatMap_blocks {α β : Type} {f : α → List β} {m : ℕ} (hm : 0 < m)
    (hf : ∀ a, (f a).length = m) (l : List α) (p : ℕ) :
    (l.flatMap f)[p]? = (l[p / m]?).bind fun a => (f a)[p % m]? := by
  induction l generalizing p with
  | nil => simp
  | cons a l ih =>
    rw [List.flatMap_cons]
    by_cases hp : p < m
    · rw [List.getElem?_append_left (by rw [hf]; exact hp), Nat.div_eq_of_lt hp, Nat.mod_eq_of_lt hp]
      rfl
    · have hdiv : p / m = (p - m) / m + 1 := Nat.div_eq_sub_div hm (by omega)
      have hmod : p % m = (p - m) % m := Nat.mod_eq_sub_mod (by omega)
      rw [List.getElem?_append_right (by rw [hf]; omega), hf, ih, hdiv, hmod, List.getElem?_cons_succ]

theorem length_flatMap_blocks {α β : Type} {f : α → List β} {m : ℕ} (hf : ∀ a, (f a).length = m)
    (l : List α) : (l.flatMap f).length = l.length * m := by
  induction l with
  | nil => simp
  | cons a l ih => rw [List.flatMap_cons, List.length_append, hf, ih, List.length_cons, Nat.succ_mul, Nat.add_comm]

theorem takeBytes_min (s : Sector) (size : ℕ) : takeBytes s (min 512 size) = (takeBytes s 512).take size := by
  rw [takeBytes, takeBytes, ← List.map_take, List.take_range, Nat.min_comm]

theorem staged_zero (n : ℕ) (c : UInt16) : staged g d n 0 c = [] := by
  cases n with
  | zero => rfl
  | succ n => exact if_neg (by simp)

/-- **On a well-formed chain** a loop reads first sectors. -/
theorem staged_chain {c : UInt16} {l : List UInt16}
    (h : Chain (fatEntry g d) (fun x => 2 ≤ x ∧ x < 0xFFF8) c l) : ∀ n size, size ≤ 512 * n →
    staged g d n size c = (firstSectors g d l).take size := by
  -- what is left of the size when the first sector is read
  have hleft : ∀ size, size - min 512 size = size - 512 := by omega
  induction h with
  | @last c hc hend =>
    intro n size hsize
    by_cases h0 : 0 < size
    · obtain ⟨n, rfl⟩ : ∃ m, n = m + 1 := ⟨n - 1, by omega⟩
      have hstop : staged g d n (size - min 512 size) (fatEntry g d c) = [] := by
        cases n with
        | zero => rfl
        | succ n => exact if_neg fun hcond => absurd hcond.2 (UInt16.not_lt.mpr hend)
      rw [staged, if_pos ⟨h0, hc.2⟩, hstop, takeBytes_min, firstSectors, List.flatMap_singleton, List.append_nil]
    · rw [Nat.eq_zero_of_not_pos h0, staged_zero, List.take_zero]
  | @link c l hc _ ih =>
    intro n size hsize
    by_cases h0 : 0 < size
    · obtain ⟨n, rfl⟩ : ∃ m, n = m + 1 := ⟨n - 1, by omega⟩
      have hcons : firstSectors g d (c :: l)
          = takeBytes (d.get (fatLbaOfCluster g c)) 512 ++ firstSectors g d l := List.flatMap_cons
      rw [staged, if_pos ⟨h0, hc.2⟩, ih n _ (by omega), takeBytes_min, hleft, hcons, List.take_append,
        length_takeBytes]
    · rw [Nat.eq_zero_of_not_pos h0, staged_zero, List.take_zero]

theorem staged_fileChain {c : UInt16} {l : List UInt16} {n size : ℕ} (h : FileChain g d c l)
    (hsize : size ≤ 512 * n) (hlength : size ≤ l.length * spc g * 512) :
    staged g d n size c = (firstSectors g d l).take size := by
  cases h with
  | inl hnil =>
    have h0 : size = 0 := by simpa [hnil] using hlength
    rw [h0, staged_zero, List.take_zero]
  | inr hchain => exact staged_chain hchain n size hsize

/-! ### When `cat` prints the file -/

/-- Past the first sector, the place where `cat` looks holds the byte of the file nevertheless. -/
def Coincides (g : Globals) (d : Disk) (l : List UInt16) (size : ℕ) : Prop :=
  ∀ p, 512 ≤ p → p < size → ∃ c c', l[p / 512]? = some c ∧ l[p / (spc g * 512)]? = some c' ∧
    byteAt (d.get (fatLbaOfCluster g c)) (p % 512)
      = byteAt (d.get (fatLbaOfCluster g c' + p / 512 % spc g)) (p % 512)

theorem getElem?_takeBytes {s : Sector} {p : ℕ} (hp : p < 512) : (takeBytes s 512)[p]? = some (byteAt s p) := by
  simp [takeBytes, hp]

theorem length_clusterBytes (g : Globals) (d : Disk) (c : UInt16) :
    (clusterBytes g d c).length = spc g * 512 := by
  rw [clusterBytes, length_flatMap_blocks (fun _ => length_takeBytes _ 512), List.length_range]

theorem length_fileBytes (g : Globals) (d : Disk) (l : List UInt16) :
    (fileBytes g d l).length = l.length * spc g * 512 := by
  rw [fileBytes, length_flatMap_blocks (length_clusterBytes g d), Nat.mul_assoc]

theorem getElem?_firstSectors (g : Globals) (d : Disk) (l : List UInt16) (p : ℕ) :
    (firstSectors g d l)[p]? = (l[p / 512]?).map fun c => byteAt (d.get (fatLbaOfCluster g c)) (p % 512) := by
  rw [firstSectors, getElem?_flatMap_blocks (by decide) (fun _ => length_takeBytes _ 512)]
  cases l[p / 512]? with
  | none => rfl
  | some c => exact getElem?_takeBytes (Nat.mod_lt p (by decide))

theorem getElem?_fileBytes (hs : 1 ≤ spc g) (d : Disk) (l : List UInt16) (p : ℕ) :
    (fileBytes g d l)[p]? = (l[p / (spc g * 512)]?).map fun c =>
      byteAt (d.get (fatLbaOfCluster g c + p / 512 % spc g)) (p % 512) := by
  have hblock : 0 < spc g * 512 := by omega
  rw [fileBytes, getElem?_flatMap_blocks hblock (length_clusterBytes g d)]
  cases l[p / (spc g * 512)]? with
  | none => rfl
  | some c =>
    have hsector : p % (spc g * 512) / 512 = p / 512 % spc g := by
      rw [Nat.mul_comm, Nat.mod_mul_right_div_self]
    have hoffset : p % (spc g * 512) % 512 = p % 512 := Nat.mod_mul_left_mod p (spc g) 512
    have hlt : p / 512 % spc g < spc g := Nat.mod_lt _ (by omega)
    rw [Option.bind_some, clusterBytes, getElem?_flatMap_blocks (by decide) (fun _ => length_takeBytes _ 512),
      hsector, hoffset, List.getElem?_range hlt]
    exact getElem?_takeBytes (Nat.mod_lt p (by decide))

/-- The two byte sequences, where they have to agree. -/
theorem take_firstSectors_eq (hs : 1 ≤ spc g) {l : List UInt16} {size : ℕ}
    (h : spc g = 1 ∨ Coincides g d l size) :
    (firstSectors g d l).take size = (fileBytes g d l).take size := by
  apply List.ext_getElem?
  intro p
  by_cases hp : p < size
  · rw [List.getElem?_take_of_lt hp, List.getElem?_take_of_lt hp, getElem?_firstSectors, getElem?_fileBytes hs]
    cases h with
    | inl hone =>
      rw [hone, Nat.one_mul, Nat.mod_one]
      rfl
    | inr hsame =>
      by_cases hfirst : p < 512
      · have hdiv : p / 512 = 0 := Nat.div_eq_of_lt hfirst
        have hdiv' : p / (spc g * 512) = 0 := Nat.div_eq_of_lt (by omega)
        rw [hdiv, hdiv', Nat.zero_mod]
        rfl
      · obtain ⟨c, c', hc, hc', heq⟩ := hsame p (by omega) hp
        rw [hc, hc', Option.map_some, Option.map_some, heq]
  · rw [List.getElem?_eq_none (by rw [List.length_take]; omega),
      List.getElem?_eq_none (by rw [List.length_take]; omega)]

theorem coincides_of_eq (hs : 1 ≤ spc g) {l : List UInt16} {size : ℕ}
    (hlength : size ≤ l.length * spc g * 512)
    (h : (firstSectors g d l).take size = (fileBytes g d l).take size) : Coincides g d l size := by
  intro p _ hp
  have hbyte : ((firstSectors g d l).take size)[p]? = ((fileBytes g d l).take size)[p]? := by rw [h]
  rw [List.getElem?_take_of_lt hp, List.getElem?_take_of_lt hp, getElem?_firstSectors, getElem?_fileBytes hs] at hbyte
  have hcluster : p / (spc g * 512) < l.length := by
    rw [Nat.div_lt_iff_lt_mul (by omega), ← Nat.mul_assoc]
    omega
  rw [List.getElem?_eq_getElem hcluster, Option.map_some, Option.map_eq_some_iff] at hbyte
  obtain ⟨c, hc, heq⟩ := hbyte
  exact ⟨c, _, hc, List.getElem?_eq_getElem hcluster, heq⟩

/-- **Dropping the NULs of the first sectors gives the file** exactly when the file has none and the first
sectors are the file. -/
theorem filter_firstSectors_iff (hs : 1 ≤ spc g) {l : List UInt16} {size : ℕ}
    (hlength : size ≤ l.length * spc g * 512) :
    ((firstSectors g d l).take size).filter (· ≠ 0) = (fileBytes g d l).take size ↔
      (∀ b ∈ (fileBytes g d l).take size, b ≠ 0) ∧ (spc g = 1 ∨ Coincides g d l size) := by
  constructor
  · intro h
    have hfull : ((firstSectors g d l).take size).filter (· ≠ 0) = (firstSectors g d l).take size := by
      refine List.filter_sublist.eq_of_length_le ?_
      rw [h, List.length_take, List.length_take, length_fileBytes]
      omega
    refine ⟨?_, Or.inr (coincides_of_eq hs hlength (hfull.symm.trans h))⟩
    intro b hb
    rw [← h] at hb
    exact of_decide_eq_true (List.mem_filter.mp hb).2
  · intro h
    rw [take_firstSectors_eq hs h.2]
    exact List.filter_eq_self.mpr fun b hb => decide_eq_true (h.1 b hb)

theorem quiet_fatFindFile (hinit : g.isFatInitialized = true) (fuel : ℕ) (filename : List UInt8) :
    Calls IsQuiet (fatFindFile g fuel filename) := by
  rw [fatFindFile, hinit]
  refine calls_bind (calls_perform trivial) fun b => ?_
  split
  · exact calls_pure _
  · refine calls_bind (quiet_scanDir g _ true (findVerdict filename) fuel 0 b) fun r => ?_
    cases r with
    | hit i k b' => exact calls_bind (calls_perform trivial) fun _ => calls_pure _
    | stop b' => exact calls_bind (calls_perform trivial) fun _ => calls_pure _
    | through b' => exact calls_bind (calls_perform trivial) fun _ => calls_pure _

/-- What `cat` leaves on the console for a file that was found. -/
theorem run_cmdCat (hinit : g.isFatInitialized = true) {n : ℕ} {filename : List UInt8} {e : DirEntry}
    (hfind : execute junk (fatFindFile g (n + 1) filename) d = some (some e, d)) (hn : e.fileSize ≤ 512 * n) :
    (cmdCat g (n + 1) filename).run (console junk) ⟨d, []⟩ =
      some ((), ⟨d, text "\n" ::
        ((staged g d n e.fileSize e.firstClusterLow).map fun x => cString [x]).reverse⟩) := by
  obtain ⟨b, hcat⟩ := run_catLoop junk g d n e.fileSize e.firstClusterLow (freshBlock junk) [] [] hn
  have hconsole := run_reader_console junk
    (catLoop g (n + 1) e.fileSize e.firstClusterLow (freshBlock junk)) ⟨⟨d, []⟩, []⟩
  rw [hcat, Option.map_some, List.append_nil] at hconsole
  rw [cmdCat, run_bind, run_console_quiet (quiet_fatFindFile hinit (n + 1) filename), hfind, Option.map_some,
    Option.bind_some]
  have hmalloc : (kmalloc 512).run (console junk) ⟨d, []⟩ = some (freshBlock junk, ⟨d, []⟩) := rfl
  rw [run_bind, hmalloc, Option.bind_some, if_neg (by simp), run_bind, ← hconsole, Option.bind_some]
  rfl

/-- The console shows the file when the non-NUL bytes of the first sectors are the file. -/
theorem cmdCat_prints_iff (hinit : g.isFatInitialized = true) {n : ℕ} {filename : List UInt8} {e : DirEntry}
    (hfind : execute junk (fatFindFile g (n + 1) filename) d = some (some e, d)) (hn : e.fileSize ≤ 512 * n)
    {l : List UInt16} (hchain : FileChain g d e.firstClusterLow l)
    (hlength : e.fileSize ≤ l.length * spc g * 512) :
    (∃ ms, (cmdCat g (n + 1) filename).run (console junk) ⟨d, []⟩ = some ((), ⟨d, ms⟩) ∧
        printed ms = (fileBytes g d l).take e.fileSize ++ text "\n") ↔
      ((firstSectors g d l).take e.fileSize).filter (· ≠ 0) = (fileBytes g d l).take e.fileSize := by
  have hprinted : printed (text "\n" ::
      ((staged g d n e.fileSize e.firstClusterLow).map fun x => cString [x]).reverse)
      = (staged g d n e.fileSize e.firstClusterLow).filter (· ≠ 0) ++ text "\n" := by
    rw [printed, List.reverse_cons, List.reverse_reverse, List.flatten_append, flatten_cString,
      List.flatten_singleton]
  rw [staged_fileChain hchain hn hlength] at hprinted
  constructor
  · intro h
    obtain ⟨ms, hrun, hms⟩ := h
    rw [run_cmdCat hinit hfind hn, staged_fileChain hchain hn hlength] at hrun
    have hmessages := congrArg Console.messages (Prod.mk.inj (Option.some.inj hrun)).2
    dsimp only at hmessages
    rw [← hmessages, hprinted] at hms
    exact List.append_cancel_right hms
  · intro h
    refine ⟨_, run_cmdCat hinit hfind hn, ?_⟩
    rw [staged_fileChain hchain hn hlength, hprinted, h]

/-- **When `cat` prints the file.**  On every mounted volume and for every file that is found, with a well-formed
chain long enough for its size: `cat` prints the first `file_size` bytes of its clusters, and a newline, exactly
when none of them is NUL and the clusters have one sector or, past the first sector of the file, the sectors `cat`
takes instead happen to hold the same bytes. -/
theorem cat_faithful_iff (junk : Sector) (g : Globals) (hg : Mounted g)
    (hs : 1 ≤ g.fatInfo.sectorsPerCluster.toNat) (d : Disk) (n : ℕ) (filename : List UInt8) (e : DirEntry)
    (hfind : execute junk (fatFindFile g (n + 1) filename) d = some (some e, d)) (hn : e.fileSize ≤ 512 * n)
    (l : List UInt16) (hchain : FileChain g d e.firstClusterLow l)
    (hlength : e.fileSize ≤ l.length * g.fatInfo.sectorsPerCluster.toNat * 512) :
    (∃ ms, (cmdCat g (n + 1) filename).run (console junk) ⟨d, []⟩ = some ((), ⟨d, ms⟩) ∧
        printed ms = (fileBytes g d l).take e.fileSize ++ text "\n") ↔
      (∀ b ∈ (fileBytes g d l).take e.fileSize, b ≠ 0) ∧
        (g.fatInfo.sectorsPerCluster.toNat = 1 ∨ Coincides g d l e.fileSize) :=
  (cmdCat_prints_iff hg.initialized hfind hn hchain hlength).trans (filter_firstSectors_iff hs hlength)

/-- A volume like `twoSectorRoot` with clusters of `n` sectors. -/
def clustersOf (n : UInt8) : Globals :=
  { twoSectorRoot with fatInfo := { twoSectorRoot.fatInfo with sectorsPerCluster := n } }

theorem mounted_clustersOf (n : UInt8) : Mounted (clustersOf n) where
  initialized := rfl
  bytesPerSector := by
    show twoSectorRoot.fatInfo.bytesPerSector ≠ 0
    decide
  fatStart := rfl
  rootDir := rfl
  dataStart := by
    show twoSectorRoot.dataStartSector = twoSectorRoot.rootDirSector + twoSectorRoot.fatInfo.rootDirSectors
    decide

/-- The entry `A` with cluster `2` and `1 + 256 * k` bytes. -/
def letterEntry (k : UInt8) : DirEntry := fun i =>
  if i.val = 0 then 65 else if i.val < 11 then 32 else if i.val = 26 then 2
  else if i.val = 28 then 1 else if i.val = 29 then k else 0

/-- A disk with that entry in its root directory, end marks in its FAT and the letter `A` everywhere else. -/
def letterDisk (k : UInt8) : Disk := fun lba =>
  if lba = 1 then fun _ => 0xFF else if lba = 2 then putEntry (fun _ => 0) 0 (letterEntry k) else fun _ => 65

/-- A file of one byte in clusters of two sectors is printed. -/
theorem cat_one_byte :
    ∃ ms, (cmdCat (clustersOf 2) 3 (text "A")).run (console fun _ => 0) ⟨letterDisk 0, []⟩
        = some ((), ⟨letterDisk 0, ms⟩) ∧
      printed ms = (fileBytes (clustersOf 2) (letterDisk 0) [2]).take 1 ++ text "\n" := by
  have hchain : FileChain (clustersOf 2) (letterDisk 0) (entryAt ((letterDisk 0).get 2) 0).firstClusterLow [2] :=
    Or.inr (Chain.last ⟨by decide, by decide⟩ (by decide))
  have hsize : (entryAt ((letterDisk 0).get 2) 0).fileSize = 1 := by decide
  have hbyte : ∀ b ∈ fileBytes (clustersOf 2) (letterDisk 0) [2], b = 65 := by
    intro b hb
    obtain ⟨c, hc, hb⟩ := List.mem_flatMap.mp hb
    obtain ⟨k, hk, hb⟩ := List.mem_flatMap.mp hb
    obtain ⟨i, -, hib⟩ := mem_takeBytes.mp hb
    have hsector : k = 0 ∨ k = 1 := by
      have hlt : k < 2 := List.mem_range.mp hk
      omega
    rw [← hib, List.mem_singleton.mp hc]
    cases hsector with
    | inl hk => rw [hk]; rfl
    | inr hk => rw [hk]; rfl
  refine (cat_faithful_iff (fun _ => 0) (clustersOf 2) (mounted_clustersOf 2) (by decide) (letterDisk 0) 2
    (text "A") (entryAt ((letterDisk 0).get 2) 0) rfl (by decide) [2] hchain (by decide)).mpr ⟨?_, Or.inr ?_⟩
  · intro b hb
    rw [hbyte b (List.mem_of_mem_take hb)]
    decide
  · intro p hp hlt
    omega

/-- A file of `513` bytes in one cluster of two sectors: its last byte is missing. -/
theorem cat_second_sector :
    Mounted (clustersOf 2) ∧ FileChain (clustersOf 2) (letterDisk 2) 2 [2] ∧
      execute (fun _ => 0) (fatFindFile (clustersOf 2) 3 (text "A")) (letterDisk 2)
        = some (some (entryAt ((letterDisk 2).get 2) 0), letterDisk 2) ∧
      (entryAt ((letterDisk 2).get 2) 0).firstClusterLow = 2 ∧
      (entryAt ((letterDisk 2).get 2) 0).fileSize = 513 ∧
      ¬ ∃ ms, (cmdCat (clustersOf 2) 3 (text "A")).run (console fun _ => 0) ⟨letterDisk 2, []⟩
          = some ((), ⟨letterDisk 2, ms⟩) ∧
        printed ms = (fileBytes (clustersOf 2) (letterDisk 2) [2]).take 513 ++ text "\n" := by
  have hfind : execute (fun _ => 0) (fatFindFile (clustersOf 2) 3 (text "A")) (letterDisk 2)
      = some (some (entryAt ((letterDisk 2).get 2) 0), letterDisk 2) := rfl
  have hcluster : (entryAt ((letterDisk 2).get 2) 0).firstClusterLow = 2 := by decide
  have hchain : FileChain (clustersOf 2) (letterDisk 2) 2 [2] :=
    Or.inr (Chain.last ⟨by decide, by decide⟩ (by decide))
  have hsize : (entryAt ((letterDisk 2).get 2) 0).fileSize = 513 := by decide
  refine ⟨mounted_clustersOf 2, hchain, hfind, hcluster, hsize, ?_⟩
  intro h
  rw [← hsize] at h
  have hprints := (cmdCat_prints_iff (n := 2) rfl hfind (by decide) (by rw [hcluster]; exact hchain) (by decide)).mp h
  cases ((filter_firstSectors_iff (by decide) (by decide)).mp hprints).2 with
  | inl hone => exact absurd hone (by decide)
  | inr hsame =>
    obtain ⟨c, c', hc, -⟩ := hsame 512 le_rfl (by decide)
    exact absurd hc (by simp)

end OsEojin.FileReading
