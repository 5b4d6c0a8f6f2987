import OsEojin.Fat
import Mathlib.Data.List.Nodup

/-!
# Volumes as trees of directories

The file system without its disk: a volume is a FAT and, for every directory, a sequence of slots.  This
is the level at which the invariant of the file system is stated and kept.

* `Live`: the entries before the end of a directory; `Chain`: the clusters of an entry;
* `Dir`: the directories reachable from the root, each with its parent;
* `WellFormed`: the invariant; `WellFormed.frame`: it sees nothing outside the tree;
* `Creates`, `WellFormed.create`: filling a free slot keeps it;
* `Deletes`, `WellFormed.delete`: freeing a chain and marking its slot keeps it.
-/

namespace OsEojin.Fat

open OsEojin.Ata

/-- A volume: the FAT and the slots of every directory, by the directory's first cluster. -/
structure Volume where
  fat : UInt16 → UInt16
  slot : UInt16 → ℕ → Option DirEntry

/-! ### Chains -/

/-- `Chain fat data c l`: from `c` the FAT links the data clusters `l`, the last one marked as an end. -/
inductive Chain (fat : UInt16 → UInt16) (data : UInt16 → Prop) : UInt16 → List UInt16 → Prop
  | last {c : UInt16} : data c → 0xFFF8 ≤ fat c → Chain fat data c [c]
  | link {c : UInt16} {l : List UInt16} : data c → Chain fat data (fat c) l → Chain fat data c (c :: l)

/-- Cluster numbers of the data area are neither reserved nor end marks. -/
def DataRange (data : UInt16 → Prop) : Prop := ∀ c, data c → 2 ≤ c ∧ c < 0xFFF8

section Chains

variable {fat fat' : UInt16 → UInt16} {data : UInt16 → Prop} {c : UInt16} {l l' : List UInt16}

theorem DataRange.ne_zero (h : DataRange data) (hc : data c) : c ≠ 0 := by
  rintro rfl
  exact absurd (h 0 hc).1 (by decide)

theorem Chain.head_data (h : Chain fat data c l) : data c := by
  cases h with
  | last hd _ => exact hd
  | link hd _ => exact hd

theorem Chain.head_mem (h : Chain fat data c l) : c ∈ l := by
  cases h with
  | last _ _ => exact List.mem_singleton_self c
  | link _ _ => exact List.mem_cons_self

theorem Chain.data_of_mem (h : Chain fat data c l) {x : UInt16} (hx : x ∈ l) : data x := by
  induction h with
  | last hd _ =>
    rw [List.mem_singleton.mp hx]
    exact hd
  | link hd _ ih =>
    cases List.mem_cons.mp hx with
    | inl h => exact h ▸ hd
    | inr h => exact ih h

/-- No cluster of a chain is free. -/
theorem Chain.fat_ne_zero (hdata : DataRange data) (h : Chain fat data c l) {x : UInt16}
    (hx : x ∈ l) : fat x ≠ 0 := by
  induction h with
  | last hd hend =>
    rw [List.mem_singleton.mp hx]
    intro h0
    rw [h0] at hend
    exact absurd hend (by decide)
  | link hd hrest ih =>
    cases List.mem_cons.mp hx with
    | inl h => exact h ▸ hdata.ne_zero hrest.head_data
    | inr h => exact ih h

theorem Chain.congr (h : Chain fat data c l) (hfat : ∀ x ∈ l, fat' x = fat x) :
    Chain fat' data c l := by
  induction h with
  | last hd hend =>
    refine Chain.last hd ?_
    rw [hfat _ (List.mem_singleton_self _)]
    exact hend
  | link hd _ ih =>
    refine Chain.link hd ?_
    rw [hfat _ List.mem_cons_self]
    exact ih fun x hx => hfat x (List.mem_cons_of_mem _ hx)

/-- A data cluster is not an end mark, so the FAT alone decides where a chain ends. -/
theorem Chain.unique (hdata : DataRange data) (h : Chain fat data c l) (h' : Chain fat data c l') :
    l = l' := by
  have hmark : ∀ x, data x → ¬ 0xFFF8 ≤ x := fun x hx => UInt16.not_le.mpr (hdata x hx).2
  induction h generalizing l' with
  | last hd hend =>
    cases h' with
    | last _ _ => rfl
    | link _ hrest => exact absurd hend (hmark _ hrest.head_data)
  | link hd hrest ih =>
    cases h' with
    | last _ hend => exact absurd hend (hmark _ hrest.head_data)
    | link _ hrest' => rw [ih hrest']

/-- The rest of a chain, from any of its clusters on. -/
theorem Chain.tail_of_mem (h : Chain fat data c l) {x : UInt16} (hx : x ∈ l) :
    ∃ t, Chain fat data x t ∧ t.length ≤ l.length := by
  induction h with
  | last hd hend =>
    rw [List.mem_singleton.mp hx]
    exact ⟨_, Chain.last hd hend, le_rfl⟩
  | link hd hrest ih =>
    cases List.mem_cons.mp hx with
    | inl h =>
      rw [h]
      exact ⟨_, Chain.link hd hrest, le_rfl⟩
    | inr h =>
      obtain ⟨t, ht, hlen⟩ := ih h
      exact ⟨t, ht, by simp only [List.length_cons]; omega⟩

/-- **A chain has no cycle.** -/
theorem Chain.nodup (hdata : DataRange data) (h : Chain fat data c l) : l.Nodup := by
  induction h with
  | last _ _ => exact List.nodup_singleton _
  | link hd hrest ih =>
    refine List.nodup_cons.mpr ⟨?_, ih⟩
    intro hmem
    obtain ⟨t, ht, hlen⟩ := hrest.tail_of_mem hmem
    have heq := ht.unique hdata (Chain.link hd hrest)
    rw [heq, List.length_cons] at hlen
    omega

end Chains

/-! ### Entries and directories -/

/-- Slot `n` of `dir` holds the live entry `e`: it is in use, and no end mark stands before it. -/
def Live (V : Volume) (dir : UInt16) (n : ℕ) (e : DirEntry) : Prop :=
  V.slot dir n = some e ∧ e.name 0 ≠ 0x00 ∧ e.name 0 ≠ 0xE5 ∧
    ∀ m, m < n → ∃ x, V.slot dir m = some x ∧ x.name 0 ≠ 0x00

/-- An entry other than `.` and `..` -/
def Named (e : DirEntry) : Prop := isDot e = false ∧ isDotDot e = false

/-- The directories reachable from the root, with their parents. -/
inductive Dir (V : Volume) : UInt16 → UInt16 → Prop
  | root : Dir V 0 0
  | sub {dir parent : UInt16} {n : ℕ} {e : DirEntry} : Dir V dir parent → Live V dir n e → Named e →
      isDirectory e = true → Dir V e.firstClusterLow dir

/-- A live entry of a reachable directory, other than `.` and `..` -/
structure Entry (V : Volume) (dir : UInt16) (n : ℕ) (e : DirEntry) : Prop where
  reach : ∃ parent, Dir V dir parent
  live : Live V dir n e
  named : Named e

/-- **The invariant of the file system.** -/
structure WellFormed (V : Volume) (data : UInt16 → Prop) (cwd : UInt16) : Prop where
  /-- an entry with a first cluster heads a chain -/
  chain : ∀ {dir n e}, Entry V dir n e → e.firstClusterLow ≠ 0 →
    ∃ l, Chain V.fat data e.firstClusterLow l
  /-- chains of different entries share no cluster -/
  disjoint : ∀ {dir n e l dir' n' e' l'}, Entry V dir n e → Entry V dir' n' e' →
    Chain V.fat data e.firstClusterLow l → Chain V.fat data e'.firstClusterLow l' →
    (dir ≠ dir' ∨ n ≠ n') → l.Disjoint l'
  /-- a subdirectory is not the root -/
  subdir : ∀ {dir n e}, Entry V dir n e → isDirectory e = true → e.firstClusterLow ≠ 0
  /-- `.` names the directory itself -/
  dot : ∀ {dir parent n e}, Dir V dir parent → Live V dir n e → isDot e = true →
    isDirectory e = true ∧ e.firstClusterLow = dir
  /-- `..` names its parent -/
  dotDot : ∀ {dir parent n e}, Dir V dir parent → Live V dir n e → isDotDot e = true →
    isDirectory e = true ∧ e.firstClusterLow = parent
  hasDot : ∀ {dir parent}, Dir V dir parent → dir ≠ 0 → ∃ n e, Live V dir n e ∧ isDot e = true
  hasDotDot : ∀ {dir parent}, Dir V dir parent → dir ≠ 0 → ∃ n e, Live V dir n e ∧ isDotDot e = true
  /-- the current directory is one of the tree -/
  cwd : ∃ parent, Dir V cwd parent

variable {V V' : Volume} {data : UInt16 → Prop} {cwd : UInt16}

theorem isDotDot_of_not_named {e : DirEntry} (h : ¬ Named e) (hdot : isDot e = false) :
    isDotDot e = true := by
  cases hdd : isDotDot e with
  | true => rfl
  | false => exact absurd ⟨hdot, hdd⟩ h

/-- A slot holds one entry. -/
theorem Live.unique {dir : UInt16} {n : ℕ} {e e' : DirEntry} (h : Live V dir n e)
    (h' : Live V dir n e') : e = e' :=
  Option.some.inj (h.1.symm.trans h'.1)

theorem Live.congr {dir : UInt16} {n : ℕ} {e : DirEntry} (h : Live V dir n e)
    (hslot : ∀ m, V'.slot dir m = V.slot dir m) : Live V' dir n e := by
  refine ⟨(hslot n).trans h.1, h.2.1, h.2.2.1, ?_⟩
  intro m hm
  rw [hslot m]
  exact h.2.2.2 m hm

/-- Every directory but the root is named by an entry of its parent, which heads its chain. -/
theorem WellFormed.dir_entry (h : WellFormed V data cwd) {dir parent : UInt16}
    (hdir : Dir V dir parent) (h0 : dir ≠ 0) :
    ∃ n e l, Entry V parent n e ∧ isDirectory e = true ∧ e.firstClusterLow = dir ∧
      Chain V.fat data dir l := by
  cases hdir with
  | root => exact absurd rfl h0
  | @sub _ _ n e hparent hlive hnamed hisdir =>
    have hentry : Entry V parent n e := ⟨⟨_, hparent⟩, hlive, hnamed⟩
    obtain ⟨l, hl⟩ := h.chain hentry h0
    exact ⟨n, e, l, hentry, hisdir, rfl, hl⟩

/-- The parent of a directory is a directory. -/
theorem Dir.parent_dir {dir parent : UInt16} (h : Dir V dir parent) : ∃ p, Dir V parent p := by
  cases h with
  | root => exact ⟨0, Dir.root⟩
  | sub hparent _ _ _ => exact ⟨_, hparent⟩

/-- The root is its own parent. -/
theorem WellFormed.root_parent (h : WellFormed V data cwd) {parent : UInt16} (hdir : Dir V 0 parent) :
    parent = 0 := by
  generalize hz : (0 : UInt16) = z at hdir
  cases hdir with
  | root => rfl
  | sub hparent hlive hnamed hisdir =>
    exact absurd hz.symm (h.subdir ⟨⟨_, hparent⟩, hlive, hnamed⟩ hisdir)

/-- One cluster, one entry. -/
theorem WellFormed.entry_unique (h : WellFormed V data cwd) {dir dir' : UInt16} {n n' : ℕ}
    {e e' : DirEntry} (he : Entry V dir n e) (he' : Entry V dir' n' e')
    (hc : e.firstClusterLow = e'.firstClusterLow) (h0 : e.firstClusterLow ≠ 0) :
    dir = dir' ∧ n = n' := by
  obtain ⟨l, hl⟩ := h.chain he h0
  by_contra hne
  have hne' : dir ≠ dir' ∨ n ≠ n' := by
    by_cases hd : dir = dir'
    · exact Or.inr fun hn => hne ⟨hd, hn⟩
    · exact Or.inl hd
  exact h.disjoint he he' hl (hc ▸ hl) hne' hl.head_mem hl.head_mem

/-- A volume whose root holds plain files only, each with its own chain, is well formed. -/
theorem wellFormed_of_flat (hplain : ∀ n e, Live V 0 n e → Named e ∧ isDirectory e = false)
    (hchain : ∀ n e, Live V 0 n e → e.firstClusterLow ≠ 0 → ∃ l, Chain V.fat data e.firstClusterLow l)
    (hdisjoint : ∀ n e l n' e' l', Live V 0 n e → Live V 0 n' e' →
      Chain V.fat data e.firstClusterLow l → Chain V.fat data e'.firstClusterLow l' → n ≠ n' →
      l.Disjoint l') : WellFormed V data 0 := by
  have hdirs : ∀ {dir parent}, Dir V dir parent → dir = 0 := by
    intro dir parent hdir
    induction hdir with
    | root => rfl
    | sub _ hlive _ hisdir ih =>
      exact absurd ((hplain _ _ (ih ▸ hlive)).2.symm.trans hisdir) (by decide)
  have hroot : ∀ {dir n e}, Entry V dir n e → dir = 0 ∧ Live V 0 n e := by
    intro dir n e he
    obtain ⟨parent, hdir⟩ := he.reach
    exact ⟨hdirs hdir, hdirs hdir ▸ he.live⟩
  have hnamed : ∀ {dir parent n e}, Dir V dir parent → Live V dir n e → Named e :=
    fun hdir hlive => (hplain _ _ (hdirs hdir ▸ hlive)).1
  refine ⟨?_, ?_, ?_, ?_, ?_, fun hdir h0 => absurd (hdirs hdir) h0,
    fun hdir h0 => absurd (hdirs hdir) h0, 0, Dir.root⟩
  · intro dir n e he
    exact hchain n e (hroot he).2
  · intro dir n e l dir' n' e' l' he he' hl hl' hne
    obtain ⟨h0, hlive⟩ := hroot he
    obtain ⟨h0', hlive'⟩ := hroot he'
    exact hdisjoint n e l n' e' l' hlive hlive' hl hl'
      (hne.resolve_left fun hdir => hdir (h0.trans h0'.symm))
  · intro dir n e he hisdir
    exact absurd ((hplain n e (hroot he).2).2.symm.trans hisdir) (by decide)
  · intro dir parent n e hdir hlive hdot
    exact absurd ((hnamed hdir hlive).1.symm.trans hdot) (by decide)
  · intro dir parent n e hdir hlive hdot
    exact absurd ((hnamed hdir hlive).2.symm.trans hdot) (by decide)

/-! ### Changes outside the tree -/

section Frame

variable (hslot : ∀ dir parent, Dir V dir parent → ∀ m, V'.slot dir m = V.slot dir m)
include hslot

theorem live_frame {dir parent : UInt16} (hdir : Dir V dir parent) {n : ℕ} {e : DirEntry} :
    Live V' dir n e ↔ Live V dir n e :=
  ⟨fun h => h.congr fun m => (hslot dir parent hdir m).symm, fun h => h.congr (hslot dir parent hdir)⟩

/-- Directories whose slots are the same lead to the same directories. -/
theorem dir_frame {dir parent : UInt16} : Dir V' dir parent ↔ Dir V dir parent := by
  constructor
  · intro hdir
    induction hdir with
    | root => exact Dir.root
    | sub _ hlive hnamed hisdir ih => exact Dir.sub ih ((live_frame hslot ih).mp hlive) hnamed hisdir
  · intro hdir
    induction hdir with
    | root => exact Dir.root
    | sub hd hlive hnamed hisdir ih => exact Dir.sub ih ((live_frame hslot hd).mpr hlive) hnamed hisdir

theorem entry_frame {dir : UInt16} {n : ℕ} {e : DirEntry} : Entry V' dir n e ↔ Entry V dir n e := by
  constructor
  · rintro ⟨⟨parent, hdir⟩, hlive, hnamed⟩
    have hdV := (dir_frame hslot).mp hdir
    exact ⟨⟨parent, hdV⟩, (live_frame hslot hdV).mp hlive, hnamed⟩
  · rintro ⟨⟨parent, hdir⟩, hlive, hnamed⟩
    exact ⟨⟨parent, (dir_frame hslot).mpr hdir⟩, (live_frame hslot hdir).mpr hlive, hnamed⟩

/-- **What happens in free clusters does not matter**: the invariant only sees the slots of the
directories and the FAT entries in use. -/
theorem WellFormed.frame (hwf : WellFormed V data cwd) (hdata : DataRange data)
    (hfat : ∀ x, data x → V.fat x ≠ 0 → V'.fat x = V.fat x) : WellFormed V' data cwd := by
  have hchain : ∀ {dir n e}, Entry V dir n e → e.firstClusterLow ≠ 0 →
      ∃ l, Chain V.fat data e.firstClusterLow l ∧ Chain V'.fat data e.firstClusterLow l := by
    intro dir n e he h0
    obtain ⟨l, hl⟩ := hwf.chain he h0
    exact ⟨l, hl, hl.congr fun y hy => hfat y (hl.data_of_mem hy) (hl.fat_ne_zero hdata hy)⟩
  refine ⟨?_, ?_, ?_, ?_, ?_, ?_, ?_, ?_⟩
  · intro dir n e he h0
    obtain ⟨l, -, hl⟩ := hchain ((entry_frame hslot).mp he) h0
    exact ⟨l, hl⟩
  · intro dir n e l dir' n' e' l' he he' hl hl' hne
    have hV := (entry_frame hslot).mp he
    have hV' := (entry_frame hslot).mp he'
    obtain ⟨l₀, h₀, h₀'⟩ := hchain hV (hdata.ne_zero hl.head_data)
    obtain ⟨l₁, h₁, h₁'⟩ := hchain hV' (hdata.ne_zero hl'.head_data)
    rw [hl.unique hdata h₀', hl'.unique hdata h₁']
    exact hwf.disjoint hV hV' h₀ h₁ hne
  · intro dir n e he hisdir
    exact hwf.subdir ((entry_frame hslot).mp he) hisdir
  · intro dir parent n e hdir hlive hdot
    have hdV := (dir_frame hslot).mp hdir
    exact hwf.dot hdV ((live_frame hslot hdV).mp hlive) hdot
  · intro dir parent n e hdir hlive hdot
    have hdV := (dir_frame hslot).mp hdir
    exact hwf.dotDot hdV ((live_frame hslot hdV).mp hlive) hdot
  · intro dir parent hdir h0
    have hdV := (dir_frame hslot).mp hdir
    obtain ⟨n, e, hlive, hdot⟩ := hwf.hasDot hdV h0
    exact ⟨n, e, (live_frame hslot hdV).mpr hlive, hdot⟩
  · intro dir parent hdir h0
    have hdV := (dir_frame hslot).mp hdir
    obtain ⟨n, e, hlive, hdot⟩ := hwf.hasDotDot hdV h0
    exact ⟨n, e, (live_frame hslot hdV).mpr hlive, hdot⟩
  · obtain ⟨parent, hp⟩ := hwf.cwd
    exact ⟨parent, (dir_frame hslot).mpr hp⟩

end Frame

/-! ### Creating an entry -/

/-- Behind the end mark in slot `n` nothing is in use before the next end mark. -/
def TailClean (V : Volume) (dir : UInt16) (n : ℕ) : Prop :=
  ∀ m x, n < m → V.slot dir m = some x →
    (∀ k, n < k → k < m → ∃ y, V.slot dir k = some y ∧ y.name 0 ≠ 0x00) →
    x.name 0 = 0x00 ∨ x.name 0 = 0xE5

/-- If the first free slot of the directory is its end mark, nothing in use stands behind it. -/
def EndMarkClean (V : Volume) (dir : UInt16) : Prop :=
  ∀ n e, V.slot dir n = some e → e.name 0 = 0x00 →
    (∀ m, m < n → ∃ x, V.slot dir m = some x ∧ x.name 0 ≠ 0x00 ∧ x.name 0 ≠ 0xE5) → TailClean V dir n

/-- A new directory: one cluster that was free, with `.` and `..` and nothing else. -/
structure FreshDir (V V' : Volume) (data : UInt16 → Prop) (c parent : UInt16) (dot dotDot : DirEntry) :
    Prop where
  data : data c
  free : V.fat c = 0
  marked : 0xFFF8 ≤ V'.fat c
  slot_zero : V'.slot c 0 = some dot
  slot_one : V'.slot c 1 = some dotDot
  slot_two : ∃ x, V'.slot c 2 = some x ∧ x.name 0 = 0x00
  dot_spec : isDot dot = true ∧ isDirectory dot = true ∧ dot.firstClusterLow = c
  dotDot_spec : isDotDot dotDot = true ∧ isDirectory dotDot = true ∧ dotDot.firstClusterLow = parent

/-- **A free slot is filled**: `V'` is `V` with the entry `new` in slot `n` of `cwd`, which held `old`. -/
structure Creates (V V' : Volume) (data : UInt16 → Prop) (cwd : UInt16) (n : ℕ) (old new : DirEntry) :
    Prop where
  slot_old : V.slot cwd n = some old
  old_free : old.name 0 = 0x00 ∨ old.name 0 = 0xE5
  before : ∀ m, m < n → ∃ x, V.slot cwd m = some x ∧ x.name 0 ≠ 0x00
  tail : old.name 0 = 0x00 → TailClean V cwd n
  new_name : new.name 0 ≠ 0x00
  new_named : Named new
  slots : ∀ dir parent, Dir V dir parent → ∀ m,
    V'.slot dir m = if dir = cwd ∧ m = n then some new else V.slot dir m
  fat : ∀ x, data x → V.fat x ≠ 0 → V'.fat x = V.fat x
  kind : (isDirectory new = false ∧ new.firstClusterLow = 0) ∨
    (isDirectory new = true ∧ ∃ dot dotDot, FreshDir V V' data new.firstClusterLow cwd dot dotDot)

section Create

variable {n : ℕ} {old new : DirEntry}

/-- The only new live entry is the one created. -/
theorem Creates.live_iff (h : Creates V V' data cwd n old new) {dir parent : UInt16}
    (hdir : Dir V dir parent) {m : ℕ} {x : DirEntry} :
    Live V' dir m x ↔
      Live V dir m x ∨ (dir = cwd ∧ m = n ∧ x = new ∧ new.name 0 ≠ 0xE5) := by
  by_cases hd : dir = cwd
  · subst hd
    have hne : ∀ k, k ≠ n → V'.slot dir k = V.slot dir k := by
      intro k hk
      rw [h.slots dir parent hdir k, if_neg fun hk' => hk hk'.2]
    have hself : V'.slot dir n = some new := by
      rw [h.slots dir parent hdir n, if_pos ⟨rfl, rfl⟩]
    constructor
    · rintro ⟨hslot, h0, he5, hbefore⟩
      rcases Nat.lt_trichotomy m n with hlt | rfl | hgt
      · refine Or.inl ⟨hne m (by omega) ▸ hslot, h0, he5, ?_⟩
        intro k hk
        rw [← hne k (by omega)]
        exact hbefore k hk
      · rw [hself] at hslot
        cases hslot
        exact Or.inr ⟨rfl, rfl, rfl, he5⟩
      · rw [hne m (by omega)] at hslot
        -- an end mark in slot `n` would have hidden slot `m`, and nothing in use stands there
        have hold : old.name 0 ≠ 0x00 := by
          intro hz
          have hfree := h.tail hz m x hgt hslot fun k hk hkm => by
            rw [← hne k (by omega)]
            exact hbefore k hkm
          cases hfree with
          | inl h => exact h0 h
          | inr h => exact he5 h
        refine Or.inl ⟨hslot, h0, he5, ?_⟩
        intro k hk
        by_cases hkn : k = n
        · exact hkn ▸ ⟨old, h.slot_old, hold⟩
        · rw [← hne k hkn]
          exact hbefore k hk
    · rintro (⟨hslot, h0, he5, hbefore⟩ | ⟨-, rfl, rfl, he5⟩)
      · have hmn : m ≠ n := by
          rintro rfl
          rw [h.slot_old] at hslot
          cases hslot
          cases h.old_free with
          | inl hz => exact h0 hz
          | inr hz => exact he5 hz
        refine ⟨(hne m hmn).trans hslot, h0, he5, ?_⟩
        intro k hk
        by_cases hkn : k = n
        · exact hkn ▸ ⟨new, hself, h.new_name⟩
        · rw [hne k hkn]
          exact hbefore k hk
      · refine ⟨hself, h.new_name, he5, ?_⟩
        intro k hk
        rw [hne k (by omega)]
        exact h.before k hk
  · have hslot : ∀ k, V'.slot dir k = V.slot dir k := by
      intro k
      rw [h.slots dir parent hdir k, if_neg fun hk => hd hk.1]
    constructor
    · intro hlive
      exact Or.inl (hlive.congr fun k => (hslot k).symm)
    · rintro (hlive | ⟨hcwd, -⟩)
      · exact hlive.congr hslot
      · exact absurd hcwd hd

/-- A new directory holds `.` and `..` and nothing else. -/
theorem FreshDir.live {c parent : UInt16} {dot dotDot : DirEntry}
    (h : FreshDir V V' data c parent dot dotDot) {m : ℕ} {x : DirEntry} (hlive : Live V' c m x) :
    (x = dot ∧ m = 0) ∨ (x = dotDot ∧ m = 1) := by
  obtain ⟨hslot, h0, -, hbefore⟩ := hlive
  obtain ⟨y, hy, hy0⟩ := h.slot_two
  match m with
  | 0 => exact Or.inl ⟨Option.some.inj (hslot.symm.trans h.slot_zero), rfl⟩
  | 1 => exact Or.inr ⟨Option.some.inj (hslot.symm.trans h.slot_one), rfl⟩
  | 2 =>
    rw [hy] at hslot
    cases hslot
    exact absurd hy0 h0
  | m + 3 =>
    obtain ⟨z, hz, hz0⟩ := hbefore 2 (by omega)
    rw [hy] at hz
    cases hz
    exact absurd hy0 hz0

theorem isDot_name {e : DirEntry} (h : isDot e = true) : e.name 0 = 46 ∧ e.name 1 = 32 := by
  simpa [isDot] using h

theorem isDotDot_name {e : DirEntry} (h : isDotDot e = true) : e.name 0 = 46 ∧ e.name 1 = 46 := by
  simp only [isDotDot, Bool.and_eq_true, beq_iff_eq] at h
  exact ⟨h.1.1, h.1.2⟩

theorem FreshDir.live_dots {c parent : UInt16} {dot dotDot : DirEntry}
    (h : FreshDir V V' data c parent dot dotDot) :
    Live V' c 0 dot ∧ Live V' c 1 dotDot := by
  have hd := (isDot_name h.dot_spec.1).1
  have hdd := (isDotDot_name h.dotDot_spec.1).1
  refine ⟨⟨h.slot_zero, ?_, ?_, fun k hk => by omega⟩, ⟨h.slot_one, ?_, ?_, ?_⟩⟩
  · rw [hd]; decide
  · rw [hd]; decide
  · rw [hdd]; decide
  · rw [hdd]; decide
  · intro k hk
    rw [show k = 0 from by omega]
    exact ⟨dot, h.slot_zero, by rw [hd]; decide⟩

/-- The only new directory is the one created. -/
theorem Creates.dir_iff (h : Creates V V' data cwd n old new) (hcwd : ∃ p, Dir V cwd p)
    {dir parent : UInt16} :
    Dir V' dir parent ↔ Dir V dir parent ∨
      (isDirectory new = true ∧ new.name 0 ≠ 0xE5 ∧ dir = new.firstClusterLow ∧ parent = cwd) := by
  have hold : ∀ {dir parent}, Dir V dir parent → Dir V' dir parent := by
    intro dir parent hdir
    induction hdir with
    | root => exact Dir.root
    | sub hd hlive hnamed hisdir ih =>
      exact Dir.sub ih ((h.live_iff hd).mpr (Or.inl hlive)) hnamed hisdir
  obtain ⟨p, hp⟩ := hcwd
  constructor
  · intro hdir
    induction hdir with
    | root => exact Or.inl Dir.root
    | @sub dir parent m x hd hlive hnamed hisdir ih =>
      cases ih with
      | inl hdV =>
        cases (h.live_iff hdV).mp hlive with
        | inl hliveV => exact Or.inl (Dir.sub hdV hliveV hnamed hisdir)
        | inr hnew =>
          obtain ⟨rfl, -, rfl, he5⟩ := hnew
          exact Or.inr ⟨hisdir, he5, rfl, rfl⟩
      | inr hnew =>
        obtain ⟨hdirnew, -, rfl, -⟩ := hnew
        cases h.kind with
        | inl hfile =>
          rw [hfile.1] at hdirnew
          cases hdirnew
        | inr hfresh =>
          obtain ⟨-, dot, dotDot, hfresh⟩ := hfresh
          cases hfresh.live hlive with
          | inl hx =>
            rw [hx.1] at hnamed
            exact absurd (hnamed.1.symm.trans hfresh.dot_spec.1) (by decide)
          | inr hx =>
            rw [hx.1] at hnamed
            exact absurd (hnamed.2.symm.trans hfresh.dotDot_spec.1) (by decide)
  · rintro (hdir | ⟨hisdir, he5, rfl, rfl⟩)
    · exact hold hdir
    · exact Dir.sub (hold hp) ((h.live_iff hp).mpr (Or.inr ⟨rfl, rfl, rfl, he5⟩)) h.new_named hisdir

theorem Creates.entry_cases (h : Creates V V' data cwd n old new) (hcwd : ∃ p, Dir V cwd p)
    {dir : UInt16} {m : ℕ} {x : DirEntry} (hx : Entry V' dir m x) :
    Entry V dir m x ∨ (dir = cwd ∧ m = n ∧ x = new ∧ new.name 0 ≠ 0xE5) := by
  obtain ⟨parent, hdir⟩ := hx.reach
  cases (h.dir_iff hcwd).mp hdir with
  | inl hdV =>
    cases (h.live_iff hdV).mp hx.live with
    | inl hlive => exact Or.inl ⟨⟨parent, hdV⟩, hlive, hx.named⟩
    | inr hnew => exact Or.inr hnew
  | inr hnew =>
    obtain ⟨hisdir, -, rfl, -⟩ := hnew
    cases h.kind with
    | inl hfile =>
      rw [hfile.1] at hisdir
      cases hisdir
    | inr hfresh =>
      obtain ⟨-, dot, dotDot, hfresh⟩ := hfresh
      have hnamed := hx.named
      cases hfresh.live hx.live with
      | inl hx =>
        rw [hx.1] at hnamed
        exact absurd (hnamed.1.symm.trans hfresh.dot_spec.1) (by decide)
      | inr hx =>
        rw [hx.1] at hnamed
        exact absurd (hnamed.2.symm.trans hfresh.dotDot_spec.1) (by decide)

/-- The chains of the entries that were there before are the same. -/
theorem Creates.chain_old (h : Creates V V' data cwd n old new) (hdata : DataRange data)
    (hwf : WellFormed V data cwd) {dir : UInt16} {m : ℕ} {x : DirEntry} (hx : Entry V dir m x)
    (h0 : x.firstClusterLow ≠ 0) :
    ∃ l, Chain V.fat data x.firstClusterLow l ∧ Chain V'.fat data x.firstClusterLow l := by
  obtain ⟨l, hl⟩ := hwf.chain hx h0
  exact ⟨l, hl, hl.congr fun y hy => h.fat y (hl.data_of_mem hy) (hl.fat_ne_zero hdata hy)⟩

/-- The new entry's chain, if it has one, is its one fresh cluster. -/
theorem Creates.chain_new (h : Creates V V' data cwd n old new) (h0 : new.firstClusterLow ≠ 0) :
    Chain V'.fat data new.firstClusterLow [new.firstClusterLow] ∧ V.fat new.firstClusterLow = 0 := by
  cases h.kind with
  | inl hfile => exact absurd hfile.2 h0
  | inr hfresh =>
    obtain ⟨-, dot, dotDot, hfresh⟩ := hfresh
    exact ⟨Chain.last hfresh.data hfresh.marked, hfresh.free⟩

/-- What an old directory holds, when nothing but a named entry was added. -/
theorem Creates.live_old (h : Creates V V' data cwd n old new) {dir parent : UInt16}
    (hdir : Dir V dir parent) {m : ℕ} {x : DirEntry} (hlive : Live V' dir m x) (hx : ¬ Named x) :
    Live V dir m x := by
  cases (h.live_iff hdir).mp hlive with
  | inl hlive => exact hlive
  | inr hnew => exact absurd (hnew.2.2.1 ▸ h.new_named) hx

/-- The chains of an old and of the new entry have no cluster in common: the new one was free. -/
theorem Creates.disjoint_new (h : Creates V V' data cwd n old new) (hdata : DataRange data)
    (hwf : WellFormed V data cwd) {dir : UInt16} {m : ℕ} {x : DirEntry} {l l' : List UInt16}
    (hx : Entry V dir m x) (hl : Chain V'.fat data x.firstClusterLow l)
    (hl' : Chain V'.fat data new.firstClusterLow l') : l.Disjoint l' := by
  obtain ⟨l₀, hV, hV'⟩ := h.chain_old hdata hwf hx (hdata.ne_zero hl.head_data)
  obtain ⟨hnew, hfree⟩ := h.chain_new (hdata.ne_zero hl'.head_data)
  rw [hl.unique hdata hV', hl'.unique hdata hnew]
  intro y hy hy'
  rw [List.mem_singleton.mp hy'] at hy
  exact hV.fat_ne_zero hdata hy hfree

/-- **Filling a free slot keeps the invariant.** -/
theorem WellFormed.create (hwf : WellFormed V data cwd) (hdata : DataRange data)
    (h : Creates V V' data cwd n old new) : WellFormed V' data cwd := by
  have hdirs : ∀ {dir parent}, Dir V' dir parent ↔ Dir V dir parent ∨
      (isDirectory new = true ∧ new.name 0 ≠ 0xE5 ∧ dir = new.firstClusterLow ∧ parent = cwd) :=
    h.dir_iff hwf.cwd
  -- the fields about `.` and `..` fall into the old directories and the new one
  have hfresh : isDirectory new = true →
      ∃ dot dotDot, FreshDir V V' data new.firstClusterLow cwd dot dotDot := by
    intro hisdir
    cases h.kind with
    | inl hfile =>
      rw [hfile.1] at hisdir
      cases hisdir
    | inr hkind => exact hkind.2
  refine ⟨?_, ?_, ?_, ?_, ?_, ?_, ?_, ?_⟩
  · intro dir m x hx h0
    cases h.entry_cases hwf.cwd hx with
    | inl hold =>
      obtain ⟨l, -, hl⟩ := h.chain_old hdata hwf hold h0
      exact ⟨l, hl⟩
    | inr hnew =>
      obtain ⟨-, -, rfl, -⟩ := hnew
      exact ⟨_, (h.chain_new h0).1⟩
  · intro dir m x l dir' m' x' l' hx hx' hl hl' hne
    cases h.entry_cases hwf.cwd hx with
    | inl hold =>
      cases h.entry_cases hwf.cwd hx' with
      | inl hold' =>
        obtain ⟨l₀, hV, hV'⟩ := h.chain_old hdata hwf hold (hdata.ne_zero hl.head_data)
        obtain ⟨l₁, hW, hW'⟩ := h.chain_old hdata hwf hold' (hdata.ne_zero hl'.head_data)
        rw [hl.unique hdata hV', hl'.unique hdata hW']
        exact hwf.disjoint hold hold' hV hW hne
      | inr hnew' =>
        obtain ⟨-, -, rfl, -⟩ := hnew'
        exact h.disjoint_new hdata hwf hold hl hl'
    | inr hnew =>
      obtain ⟨rfl, rfl, rfl, -⟩ := hnew
      cases h.entry_cases hwf.cwd hx' with
      | inl hold' => exact fun y hy hy' => h.disjoint_new hdata hwf hold' hl' hl hy' hy
      | inr hnew' =>
        obtain ⟨rfl, rfl, -, -⟩ := hnew'
        cases hne with
        | inl hne => exact absurd rfl hne
        | inr hne => exact absurd rfl hne
  · intro dir m x hx hisdir
    cases h.entry_cases hwf.cwd hx with
    | inl hold => exact hwf.subdir hold hisdir
    | inr hnew =>
      obtain ⟨-, -, rfl, -⟩ := hnew
      obtain ⟨dot, dotDot, hf⟩ := hfresh hisdir
      exact hdata.ne_zero hf.data
  · intro dir parent m x hdir hlive hdot
    have hnot : ¬ Named x := fun hn => by simp [hn.1] at hdot
    cases hdirs.mp hdir with
    | inl hdV => exact hwf.dot hdV (h.live_old hdV hlive hnot) hdot
    | inr hnew =>
      obtain ⟨hisdir, -, rfl, rfl⟩ := hnew
      obtain ⟨dot, dotDot, hf⟩ := hfresh hisdir
      cases hf.live hlive with
      | inl hx => exact hx.1 ▸ hf.dot_spec.2
      | inr hx =>
        rw [hx.1] at hdot
        have h1 := (isDot_name hdot).2.symm.trans (isDotDot_name hf.dotDot_spec.1).2
        exact absurd h1 (by decide)
  · intro dir parent m x hdir hlive hdot
    have hnot : ¬ Named x := fun hn => by simp [hn.2] at hdot
    cases hdirs.mp hdir with
    | inl hdV => exact hwf.dotDot hdV (h.live_old hdV hlive hnot) hdot
    | inr hnew =>
      obtain ⟨hisdir, -, rfl, rfl⟩ := hnew
      obtain ⟨dot, dotDot, hf⟩ := hfresh hisdir
      cases hf.live hlive with
      | inr hx => exact hx.1 ▸ hf.dotDot_spec.2
      | inl hx =>
        rw [hx.1] at hdot
        have h1 := (isDot_name hf.dot_spec.1).2.symm.trans (isDotDot_name hdot).2
        exact absurd h1 (by decide)
  · intro dir parent hdir h0
    cases hdirs.mp hdir with
    | inl hdV =>
      obtain ⟨m, x, hlive, hdot⟩ := hwf.hasDot hdV h0
      exact ⟨m, x, (h.live_iff hdV).mpr (Or.inl hlive), hdot⟩
    | inr hnew =>
      obtain ⟨hisdir, -, rfl, rfl⟩ := hnew
      obtain ⟨dot, dotDot, hf⟩ := hfresh hisdir
      exact ⟨0, dot, hf.live_dots.1, hf.dot_spec.1⟩
  · intro dir parent hdir h0
    cases hdirs.mp hdir with
    | inl hdV =>
      obtain ⟨m, x, hlive, hdot⟩ := hwf.hasDotDot hdV h0
      exact ⟨m, x, (h.live_iff hdV).mpr (Or.inl hlive), hdot⟩
    | inr hnew =>
      obtain ⟨hisdir, -, rfl, rfl⟩ := hnew
      obtain ⟨dot, dotDot, hf⟩ := hfresh hisdir
      exact ⟨1, dotDot, hf.live_dots.2, hf.dotDot_spec.1⟩
  · obtain ⟨p, hp⟩ := hwf.cwd
    exact ⟨p, hdirs.mpr (Or.inl hp)⟩

end Create

/-! ### Deleting an entry -/

/-- The directory that goes with the entry `e`, if `e` is one. -/
def Gone (e : DirEntry) (dir : UInt16) : Prop :=
  isDirectory e = true ∧ Named e ∧ dir = e.firstClusterLow

/-- **An entry is deleted**: `V'` is `V` with the live entry `e` in slot `n` of `cwd` marked and with
its clusters `l` free.  A directory that is deleted holds no named entry; `.` and `..` are only
deleted in the root. -/
structure Deletes (V V' : Volume) (data : UInt16 → Prop) (cwd : UInt16) (n : ℕ) (e marked : DirEntry)
    (l : List UInt16) : Prop where
  live : Live V cwd n e
  chain : e.firstClusterLow ≠ 0 → Chain V.fat data e.firstClusterLow l
  no_chain : e.firstClusterLow = 0 → l = []
  kind : Named e ∨ cwd = 0 ∧ e.firstClusterLow = 0
  empty : ∀ dir m x, Gone e dir → Live V dir m x → ¬ Named x
  slots : ∀ dir parent, Dir V dir parent → ¬ Gone e dir → ∀ m,
    V'.slot dir m = if dir = cwd ∧ m = n then some marked else V.slot dir m
  marked : marked.name 0 = 0xE5
  fat : ∀ x, data x → x ∉ l → V'.fat x = V.fat x

section Delete

variable {n : ℕ} {e marked : DirEntry} {l : List UInt16}

/-- The deleted entry is not live any more; all others of the directories left are. -/
theorem Deletes.live_iff (h : Deletes V V' data cwd n e marked l) {dir parent : UInt16}
    (hdir : Dir V dir parent) (hgone : ¬ Gone e dir) {m : ℕ} {x : DirEntry} :
    Live V' dir m x ↔ Live V dir m x ∧ ¬ (dir = cwd ∧ m = n) := by
  have hslot := h.slots dir parent hdir hgone
  -- marking the slot leaves the same slots in front of an end mark
  have hbefore : ∀ k, (∃ y, V'.slot dir k = some y ∧ y.name 0 ≠ 0x00) ↔
      ∃ y, V.slot dir k = some y ∧ y.name 0 ≠ 0x00 := by
    intro k
    rw [hslot k]
    by_cases hk : dir = cwd ∧ k = n
    · rw [if_pos hk, hk.1, hk.2]
      refine ⟨fun _ => ⟨e, h.live.1, h.live.2.1⟩, fun _ => ⟨marked, rfl, ?_⟩⟩
      rw [h.marked]
      decide
    · rw [if_neg hk]
  constructor
  · rintro ⟨hs, h0, he5, hb⟩
    have hne : ¬ (dir = cwd ∧ m = n) := by
      intro hk
      rw [hslot m, if_pos hk] at hs
      cases hs
      exact he5 h.marked
    rw [hslot m, if_neg hne] at hs
    exact ⟨⟨hs, h0, he5, fun k hk => (hbefore k).mp (hb k hk)⟩, hne⟩
  · rintro ⟨⟨hs, h0, he5, hb⟩, hne⟩
    refine ⟨?_, h0, he5, fun k hk => (hbefore k).mpr (hb k hk)⟩
    rw [hslot m, if_neg hne]
    exact hs

/-- The directories left are those other than the deleted one. -/
theorem Deletes.dir_iff (h : Deletes V V' data cwd n e marked l) (hwf : WellFormed V data cwd)
    {dir parent : UInt16} : Dir V' dir parent ↔ Dir V dir parent ∧ ¬ Gone e dir := by
  constructor
  · intro hdir
    induction hdir with
    | root =>
      refine ⟨Dir.root, ?_⟩
      rintro ⟨hisdir, hnamed, h0⟩
      exact hwf.subdir ⟨hwf.cwd, h.live, hnamed⟩ hisdir h0.symm
    | @sub dir parent m x _ hlive hnamed hisdir ih =>
      obtain ⟨hdV, hgone⟩ := ih
      obtain ⟨hliveV, hne⟩ := (h.live_iff hdV hgone).mp hlive
      refine ⟨Dir.sub hdV hliveV hnamed hisdir, ?_⟩
      -- a second entry with the deleted cluster would share its chain
      rintro ⟨-, hnamed', hc⟩
      have hx : Entry V dir m x := ⟨⟨_, hdV⟩, hliveV, hnamed⟩
      exact hne (hwf.entry_unique hx ⟨hwf.cwd, h.live, hnamed'⟩ hc (hwf.subdir hx hisdir))
  · rintro ⟨hdir, hgone⟩
    induction hdir with
    | root => exact Dir.root
    | @sub dir parent m x hd hlive hnamed hisdir ih =>
      have hgone' : ¬ Gone e dir := fun hg => h.empty dir m x hg hlive hnamed
      refine Dir.sub (ih hgone') ((h.live_iff hd hgone').mpr ⟨hlive, ?_⟩) hnamed hisdir
      rintro ⟨rfl, rfl⟩
      rw [hlive.unique h.live] at hgone hisdir hnamed
      exact hgone ⟨hisdir, hnamed, rfl⟩

theorem Deletes.entry_old (h : Deletes V V' data cwd n e marked l) (hwf : WellFormed V data cwd)
    {dir : UInt16} {m : ℕ} {x : DirEntry} (hx : Entry V' dir m x) :
    Entry V dir m x ∧ ¬ (dir = cwd ∧ m = n) := by
  obtain ⟨parent, hdir⟩ := hx.reach
  obtain ⟨hdV, hgone⟩ := (h.dir_iff hwf).mp hdir
  obtain ⟨hlive, hne⟩ := (h.live_iff hdV hgone).mp hx.live
  exact ⟨⟨⟨parent, hdV⟩, hlive, hx.named⟩, hne⟩

/-- The chains of the entries left are the same: they share no cluster with the freed one. -/
theorem Deletes.chain_left (h : Deletes V V' data cwd n e marked l)
    (hwf : WellFormed V data cwd) {dir : UInt16} {m : ℕ} {x : DirEntry} (hx : Entry V' dir m x)
    (h0 : x.firstClusterLow ≠ 0) :
    ∃ t, Chain V.fat data x.firstClusterLow t ∧ Chain V'.fat data x.firstClusterLow t := by
  obtain ⟨hold, hne⟩ := h.entry_old hwf hx
  obtain ⟨t, ht⟩ := hwf.chain hold h0
  refine ⟨t, ht, ht.congr ?_⟩
  intro y hy
  refine h.fat y (ht.data_of_mem hy) ?_
  intro hyl
  by_cases hc : e.firstClusterLow = 0
  · rw [h.no_chain hc] at hyl
    cases hyl
  · have hnamed : Named e := by
      cases h.kind with
      | inl hnamed => exact hnamed
      | inr hroot => exact absurd hroot.2 hc
    have hpos : dir ≠ cwd ∨ m ≠ n := by
      by_cases hd : dir = cwd
      · exact Or.inr fun hm => hne ⟨hd, hm⟩
      · exact Or.inl hd
    exact hwf.disjoint hold ⟨hwf.cwd, h.live, hnamed⟩ ht (h.chain hc) hpos hy hyl

/-- `.` and `..` of a subdirectory stay. -/
theorem Deletes.live_dot (h : Deletes V V' data cwd n e marked l) {dir parent : UInt16}
    (hdir : Dir V dir parent) (hgone : ¬ Gone e dir) (h0 : dir ≠ 0) {m : ℕ} {x : DirEntry}
    (hlive : Live V dir m x) (hx : ¬ Named x) : Live V' dir m x := by
  refine (h.live_iff hdir hgone).mpr ⟨hlive, ?_⟩
  rintro ⟨rfl, rfl⟩
  rw [hlive.unique h.live] at hx
  cases h.kind with
  | inl hnamed => exact hx hnamed
  | inr hroot => exact h0 hroot.1

/-- **Deleting an entry keeps the invariant.** -/
theorem WellFormed.delete (hwf : WellFormed V data cwd) (hdata : DataRange data)
    (h : Deletes V V' data cwd n e marked l) : WellFormed V' data cwd := by
  have hdirs : ∀ {dir parent}, Dir V' dir parent ↔ Dir V dir parent ∧ ¬ Gone e dir :=
    h.dir_iff hwf
  refine ⟨?_, ?_, ?_, ?_, ?_, ?_, ?_, ?_⟩
  · intro dir m x hx h0
    obtain ⟨t, -, ht⟩ := h.chain_left hwf hx h0
    exact ⟨t, ht⟩
  · intro dir m x t dir' m' x' t' hx hx' ht ht' hne
    obtain ⟨t₀, hV, hV'⟩ := h.chain_left hwf hx (hdata.ne_zero ht.head_data)
    obtain ⟨t₁, hW, hW'⟩ := h.chain_left hwf hx' (hdata.ne_zero ht'.head_data)
    rw [ht.unique hdata hV', ht'.unique hdata hW']
    exact hwf.disjoint (h.entry_old hwf hx).1 (h.entry_old hwf hx').1 hV hW hne
  · intro dir m x hx hisdir
    exact hwf.subdir (h.entry_old hwf hx).1 hisdir
  · intro dir parent m x hdir hlive hdot
    obtain ⟨hdV, hgone⟩ := hdirs.mp hdir
    exact hwf.dot hdV ((h.live_iff hdV hgone).mp hlive).1 hdot
  · intro dir parent m x hdir hlive hdot
    obtain ⟨hdV, hgone⟩ := hdirs.mp hdir
    exact hwf.dotDot hdV ((h.live_iff hdV hgone).mp hlive).1 hdot
  · intro dir parent hdir h0
    obtain ⟨hdV, hgone⟩ := hdirs.mp hdir
    obtain ⟨m, x, hlive, hdot⟩ := hwf.hasDot hdV h0
    exact ⟨m, x, h.live_dot hdV hgone h0 hlive (fun hn => by simp [hn.1] at hdot), hdot⟩
  · intro dir parent hdir h0
    obtain ⟨hdV, hgone⟩ := hdirs.mp hdir
    obtain ⟨m, x, hlive, hdot⟩ := hwf.hasDotDot hdV h0
    exact ⟨m, x, h.live_dot hdV hgone h0 hlive (fun hn => by simp [hn.2] at hdot), hdot⟩
  · obtain ⟨p, hp⟩ := hwf.cwd
    -- the current directory is not empty: it holds the entry itself
    exact ⟨p, hdirs.mpr ⟨hp, fun hg => h.empty cwd n e hg h.live hg.2.1⟩⟩

end Delete

end OsEojin.Fat
