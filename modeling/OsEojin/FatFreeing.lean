import OsEojin.FatGeometry
import OsEojin.Lib.Links

/-!
# Freeing a chain

`fat_free_cluster_chain` reads the link of a cluster, sets its FAT entry to zero and goes on with what it
read, until that is an end mark.  It refuses to start below cluster 2, and looks no further: a link to 0 or 1
is followed and its entry set to zero, as is the entry of a number behind the end of the FAT.

* `zeroed`: the FAT entries of a list of clusters set to zero; `freeChain_eq_zeroed`: what the loop does to a
  chain;
* `freedEntries`, `execute_freeLoop_rounds`: the entries the loop writes, round by round;
* `freeCluster_returns_iff`: when the loop comes back;
* `free_chain_safe_iff`: when it comes back and writes no entry but those of clusters.
-/

namespace OsEojin.Fat

open OsEojin.Lib.Programs OsEojin.Lib.Links OsEojin.Ata OsEojin.Shell

variable {junk : Sector} {g : Globals} {d d' : Disk} {c x : UInt16} {l : List UInt16} {fuel : ℕ}
  {data : UInt16 → Prop}

/-! ### Entries set to zero -/

/-- The disk after the FAT entries of the clusters were set to zero, one after the other. -/
def zeroed (g : Globals) (d : Disk) (l : List UInt16) : Disk := l.foldl (fun d x => setFatEntry g d x 0) d

@[simp] theorem zeroed_nil : zeroed g d [] = d := rfl

@[simp] theorem zeroed_cons : zeroed g d (c :: l) = zeroed g (setFatEntry g d c 0) l := rfl

theorem fatEntry_zeroed (l : List UInt16) (d : Disk) (x : UInt16) :
    fatEntry g (zeroed g d l) x = if x ∈ l then 0 else fatEntry g d x := by
  induction l generalizing d with
  | nil => simp
  | cons c l ih =>
    rw [zeroed_cons, ih, fatEntry_setFatEntry]
    by_cases hxc : x = c
    · simp [hxc]
    · simp [hxc]

/-- Behind the FAT nothing is changed. -/
theorem Geometry.get_zeroed (hg : Geometry g) (hl : ∀ x ∈ l, x.toNat < 256 * g.fatInfo.fatSize16.toNat)
    {lba : ℕ} (hlo : g.rootDirSector ≤ lba) (hhi : lba < lbaSpace) :
    (zeroed g d l).get lba = d.get lba := by
  induction l generalizing d with
  | nil => rfl
  | cons c l ih =>
    rw [zeroed_cons, ih fun x hx => hl x (List.mem_cons_of_mem c hx),
      hg.get_setFatEntry (hl c List.mem_cons_self) 0 hlo hhi]

/-! ### Chains -/

/-- The rest of a chain does not come back to its head, so it is there when the head is erased. -/
theorem chain_rest (hdata : DataRange data) (hc : data c)
    (hrest : Chain (fatEntry g d) data (fatEntry g d c) l) :
    Chain (fatEntry g (setFatEntry g d c 0)) data (fatEntry g d c) l := by
  have hnotin : c ∉ l := (List.nodup_cons.mp ((Chain.link hc hrest).nodup hdata)).1
  refine hrest.congr ?_
  intro x hx
  rw [fatEntry_setFatEntry, if_neg]
  rintro rfl
  exact hnotin hx

/-- **Freeing a chain** sets the FAT entries of its clusters to zero. -/
theorem freeChain_eq_zeroed (hdata : DataRange data)
    (hl : Chain (fatEntry g d) data c l) (hfuel : l.length < fuel) :
    freeChain g fuel c d = some (zeroed g d l) := by
  induction l generalizing c d fuel with
  | nil => cases hl
  | cons a l ih =>
    obtain ⟨fuel, rfl⟩ := Nat.exists_eq_succ_of_ne_zero (show fuel ≠ 0 from by omega)
    rw [List.length_cons] at hfuel
    have hlow : c < 0xFFF8 := (hdata c hl.head_data).2
    rw [freeChain, if_pos hlow]
    cases hl with
    | last _ hend =>
      obtain ⟨fuel, rfl⟩ := Nat.exists_eq_succ_of_ne_zero (show fuel ≠ 0 from by omega)
      rw [freeChain, if_neg (UInt16.not_lt.mpr hend)]
      rfl
    | link hd hrest => exact ih (chain_rest hdata hd hrest) (by omega)

/-- What freeing an entry's clusters does, with or without a chain. -/
theorem freeCluster_eq_zeroed (hfuel : 65536 ≤ fuel)
    (hchain : c ≠ 0 → DiskChain g d c l) (hnone : c = 0 → l = []) :
    freeCluster g fuel c d = some (zeroed g d l) := by
  by_cases h0 : c = 0
  · rw [freeCluster, if_pos (by rw [h0]; decide), hnone h0, zeroed_nil]
  · have hl := hchain h0
    have hlen := hl.length_lt
    rw [freeCluster, if_neg (UInt16.not_lt.mpr (dataRange g c hl.head_data).1),
      freeChain_eq_zeroed (dataRange g) hl (by omega)]

/-- The same, in the terms of the FAT and of the sectors behind it. -/
theorem freeCluster_spec (hg : Geometry g) (hfuel : 65536 ≤ fuel) (hchain : c ≠ 0 → DiskChain g d c l)
    (hnone : c = 0 → l = []) :
    ∃ d₁, freeCluster g fuel c d = some d₁ ∧
      (∀ x, fatEntry g d₁ x = if x ∈ l then 0 else fatEntry g d x) ∧
      ∀ lba, g.rootDirSector ≤ lba → lba < lbaSpace → d₁.get lba = d.get lba := by
  refine ⟨_, freeCluster_eq_zeroed hfuel hchain hnone, fatEntry_zeroed l d, ?_⟩
  intro lba hlo hhi
  refine hg.get_zeroed ?_ hlo hhi
  intro x hx
  have h0 : c ≠ 0 := by
    intro h0
    rw [hnone h0] at hx
    cases hx
  exact ((hchain h0).data_of_mem hx).2.2.1

/-! ### When the loop comes back -/

/-- The values at which a chain ends. -/
def IsMark (c : UInt16) : Prop := 0xFFF8 ≤ c

instance : DecidablePred IsMark := fun c => inferInstanceAs (Decidable (0xFFF8 ≤ c))

theorem fatEntry_update (d : Disk) (c v : UInt16) :
    fatEntry g (setFatEntry g d c v) = Function.update (fatEntry g d) c v := by
  funext x
  rw [fatEntry_setFatEntry, Function.update_apply]

/-- The loop is the walk that erases its links, on the array of FAT entries. -/
theorem freeChain_erase (fuel : ℕ) (c : UInt16) (d : Disk) :
    (freeChain g fuel c d).map (fatEntry g) = erase IsMark 0 fuel (fatEntry g d) c := by
  induction fuel generalizing c d with
  | zero => rfl
  | succ fuel ih =>
    rw [freeChain, erase]
    by_cases hmark : IsMark c
    · rw [if_neg (UInt16.not_lt.mpr hmark), if_pos hmark]
      rfl
    · rw [if_pos (UInt16.not_le.mp hmark), if_neg hmark, ih, fatEntry_update]

instance finiteUInt16 : Finite UInt16 :=
  Finite.of_injective (fun c : UInt16 => c.toBitVec.toFin) fun _ _ h =>
    UInt16.toBitVec_inj.mp (BitVec.toFin_inj.mp h)

/-- The links from `c` lead to an end mark. -/
abbrev LinksEnd (g : Globals) (d : Disk) (c : UInt16) : Prop := Ends IsMark (fatEntry g d) c

/-- **When the freeing comes back**: the links lead to an end mark, or else those of entry 0 do, to which every
entry that is met a second time leads. -/
theorem freeCluster_returns_iff :
    (∃ fuel d', freeCluster g fuel c d = some d') ↔ c < 2 ∨ LinksEnd g d c ∨ LinksEnd g d 0 := by
  by_cases hc : c < 2
  · refine ⟨fun _ => Or.inl hc, fun _ => ⟨0, d, ?_⟩⟩
    rw [freeCluster, if_pos hc]
  · have hreturns : (∃ fuel d', freeCluster g fuel c d = some d') ↔ Returns IsMark 0 (fatEntry g d) c := by
      simp only [freeCluster, if_neg hc, Returns, ← freeChain_erase, Option.isSome_map,
        Option.isSome_iff_exists]
    rw [hreturns, erase_returns_iff]
    exact ⟨Or.inr, fun h => h.resolve_left hc⟩

/-- More fuel does not change what was freed. -/
theorem freeCluster_mono {n m : ℕ} (h : freeCluster g n c d = some d') (hnm : n ≤ m) :
    freeCluster g m c d = some d' := by
  have hchain : ∀ n m c d, freeChain g n c d = some d' → n ≤ m → freeChain g m c d = some d' := by
    intro n
    induction n with
    | zero =>
      intro m c d h
      cases h
    | succ n ih =>
      intro m c d h hnm
      obtain ⟨m, rfl⟩ := Nat.exists_eq_succ_of_ne_zero (show m ≠ 0 from by omega)
      rw [freeChain] at h ⊢
      split
      · rename_i hc
        rw [if_pos hc] at h
        exact ih m _ _ h (by omega)
      · rename_i hc
        rw [if_neg hc] at h
        exact h
  rw [freeCluster] at h ⊢
  split
  · rename_i hc
    rw [if_pos hc] at h
    exact h
  · rename_i hc
    rw [if_neg hc] at h
    exact hchain n m c d h hnm

/-! ### What the loop writes -/

/-- The FAT entries that the first `n` rounds of the loop set to zero, in their order. -/
def freedEntries (g : Globals) : ℕ → UInt16 → Disk → List UInt16
  | 0, _, _ => []
  | n + 1, curr, d =>
    if curr < 0xFFF8 then curr :: freedEntries g n (fatEntry g d curr) (setFatEntry g d curr 0) else []

/-- After `n` rounds the loop goes on from the disk with these entries set to zero, whether it ends or not. -/
theorem execute_freeLoop_rounds (m n : ℕ) (h : (freedEntries g n c d).length = n) :
    ∃ curr, execute junk (freeLoop g (n + m) c) d =
      execute junk (freeLoop g m curr) (zeroed g d (freedEntries g n c d)) := by
  induction n generalizing c d with
  | zero => exact ⟨c, by rw [Nat.zero_add]; rfl⟩
  | succ n ih =>
    rw [freedEntries] at h
    rw [freedEntries, show n + 1 + m = n + m + 1 from by omega, freeLoop]
    by_cases hc : c < 0xFFF8
    · rw [if_pos hc] at h ⊢
      rw [if_pos hc]
      simp only [execute_bind, execute_fatNextCluster, execute_fatWriteFatEntry, Option.bind_some]
      exact ih (Nat.succ.inj h)
    · rw [if_neg hc] at h
      cases h

/-- The rounds of a loop over a chain write the entries of the chain. -/
theorem freedEntries_chain (hdata : DataRange data)
    (hl : Chain (fatEntry g d) data c l) (n : ℕ) : freedEntries g n c d = l.take n := by
  induction n generalizing c d l with
  | zero => rfl
  | succ n ih =>
    rw [freedEntries, if_pos (hdata c hl.head_data).2]
    cases hl with
    | last hd hend =>
      cases n with
      | zero => rfl
      | succ n =>
        rw [freedEntries, if_neg (UInt16.not_lt.mpr hend)]
        rfl
    | link hd hrest => rw [ih (chain_rest hdata hd hrest), List.take_succ_cons]

/-- The number of an entry of the FAT that belongs to a cluster. -/
def InFat (g : Globals) (c : UInt16) : Prop := 2 ≤ c.toNat ∧ c.toNat < 256 * g.fatInfo.fatSize16.toNat

/-- A cluster number with an entry in the FAT, not an end mark. -/
def Linked (g : Globals) (c : UInt16) : Prop := InFat g c ∧ c < 0xFFF8

theorem linked_dataRange (g : Globals) : DataRange (Linked g) := by
  intro c hc
  rw [UInt16.le_iff_toNat_le]
  exact ⟨hc.1.1, hc.2⟩

/-- The freeing comes back, and no round of it writes entry 0, entry 1 or one behind the end of the FAT. -/
structure SafelyFreed (junk : Sector) (g : Globals) (d : Disk) (c : UInt16) : Prop where
  returns : ∃ fuel d', execute junk (fatFreeClusterChain g fuel c) d = some ((), d')
  entries : ¬ c < 2 → ∀ n, ∀ x ∈ freedEntries g n c d, InFat g x

/-- The links from `c` lead from cluster to cluster, each with its entry in the FAT, to an end mark. -/
def SoundChain (g : Globals) (d : Disk) (c : UInt16) : Prop := ∃ l, Chain (fatEntry g d) (Linked g) c l

theorem execute_free_returns_iff :
    (∃ fuel d', execute junk (fatFreeClusterChain g fuel c) d = some ((), d')) ↔
      ∃ fuel d', freeCluster g fuel c d = some d' := by
  simp only [execute_fatFreeClusterChain, Option.map_eq_some_iff, Prod.mk.injEq, true_and, exists_eq_right]

/-- A loop that comes back and writes no other entries has followed a chain: had it met a cluster a second
time, it would have gone on to entry 0. -/
theorem soundChain_of_freed (hc : c < 0xFFF8) (hfree : freeChain g fuel c d = some d')
    (hin : ∀ x ∈ freedEntries g fuel c d, InFat g x) : SoundChain g d c := by
  induction fuel generalizing c d with
  | zero => cases hfree
  | succ fuel ih =>
    rw [freeChain, if_pos hc] at hfree
    rw [freedEntries, if_pos hc] at hin
    have hlinked : Linked g c := ⟨hin c List.mem_cons_self, hc⟩
    by_cases hnext : fatEntry g d c < 0xFFF8
    · obtain ⟨l, hl⟩ := ih hnext hfree fun x hx => hin x (List.mem_cons_of_mem c hx)
      have hnotin : c ∉ l := by
        intro hmem
        apply hl.fat_ne_zero (linked_dataRange g) hmem
        rw [fatEntry_setFatEntry, if_pos rfl]
      refine ⟨c :: l, Chain.link hlinked (hl.congr ?_)⟩
      intro x hx
      rw [fatEntry_setFatEntry, if_neg]
      rintro rfl
      exact hnotin hx
    · exact ⟨[c], Chain.last hlinked (UInt16.not_lt.mp hnext)⟩

/-- **When freeing a chain is safe**: when there is nothing to free, or the links lead through clusters of the
FAT to an end mark. -/
theorem free_chain_safe_iff (junk : Sector) (g : Globals) (d : Disk) (c : UInt16) :
    SafelyFreed junk g d c ↔ c < 2 ∨ 0xFFF8 ≤ c ∨ SoundChain g d c := by
  constructor
  · intro h
    by_cases hlow : c < 2
    · exact Or.inl hlow
    · obtain ⟨fuel, d', hfree⟩ := execute_free_returns_iff.mp h.returns
      rw [freeCluster, if_neg hlow] at hfree
      by_cases hmark : 0xFFF8 ≤ c
      · exact Or.inr (Or.inl hmark)
      · exact Or.inr (Or.inr (soundChain_of_freed (UInt16.not_le.mp hmark) hfree
          (h.entries hlow fuel)))
  · rintro (hlow | hmark | ⟨l, hl⟩)
    · refine ⟨?_, fun h => absurd hlow h⟩
      rw [execute_free_returns_iff, freeCluster_returns_iff]
      exact Or.inl hlow
    · refine ⟨?_, ?_⟩
      · rw [execute_free_returns_iff, freeCluster_returns_iff]
        exact Or.inr (Or.inl (ends_of_mark hmark))
      · intro _ n x hx
        cases n with
        | zero => cases hx
        | succ n =>
          rw [freedEntries, if_neg (UInt16.not_lt.mpr hmark)] at hx
          cases hx
    · have hlow : ¬ c < 2 := UInt16.not_lt.mpr (linked_dataRange g c hl.head_data).1
      refine ⟨?_, ?_⟩
      · refine execute_free_returns_iff.mpr ⟨l.length + 1, zeroed g d l, ?_⟩
        rw [freeCluster, if_neg hlow, freeChain_eq_zeroed (linked_dataRange g) hl (Nat.lt_succ_self _)]
      · intro _ n x hx
        rw [freedEntries_chain (linked_dataRange g) hl] at hx
        exact (hl.data_of_mem (List.mem_of_mem_take hx)).1

/-- Cluster 2 of the small volume, marked as the end of its chain. -/
theorem free_chain_safe_marked :
    SafelyFreed (fun _ => 0) smallVolume (setFatEntry smallVolume smallDisk 2 0xFFFF) 2 := by
  refine (free_chain_safe_iff (fun _ => 0) smallVolume _ 2).mpr
    (Or.inr (Or.inr ⟨[2], Chain.last ⟨⟨by decide, by decide⟩, by decide⟩ ?_⟩))
  decide +kernel

/-- **Freeing a free cluster** follows its link to entry 0 and writes that. -/
theorem free_link_overwrites_entry_zero :
    Mounted smallVolume ∧ ¬ SafelyFreed (fun _ => 0) smallVolume smallDisk 2 := by
  refine ⟨geometry_smallVolume.toMounted, ?_⟩
  intro h
  have hmem : (0 : UInt16) ∈ freedEntries smallVolume 2 2 smallDisk := by
    decide +kernel
  exact absurd (h.entries (by decide) 2 0 hmem).1 (by decide)

end OsEojin.Fat
