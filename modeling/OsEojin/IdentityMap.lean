import OsEojin.VmmInit

/-!
# The identity map of the kernel

With 259 free blocks below the 52-bit addresses `vmm_init` of `src/kernel/vmm.c` maps every address below
512 MB to itself, nothing else in the 48-bit address space, and every table is a block of its own that
`pmm_alloc_block` gave it.  The PML4 may be the block at address 0; the tables below it are not.

* `enough_blocks`: the calls that `vmm_init` makes all succeed;
* `vmm_init_builds_identity`: what it leaves.
-/

namespace OsEojin.Vmm

open OsEojin.Lib.ByteMemory OsEojin.Lib.Forests OsEojin.Pmm

/-- The block at `t` was taken by a call between the two states. -/
def AllocatedDuring (p p' : PmmState) (t : ℕ) : Prop :=
  ∃ q, Allocates p q ∧ Allocates (pmmAllocBlock q).2 p' ∧ (pmmAllocBlock q).1 = t ∧
    testBit q.bitmap (t / blockSize) = false

/-- `PRESENT`, `WRITABLE` and `USER`. -/
theorem flags_of_mod {e : ℕ} (he : e % 4096 = 7) : e &&& pagingFlagsAll = pagingFlagsAll := by
  rw [show pagingFlagsAll = 2 ^ 3 - 1 from by decide, Nat.and_two_pow_sub_one_eq_mod]
  omega

/-- The walk looks at 48 bits of the address. -/
theorem pageEntry_mod (m : Memory) (pml4 u : ℕ) : pageEntry m pml4 u = pageEntry m pml4 (u % 2 ^ 48) := by
  have hsame : SamePage u (u % 2 ^ 48) := by
    rw [SamePage]
    omega
  exact pageEntry_samePage hsame m pml4

section Boot

variable {s : VmState}

/-- The block at the null address is used after one allocation. -/
theorem used_zero_alloc {p : PmmState} (h : 0 < p.totalBlocks) :
    testBit (pmmAllocBlock p).2.bitmap 0 = true := by
  cases pmmAllocBlock_cases p with
  | inl hsome =>
    obtain ⟨i, -, -, hbelow, heq⟩ := hsome
    rw [heq, testBit_setBit]
    cases Nat.eq_zero_or_pos i with
    | inl h0 => simp [h0]
    | inr hpos => simp [hbelow 0 hpos]
  | inr hnone =>
    rw [hnone.2]
    exact hnone.1 0 h

theorem totalBlocks_pos_of_freeBelow {p : PmmState} {bound : ℕ} (h : 0 < (freeBelow p bound).card) :
    0 < p.totalBlocks := by
  obtain ⟨j, hj⟩ := Finset.card_pos.mp h
  have hlt := Finset.mem_range.mp (Finset.mem_filter.mp (Finset.mem_filter.mp hj).1).1
  omega

/-- **The calls that `vmm_init` makes after the first all succeed.** -/
theorem enough_blocks (h : 259 ≤ (freeBelow s.pmm (2 ^ 40)).card) {k : ℕ} (hk : k < 258) :
    (pmmAllocBlock (pmmAfter k (kernelRoot s).pmm)).1 ≠ 0 ∧
      (pmmAllocBlock (pmmAfter k (kernelRoot s).pmm)).1 < 2 ^ 52 := by
  obtain ⟨-, -, -, -, hcard⟩ := alloc_of_freeBelow (show 0 < (freeBelow s.pmm (2 ^ 40)).card from by omega)
  have hzero : testBit (kernelRoot s).pmm.bitmap 0 = true :=
    used_zero_alloc (totalBlocks_pos_of_freeBelow (show 0 < (freeBelow s.pmm (2 ^ 40)).card from by omega))
  have hleft : 258 - k ≤ (freeBelow (pmmAfter k (kernelRoot s).pmm) (2 ^ 40)).card := by
    apply freeBelow_pmmAfter _ (by omega)
    show 258 ≤ (freeBelow (pmmAllocBlock s.pmm).2 (2 ^ 40)).card
    omega
  obtain ⟨i, hi, hfree, heq, -⟩ := alloc_of_freeBelow
    (show 0 < (freeBelow (pmmAfter k (kernelRoot s).pmm) (2 ^ 40)).card from by omega)
  have hi0 : i ≠ 0 := by
    rintro rfl
    rw [(allocates_pmmAfter k (kernelRoot s).pmm).later.used 0 hzero] at hfree
    cases hfree
  rw [heq, blockSize]
  omega

/-- The PML4 is the first block. -/
theorem kernelRoot_block (h : 0 < (freeBelow s.pmm (2 ^ 40)).card) :
    testBit s.pmm.bitmap ((kernelRoot s).kernelPml4 / 4096) = false ∧
      testBit (kernelRoot s).pmm.bitmap ((kernelRoot s).kernelPml4 / 4096) = true := by
  obtain ⟨i, -, hfree, heq, -⟩ := alloc_of_freeBelow h
  rw [kernelRoot_eq, heq, blockSize, Nat.mul_div_cancel _ (by decide)]
  exact ⟨hfree, by simp [testBit_setBit]⟩

theorem vmmInit_identityTree (h : 259 ≤ (freeBelow s.pmm (2 ^ 40)).card) :
    IdentityTree (vmmInit s) (vmmInit s).kernelPml4 131072 (kernelRoot s).pmm :=
  vmmInit_tree (kernelRoot_block (by omega)).2 fun _ hn hdone =>
    hdone.supplied hn fun _ hk => enough_blocks h hk

/-! ### What the identity map is -/

section Map

variable {pml4 : ℕ} {p₀ : PmmState} (h : IdentityTree s pml4 131072 p₀)
include h

theorem IdentityTree.noHuge : Flagged NoHuge s.mem (fun r => r = pml4) :=
  h.plain.mono fun f hf => by rw [hf]; rfl

/-- Every address below 512 MB is mapped to itself. -/
theorem IdentityTree.translate_low {v : ℕ} (hv : v < identityMapEnd) : translate s.mem pml4 v = some v := by
  rw [identityMapEnd] at hv
  rw [translate_eq h.noHuge rfl, h.pages v (by omega), if_pos (by omega), Option.map_some,
    tableOf_pointer (by omega) (by omega)]
  congr 1
  omega

/-- No other address is mapped. -/
theorem IdentityTree.translate_high {v : ℕ} (hv : identityMapEnd ≤ v) (hv' : v < 2 ^ 48) :
    translate s.mem pml4 v = none := by
  rw [identityMapEnd] at hv
  rw [translate_eq h.noHuge rfl, h.pages v hv', if_neg (by omega)]
  rfl

/-- An address that is mapped to itself is below 512 MB. -/
theorem IdentityTree.lt_of_translate {v : ℕ} (hv : translate s.mem pml4 v = some v) :
    v < identityMapEnd := by
  rw [translate_eq h.noHuge rfl, pageEntry_mod, h.pages _ (Nat.mod_lt _ (by decide))] at hv
  split at hv
  · rw [Option.map_some, tableOf_pointer (by omega) (by omega)] at hv
    have hself := Option.some.inj hv
    rw [identityMapEnd]
    omega
  · cases hv

/-- Every entry on the way of a mapped address has the three flags. -/
theorem IdentityTree.walk_flags {v : ℕ} (hv : v < identityMapEnd) :
    (pageWalk s.mem pml4 v).length = 4 ∧
      ∀ e ∈ pageWalk s.mem pml4 v, e &&& pagingFlagsAll = pagingFlagsAll := by
  rw [identityMapEnd] at hv
  have hpage := h.pages v (by omega)
  rw [if_pos (by omega), pageEntry] at hpage
  rcases pageWalk_cases h.noHuge rfl v with ⟨pdpt, pd, pt, hpdpt, hpd, hpt, hwalk⟩ | ⟨hnone, -⟩
  · have hupper : ∀ t k x, Node (next s.mem) (fun r => r = pml4) 2 t → next s.mem t k = some x →
        entry s.mem t k &&& pagingFlagsAll = pagingFlagsAll := by
      intro t k x ht hx
      apply flags_of_mod
      apply h.plain t k ht
      rw [next] at hx
      split at hx
      · rename_i hpresent
        exact hpresent
      · cases hx
    have hleaf : entry s.mem pt (ptIndex v) % 4096 = 7 := by
      rw [reach_dirs hpdpt hpd hpt, Option.bind_some] at hpage
      split at hpage
      · rw [Option.some.inj hpage]
        omega
      · cases hpage
    rw [hwalk]
    refine ⟨rfl, ?_⟩
    intro e he
    simp only [List.mem_cons, List.not_mem_nil, or_false] at he
    rcases he with he | he | he | he
    · rw [he]
      exact hupper _ _ _ ⟨pml4, [], rfl, by decide, rfl⟩ hpdpt
    · rw [he]
      exact hupper _ _ _ ⟨pml4, [pml4Index v], rfl, by simp, by simp [hpdpt]⟩ hpd
    · rw [he]
      exact hupper _ _ _ ⟨pml4, [pml4Index v, pdptIndex v], rfl, by simp, by simp [hpdpt, hpd]⟩ hpt
    · rw [he]
      exact flags_of_mod hleaf
  · rw [hnone] at hpage
    cases hpage

end Map

/-- Every table was taken by one of the calls. -/
theorem allocated_of_node (h : 259 ≤ (freeBelow s.pmm (2 ^ 40)).card) {t : ℕ}
    (ht : Node (next (vmmInit s).mem) (fun r => r = (vmmInit s).kernelPml4) 3 t) :
    AllocatedDuring s.pmm (vmmInit s).pmm t := by
  have htree := vmmInit_identityTree h
  obtain ⟨k, -, hpmm⟩ := htree.calls
  have hfirst : Allocates s.pmm (kernelRoot s).pmm := allocates_alloc s.pmm
  have hall : Allocates s.pmm (vmmInit s).pmm := by
    rw [hpmm]
    exact hfirst.trans (allocates_pmmAfter k _)
  have hfree : testBit s.pmm.bitmap (t / 4096) = false := by
    cases htree.tables t ht with
    | inl hroot =>
      rw [hroot, vmmInit_kernelPml4, ← kernelRoot_kernelPml4]
      exact (kernelRoot_block (by omega)).1
    | inr hfree =>
      rw [← Bool.not_eq_true] at hfree ⊢
      exact fun hused => hfree (hfirst.later.used _ hused)
  obtain ⟨q, h₁, h₂, haddr, hq⟩ := taken_of_used hall hfree (htree.forest.used t ht)
  have hdvd := Nat.dvd_of_mod_eq_zero (htree.forest.aligned_of_node ht)
  rw [blockSize, Nat.div_mul_cancel hdvd] at haddr
  exact ⟨q, h₁, h₂, haddr, hq⟩

/-- **`vmm_init` builds the identity map**, from 259 free blocks that physical addresses of 52 bits reach. -/
theorem vmm_init_builds_identity (s : VmState) (h : 259 ≤ (freeBelow s.pmm (2 ^ 40)).card) :
    (∀ v, v < identityMapEnd →
        translate (vmmInit s).mem (vmmInit s).kernelPml4 v = some v ∧
          (pageWalk (vmmInit s).mem (vmmInit s).kernelPml4 v).length = 4 ∧
          ∀ e ∈ pageWalk (vmmInit s).mem (vmmInit s).kernelPml4 v,
            e &&& pagingFlagsAll = pagingFlagsAll) ∧
      (∀ v, identityMapEnd ≤ v → v < 2 ^ 48 →
        translate (vmmInit s).mem (vmmInit s).kernelPml4 v = none) ∧
      (∀ t, Node (next (vmmInit s).mem) (fun r => r = (vmmInit s).kernelPml4) 3 t →
        AllocatedDuring s.pmm (vmmInit s).pmm t) ∧
      ∀ q q' t, q.length ≤ 3 → q'.length ≤ 3 →
        reach (next (vmmInit s).mem) (vmmInit s).kernelPml4 q = some t →
        reach (next (vmmInit s).mem) (vmmInit s).kernelPml4 q' = some t → q = q' := by
  have htree := vmmInit_identityTree h
  refine ⟨fun v hv => ⟨htree.translate_low hv, htree.walk_flags hv⟩,
    fun v hv hv' => htree.translate_high hv hv', fun t => allocated_of_node h, ?_⟩
  intro q q' t hq hq' ht ht'
  exact (htree.forest.separated _ _ q q' t rfl rfl hq hq' ht ht').1

end Boot

/-- A machine of 512 free blocks. -/
def freshVm : VmState := ⟨fun _ => 0, ⟨fun _ => 0#32, 512, by decide⟩, 0, 0⟩

theorem freeBelow_freshVm : freeBelow freshVm.pmm (2 ^ 40) = Finset.range 512 := by
  ext i
  have hfree : testBit freshVm.pmm.bitmap i = false := by
    rw [testBit_eq_getLsbD]
    exact BitVec.getLsbD_zero
  simp only [freeBelow, freeBlocks, Finset.mem_filter, Finset.mem_range, hfree, and_true]
  show i < 512 ∧ i < 2 ^ 40 ↔ i < 512
  omega

theorem vmm_init_builds_identity_freshVm :
    259 ≤ (freeBelow freshVm.pmm (2 ^ 40)).card ∧
      translate (vmmInit freshVm).mem (vmmInit freshVm).kernelPml4 0x1234567 = some 0x1234567 := by
  have hblocks : 259 ≤ (freeBelow freshVm.pmm (2 ^ 40)).card := by
    rw [freeBelow_freshVm, Finset.card_range]
    decide
  exact ⟨hblocks, ((vmm_init_builds_identity freshVm hblocks).1 0x1234567 (by decide)).1⟩

end OsEojin.Vmm
