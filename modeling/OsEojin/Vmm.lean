import OsEojin.Lib.ByteMemory
import OsEojin.Pmm

/-!
# Page tables

`src/kernel/vmm.c`: four levels of tables of 512 eight-byte entries, each table a block of the physical
memory manager.  The kernel reaches tables and pages through their physical addresses, which is what the
identity map is for.

* `entry` / `putEntry`: `table->entries[i]`;
* `vmmMapPage`, `vmmInit`, `vmmCreateUserPml4`: the functions of `vmm.c`;
* `pageWalk`, `translate`: what the processor makes of the tables.
-/

namespace OsEojin.Vmm

open OsEojin.Lib.ByteMemory OsEojin.Pmm

/-! ### Entries -/

/-- `PAGE_SIZE`. -/
def pageSize : ℕ := 4096

/-- `PAGING_FLAG_PRESENT`. -/
def pagingFlagPresent : ℕ := 0x01

/-- `PAGING_FLAG_WRITABLE`. -/
def pagingFlagWritable : ℕ := 0x02

/-- `PAGING_FLAG_USER`. -/
def pagingFlagUser : ℕ := 0x04

/-- `PAGING_FLAG_HUGE_PAGE`. -/
def pagingFlagHugePage : ℕ := 0x80

/-- `PAGING_FLAG_PRESENT | PAGING_FLAG_WRITABLE | PAGING_FLAG_USER`. -/
def pagingFlagsAll : ℕ := pagingFlagPresent ||| pagingFlagWritable ||| pagingFlagUser

/-- `PML4_INDEX(addr)`. -/
def pml4Index (addr : ℕ) : Fin 512 := Fin.ofNat 512 (addr >>> 39)

/-- `PDPT_INDEX(addr)`. -/
def pdptIndex (addr : ℕ) : Fin 512 := Fin.ofNat 512 (addr >>> 30)

/-- `PD_INDEX(addr)`. -/
def pdIndex (addr : ℕ) : Fin 512 := Fin.ofNat 512 (addr >>> 21)

/-- `PT_INDEX(addr)`. -/
def ptIndex (addr : ℕ) : Fin 512 := Fin.ofNat 512 (addr >>> 12)

/-- `table->entries[i]`. -/
def entry (m : Memory) (table : ℕ) (i : Fin 512) : ℕ := readLe m (table + 8 * i) 8

/-- The store `table->entries[i] = v`. -/
def putEntry (m : Memory) (table : ℕ) (i : Fin 512) (v : ℕ) : Memory :=
  writeLe m (table + 8 * i) 8 v

/-- `e & PAGING_FLAG_PRESENT`, as a truth value. -/
def present (e : ℕ) : Bool := e &&& pagingFlagPresent != 0

/-- `e & 0xFFFFFFFFFF000`. -/
def tableOf (e : ℕ) : ℕ := e &&& 0xFFFFFFFFFF000

/-! ### The functions -/

/-- Physical memory, its manager, and the globals of `vmm.c`. -/
structure VmState where
  mem : Memory
  pmm : PmmState
  kernelPml4 : ℕ
  currentPml4 : ℕ

/-- One level of `vmm_map_page`: the table behind entry `i`, which is allocated, cleared and entered when
there is none.  No table when there is no block left. -/
def nextTable (s : VmState) (table : ℕ) (i : Fin 512) : Option ℕ × VmState :=
  if present (entry s.mem table i) then (some (tableOf (entry s.mem table i)), s)
  else
    match pmmAllocBlock s.pmm with
    | (block, pmm) =>
      if block = 0 then (none, { s with pmm := pmm })
      else
        let mem := putEntry (fill s.mem block pageSize 0) table i
          (block ||| pagingFlagPresent ||| pagingFlagWritable ||| pagingFlagUser)
        (some (tableOf (entry mem table i)), { s with mem := mem, pmm := pmm })

/-- `vmm_map_page(pml4, vaddr, paddr, flags)`. -/
def vmmMapPage (s : VmState) (pml4 vaddr paddr flags : ℕ) : VmState :=
  match nextTable s pml4 (pml4Index vaddr) with
  | (none, s) => s
  | (some pdpt, s) =>
    match nextTable s pdpt (pdptIndex vaddr) with
    | (none, s) => s
    | (some pd, s) =>
      match nextTable s pd (pdIndex vaddr) with
      | (none, s) => s
      | (some pt, s) =>
        { s with mem := putEntry s.mem pt (ptIndex vaddr) (paddr &&& 0xFFFFFFFFFF000 ||| flags) }

/-- `vmm_switch_pml4(pml4)`. -/
def vmmSwitchPml4 (s : VmState) (pml4 : ℕ) : VmState := { s with currentPml4 := pml4 }

/-- `identity_map_end`. -/
def identityMapEnd : ℕ := 0x20000000

/-- The loop of `vmm_init`, for `n` pages from `addr` on. -/
def identityLoop (pml4 : ℕ) : ℕ → ℕ → VmState → VmState
  | 0, _, s => s
  | n + 1, addr, s => identityLoop pml4 n (addr + pageSize) (vmmMapPage s pml4 addr addr pagingFlagsAll)

/-- `vmm_init` up to its loop: the kernel's empty PML4. -/
def kernelRoot (s : VmState) : VmState :=
  match pmmAllocBlock s.pmm with
  | (block, pmm) => { s with mem := fill s.mem block pageSize 0, pmm := pmm, kernelPml4 := block }

/-- `vmm_init`. -/
def vmmInit (s : VmState) : VmState :=
  let s := kernelRoot s
  vmmSwitchPml4 (identityLoop s.kernelPml4 (identityMapEnd / pageSize) 0 s) s.kernelPml4

/-- `vmm_create_user_pml4`: the new PML4, `0` when there is no block. -/
def vmmCreateUserPml4 (s : VmState) : ℕ × VmState :=
  match pmmAllocBlock s.pmm with
  | (block, pmm) =>
    if block = 0 then (0, { s with pmm := pmm })
    else
      let mem := fill s.mem block pageSize 0
      (block, { s with mem := putEntry mem block 0 (entry mem s.kernelPml4 0), pmm := pmm })

/-! ### The processor -/

/-- The indices of the three upper levels. -/
def dirs (vaddr : ℕ) : List (Fin 512) := [pml4Index vaddr, pdptIndex vaddr, pdIndex vaddr]

/-- The indices of all four levels. -/
def indices (vaddr : ℕ) : List (Fin 512) := dirs vaddr ++ [ptIndex vaddr]

/-- The entry ends the walk at an upper level: not present, or, in a PDPT or a PD, a large page. -/
def endsWalk (e left : ℕ) : Bool :=
  !present e || (e &&& pagingFlagHugePage != 0 && (left == 1 || left == 2))

/-- The entries the processor reads along the given indices, the last one being where the walk ends. -/
def walkFrom (m : Memory) : ℕ → List (Fin 512) → List ℕ
  | _, [] => []
  | table, i :: rest =>
    if endsWalk (entry m table i) rest.length then [entry m table i]
    else entry m table i :: walkFrom m (tableOf (entry m table i)) rest

/-- **The page walk** of an address: the entries read, from the PML4 on. -/
def pageWalk (m : Memory) (pml4 vaddr : ℕ) : List ℕ := walkFrom m pml4 (indices vaddr)

/-- The physical address the walk arrives at: a page of 4 KB, 2 MB or 1 GB and the offset in it. -/
def translate (m : Memory) (pml4 vaddr : ℕ) : Option ℕ :=
  match pageWalk m pml4 vaddr with
  | [_, _, _, e] => if present e then some (tableOf e + vaddr % 2 ^ 12) else none
  | [_, _, e] => if present e then some (tableOf e / 2 ^ 21 * 2 ^ 21 + vaddr % 2 ^ 21) else none
  | [_, e] => if present e then some (tableOf e / 2 ^ 30 * 2 ^ 30 + vaddr % 2 ^ 30) else none
  | _ => none

/-! ### Entries as numbers -/

theorem present_iff (e : ℕ) : present e = true ↔ e % 2 = 1 := by
  rw [present, pagingFlagPresent, Nat.and_one_is_mod, bne_iff_ne]
  omega

theorem tableOf_eq (e : ℕ) : tableOf e = e / 2 ^ 12 % 2 ^ 40 * 2 ^ 12 := by
  have hmask : (0xFFFFFFFFFF000 : ℕ) = (2 ^ 40 - 1) * 2 ^ 12 := by norm_num
  rw [tableOf, hmask]
  apply Nat.eq_of_testBit_eq
  intro i
  rw [Nat.testBit_and, Nat.testBit_mul_two_pow, Nat.testBit_mul_two_pow, Nat.testBit_two_pow_sub_one,
    Nat.testBit_mod_two_pow, Nat.testBit_div_two_pow]
  by_cases h : 12 ≤ i
  · rw [show i - 12 + 12 = i from by omega]
    simp [h, Bool.and_comm]
  · simp [h]

theorem tableOf_aligned (e : ℕ) : tableOf e % 4096 = 0 := by
  rw [tableOf_eq]
  exact Nat.mul_mod_left _ _

theorem tableOf_lt (e : ℕ) : tableOf e < 2 ^ 52 := by
  rw [tableOf_eq]
  omega

/-- Physical addresses have 52 bits. -/
theorem translate_lt {m : Memory} {pml4 u x : ℕ} (h : translate m pml4 u = some x) : x < 2 ^ 52 := by
  have htable : ∀ e, tableOf e < 2 ^ 52 ∧ tableOf e % 4096 = 0 := fun e => ⟨tableOf_lt e, tableOf_aligned e⟩
  rw [translate] at h
  split at h
  · rename_i e _
    have := htable e
    split at h
    · obtain rfl := Option.some.inj h
      omega
    · cases h
  · rename_i e _
    have := htable e
    split at h
    · obtain rfl := Option.some.inj h
      omega
    · cases h
  · rename_i e _
    have := htable e
    split at h
    · obtain rfl := Option.some.inj h
      omega
    · cases h
  · cases h

/-- Setting flags below an aligned address. -/
theorem or_flags {a f : ℕ} (ha : a % 4096 = 0) (hf : f < 4096) : a ||| f = a + f := by
  obtain ⟨b, rfl⟩ := Nat.dvd_of_mod_eq_zero ha
  exact (Nat.two_pow_add_eq_or_of_lt (i := 12) hf b).symm

/-- The entry for a table is its address and the three flags. -/
theorem pointer_eq {a : ℕ} (ha : a % 4096 = 0) :
    (a ||| pagingFlagPresent ||| pagingFlagWritable ||| pagingFlagUser) = a + 7 := by
  rw [Nat.or_assoc, Nat.or_assoc]
  exact or_flags ha (by decide)

theorem tableOf_pointer {a : ℕ} (ha : a % 4096 = 0) (hlt : a < 2 ^ 52) : tableOf (a + 7) = a := by
  rw [tableOf_eq]
  omega

/-- Entries of page-aligned tables do not overlap. -/
theorem entry_putEntry (m : Memory) {t t' : ℕ} (ht : t % 4096 = 0) (ht' : t' % 4096 = 0)
    (i i' : Fin 512) (v : ℕ) :
    entry (putEntry m t i v) t' i' = if t' = t ∧ i' = i then v % 2 ^ 64 else entry m t' i' := by
  have hi := i.isLt
  have hi' := i'.isLt
  by_cases hsame : t' = t ∧ i' = i
  · obtain ⟨rfl, rfl⟩ := hsame
    rw [if_pos ⟨rfl, rfl⟩, entry, putEntry, readLe_writeLe_same]
    norm_num
  · rw [if_neg hsame, entry, putEntry, entry, readLe_writeLe_of_disjoint]
    have hne : t' ≠ t ∨ i'.val ≠ i.val := by
      by_cases h : t' = t
      · exact Or.inr fun hv => hsame ⟨h, Fin.ext hv⟩
      · exact Or.inl h
    omega

/-- A cleared page is a table without entries. -/
theorem entry_fill (m : Memory) {a t : ℕ} (ha : a % 4096 = 0) (ht : t % 4096 = 0) (i : Fin 512) :
    entry (fill m a pageSize 0) t i = if t = a then 0 else entry m t i := by
  have hi := i.isLt
  by_cases h : t = a
  · rw [if_pos h, entry, readLe_fill_zero (by omega) (by rw [pageSize]; omega)]
  · rw [if_neg h, entry, entry, readLe_fill_of_disjoint]
    rw [pageSize]
    omega

/-- A page of zeros is one, too. -/
theorem entry_of_zeros {m : Memory} {t : ℕ} (h : ∀ x, t ≤ x → x < t + pageSize → m x = 0)
    (i : Fin 512) : entry m t i = 0 := by
  have hi := i.isLt
  rw [entry]
  apply readLe_of_zeros
  intro x hx hx'
  exact h x (by omega) (by rw [pageSize]; omega)

theorem entry_lt (m : Memory) (t : ℕ) (i : Fin 512) : entry m t i < 2 ^ 64 := by
  have h := readLe_lt m (t + 8 * i) 8
  norm_num at h ⊢
  exact h

end OsEojin.Vmm
