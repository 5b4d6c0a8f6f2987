import OsEojin.Shell
import OsEojin.Lib.ByteMemory
import OsEojin.Lib.MaximalRuns
import Mathlib.Data.List.GetD

/-!
# The words of a line

`get_next_token` (`src/kernel/utils.c`) on the bytes of memory: the line, the buffer of the caller, and the offset
that is carried from call to call.  `docs/16_string_parsing.md` asks for the words between the spaces, without empty
ones, and for a line that stays as it is.

* `getNextToken`: the function with its two loops;
* `getNextToken_eq`: what the function on lists of `OsEojin.Shell` says, with the stores to the buffer;
* `readTokens`: the calls until one returns 0;
* `read_tokens_are_the_runs`: they give the maximal runs of characters that are not spaces.
-/

namespace OsEojin.Tokens

open OsEojin.Lib.ByteMemory OsEojin.Lib.MaximalRuns OsEojin.Ata OsEojin.Fat

/-! ### The tokenizer -/

/-- `while (input[i] == ' ') i++`. -/
def skipSpaces (m : Memory) (input : ℕ) : ℕ → ℕ → Option ℕ
  | 0, _ => none
  | fuel + 1, i => if m (input + i) = 32 then skipSpaces m input fuel (i + 1) else some i

/-- `while (input[i] != ' ' && input[i] != '\0') buffer[j++] = input[i++]`. -/
def copyWord (input buffer : ℕ) : ℕ → Memory → ℕ → ℕ → Option (Memory × ℕ × ℕ)
  | 0, _, _, _ => none
  | fuel + 1, m, i, j =>
    if m (input + i) ≠ 32 ∧ m (input + i) ≠ 0 then
      copyWord input buffer fuel (Function.update m (buffer + j) (m (input + i))) (i + 1) (j + 1)
    else some (m, i, j)

/-- A call that has returned: its value, the memory and `*offset`. -/
structure Returned where
  value : ℕ
  memory : Memory
  offset : ℕ

/-- `get_next_token(input, buffer, &offset)`. -/
def getNextToken (input buffer fuel : ℕ) (m : Memory) (offset : ℕ) : Option Returned := do
  let i ← skipSpaces m input fuel offset
  if m (input + i) = 0 then
    some ⟨0, m, i⟩
  else
    let (m, i, j) ← copyWord input buffer fuel m i 0
    some ⟨1, Function.update m (buffer + j) 0, i⟩

/-- The string in an array. -/
def stringIn (m : Memory) (buffer size : ℕ) : List UInt8 :=
  cString ((List.range size).map fun i => m (buffer + i))

/-- What the calls leave: the strings found in the buffer, and how many calls there were. -/
structure Reading where
  tokens : List (List UInt8)
  calls : ℕ
  memory : Memory
  offset : ℕ

/-- `while (get_next_token(input, buffer, &offset))`, with a buffer of `size` bytes. -/
def readTokens (input buffer size fuel : ℕ) : ℕ → Memory → ℕ → Option Reading
  | 0, _, _ => none
  | rounds + 1, m, offset => do
    let r ← getNextToken input buffer fuel m offset
    if r.value = 0 then
      some ⟨[], 1, r.memory, r.offset⟩
    else
      let rest ← readTokens input buffer size fuel rounds r.memory r.offset
      some { rest with tokens := stringIn r.memory buffer size :: rest.tokens, calls := rest.calls + 1 }

/-! ### One call -/

/-- The string `s` is at `a`, its NUL behind it. -/
structure StringAt (m : Memory) (a : ℕ) (s : List UInt8) : Prop where
  spells : ∀ i, i ≤ s.length → m (a + i) = s.getD i 0
  nonzero : ∀ c ∈ s, c ≠ 0

/-- Bytes that do not belong to the string may change. -/
theorem StringAt.congr {m m' : Memory} {a : ℕ} {s : List UInt8} (h : StringAt m a s)
    (hsame : ∀ x, a ≤ x → x ≤ a + s.length → m' x = m x) : StringAt m' a s where
  spells := by
    intro i hi
    rw [hsame (a + i) (by omega) (by omega), h.spells i hi]
  nonzero := h.nonzero

section Strings

variable {m : Memory} {a n : ℕ} {s : List UInt8}

theorem stringAt_nil (h : m a = 0) : StringAt m a [] where
  spells := by
    intro i hi
    obtain rfl : i = 0 := Nat.le_zero.mp hi
    exact h
  nonzero := fun _ hc => absurd hc List.not_mem_nil

theorem stringAt_cons (ha : m a ≠ 0) (h : StringAt m (a + 1) s) : StringAt m a (m a :: s) where
  spells := by
    intro i hi
    cases i with
    | zero => rfl
    | succ i =>
      rw [show a + (i + 1) = a + 1 + i by omega, h.spells i (Nat.le_of_succ_le_succ hi)]
      rfl
  nonzero := by
    intro c hc
    obtain rfl | hc := List.mem_cons.mp hc
    · exact ha
    · exact h.nonzero c hc

theorem StringAt.uncons {c : UInt8} (h : StringAt m a (c :: s)) : m a = c ∧ c ≠ 0 ∧ StringAt m (a + 1) s := by
  refine ⟨h.spells 0 (Nat.zero_le _), h.nonzero c List.mem_cons_self, ?_, ?_⟩
  · intro i hi
    rw [show a + 1 + i = a + (i + 1) by omega, h.spells (i + 1) (Nat.succ_le_succ hi)]
    rfl
  · exact fun x hx => h.nonzero x (List.mem_cons_of_mem c hx)

theorem StringAt.nul (h : StringAt m a s) : m (a + s.length) = 0 := by
  rw [h.spells _ le_rfl, List.getD_eq_default _ _ le_rfl]

theorem stringIn_succ (m : Memory) (a n : ℕ) :
    stringIn m a (n + 1) = if m a = 0 then [] else m a :: stringIn m (a + 1) n := by
  have hrest : (fun i => m (a + i)) ∘ Nat.succ = fun i => m (a + 1 + i) := by
    funext i
    exact congrArg m (by omega)
  rw [stringIn, List.range_succ_eq_map, List.map_cons, List.map_map, cString, List.takeWhile_cons, Nat.add_zero,
    hrest]
  by_cases h : m a = 0
  · rw [if_pos h, if_neg (by simp [h])]
  · rw [if_neg h, if_pos (bne_iff_ne.mpr h)]
    rfl

/-- What stands in an array up to a NUL. -/
theorem stringAt_stringIn (h : m (a + n) = 0) : StringAt m a (stringIn m a n) := by
  induction n generalizing a with
  | zero => exact stringAt_nil h
  | succ n ih =>
    rw [stringIn_succ]
    by_cases ha : m a = 0
    · rw [if_pos ha]
      exact stringAt_nil ha
    · rw [if_neg ha]
      exact stringAt_cons ha (ih (by rw [show a + 1 + n = a + (n + 1) by omega, h]))

theorem length_stringIn_le (m : Memory) (a n : ℕ) : (stringIn m a n).length ≤ n := by
  rw [stringIn, cString]
  exact (List.takeWhile_sublist _).length_le.trans (by rw [List.length_map, List.length_range])

/-- The string is the one that is read there. -/
theorem StringAt.stringIn_eq (h : StringAt m a s) (hn : s.length < n) : stringIn m a n = s := by
  induction s generalizing a n with
  | nil =>
    obtain ⟨n, rfl⟩ : ∃ k, n = k + 1 := ⟨n - 1, by rw [List.length_nil] at hn; omega⟩
    rw [stringIn_succ]
    exact if_pos h.nul
  | cons c s ih =>
    obtain ⟨n, rfl⟩ : ∃ k, n = k + 1 := ⟨n - 1, by omega⟩
    obtain ⟨hc, hne, htail⟩ := h.uncons
    rw [stringIn_succ, if_neg (hc ▸ hne), hc, ih htail (Nat.lt_of_succ_lt_succ hn)]

end Strings

/-- The rest of the string: empty at the NUL, else the byte there and what is behind it. -/
theorem StringAt.drop {m : Memory} {a : ℕ} {s : List UInt8} (h : StringAt m a s) {i : ℕ} (hi : i ≤ s.length) :
    i = s.length ∧ s.drop i = [] ∧ m (a + i) = 0 ∨
      i < s.length ∧ s.drop i = m (a + i) :: s.drop (i + 1) ∧ m (a + i) ≠ 0 := by
  rcases Nat.eq_or_lt_of_le hi with rfl | hlt
  · refine Or.inl ⟨rfl, List.drop_length, ?_⟩
    rw [h.spells _ le_rfl, List.getD_eq_default _ _ le_rfl]
  · have hget : m (a + i) = s[i] := by rw [h.spells i hi, List.getD_eq_getElem _ _ hlt]
    refine Or.inr ⟨hlt, ?_, ?_⟩
    · rw [hget, List.drop_eq_getElem_cons hlt]
    · rw [hget]
      exact h.nonzero _ (List.getElem_mem hlt)

theorem skipSpaces_eq {m : Memory} {input : ℕ} {s : List UInt8} (h : StringAt m input s) {fuel i : ℕ}
    (hi : i ≤ s.length) (hfuel : s.length - i < fuel) :
    skipSpaces m input fuel i = some (i + ((s.drop i).takeWhile fun c => c == 32).length) := by
  induction fuel generalizing i with
  | zero => omega
  | succ fuel ih =>
    rw [skipSpaces]
    rcases h.drop hi with ⟨-, hdrop, hnul⟩ | ⟨hlt, hdrop, -⟩
    · rw [hdrop, hnul, if_neg (by decide)]
      rfl
    · by_cases hspace : m (input + i) = 32
      · rw [if_pos hspace, ih hlt (by omega), hdrop, List.takeWhile_cons_of_pos (by simpa using hspace),
          List.length_cons, Nat.succ_eq_add_one, Nat.add_assoc, Nat.add_comm 1]
      · rw [if_neg hspace, hdrop, List.takeWhile_cons_of_neg (by simpa using hspace)]
        rfl

theorem store_nil (m : Memory) (a : ℕ) : store m a [] = m := by
  funext x
  rw [store, if_neg]
  rw [List.length_nil]
  omega

/-- A character and then the ones behind it. -/
theorem store_update (m : Memory) (a : ℕ) (c : UInt8) (cs : List UInt8) :
    store (Function.update m a c) (a + 1) cs = store m a (c :: cs) := by
  funext x
  rw [store, store, List.length_cons]
  by_cases hx : x = a
  · rw [if_neg (by omega), if_pos (by omega), hx, Function.update_self, Nat.sub_self]
    rfl
  · by_cases hin : a ≤ x ∧ x < a + (cs.length + 1)
    · rw [if_pos (by omega), if_pos hin, show x - a = (x - (a + 1)) + 1 from by omega, List.getD_cons_succ]
    · rw [if_neg (by omega), if_neg hin, Function.update_of_ne hx]

/-- The NUL behind the last character. -/
theorem update_store (m : Memory) (a : ℕ) (cs : List UInt8) :
    Function.update (store m a cs) (a + cs.length) 0 = store m a (cs ++ [0]) := by
  induction cs generalizing m a with
  | nil => rw [List.nil_append, ← store_update, store_nil, store_nil, List.length_nil, Nat.add_zero]
  | cons c cs ih =>
    rw [← store_update, List.length_cons, List.cons_append, ← store_update, ← ih,
      show a + (cs.length + 1) = a + 1 + cs.length from by omega]

/-- The buffer and the string with its NUL do not meet. -/
def Apart (input length buffer size : ℕ) : Prop := buffer + size ≤ input ∨ input + length < buffer

theorem copyWord_eq {m : Memory} {input buffer size : ℕ} {s : List UInt8} (h : StringAt m input s)
    (hapart : Apart input s.length buffer size) {fuel i j : ℕ} (hi : i ≤ s.length) (hfuel : s.length - i < fuel)
    {word : List UInt8} (hword : (s.drop i).takeWhile (fun c => c != 32 && c != 0) = word)
    (hfits : j + word.length ≤ size) :
    copyWord input buffer fuel m i j = some (store m (buffer + j) word, i + word.length, j + word.length) := by
  induction fuel generalizing m i j word with
  | zero => omega
  | succ fuel ih =>
    rw [copyWord]
    rcases h.drop hi with ⟨-, hdrop, hnul⟩ | ⟨hlt, hdrop, hne⟩
    · obtain rfl : word = [] := by rw [← hword, hdrop, List.takeWhile_nil]
      rw [if_neg fun hc => hc.2 hnul, store_nil]
      rfl
    · by_cases hspace : m (input + i) = 32
      · obtain rfl : word = [] := by
          rw [← hword, hdrop, List.takeWhile_cons_of_neg (by simp [hspace])]
        rw [if_neg fun hc => hc.1 hspace, store_nil]
        rfl
      · rw [hdrop, List.takeWhile_cons_of_pos (by simp [hspace, hne])] at hword
        subst hword
        rw [List.length_cons] at hfits
        have hkept : StringAt (Function.update m (buffer + j) (m (input + i))) input s := by
          refine h.congr fun x hx hx' => Function.update_of_ne ?_ ..
          have := hapart
          rw [Apart] at this
          omega
        rw [if_pos ⟨hspace, hne⟩, ih (i := i + 1) hkept hlt (by omega) rfl (by omega), List.length_cons,
          ← store_update]
        rw [Nat.add_assoc i 1, Nat.add_assoc j 1, Nat.add_comm 1, Nat.add_assoc buffer]

/-- **One call** does what the tokenizer on lists says, and writes the word into the buffer. -/
theorem getNextToken_eq {m : Memory} {input buffer size : ℕ} {s : List UInt8} (h : StringAt m input s)
    (hapart : Apart input s.length buffer size) {fuel offset : ℕ} (hoffset : offset ≤ s.length)
    (hfuel : s.length < fuel) (hfits : ∀ word i, Shell.getNextToken s offset = (some word, i) → word.length < size) :
    getNextToken input buffer fuel m offset = match Shell.getNextToken s offset with
      | (none, i) => some ⟨0, m, i⟩
      | (some word, i) => some ⟨1, store m buffer (word ++ [0]), i⟩ := by
  rw [getNextToken, skipSpaces_eq h hoffset (by omega), Option.bind_eq_bind, Option.bind_some]
  rw [Shell.getNextToken] at hfits ⊢
  have hi : offset + ((s.drop offset).takeWhile fun c => c == 32).length ≤ s.length := by
    have hfront := (List.takeWhile_prefix (l := s.drop offset) fun c => c == 32).length_le
    rw [List.length_drop] at hfront
    omega
  generalize offset + ((s.drop offset).takeWhile fun c => c == 32).length = i at hfits hi ⊢
  dsimp only at hfits ⊢
  rw [h.spells i hi]
  by_cases hnul : s.getD i 0 = 0
  · rw [if_pos hnul, if_pos hnul]
  · rw [if_neg hnul] at hfits
    have hlength := hfits _ _ rfl
    rw [if_neg hnul, if_neg hnul, copyWord_eq h hapart hi (by omega) rfl (by omega)]
    dsimp only [Option.bind_eq_bind, Option.bind_some]
    rw [Nat.add_zero, Nat.zero_add, update_store]

/-! ### The words -/

/-- The character at `i` is not a space. -/
def NotSpace (s : List UInt8) (i : ℕ) : Prop := s.getD i 0 ≠ 32

/-- Where a scan over the string stops. -/
theorem scan_spec (p : UInt8 → Bool) {s : List UInt8} {o stop : ℕ} (ho : o ≤ s.length)
    (hstop : o + ((s.drop o).takeWhile p).length = stop) :
    stop ≤ s.length ∧ (∀ i, o ≤ i → i < stop → p (s.getD i 0) = true) ∧
      (stop = s.length ∨ p (s.getD stop 0) = false) := by
  rw [List.takeWhile_eq_take_findIdx_not, List.length_take, Nat.min_eq_left List.findIdx_le_length] at hstop
  have hle : (s.drop o).findIdx (fun c => !p c) ≤ (s.drop o).length := List.findIdx_le_length
  rw [List.length_drop] at hle
  refine ⟨by omega, ?_, ?_⟩
  · intro i hi hlt
    have hbefore : i - o < (s.drop o).findIdx (fun c => !p c) := by omega
    have hpass := List.not_of_lt_findIdx hbefore
    rw [List.getElem_drop, Bool.not_eq_eq_eq_not, Bool.not_false] at hpass
    rw [List.getD_eq_getElem _ _ (by omega), ← hpass]
    congr 2
    omega
  · rcases Nat.eq_or_lt_of_le hle with hend | hlt
    · exact Or.inl (by omega)
    · right
      rw [← List.length_drop] at hlt
      have hfail := List.findIdx_getElem (w := hlt)
      rw [List.length_drop] at hlt
      rw [List.getElem_drop, Bool.not_eq_eq_eq_not, Bool.not_true] at hfail
      rw [List.getD_eq_getElem _ _ (by omega), ← hfail]
      congr 2
      omega

/-- **What one call finds**: nothing but spaces up to the end, or the next word, as long as it can be. -/
theorem shell_getNextToken {s : List UInt8} (hnonzero : ∀ c ∈ s, c ≠ 0) {o : ℕ} (ho : o ≤ s.length) :
    Shell.getNextToken s o = (none, s.length) ∧ (∀ i, o ≤ i → i < s.length → ¬ NotSpace s i) ∨
      ∃ a b, Shell.getNextToken s o = (some (s.extract a b), b) ∧ o ≤ a ∧ a < b ∧ b ≤ s.length ∧
        (∀ i, o ≤ i → i < a → ¬ NotSpace s i) ∧ (∀ i, a ≤ i → i < b → NotSpace s i) ∧
        (b = s.length ∨ ¬ NotSpace s b) := by
  rw [Shell.getNextToken]
  dsimp only
  generalize hi : o + ((s.drop o).takeWhile fun c => c == 32).length = a
  obtain ⟨hle, hgap, hnext⟩ := scan_spec _ ho hi
  have hgap' : ∀ i, o ≤ i → i < a → ¬ NotSpace s i := fun i hoi hia => not_not.mpr (beq_iff_eq.mp (hgap i hoi hia))
  rcases Nat.eq_or_lt_of_le hle with rfl | hlt
  · rw [if_pos (List.getD_eq_default _ _ le_rfl)]
    exact Or.inl ⟨rfl, hgap'⟩
  · have hne : s.getD a 0 ≠ 0 := by
      rw [List.getD_eq_getElem _ _ hlt]
      exact hnonzero _ (List.getElem_mem hlt)
    have hstart : s.getD a 0 ≠ 32 := by
      have := hnext.resolve_left (by omega)
      exact beq_eq_false_iff_ne.mp this
    rw [if_neg hne]
    generalize hj : a + ((s.drop a).takeWhile fun c => c != 32 && c != 0).length = b
    obtain ⟨hle', hword, hnext'⟩ := scan_spec _ hle hj
    have hall : ∀ i, a ≤ i → i < b → NotSpace s i := by
      intro i hai hib
      have := hword i hai hib
      rw [Bool.and_eq_true, bne_iff_ne] at this
      exact this.1
    have hright : b = s.length ∨ ¬ NotSpace s b := by
      rcases Nat.eq_or_lt_of_le hle' with hend | hlt'
      · exact Or.inl hend
      · right
        have hstop := hnext'.resolve_left (by omega)
        have hne' : s.getD b 0 ≠ 0 := by
          rw [List.getD_eq_getElem _ _ hlt']
          exact hnonzero _ (List.getElem_mem hlt')
        rw [Bool.and_eq_false_iff, bne_eq_false_iff_eq, bne_eq_false_iff_eq] at hstop
        exact not_not.mpr (hstop.resolve_right hne')
    have hab : a < b := by
      rcases Nat.eq_or_lt_of_le (show a ≤ b by omega) with rfl | hab
      · exact absurd hstart (hright.resolve_left (by omega))
      · exact hab
    refine Or.inr ⟨a, b, ?_, by omega, hab, hle', hgap', hall, hright⟩
    rw [List.extract_eq_take_drop, ← hj, Nat.add_sub_cancel_left]
    congr 2
    exact List.prefix_iff_eq_take.mp (List.takeWhile_prefix _)

/-- The word in the buffer, read as a string. -/
theorem stringIn_store (m : Memory) {buffer size : ℕ} {word : List UInt8} (hfits : word.length < size)
    (hnonzero : ∀ c ∈ word, c ≠ 0) : stringIn (store m buffer (word ++ [0])) buffer size = word := by
  have hbytes : ∀ i, i ≤ word.length → store m buffer (word ++ [0]) (buffer + i) = word.getD i 0 := by
    intro i hi
    rw [store, if_pos (by rw [List.length_append, List.length_singleton]; omega), Nat.add_sub_cancel_left]
    rcases Nat.eq_or_lt_of_le hi with rfl | hlt
    · rw [List.getD_append_right _ _ _ _ le_rfl, Nat.sub_self, List.getD_eq_default _ _ le_rfl]
      rfl
    · exact List.getD_append _ _ _ _ hlt
  exact StringAt.stringIn_eq ⟨hbytes, hnonzero⟩ hfits

/-- **The calls from an offset on**, when it is not inside a word. -/
theorem readTokens_from {m : Memory} {input buffer size : ℕ} {s : List UInt8} (h : StringAt m input s)
    (hapart : Apart input s.length buffer size)
    (hfits : ∀ a b, MaximalRun (NotSpace s) s.length a b → b - a < size) {fuel : ℕ} (hfuel : s.length < fuel)
    {rounds o : ℕ} (ho : o ≤ s.length) (hstart : o = 0 ∨ o = s.length ∨ ¬ NotSpace s o)
    (hrounds : s.length - o < rounds) :
    ∃ r spans, readTokens input buffer size fuel rounds m o = some r ∧ RunsFrom (NotSpace s) s.length o spans ∧
      r.tokens = spans.map (fun x => s.extract x.1 x.2) ∧ r.calls = spans.length + 1 ∧ r.offset = s.length ∧
      ∀ x, x < buffer ∨ buffer + size ≤ x → r.memory x = m x := by
  induction rounds generalizing m o with
  | zero => omega
  | succ rounds ih =>
    have hcall := getNextToken_eq h hapart ho hfuel
    rcases shell_getNextToken h.nonzero ho with ⟨hnone, hgap⟩ | ⟨a, b, hsome, hoa, hab, hbs, hgap, hall, hright⟩
    · rw [hnone] at hcall
      rw [readTokens, hcall nofun]
      exact ⟨_, [], rfl, runsFrom_nil hgap, rfl, rfl, rfl, fun x _ => rfl⟩
    · have hrun := maximalRun_of_gap hstart hoa hab hbs hgap hall hright
      have hlength : (s.extract a b).length = b - a := by
        rw [List.extract_eq_take_drop, List.length_take, List.length_drop]
        omega
      have hlt := hfits a b hrun
      have hsame : ∀ x, x < buffer ∨ buffer + size ≤ x → store m buffer (s.extract a b ++ [0]) x = m x := by
        intro x hx
        apply store_of_notMem
        rw [List.length_append, hlength, List.length_singleton]
        omega
      have hkept : StringAt (store m buffer (s.extract a b ++ [0])) input s := by
        refine h.congr fun x hx hx' => hsame x ?_
        rw [Apart] at hapart
        omega
      obtain ⟨r, spans, hread, hspans, htokens, hcalls, hoffset, hmemory⟩ :=
        ih (o := b) hkept hbs (Or.inr hright) (by omega)
      rw [hsome] at hcall
      rw [readTokens, hcall fun word i heq => by cases heq; omega]
      dsimp only [Option.bind_eq_bind, Option.bind_some]
      rw [if_neg one_ne_zero, hread]
      refine ⟨_, (a, b) :: spans, rfl, hspans.cons hrun hoa hgap, ?_, ?_, hoffset, ?_⟩
      · have hnonzero : ∀ c ∈ s.extract a b, c ≠ 0 := by
          intro c hc
          rw [List.extract_eq_take_drop] at hc
          exact h.nonzero c (List.mem_of_mem_drop (List.mem_of_mem_take hc))
        rw [List.map_cons, ← htokens, stringIn_store m (by omega) hnonzero]
      · rw [List.length_cons, ← hcalls]
      · intro x hx
        rw [hmemory x hx, hsame x hx]

/-- **The words of the line.**  Called from offset 0 until it returns 0, `get_next_token` gives the maximal runs of
characters that are not spaces, from left to right, and stops at the NUL after one call more than there are words.
It writes into the buffer only, and leaves the line as it is. -/
theorem read_tokens_are_the_runs {m : Memory} {input buffer size : ℕ} {s : List UInt8} (h : StringAt m input s)
    (hapart : Apart input s.length buffer size)
    (hfits : ∀ a b, MaximalRun (NotSpace s) s.length a b → b - a < size) {fuel : ℕ} (hfuel : s.length < fuel) :
    ∃ (r : Reading) (spans : List (ℕ × ℕ)), readTokens input buffer size fuel fuel m 0 = some r ∧
      spans.Pairwise (fun x y => x.2 < y.1) ∧
      (∀ a b, (a, b) ∈ spans ↔ MaximalRun (NotSpace s) s.length a b) ∧
      r.tokens = spans.map (fun x => s.extract x.1 x.2) ∧ [] ∉ r.tokens ∧
      r.calls = r.tokens.length + 1 ∧ r.offset = s.length ∧ StringAt r.memory input s ∧
      ∀ x, x < buffer ∨ buffer + size ≤ x → r.memory x = m x := by
  obtain ⟨r, spans, hread, hspans, htokens, hcalls, hoffset, hmemory⟩ :=
    readTokens_from h hapart hfits hfuel (Nat.zero_le _) (Or.inl rfl) (show s.length - 0 < fuel by omega)
  have hruns : ∀ a b, (a, b) ∈ spans ↔ MaximalRun (NotSpace s) s.length a b := by
    intro a b
    rw [hspans.mem, and_iff_right (Nat.zero_le a)]
  refine ⟨r, spans, hread, hspans.sorted, hruns, htokens, ?_, ?_, hoffset, ?_, hmemory⟩
  · intro hempty
    rw [htokens, List.mem_map] at hempty
    obtain ⟨⟨a, b⟩, hmem, hnil⟩ := hempty
    have hrun := (hruns a b).mp hmem
    have hab := hrun.nonempty
    have hbs := hrun.inside
    have hlength := congrArg List.length hnil
    rw [List.extract_eq_take_drop, List.length_take, List.length_drop, List.length_nil] at hlength
    omega
  · rw [hcalls, htokens, List.length_map]
  · refine h.congr fun x hx hx' => hmemory x ?_
    rw [Apart] at hapart
    omega

/-- A line at address 100. -/
def lineAt100 : Memory := fun x => if 100 ≤ x then (text " ls  -la ").getD (x - 100) 0 else 0

/-- `" ls  -la "`, with a buffer of ten bytes: two words and three calls. -/
theorem read_tokens_ls :
    ∃ r, readTokens 100 200 10 10 10 lineAt100 0 = some r ∧ r.tokens = [text "ls", text "-la"] ∧
      r.calls = r.tokens.length + 1 ∧ r.offset = (text " ls  -la ").length := by
  have hnonzero : (text " ls  -la ").all (fun c => c != 0) = true := by decide
  have hline : StringAt lineAt100 100 (text " ls  -la ") := by
    refine ⟨fun i _ => ?_, fun c hc => bne_iff_ne.mp (List.all_eq_true.mp hnonzero c hc)⟩
    rw [lineAt100, if_pos (Nat.le_add_right 100 i), Nat.add_sub_cancel_left]
  obtain ⟨r, spans, hread, -, -, -, -, hcalls, hoffset, -⟩ :=
    read_tokens_are_the_runs hline (show Apart 100 (text " ls  -la ").length 200 10 from Or.inr (by decide))
      (fun a b hrun => lt_of_le_of_lt (Nat.sub_le b a) (lt_of_le_of_lt hrun.inside (by decide)))
      (show (text " ls  -la ").length < 10 by decide)
  have htokens : (readTokens 100 200 10 10 10 lineAt100 0).map Reading.tokens = some [text "ls", text "-la"] := by
    rfl
  rw [hread] at htokens
  exact ⟨r, hread, Option.some.inj htokens, hcalls, hoffset⟩

end OsEojin.Tokens
