import OsEojin.Lib.Notes

/-!
# Programs among answers

Where nothing is known of the surroundings but which answers they may give, a program has many runs.  What
one of them can return, and which calls it can get to, is read off the tree.

* `MayReturn`: some run returns this value;
* `MayCall`: some run makes this call;
* `mayReturn_bind`, `mayCall_bind`: both of a sequence;
* `MayReturn.of_run`: a run under a handler is one of them, where the handler's answers are allowed;
* `MayNote`, `Warrants`: what the notes and the returned values of every run have in common.
-/

namespace OsEojin.Lib.Programs.Program

variable {Op : Type} {Res : Op → Type} {α β : Type}

/-- Some run returns `a`, the answers being from `A`. -/
def MayReturn (A : (o : Op) → Res o → Prop) : Program Op Res α → α → Prop
  | ret b, a => b = a
  | call o k, a => ∃ r, A o r ∧ MayReturn A (k r) a
  | hang, _ => False

/-- Some run makes the call `c`, the answers being from `A`. -/
def MayCall (A : (o : Op) → Res o → Prop) : Program Op Res α → Op → Prop
  | ret _, _ => False
  | call o k, c => o = c ∨ ∃ r, A o r ∧ MayCall A (k r) c
  | hang, _ => False

variable {A : (o : Op) → Res o → Prop}

@[simp] theorem mayReturn_pure {a b : α} : MayReturn A (pure a : Program Op Res α) b ↔ a = b := Iff.rfl

@[simp] theorem mayReturn_perform {o : Op} {r : Res o} :
    MayReturn A (perform o : Program Op Res (Res o)) r ↔ A o r := by
  constructor
  · rintro ⟨r', hr, rfl⟩
    exact hr
  · exact fun hr => ⟨r, hr, rfl⟩

/-- **A sequence returns** what its rest returns after its first part did. -/
theorem mayReturn_bind {p : Program Op Res α} {f : α → Program Op Res β} {b : β} :
    MayReturn A (p >>= f) b ↔ ∃ a, MayReturn A p a ∧ MayReturn A (f a) b := by
  show MayReturn A (p.bind f) b ↔ _
  induction p with
  | ret a => exact ⟨fun h => ⟨a, rfl, h⟩, fun ⟨a', ha, h⟩ => ha ▸ h⟩
  | call o k ih =>
    constructor
    · rintro ⟨r, hr, h⟩
      obtain ⟨a, ha, hb⟩ := (ih r).mp h
      exact ⟨a, ⟨r, hr, ha⟩, hb⟩
    · rintro ⟨a, ⟨r, hr, ha⟩, hb⟩
      exact ⟨r, hr, (ih r).mpr ⟨a, ha, hb⟩⟩
  | hang => exact ⟨fun h => h.elim, fun ⟨_, h, _⟩ => h.elim⟩

@[simp] theorem mayCall_pure {a : α} {c : Op} : ¬ MayCall A (pure a : Program Op Res α) c := id

@[simp] theorem mayCall_perform {o c : Op} : MayCall A (perform o : Program Op Res (Res o)) c ↔ o = c := by
  constructor
  · rintro (h | ⟨_, _, h⟩)
    · exact h
    · exact h.elim
  · exact Or.inl

/-- **A sequence gets to a call** in its first part, or in its rest after the first part returned. -/
theorem mayCall_bind {p : Program Op Res α} {f : α → Program Op Res β} {c : Op} :
    MayCall A (p >>= f) c ↔ MayCall A p c ∨ ∃ a, MayReturn A p a ∧ MayCall A (f a) c := by
  show MayCall A (p.bind f) c ↔ _
  induction p with
  | ret a =>
    constructor
    · exact fun h => Or.inr ⟨a, rfl, h⟩
    · rintro (h | ⟨a', ha, h⟩)
      · exact h.elim
      · exact ha ▸ h
  | call o k ih =>
    constructor
    · rintro (h | ⟨r, hr, h⟩)
      · exact Or.inl (Or.inl h)
      · cases (ih r).mp h with
        | inl hfirst => exact Or.inl (Or.inr ⟨r, hr, hfirst⟩)
        | inr hrest =>
          obtain ⟨a, ha, hc⟩ := hrest
          exact Or.inr ⟨a, ⟨r, hr, ha⟩, hc⟩
    · rintro ((h | ⟨r, hr, hfirst⟩) | ⟨a, ⟨r, hr, ha⟩, hc⟩)
      · exact Or.inl h
      · exact Or.inr ⟨r, hr, (ih r).mpr (Or.inl hfirst)⟩
      · exact Or.inr ⟨r, hr, (ih r).mpr (Or.inr ⟨a, ha, hc⟩)⟩
  | hang =>
    constructor
    · exact fun h => h.elim
    · rintro (h | ⟨_, h, _⟩)
      · exact h.elim
      · exact h.elim

/-- A program all of whose calls have a property does not get to one without it. -/
theorem Calls.not_mayCall {C : Op → Prop} {p : Program Op Res α} (hp : Calls C p) {c : Op} (hc : ¬ C c) :
    ¬ MayCall A p c := by
  induction p with
  | ret a => exact id
  | call o k ih =>
    rintro (rfl | ⟨r, -, h⟩)
    · exact hc hp.1
    · exact ih r (hp.2 r) h
  | hang => exact id

/-- **A run under a handler** whose answers are allowed. -/
theorem MayReturn.of_run {σ : Type} {h : (o : Op) → σ → Option (Res o × σ)}
    (hA : ∀ o s r, h o s = some r → A o r.1) {p : Program Op Res α} {s : σ} {r : α × σ}
    (hr : run h p s = some r) : MayReturn A p r.1 := by
  induction p generalizing s with
  | ret a => exact congrArg Prod.fst (Option.some.inj hr)
  | call o k ih =>
    obtain ⟨q, hq, hrest⟩ := Option.bind_eq_some_iff.mp hr
    exact ⟨q.1, hA o s q hq, ih q.1 hrest⟩
  | hang => cases hr

/-! ### Notes among answers -/

section Notes

variable {N : Type} {C : N → Prop} {Q Q' : α → Prop}

/-- The allowed answers to calls and notes. -/
def notedAnswers (A : (o : Op) → Res o → Prop) : (o : Op ⊕ N) → NotedRes Res N o → Prop
  | .inl o, r => A o r
  | .inr _, _ => True

/-- Some run takes the note `n`. -/
def MayNote (A : (o : Op) → Res o → Prop) (p : Noted Op Res N α) (n : N) : Prop :=
  MayCall (notedAnswers A) p (.inr n)

/-- A program with notes returns what it returns without them. -/
theorem mayReturn_forget {p : Noted Op Res N α} {a : α} :
    MayReturn A (forget p) a ↔ MayReturn (notedAnswers A) p a := by
  induction p with
  | ret b => exact Iff.rfl
  | call o k ih =>
    cases o with
    | inl o => exact exists_congr fun r => and_congr Iff.rfl (ih r)
    | inr n =>
      refine (ih ()).trans ⟨fun h => ⟨(), trivial, h⟩, ?_⟩
      rintro ⟨_, -, h⟩
      exact h
  | hang => exact Iff.rfl

theorem not_mayNote_lift {p : Program Op Res α} {n : N} : ¬ MayNote A (lift p : Noted Op Res N α) n := by
  induction p with
  | ret a => exact id
  | call o k ih =>
    rintro (h | ⟨r, -, h⟩)
    · cases h
    · exact ih r h
  | hang => exact id

variable (A C Q) in
/-- **Every run**, whether it comes back or not, takes only notes in `C`, and returns only values in `Q`. -/
structure Warrants (p : Noted Op Res N α) : Prop where
  notes : ∀ n, MayNote A p n → C n
  returns : ∀ a, MayReturn (notedAnswers A) p a → Q a

theorem warrants_pure {a : α} (ha : Q a) : Warrants A C Q (pure a : Noted Op Res N α) where
  notes _ h := h.elim
  returns _ h := mayReturn_pure.mp h ▸ ha

theorem warrants_note {n : N} (hn : C n) : Warrants A C (fun _ => True) (note n : Noted Op Res N Unit) where
  notes m h := by
    rcases h with h | ⟨_, -, h⟩
    · exact Sum.inr.inj h ▸ hn
    · exact h.elim
  returns _ _ := trivial

theorem warrants_lift (p : Program Op Res α) : Warrants A C (fun _ => True) (lift p : Noted Op Res N α) where
  notes _ h := absurd h not_mayNote_lift
  returns _ _ := trivial

/-- **Sequencing.** -/
theorem Warrants.bind {p : Noted Op Res N α} {f : α → Noted Op Res N β} {Q' : β → Prop}
    (hp : Warrants A C Q p) (hf : ∀ a, Q a → Warrants A C Q' (f a)) : Warrants A C Q' (p >>= f) where
  notes n h := by
    obtain h | ⟨a, ha, h⟩ := mayCall_bind.mp h
    · exact hp.notes n h
    · exact (hf a (hp.returns a ha)).notes n h
  returns b h := by
    obtain ⟨a, ha, hb⟩ := mayReturn_bind.mp h
    exact (hf a (hp.returns a ha)).returns b hb

end Notes

end OsEojin.Lib.Programs.Program
