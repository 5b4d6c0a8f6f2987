import OsEojin.Lib.Programs

/-!
# Programs that take notes

A model may say more about a piece of code than the calls it makes: which cells of a local array it stores
to, which branch it takes.  Such a remark is a *note*, a call that nobody answers.  Without its notes the
program is an ordinary one; and a run of that program makes the notes it passes, whether it comes back or
not.

* `Noted`, `lift`, `note`: programs with notes;
* `forget`: the program without them;
* `notes`: the notes of a run;
* `AllNotes`: a property of all of them, with a rule for each way to build a program.
-/

namespace OsEojin.Lib.Programs.Program

variable {Op : Type} {Res : Op → Type} {N : Type} {α β : Type}

/-- The answers to calls and notes. -/
@[reducible] def NotedRes (Res : Op → Type) (N : Type) : Op ⊕ N → Type
  | .inl o => Res o
  | .inr _ => Unit

/-- A program with calls from `Op` and notes from `N`. -/
abbrev Noted (Op : Type) (Res : Op → Type) (N : Type) := Program (Op ⊕ N) (NotedRes Res N)

/-- Take one note. -/
def note (n : N) : Noted Op Res N Unit := call (.inr n) ret

/-- A program without notes. -/
def lift : Program Op Res α → Noted Op Res N α
  | ret a => ret a
  | call o k => call (.inl o) fun r => lift (k r)
  | hang => hang

/-- The program without its notes. -/
def forget : Noted Op Res N α → Program Op Res α
  | ret a => ret a
  | call (.inl o) k => call o fun r => forget (k r)
  | call (.inr _) k => forget (k ())
  | hang => hang

@[simp] theorem forget_pure (a : α) : forget (pure a : Noted Op Res N α) = pure a := rfl

@[simp] theorem forget_note (n : N) : forget (note n : Noted Op Res N Unit) = pure () := rfl

@[simp] theorem forget_lift (p : Program Op Res α) : forget (lift p : Noted Op Res N α) = p := by
  induction p with
  | ret a => rfl
  | call o k ih =>
    rw [lift, forget]
    congr 1
    funext r
    exact ih r
  | hang => rfl

@[simp] theorem forget_bind (p : Noted Op Res N α) (f : α → Noted Op Res N β) :
    forget (p >>= f) = forget p >>= fun a => forget (f a) := by
  show forget (p.bind f) = (forget p).bind fun a => forget (f a)
  induction p with
  | ret a => rfl
  | call o k ih =>
    cases o with
    | inl o =>
      rw [bind, forget, forget, bind]
      congr 1
      funext r
      exact ih r
    | inr n =>
      rw [bind, forget, forget]
      exact ih ()
  | hang => rfl

theorem bind_bind {γ : Type} (p : Program Op Res α) (f : α → Program Op Res β) (g : β → Program Op Res γ) :
    p >>= f >>= g = p >>= fun a => f a >>= g := by
  show (p.bind f).bind g = p.bind fun a => (f a).bind g
  induction p with
  | ret a => rfl
  | call o k ih =>
    rw [bind, bind, bind]
    congr 1
    funext r
    exact ih r
  | hang => rfl

/-! ### The notes of a run -/

section Run

variable {σ : Type} (h : (o : Op) → σ → Option (Res o × σ))

/-- The notes of a run, also of one that does not come back. -/
def notes : Noted Op Res N α → σ → List N
  | ret _, _ => []
  | call (.inl o) k, s => (h o s).elim [] fun r => notes (k r.1) r.2
  | call (.inr n) k, s => n :: notes (k ()) s
  | hang, _ => []

theorem notes_lift (p : Program Op Res α) (s : σ) : notes h (lift p : Noted Op Res N α) s = [] := by
  induction p generalizing s with
  | ret a => rfl
  | call o k ih =>
    rw [lift, notes]
    cases h o s with
    | none => rfl
    | some r => exact ih r.1 r.2
  | hang => rfl

/-- **The notes of a sequence**: those of its first part and, where that comes back, those of the rest. -/
theorem notes_bind (p : Noted Op Res N α) (f : α → Noted Op Res N β) (s : σ) :
    notes h (p >>= f) s =
      notes h p s ++ (run h (forget p) s).elim [] fun r => notes h (f r.1) r.2 := by
  show notes h (p.bind f) s = _
  induction p generalizing s with
  | ret a => rfl
  | call o k ih =>
    cases o with
    | inl o =>
      rw [bind, notes, notes, forget, run]
      cases h o s with
      | none => rfl
      | some r => exact ih r.1 r.2
    | inr n =>
      rw [bind, notes, notes, forget, List.cons_append]
      exact congrArg (n :: ·) (ih () s)
  | hang => rfl

/-- Every note of the run has the property `C`. -/
def AllNotes (C : N → Prop) (p : Noted Op Res N α) (s : σ) : Prop := ∀ n ∈ notes h p s, C n

variable {h} {C : N → Prop} {s : σ}

theorem allNotes_pure (a : α) : AllNotes h C (pure a : Noted Op Res N α) s :=
  fun _ hn => absurd hn List.not_mem_nil

theorem allNotes_lift (p : Program Op Res α) : AllNotes h C (lift p : Noted Op Res N α) s := by
  intro n hn
  rw [notes_lift] at hn
  exact absurd hn List.not_mem_nil

theorem allNotes_note {n : N} : AllNotes h C (note n : Noted Op Res N Unit) s ↔ C n :=
  List.forall_mem_singleton

/-- **Sequencing.** -/
theorem allNotes_bind {p : Noted Op Res N α} {f : α → Noted Op Res N β} :
    AllNotes h C (p >>= f) s ↔
      AllNotes h C p s ∧ ∀ r, run h (forget p) s = some r → AllNotes h C (f r.1) r.2 := by
  rw [AllNotes, notes_bind, List.forall_mem_append]
  refine and_congr Iff.rfl ?_
  cases run h (forget p) s with
  | none =>
    constructor
    · intro _ r hr
      cases hr
    · exact fun _ n hn => absurd hn List.not_mem_nil
  | some r =>
    constructor
    · rintro hall r' hr
      obtain rfl := Option.some.inj hr
      exact hall
    · exact fun hall => hall r rfl

/-- After a program without notes only the rest counts. -/
theorem allNotes_lift_bind {p : Program Op Res α} {f : α → Noted Op Res N β} :
    AllNotes h C (lift p >>= f) s ↔ ∀ r, run h p s = some r → AllNotes h C (f r.1) r.2 := by
  rw [allNotes_bind, forget_lift]
  exact and_iff_right (allNotes_lift p)

/-- A first part that makes no call hands its answer on. -/
theorem allNotes_pure_bind {p : Noted Op Res N α} {f : α → Noted Op Res N β} {a : α}
    (hp : forget p = pure a) :
    AllNotes h C (p >>= f) s ↔ AllNotes h C p s ∧ AllNotes h C (f a) s := by
  rw [allNotes_bind, hp, run_pure]
  refine and_congr Iff.rfl ?_
  constructor
  · exact fun hrest => hrest (a, s) rfl
  · intro hrest r hr
    obtain rfl := Option.some.inj hr
    exact hrest

end Run

end OsEojin.Lib.Programs.Program
