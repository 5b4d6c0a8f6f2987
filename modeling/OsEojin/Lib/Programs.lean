import Mathlib.Data.Option.Basic
import Mathlib.Tactic.Common

/-!
# Programs as trees of calls

Code that talks to its surroundings (a disk, an allocator, a console) is a tree: a leaf returns, a node
makes one call and goes on with the answer.  What a call does is said by a *handler*, so that one and the
same program can be run against a perfect device, a failing one, or one that keeps accounts.

* `Program.run`: the program under a handler; `none` when the program does not come back;
* `run_bind`: running a sequence is running its parts;
* `run_bind_eq_some`: the inversion rule for a sequence that came back;
* `Calls`: every call the program can make has a property;
* `Calls.run_relates`, `Calls.run_keeps`: a relation every such call respects holds between the ends of
  a run, and what every such call leaves alone, the whole program leaves alone;
* `Calls.run_transport`: one program under two handlers that answer its calls alike;
* `run_project`: a program under a handler that keeps a longer account;
* `Triple`: partial correctness under a handler, with a rule for each way to build a program.
-/

namespace OsEojin.Lib.Programs

/-- A program with calls from `Op`, the call `o` being answered in `Res o`.  `hang` is a loop that has
used up its fuel. -/
inductive Program (Op : Type) (Res : Op → Type) (α : Type) : Type
  | ret (a : α)
  | call (o : Op) (k : Res o → Program Op Res α)
  | hang

namespace Program

variable {Op : Type} {Res : Op → Type} {α β : Type}

/-- Sequencing: `f` takes over at every leaf. -/
def bind (p : Program Op Res α) (f : α → Program Op Res β) : Program Op Res β :=
  match p with
  | ret a => f a
  | call o k => call o fun r => (k r).bind f
  | hang => hang

instance : Monad (Program Op Res) where
  pure := ret
  bind := bind

/-- The program that makes one call and returns its answer. -/
def perform (o : Op) : Program Op Res (Res o) := call o ret

/-! ### Running under a handler -/

section Run

variable {σ : Type} (h : (o : Op) → σ → Option (Res o × σ))

/-- The program under the handler `h`, from the state `s`. -/
def run : Program Op Res α → σ → Option (α × σ)
  | ret a, s => some (a, s)
  | call o k, s => (h o s).bind fun r => run (k r.1) r.2
  | hang, _ => none

@[simp] theorem run_pure (a : α) (s : σ) : run h (pure a : Program Op Res α) s = some (a, s) := rfl

@[simp] theorem run_hang (s : σ) : run h (hang : Program Op Res α) s = none := rfl

@[simp] theorem run_perform (o : Op) (s : σ) :
    run h (perform o : Program Op Res (Res o)) s = h o s := by
  show ((h o s).bind fun r => some (r.1, r.2)) = h o s
  cases h o s with
  | none => rfl
  | some r => rfl

/-- **Running a sequence** is running the first part and then the rest. -/
@[simp] theorem run_bind (p : Program Op Res α) (f : α → Program Op Res β) (s : σ) :
    run h (p >>= f) s = (run h p s).bind fun r => run h (f r.1) r.2 := by
  show run h (p.bind f) s = _
  induction p generalizing s with
  | ret a => rfl
  | call o k ih =>
    simp only [bind, run, Option.bind_assoc]
    congr 1
    funext r
    exact ih r.1 r.2
  | hang => rfl

/-- A sequence that came back: its first part did, and so did the rest from there. -/
theorem run_bind_eq_some {p : Program Op Res α} {f : α → Program Op Res β} {s : σ} {r : β × σ} :
    run h (p >>= f) s = some r ↔
      ∃ a s', run h p s = some (a, s') ∧ run h (f a) s' = some r := by
  rw [run_bind, Option.bind_eq_some_iff]
  exact ⟨fun ⟨q, hq, hr⟩ => ⟨q.1, q.2, hq, hr⟩, fun ⟨a, s', hq, hr⟩ => ⟨(a, s'), hq, hr⟩⟩

end Run

/-! ### The calls a program can make -/

/-- Every call the program can make, whatever the answers, has the property `C`. -/
def Calls (C : Op → Prop) : Program Op Res α → Prop
  | ret _ => True
  | call o k => C o ∧ ∀ r, Calls C (k r)
  | hang => True

variable {C : Op → Prop}

theorem calls_pure (a : α) : Calls C (pure a : Program Op Res α) := trivial

theorem calls_perform {o : Op} (ho : C o) : Calls C (perform o : Program Op Res (Res o)) :=
  ⟨ho, fun _ => trivial⟩

theorem calls_bind {p : Program Op Res α} {f : α → Program Op Res β} (hp : Calls C p)
    (hf : ∀ a, Calls C (f a)) : Calls C (p >>= f) := by
  show Calls C (p.bind f)
  induction p with
  | ret a => exact hf a
  | call o k ih => exact ⟨hp.1, fun r => ih r (hp.2 r)⟩
  | hang => trivial

theorem Calls.mono {C' : Op → Prop} (hC : ∀ o, C o → C' o) {p : Program Op Res α}
    (hp : Calls C p) : Calls C' p := by
  induction p with
  | ret a => trivial
  | call o k ih => exact ⟨hC o hp.1, fun r => ih r (hp.2 r)⟩
  | hang => trivial

theorem calls_true (p : Program Op Res α) : Calls (fun _ => True) p := by
  induction p with
  | ret a => trivial
  | call o k ih => exact ⟨trivial, ih⟩
  | hang => trivial

section Kept

variable {σ τ : Type} {h : (o : Op) → σ → Option (Res o × σ)}

/-- **A relation every call respects**, reflexive and transitive, relates the two ends of a run. -/
theorem Calls.run_relates {T : σ → σ → Prop} (hrefl : ∀ s, T s s)
    (htrans : ∀ s t u, T s t → T t u → T s u)
    (hC : ∀ o s r, C o → h o s = some r → T s r.2) {p : Program Op Res α} (hp : Calls C p) {s : σ}
    {r : α × σ} (hr : run h p s = some r) : T s r.2 := by
  induction p generalizing s with
  | ret a =>
    rw [← Option.some.inj hr]
    exact hrefl s
  | call o k ih =>
    obtain ⟨q, hq, hrest⟩ := Option.bind_eq_some_iff.mp hr
    exact htrans s q.2 r.2 (hC o s q hp.1 hq) (ih q.1 (hp.2 q.1) hrest)
  | hang => simp [run] at hr

/-- **What every call leaves alone, the program leaves alone.** -/
theorem Calls.run_keeps {V : σ → τ}
    (hC : ∀ o s r, C o → h o s = some r → V r.2 = V s) {p : Program Op Res α}
    (hp : Calls C p) {s : σ} {r : α × σ} (hr : run h p s = some r) : V r.2 = V s :=
  hp.run_relates (T := fun s t => V t = V s) (fun _ => rfl)
    (fun _ _ _ h₁ h₂ => h₂.trans h₁) hC hr

/-- **Transport**: where the calls of a program are answered alike in two settings, along an embedding of
the states, so is the program. -/
theorem Calls.run_transport {h' : (o : Op) → τ → Option (Res o × τ)} {f : σ → τ}
    (hC : ∀ o s, C o → h' o (f s) = (h o s).map fun r => (r.1, f r.2)) {p : Program Op Res α}
    (hp : Calls C p) (s : σ) : run h' p (f s) = (run h p s).map fun r => (r.1, f r.2) := by
  induction p generalizing s with
  | ret a => rfl
  | call o k ih =>
    simp only [run]
    rw [hC o s hp.1, Option.bind_map, Option.map_bind]
    congr 1
    funext q
    exact ih q.1 (hp.2 q.1) q.2
  | hang => rfl

/-- **Projection**: a handler that keeps more of an account than another, the account left out. -/
theorem run_project {h' : (o : Op) → τ → Option (Res o × τ)} {f : τ → σ}
    (hf : ∀ o t, (h' o t).map (fun r => (r.1, f r.2)) = h o (f t)) (p : Program Op Res α) (t : τ) :
    (run h' p t).map (fun r => (r.1, f r.2)) = run h p (f t) := by
  induction p generalizing t with
  | ret a => rfl
  | call o k ih =>
    simp only [run]
    rw [← hf o t, Option.bind_map, Option.map_bind]
    congr 1
    funext q
    exact ih q.1 q.2
  | hang => rfl

end Kept

/-! ### Partial correctness -/

section Triples

variable {σ : Type} {h : (o : Op) → σ → Option (Res o × σ)} {P P' : σ → Prop} {Q Q' R : α → σ → Prop}

variable (h) in
/-- **Partial correctness.**  From every state in `P` from which `p` comes back, the answer and the state
reached are in `Q`. -/
def Triple (P : σ → Prop) (p : Program Op Res α) (Q : α → σ → Prop) : Prop :=
  ∀ s r, P s → run h p s = some r → Q r.1 r.2

theorem triple_pure {a : α} (hQ : ∀ s, P s → Q a s) :
    Triple h P (pure a : Program Op Res α) Q := by
  intro s r hs hr
  rw [run_pure] at hr
  rw [← Option.some.inj hr]
  exact hQ s hs

theorem triple_hang : Triple h P (hang : Program Op Res α) Q := by
  intro s r _ hr
  rw [run_hang] at hr
  cases hr

theorem triple_perform {o : Op} {Q : Res o → σ → Prop}
    (hQ : ∀ s r, P s → h o s = some r → Q r.1 r.2) :
    Triple h P (perform o : Program Op Res (Res o)) Q := by
  intro s r hs hr
  rw [run_perform] at hr
  exact hQ s r hs hr

/-- **Sequencing**: what the first part establishes is what the rest may assume. -/
theorem triple_bind {p : Program Op Res α} {f : α → Program Op Res β} {Q : β → σ → Prop}
    (hp : Triple h P p R) (hf : ∀ a, Triple h (R a) (f a) Q) : Triple h P (p >>= f) Q := by
  intro s r hs hr
  obtain ⟨a, s', ha, hrest⟩ := (run_bind_eq_some h).mp hr
  exact hf a s' r (hp s (a, s') hs ha) hrest

/-- A conjunct that does not speak of the state becomes an assumption. -/
theorem triple_assume {φ : Prop} {p : Program Op Res α} (hp : φ → Triple h P p Q) :
    Triple h (fun s => P s ∧ φ) p Q :=
  fun s r hs hr => hp hs.2 s r hs.1 hr

/-- **Conjunction**: what one and the same run establishes for two reasons. -/
theorem Triple.and {p : Program Op Res α} (hp : Triple h P p Q) (hp' : Triple h P' p Q') :
    Triple h (fun s => P s ∧ P' s) p fun a s => Q a s ∧ Q' a s :=
  fun s r hs hr => ⟨hp s r hs.1 hr, hp' s r hs.2 hr⟩

/-- **Consequence**: a precondition may be strengthened and a postcondition weakened. -/
theorem Triple.consequence {p : Program Op Res α} (hp : Triple h P p Q) (hP : ∀ s, P' s → P s)
    (hQ : ∀ a s, Q a s → Q' a s) : Triple h P' p Q' :=
  fun s r hs hr => hQ r.1 r.2 (hp s r (hP s hs) hr)

end Triples

end Program

end OsEojin.Lib.Programs
