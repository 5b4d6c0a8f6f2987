import Mathlib.Data.List.Basic

/-!
# Runs of a transition function and the invariant rule

A deterministic component is a function `step : σ → ε → σ`; a run is the left fold of `step` over a
finite list of events.  Some properties only survive runs all of whose steps meet a side condition on
the state before the step; `Admits` is that side condition, checked along the run.

* `run_append` / `run_concat`: a run splits at any point;
* `admits_append`: so does the side condition;
* `run_invariant`: the rule every safety theorem of the development is an instance of;
* `trace`, `trace_concat`: the fold that also remembers the past, for statements that tie a step to an
  earlier one;
* `runOption`: the same fold for a step that may fail to return.
-/

namespace OsEojin.Lib.Runs

variable {σ ε η : Type*}

/-! ### Total steps -/

section Total

variable (step : σ → ε → σ)

/-- The state after a finite list of events. -/
def run (s : σ) (es : List ε) : σ := es.foldl step s

@[simp] theorem run_nil (s : σ) : run step s [] = s := rfl

@[simp] theorem run_cons (s : σ) (e : ε) (es : List ε) :
    run step s (e :: es) = run step (step s e) es := rfl

theorem run_append (s : σ) (es fs : List ε) :
    run step s (es ++ fs) = run step (run step s es) fs := by
  simp only [run, List.foldl_append]

theorem run_concat (s : σ) (es : List ε) (e : ε) :
    run step s (es ++ [e]) = step (run step s es) e := by
  rw [run_append]
  rfl

/-- Every step of the run meets the side condition `C` in the state it is taken from. -/
def Admits (C : σ → ε → Prop) : σ → List ε → Prop
  | _, [] => True
  | s, e :: es => C s e ∧ Admits C (step s e) es

variable {step} {C : σ → ε → Prop} {I : σ → Prop}

theorem admits_append (s : σ) (es fs : List ε) :
    Admits step C s (es ++ fs) ↔ Admits step C s es ∧ Admits step C (run step s es) fs := by
  induction es generalizing s with
  | nil => simp [Admits]
  | cons e es ih =>
    simp only [List.cons_append, Admits, run_cons, ih]
    exact and_assoc.symm

theorem admits_concat (s : σ) (es : List ε) (e : ε) :
    Admits step C s (es ++ [e]) ↔ Admits step C s es ∧ C (run step s es) e := by
  rw [admits_append]
  simp [Admits]

theorem admits_of_forall (h : ∀ s e, C s e) (s : σ) (es : List ε) : Admits step C s es := by
  induction es generalizing s with
  | nil => trivial
  | cons e es ih => exact ⟨h s e, ih (step s e)⟩

/-- **The invariant rule.**  What holds initially and is kept by every admitted step holds after every
admitted run. -/
theorem run_invariant (hstep : ∀ s e, I s → C s e → I (step s e)) (s : σ) (hI : I s)
    (es : List ε) (hes : Admits step C s es) : I (run step s es) := by
  induction es generalizing s with
  | nil => exact hI
  | cons e es ih => exact ih (step s e) (hstep s e hI hes.1) hes.2

end Total

/-! ### Remembering the past -/

section Trace

variable (step : σ → ε → σ) (note : η → σ → ε → η)

/-- A ledger kept along a run: `note` sees the state before each step and the event. -/
def trace (s : σ) (h : η) : List ε → η
  | [] => h
  | e :: es => trace (step s e) (note h s e) es

theorem trace_concat (s : σ) (h : η) (es : List ε) (e : ε) :
    trace step note s h (es ++ [e]) = note (trace step note s h es) (run step s es) e := by
  induction es generalizing s h with
  | nil => rfl
  | cons d es ih => exact ih (step s d) (note h s d)

end Trace

/-! ### Steps that may not return -/

section Option

variable (step : σ → ε → Option σ)

/-- The run of a step function that may fail to return; `none` as soon as one step does. -/
def runOption (s : σ) : List ε → Option σ
  | [] => some s
  | e :: es => (step s e).bind fun s' => runOption s' es

/-- Every step of the run meets the side condition in the state it is taken from. -/
def AdmitsOption (C : σ → ε → Prop) : σ → List ε → Prop
  | _, [] => True
  | s, e :: es => C s e ∧ ∀ s', step s e = some s' → AdmitsOption C s' es

variable {step} {C : σ → ε → Prop} {I : σ → Prop}

theorem runOption_cons {s s' : σ} {e : ε} (h : step s e = some s') (es : List ε) :
    runOption step s (e :: es) = runOption step s' es := by
  rw [runOption, h, Option.bind_some]

/-- The total-correctness rule: when every admitted step returns and keeps the invariant, the run
returns and ends in the invariant. -/
theorem runOption_invariant (hstep : ∀ s e, I s → C s e → ∃ s', step s e = some s' ∧ I s')
    (s : σ) (hI : I s) (es : List ε) (hes : AdmitsOption step C s es) :
    ∃ s', runOption step s es = some s' ∧ I s' := by
  induction es generalizing s with
  | nil => exact ⟨s, rfl, hI⟩
  | cons e es ih =>
    obtain ⟨s₁, h₁, hI₁⟩ := hstep s e hI hes.1
    obtain ⟨s₂, h₂, hI₂⟩ := ih s₁ hI₁ (hes.2 s₁ h₁)
    exact ⟨s₂, (runOption_cons h₁ es).trans h₂, hI₂⟩

/-- The partial-correctness rule: what every admitted step that returns keeps, the run keeps. -/
theorem runOption_keeps (hstep : ∀ s e s', I s → C s e → step s e = some s' → I s')
    {s s' : σ} (hI : I s) {es : List ε} (hes : AdmitsOption step C s es)
    (hrun : runOption step s es = some s') : I s' := by
  induction es generalizing s with
  | nil =>
    obtain rfl := Option.some.inj hrun
    exact hI
  | cons e es ih =>
    obtain ⟨s₁, h₁, hrest⟩ := Option.bind_eq_some_iff.mp hrun
    exact ih (hstep s e s₁ hI hes.1 h₁) (hes.2 s₁ h₁) hrest

/-- A side condition on the events alone. -/
theorem admitsOption_of_mem (es : List ε) (h : ∀ e ∈ es, ∀ s, C s e) (s : σ) :
    AdmitsOption step C s es := by
  induction es generalizing s with
  | nil => trivial
  | cons e es ih =>
    exact ⟨h e List.mem_cons_self s, fun s' _ => ih (fun e' he' => h e' (List.mem_cons_of_mem _ he')) s'⟩

theorem admitsOption_of_append (s : σ) (es fs : List ε) (h : AdmitsOption step C s (es ++ fs)) :
    AdmitsOption step C s es := by
  induction es generalizing s with
  | nil => trivial
  | cons e es ih => exact ⟨h.1, fun s' hs' => ih s' (h.2 s' hs')⟩

end Option

end OsEojin.Lib.Runs
