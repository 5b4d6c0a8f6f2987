import OsEojin.Lib.Programs

/-!
# Programs in layers

What is a call for one layer is a program for the layer below.  Putting these programs in the place of the
calls gives a program of the lower layer; and where each of them does below what the call does above, so does
the whole.

* `expand`: a program with programs in the place of its calls;
* `Simulates`, `Simulates.run`: from one call to a whole program;
* `inLeft`, `both`, `run_inLeft`: two kinds of calls side by side.
-/

namespace OsEojin.Lib.Programs.Program

variable {Op Op' : Type} {Res : Op → Type} {Res' : Op' → Type} {α : Type}

/-- The program with each call carried out by a program of the layer below. -/
def expand (impl : (o : Op) → Program Op' Res' (Res o)) : Program Op Res α → Program Op' Res' α
  | ret a => ret a
  | call o k => impl o >>= fun r => expand impl (k r)
  | hang => hang

/-! ### From a call to a program -/

section Simulation

variable {σ τ : Type} {h : (o : Op) → σ → Option (Res o × σ)} {h' : (o : Op') → τ → Option (Res' o × τ)}
  {impl : ℕ → (o : Op) → Program Op' Res' (Res o)} {R : σ → τ → Prop}

variable (h h' impl R) in
/-- A call that is answered above is carried out below with all fuel from some point on, with the same answer
and in corresponding states. -/
def Simulates : Prop :=
  ∀ o s r t, h o s = some r → R s t →
    ∃ needed t', (∀ fuel, needed < fuel → run h' (impl fuel o) t = some (r.1, t')) ∧ R r.2 t'

/-- **A program that comes back above comes back below**, with the same answer. -/
theorem Simulates.run (hsim : Simulates h h' impl R) {p : Program Op Res α} {s : σ} {r : α × σ} {t : τ}
    (hrun : run h p s = some r) (hR : R s t) :
    ∃ needed t', (∀ fuel, needed < fuel → Program.run h' (expand (impl fuel) p) t = some (r.1, t')) ∧ R r.2 t' := by
  induction p generalizing s t with
  | ret a =>
    obtain rfl := Option.some.inj hrun
    exact ⟨0, t, fun _ _ => rfl, hR⟩
  | call o k ih =>
    obtain ⟨q, hq, hrest⟩ := Option.bind_eq_some_iff.mp hrun
    obtain ⟨needed, t₁, hcall, hR₁⟩ := hsim o s q t hq hR
    obtain ⟨needed', t₂, hafter, hR₂⟩ := ih q.1 hrest hR₁
    refine ⟨max needed needed', t₂, ?_, hR₂⟩
    intro fuel hfuel
    obtain ⟨hfirst, hsecond⟩ := Nat.max_lt.mp hfuel
    rw [expand, run_bind, hcall fuel hfirst, Option.bind_some]
    exact hafter fuel hsecond
  | hang => cases hrun

end Simulation

/-! ### Two kinds of calls -/

/-- The answers to calls of two kinds. -/
@[reducible] def SumRes (Res : Op → Type) (Res' : Op' → Type) : Op ⊕ Op' → Type
  | .inl o => Res o
  | .inr o => Res' o

/-- A program with calls of the first kind only. -/
def inLeft (p : Program Op Res α) : Program (Op ⊕ Op') (SumRes Res Res') α :=
  p.expand fun o => perform (Sum.inl o)

section Both

variable {σ : Type} (h : (o : Op) → σ → Option (Res o × σ)) (h' : (o : Op') → σ → Option (Res' o × σ))

/-- The two kinds of calls on one state. -/
def both : (o : Op ⊕ Op') → σ → Option (SumRes Res Res' o × σ)
  | .inl o, s => h o s
  | .inr o, s => h' o s

@[simp] theorem run_inLeft (p : Program Op Res α) (s : σ) : run (both h h') (inLeft p) s = run h p s := by
  induction p generalizing s with
  | ret a => rfl
  | call o k ih =>
    rw [inLeft, expand, run_bind, run_perform, run]
    congr 1
    funext r
    exact ih r.1 r.2
  | hang => rfl

end Both

end OsEojin.Lib.Programs.Program
