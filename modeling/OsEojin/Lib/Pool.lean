import Mathlib.Order.Bounds.Basic

/-!
# A pool of numbered resources

A pool is the set of the resources that are free.  Taking one takes the least, giving one back puts it
into the set, and a request to an empty pool is refused.

* `PoolStep`: what one request does;
* `PoolRun`: any number of them;
* `PoolRun.gave_of_took`: nothing is taken twice without having been given back in between.
-/

namespace OsEojin.Lib.Pool

variable {ι : Type*}

/-- What a pool does, as seen from outside. -/
inductive PoolEvent (ι : Type*) where
  | took (i : ι)
  | refused
  | gave (i : ι)

section Steps

variable [LE ι]

/-- One request. -/
inductive PoolStep : Set ι → PoolEvent ι → Set ι → Prop
  | take {S : Set ι} {i : ι} : IsLeast S i → PoolStep S (.took i) (S \ {i})
  | refuse : PoolStep ∅ .refused ∅
  | give {S : Set ι} {i : ι} : i ∉ S → PoolStep S (.gave i) (insert i S)

/-- Any number of requests. -/
inductive PoolRun : Set ι → List (PoolEvent ι) → Set ι → Prop
  | nil (S : Set ι) : PoolRun S [] S
  | cons {S T U : Set ι} {e : PoolEvent ι} {es : List (PoolEvent ι)} :
      PoolStep S e T → PoolRun T es U → PoolRun S (e :: es) U

variable {S T U : Set ι} {i : ι} {e : PoolEvent ι} {es fs : List (PoolEvent ι)}

theorem PoolRun.split (h : PoolRun S (es ++ fs) U) : ∃ T, PoolRun S es T ∧ PoolRun T fs U := by
  induction es generalizing S with
  | nil => exact ⟨S, PoolRun.nil S, h⟩
  | cons e es ih =>
    cases h with
    | cons hstep hrest =>
      obtain ⟨T, hfirst, hsecond⟩ := ih hrest
      exact ⟨T, PoolRun.cons hstep hfirst, hsecond⟩

/-- What is not free stays so until it is given back. -/
theorem PoolStep.not_mem (h : PoolStep S e T) (hi : i ∉ S) (he : e ≠ .gave i) : i ∉ T := by
  cases h with
  | take _ => exact fun hmem => hi hmem.1
  | refuse => exact hi
  | give _ =>
    rename_i j
    intro hmem
    cases hmem with
    | inl heq => exact he (by rw [heq])
    | inr hin => exact hi hin

theorem PoolRun.not_mem (h : PoolRun S es T) (hi : i ∉ S) (hes : PoolEvent.gave i ∉ es) : i ∉ T := by
  induction h with
  | nil S => exact hi
  | cons hstep _ ih =>
    apply ih
    · apply hstep.not_mem hi
      rintro rfl
      exact hes List.mem_cons_self
    · exact fun hmem => hes (List.mem_cons_of_mem _ hmem)

/-- **Nothing is taken twice** without having been given back in between. -/
theorem PoolRun.gave_of_took (h : PoolRun S (.took i :: (es ++ .took i :: fs)) U) :
    PoolEvent.gave i ∈ es := by
  by_contra hnever
  cases h with
  | cons hfirst hrest =>
    cases hfirst with
    | take _ =>
      obtain ⟨T, hmiddle, hlast⟩ := hrest.split
      have hout : i ∉ T := hmiddle.not_mem (fun hmem => hmem.2 rfl) hnever
      cases hlast with
      | cons hsecond _ =>
        cases hsecond with
        | take hleast => exact hout hleast.1

end Steps

end OsEojin.Lib.Pool
