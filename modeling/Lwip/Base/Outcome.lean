import Mathlib.Logic.Basic

/-!
# Postconditions of computations that can fail

A computation meets a postcondition if its result does, and if an error it ends with is one of
those that are tolerated. With every error tolerated this is partial correctness; with some
errors excluded it also says that these do not occur.
-/

namespace Outcome

variable {ε α β : Type}
variable {post : α → Prop} {x : Except ε α}

/-- A computation ends with a result that meets `post`, or with a tolerated error. -/
def Ensures (tolerated : ε → Prop) (x : Except ε α) (post : α → Prop) : Prop :=
  match x with
  | .ok value => post value
  | .error e => tolerated e

variable {tolerated : ε → Prop}

/-- A result that meets the postcondition. -/
theorem Ensures.ok {value : α} (holds : post value) :
    Ensures tolerated (.ok value) post := holds

/-- A tolerated error. -/
theorem Ensures.error {e : ε} (holds : tolerated e) :
    Ensures tolerated (.error e) post := holds

/-- What the first part ensures is what the rest starts from. -/
theorem Ensures.bind {first : Except ε α} {rest : α → Except ε β} {middle : α → Prop}
    {post : β → Prop} (before : Ensures tolerated first middle)
    (after : ∀ value, middle value → Ensures tolerated (rest value) post) :
    Ensures tolerated (first >>= rest) post := by
  cases first with
  | ok value => exact after value before
  | error e => exact before

/-- A postcondition may be weakened. -/
theorem Ensures.mono {strong weak : α → Prop} (given : Ensures tolerated x strong)
    (weaker : ∀ value, strong value → weak value) : Ensures tolerated x weak := by
  cases x with
  | ok value => exact weaker value given
  | error e => exact given

/-- The result may be remembered. -/
theorem Ensures.eq (given : Ensures tolerated x post) :
    Ensures tolerated x fun value => post value ∧ x = .ok value := by
  cases x with
  | ok value => exact ⟨given, rfl⟩
  | error e => exact given

/-- A known result meets the postcondition. -/
theorem Ensures.of_ok {value : α} (given : Ensures tolerated x post) (done : x = .ok value) :
    post value := by
  subst done
  exact given

/-- A known error is tolerated. -/
theorem Ensures.of_error {e : ε} (given : Ensures tolerated x post) (done : x = .error e) :
    tolerated e := by
  subst done
  exact given

/-- More errors may be tolerated. -/
theorem Ensures.tolerate {more : ε → Prop} (given : Ensures tolerated x post)
    (tolerant : ∀ e, tolerated e → more e) : Ensures more x post := by
  cases x with
  | ok value => exact given
  | error e => exact tolerant e given

/-- A postcondition that every successful computation meets by a case of its own. -/
theorem Ensures.of_forall (results : ∀ value, x = .ok value → post value)
    (errors : ∀ e, x = .error e → tolerated e) : Ensures tolerated x post := by
  cases x with
  | ok value => exact results value rfl
  | error e => exact errors e rfl

/-- A function applied to the result. -/
theorem Ensures.map {f : α → β} {post : β → Prop}
    (given : Ensures tolerated x fun value => post (f value)) :
    Ensures tolerated (x.map f) post := by
  cases x with
  | ok value | error e => exact given

/-- What every step of a loop keeps, the loop keeps. -/
theorem Ensures.foldlM {step : α → β → Except ε α} {holds : α → Prop}
    (kept : ∀ s i, holds s → Ensures tolerated (step s i) holds) (items : List β) {start : α}
    (initial : holds start) : Ensures tolerated (items.foldlM step start) holds := by
  induction items generalizing start with
  | nil => exact initial
  | cons i items ih =>
    rw [List.foldlM_cons]
    exact (kept start i initial).bind fun _ next => ih next

end Outcome
