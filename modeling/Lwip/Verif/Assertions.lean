import Lwip.Base.Outcome
import Lwip.Core.Arch

/-!
# Postconditions of functions with assertions
-/

namespace Lwip

open Outcome

/-- Any error. -/
def AnyError (_ : String) : Prop := True

/-- Any computation, if nothing is said about its result. -/
theorem ensures_any {α : Type} (x : Asserting α) : Ensures AnyError x fun _ => True := by
  cases x <;> trivial

variable {α : Type} {tolerated : String → Prop} {message : String} {holds : Prop}
  [Decidable holds] {rest : Unit → Asserting α} {post : α → Prop}

/-- Any computation is passed, if the rest holds for every result. -/
theorem ensures_skip {β : Type} {x : Asserting β} {rest : β → Asserting α}
    (after : ∀ value, Ensures AnyError (rest value) post) : Ensures AnyError (x >>= rest) post :=
  (ensures_any x).bind fun value _ => after value

/-- An assertion, with the rest of the computation under it. -/
theorem ensures_assert (fails : ¬holds → tolerated message)
    (passes : holds → Ensures tolerated (rest ()) post) :
    Ensures tolerated (lwipAssert message holds >>= rest) post := by
  by_cases given : holds
  · rw [lwipAssert_pos given]
    exact passes given
  · rw [lwipAssert_neg given]
    exact fails given

/-- An assertion that may fail, if the rest does not need it. -/
theorem ensures_pass (fails : tolerated message) (passes : Ensures tolerated (rest ()) post) :
    Ensures tolerated (lwipAssert message holds >>= rest) post :=
  ensures_assert (fun _ => fails) fun _ => passes

end Lwip

namespace Outcome

/-- Any error may be tolerated. -/
theorem Ensures.any {α : Type} {tolerated : String → Prop} {x : Lwip.Asserting α}
    {post : α → Prop} (given : Ensures tolerated x post) : Ensures Lwip.AnyError x post :=
  given.tolerate fun _ _ => trivial

end Outcome
