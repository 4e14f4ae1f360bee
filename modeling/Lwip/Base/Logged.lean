import Lwip.Base.Outcome

/-!
# Computations with a log

A computation that can fail, and that writes entries into a log as it goes. Forgetting the log
gives an ordinary computation; what is said about a log is said about the entries of the parts in
order.
-/

/-- A computation that can fail, with the log it has written. -/
structure Logged (ε ω α : Type) where
  /-- The result and the log. -/
  run : Except ε (α × List ω)

namespace Logged

variable {ε ω α β : Type}
variable {x : Logged ε ω α} {value : α} {post : α → List ω → Prop} {rest : α → Logged ε ω β}

/-- A result with an empty log. -/
protected def pure (value : α) : Logged ε ω α := ⟨.ok (value, [])⟩

/-- One computation behind another; the second log is appended. -/
protected def bind (first : Logged ε ω α) (rest : α → Logged ε ω β) : Logged ε ω β :=
  ⟨first.run >>= fun before =>
    (rest before.1).run >>= fun after => .ok (after.1, before.2 ++ after.2)⟩

instance : Monad (Logged ε ω) where
  pure := Logged.pure
  bind := Logged.bind

/-- A computation that writes nothing. -/
def lift (x : Except ε α) : Logged ε ω α := ⟨x >>= fun value => .ok (value, [])⟩

/-- Entries of the log. -/
def tell (entries : List ω) : Logged ε ω Unit := ⟨.ok ((), entries)⟩

/-- The computation without its log. -/
def erase (x : Logged ε ω α) : Except ε α := x.run >>= fun both => .ok both.1

/-- A result without a log. -/
@[simp] theorem erase_pure (value : α) : (pure value : Logged ε ω α).erase = .ok value := rfl

/-- The log is forgotten part by part. -/
@[simp] theorem erase_bind (first : Logged ε ω α) (rest : α → Logged ε ω β) :
    (first >>= rest).erase = first.erase >>= fun value => (rest value).erase := by
  show (Logged.bind first rest).erase = _
  cases first with
  | mk outcome =>
    cases outcome with
    | error e => rfl
    | ok before =>
      unfold Logged.bind erase
      dsimp only [bind, Except.bind]
      cases (rest before.1).run <;> rfl

/-- There is no log to forget. -/
@[simp] theorem erase_lift (x : Except ε α) : (lift x : Logged ε ω α).erase = x := by
  cases x <;> rfl

/-- Entries give no result. -/
@[simp] theorem erase_tell (entries : List ω) : (tell entries : Logged ε ω Unit).erase = .ok () :=
  rfl

/-- A result comes with some log. -/
theorem erase_eq_ok (done : x.erase = .ok value) : ∃ log, x.run = .ok (value, log) := by
  cases x with
  | mk outcome =>
    cases outcome with
    | error e => cases done
    | ok both =>
      cases done
      exact ⟨both.2, rfl⟩

/-- The result of a computation and its log meet `post`, or the error is tolerated. -/
def Ensures (tolerated : ε → Prop) (x : Logged ε ω α) (post : α → List ω → Prop) : Prop :=
  Outcome.Ensures tolerated x.run fun both => post both.1 both.2

section Rules

variable {tolerated : ε → Prop}

/-- A result with an empty log. -/
theorem Ensures.pure (holds : post value []) :
    Ensures tolerated (Pure.pure value : Logged ε ω α) post := holds

/-- One computation behind another; the rest is judged with the log so far. -/
theorem Ensures.bind {first : Logged ε ω α} {middle : α → List ω → Prop} {post : β → List ω → Prop}
    (before : Ensures tolerated first middle)
    (after : ∀ value log, middle value log → Ensures tolerated (rest value) fun result more => post
      result (log ++ more)) :
    Ensures tolerated (first >>= rest) post :=
  Outcome.Ensures.bind before fun both holds =>
    Outcome.Ensures.bind (after both.1 both.2 holds) fun _ more => more

/-- A computation behind one with known result. -/
theorem Ensures.bind_run {first : Logged ε ω α} {log : List ω} {post : β → List ω → Prop}
    (done : first.run = .ok (value, log))
    (after : Ensures tolerated (rest value) fun result more => post result (log ++ more)) :
    Ensures tolerated (first >>= rest) post := by
  have known : Ensures tolerated first fun found before => found = value ∧ before = log := by
    unfold Ensures
    rw [done]
    exact ⟨rfl, rfl⟩
  refine known.bind fun found before same => ?_
  rw [same.1, same.2]
  exact after

/-- A computation that writes nothing. -/
theorem Ensures.lift {x : Except ε α}
    (given : Outcome.Ensures tolerated x fun value => post value []) :
    Ensures tolerated (Logged.lift x) post :=
  Outcome.Ensures.bind given fun _ holds => holds

/-- A computation that writes nothing, with the rest behind it. -/
theorem Ensures.lift_bind {x : Except ε α} {holds : α → Prop} {post : β → List ω → Prop}
    (given : Outcome.Ensures tolerated x holds)
    (after : ∀ value, holds value → Ensures tolerated (rest value) post) :
    Ensures tolerated (Logged.lift x >>= rest) post := by
  have before : Ensures tolerated (Logged.lift x : Logged ε ω α)
      fun value log => holds value ∧ log = [] := .lift (given.mono fun _ known => ⟨known, rfl⟩)
  exact before.bind fun value log known => by
    rw [known.2]
    exact after value known.1

/-- Entries of the log. -/
theorem Ensures.tell {entries : List ω} {post : Unit → List ω → Prop} (holds : post () entries) :
    Ensures tolerated (Logged.tell entries : Logged ε ω Unit) post := holds

/-- Entries of the log, with the rest behind them. -/
theorem Ensures.tell_bind {entries : List ω} {rest : Unit → Logged ε ω β}
    {post : β → List ω → Prop}
    (after : Ensures tolerated (rest ()) fun result more => post result (entries ++ more)) :
    Ensures tolerated (Logged.tell entries >>= rest) post :=
  Ensures.bind_run rfl after

/-- A postcondition may be weakened. -/
theorem Ensures.mono {strong weak : α → List ω → Prop} (given : Ensures tolerated x strong)
    (weaker : ∀ value log, strong value log → weak value log) : Ensures tolerated x weak :=
  Outcome.Ensures.mono given fun both => weaker both.1 both.2

/-- A result is the result of the computation without its log. -/
theorem Ensures.eq (given : Ensures tolerated x post) :
    Ensures tolerated x fun value log => post value log ∧ x.erase = .ok value := by
  have both : Outcome.Ensures tolerated x.run fun both => post both.1 both.2 := given
  refine both.eq.mono fun value known => ⟨known.1, ?_⟩
  unfold erase
  rw [known.2]
  rfl

/-- A known result and its log meet the postcondition. -/
theorem Ensures.of_run {log : List ω} (given : Ensures tolerated x post)
    (done : x.run = .ok (value, log)) : post value log := by
  have both : Outcome.Ensures tolerated x.run fun both => post both.1 both.2 := given
  exact both.of_ok done

end Rules

end Logged
