import Mathlib.Data.List.Forall2

/-!
# Machines that are fed

A machine takes one item after the other. Each of them takes it to a state, leaves a record of
what happened and returns a value; with one of the values the machine goes on, with any other it
stops. A device that takes whole chunks of items and does with each of them what the machine
does with its items does not depend on how the items are cut into chunks.
-/

namespace Feed

open List

variable {σ ι κ τ ρ ε : Type} [DecidableEq ρ]

/-- A value, a state and a record, or an error. -/
abbrev Result (ρ σ τ ε : Type) := Except ε (ρ × σ × List τ)

/-- What follows if the machine goes on. -/
def andThen (go : ρ) (first : Result ρ σ τ ε) (next : σ → Result ρ σ τ ε) : Result ρ σ τ ε :=
  match first with
  | .error e => .error e
  | .ok (r, s, log) =>
    if r = go then
      match next s with
      | .error e => .error e
      | .ok (r', s', more) => .ok (r', s', log ++ more)
    else .ok (r, s, log)

/-- The machine is fed with all items, as long as it goes on. -/
def feedAll (go : ρ) (step : σ → ι → Result ρ σ τ ε) : σ → List ι → Result ρ σ τ ε
  | s, [] => .ok (go, s, [])
  | s, x :: xs => andThen go (step s x) fun s' => feedAll go step s' xs

variable {go : ρ}

/-- A machine that stops ignores what follows. -/
theorem andThen_stop {r : ρ} (stops : r ≠ go) (s : σ) (log : List τ)
    (next : σ → Result ρ σ τ ε) : andThen go (.ok (r, s, log)) next = .ok (r, s, log) :=
  if_neg stops

/-- The records are appended if the machine goes on. -/
theorem andThen_go (s : σ) (log : List τ) (next : σ → Result ρ σ τ ε) :
    andThen go (.ok (go, s, log)) next =
      (next s).map fun result => (result.1, result.2.1, log ++ result.2.2) := by
  unfold andThen
  dsimp only
  rw [if_pos rfl]
  cases next s with
  | error e => rfl
  | ok result => rfl

/-- An empty start leaves what follows. -/
@[simp] theorem andThen_start (s : σ) (next : σ → Result ρ σ τ ε) :
    andThen go (.ok (go, s, [])) next = next s := by
  rw [andThen_go]
  cases next s with
  | error e => rfl
  | ok result => rfl

/-- An empty end leaves what precedes. -/
@[simp] theorem andThen_end (first : Result ρ σ τ ε) :
    andThen go first (fun s => .ok (go, s, [])) = first := by
  cases first with
  | error e => rfl
  | ok result =>
    obtain ⟨r, s, log⟩ := result
    by_cases goes : r = go
    · rw [goes, andThen_go]
      change Except.ok (go, s, log ++ []) = _
      rw [append_nil]
    · exact andThen_stop goes s log _

/-- A part that stops does not look at what follows. -/
theorem andThen_congr {first : Result ρ σ τ ε} {next next' : σ → Result ρ σ τ ε}
    (same : ∀ s log, first = .ok (go, s, log) → next s = next' s) :
    andThen go first next = andThen go first next' := by
  cases given : first with
  | error e => rfl
  | ok result =>
    obtain ⟨r, s, log⟩ := result
    by_cases goes : r = go
    · rw [goes] at given ⊢
      rw [andThen_go, andThen_go, same s log given]
    · rw [andThen_stop goes, andThen_stop goes]

/-- Parts may be grouped in any way. -/
theorem andThen_assoc (first : Result ρ σ τ ε) (second third : σ → Result ρ σ τ ε) :
    andThen go (andThen go first second) third =
      andThen go first fun s => andThen go (second s) third := by
  cases first with
  | error e => rfl
  | ok result =>
    obtain ⟨r, s, log⟩ := result
    by_cases goes : r = go
    · rw [goes, andThen_go, andThen_go]
      cases second s with
      | error e => rfl
      | ok result' =>
        obtain ⟨r', s', log'⟩ := result'
        change andThen go (.ok (r', s', log ++ log')) third = _
        by_cases goes' : r' = go
        · rw [goes', andThen_go, andThen_go]
          cases third s' with
          | error e => rfl
          | ok result'' =>
            change Except.ok (_, _, log ++ log' ++ _) = Except.ok (_, _, log ++ (log' ++ _))
            rw [append_assoc]
        · rw [andThen_stop goes', andThen_stop goes']
          rfl
    · rw [andThen_stop goes, andThen_stop goes, andThen_stop goes]

variable {step : σ → ι → Result ρ σ τ ε}

/-- One item is one step. -/
@[simp] theorem feedAll_singleton (s : σ) (x : ι) : feedAll go step s [x] = step s x :=
  andThen_end (step s x)

/-- Items may be fed in two parts. -/
theorem feedAll_append (s : σ) (xs ys : List ι) :
    feedAll go step s (xs ++ ys) =
      andThen go (feedAll go step s xs) fun s' => feedAll go step s' ys := by
  induction xs generalizing s with
  | nil =>
    change feedAll go step s ys = andThen go (.ok (go, s, [])) fun s' => feedAll go step s' ys
    rw [andThen_start]
  | cons x xs ih =>
    rw [cons_append, feedAll, feedAll, andThen_assoc]
    congr 1
    funext s'
    exact ih s'

/-- The state and the items to come stay related while the machine goes on. -/
theorem feedAll_invariant {inv : σ → List ι → Prop}
    (kept : ∀ s x rest s' log, inv s (x :: rest) → step s x = .ok (go, s', log) → inv s' rest)
    {s s' : σ} {xs rest : List ι} {log : List τ} (start : inv s (xs ++ rest))
    (fed : feedAll go step s xs = .ok (go, s', log)) : inv s' rest := by
  induction xs generalizing s log with
  | nil =>
    cases fed
    exact start
  | cons x xs ih =>
    rw [feedAll] at fed
    cases taken : step s x with
    | error e =>
      rw [taken] at fed
      cases fed
    | ok result =>
      obtain ⟨r, s₁, log₁⟩ := result
      rw [taken] at fed
      by_cases goes : r = go
      · rw [goes] at taken fed
        rw [andThen_go] at fed
        cases later : feedAll go step s₁ xs with
        | error e =>
          rw [later] at fed
          cases fed
        | ok result' =>
          rw [later] at fed
          cases fed
          exact ih (kept s x (xs ++ rest) s₁ log₁ start taken) later
      · rw [andThen_stop goes] at fed
        cases fed
        exact absurd rfl goes

/-- A machine that takes every item of what is to come takes all of them. -/
theorem feedAll_ok {inv : σ → List ι → Prop}
    (kept : ∀ s x rest s' log, inv s (x :: rest) → step s x = .ok (go, s', log) → inv s' rest)
    (takes : ∀ s x rest, inv s (x :: rest) → ∃ result, step s x = .ok result) {s : σ}
    {xs rest : List ι} (start : inv s (xs ++ rest)) :
    ∃ result, feedAll go step s xs = .ok result := by
  induction xs generalizing s with
  | nil => exact ⟨_, rfl⟩
  | cons x xs ih =>
    obtain ⟨⟨r, s', log⟩, taken⟩ := takes s x (xs ++ rest) start
    rw [feedAll, taken]
    by_cases goes : r = go
    · rw [goes] at taken ⊢
      obtain ⟨result, later⟩ := ih (kept s x _ s' log start taken)
      rw [andThen_go, later]
      exact ⟨_, rfl⟩
    · exact ⟨_, andThen_stop goes s' log _⟩

/-- A device that does with each chunk what the machine does with its items does with all chunks
what the machine does with all items. -/
theorem feedAll_chunks {device : σ → κ → Result ρ σ τ ε} {denotes : κ → List ι → Prop}
    {inv : σ → List ι → Prop}
    (kept : ∀ s x rest s' log, inv s (x :: rest) → step s x = .ok (go, s', log) → inv s' rest)
    (agrees : ∀ s c xs rest, denotes c xs → inv s (xs ++ rest) → device s c = feedAll go step s xs)
    {chunks : List κ} {data : List (List ι)} (given : List.Forall₂ denotes chunks data)
    {s : σ} {rest : List ι} (start : inv s (data.flatten ++ rest)) :
    feedAll go device s chunks = feedAll go step s data.flatten := by
  induction given generalizing s with
  | nil => rfl
  | cons first _ ih =>
    rename_i c xs chunks data _
    rw [flatten_cons, append_assoc] at start
    rw [flatten_cons, feedAll_append, feedAll, agrees s c xs _ first start]
    apply andThen_congr
    intro s' log fed
    exact ih (feedAll_invariant kept start fed)

end Feed
