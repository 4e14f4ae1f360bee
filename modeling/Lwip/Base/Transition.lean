import Mathlib.Logic.Basic

/-!
# Labelled transition systems with guarded runs

A system takes labelled steps between states. A guard restricts the labels that may be taken
in a state; a run takes any number of guarded steps. What one guarded step preserves, every
run preserves.
-/

namespace Transition

variable {σ ε : Type}

/-- States reached from `start` by steps whose labels meet the guard in the state they are
taken in. -/
inductive Run (step : σ → ε → σ → Prop) (guard : σ → ε → Prop) (start : σ) : σ → Prop
  | refl : Run step guard start start
  | tail {middle final : σ} (before : Run step guard start middle) (label : ε)
      (meets : guard middle label) (last : step middle label final) : Run step guard start final

section Compose

variable {step : σ → ε → σ → Prop} {guard : σ → ε → Prop} {start middle final : σ}

/-- A single step is a run. -/
theorem Run.single (label : ε) (meets : guard start label) (only : step start label final) :
    Run step guard start final := Run.refl.tail label meets only

/-- Runs compose. -/
theorem Run.trans (first : Run step guard start middle) (second : Run step guard middle final) :
    Run step guard start final := by
  induction second with
  | refl => exact first
  | tail _ label meets last ih => exact ih.tail label meets last

/-- A run meets every weaker guard. -/
theorem Run.mono {weak : σ → ε → Prop} (run : Run step guard start final)
    (weaker : ∀ s label, guard s label → weak s label) : Run step weak start final := by
  induction run with
  | refl => exact Run.refl
  | tail _ label meets last ih => exact ih.tail label (weaker _ label meets) last

/-- Labels taken one after the other, each of them in a guarded step, are a run. -/
theorem Run.of_labels {eval : σ → List ε → Option σ} {next : σ → ε → σ} {can : σ → ε → Prop}
    [∀ s label, Decidable (can s label)] (stop : ∀ s, eval s [] = some s)
    (go : ∀ s label more, eval s (label :: more) =
      if can s label then eval (next s label) more else none)
    (steps : ∀ s label, can s label → guard s label ∧ step s label (next s label))
    {labels : List ε} (done : eval start labels = some final) : Run step guard start final := by
  induction labels generalizing start with
  | nil =>
    rw [stop] at done
    cases done
    exact Run.refl
  | cons label more ih =>
    rw [go] at done
    split at done
    · rename_i possible
      obtain ⟨meets, first⟩ := steps start label possible
      exact (Run.single label meets first).trans (ih done)
    · cases done

end Compose

/-- A property kept by every guarded step holds in every state a run reaches. -/
theorem Run.invariant {step : σ → ε → σ → Prop} {guard : σ → ε → Prop} {start final : σ}
    {holds : σ → Prop} (run : Run step guard start final) (initial : holds start)
    (kept : ∀ s label s', holds s → guard s label → step s label s' → holds s') :
    holds final := by
  induction run with
  | refl => exact initial
  | tail _ label meets last ih => exact kept _ label _ ih meets last

end Transition
