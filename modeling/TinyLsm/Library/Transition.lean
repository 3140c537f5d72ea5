import Mathlib.Tactic.TypeStar

/-!
# Runs of partial steps

A step takes a state and an event to the next state, if the event can happen.  A state is
reached through events of which each is allowed in the state it finds.  What holds at the
start, and is preserved by the steps from reached states, holds in every reached state.
-/

namespace Transition

variable {σ α : Type*} {step : σ → α → Option σ} {start : σ} {allowed : σ → α → Prop}

/-- The states reached from the start by allowed events. -/
inductive Reached (step : σ → α → Option σ) (start : σ) (allowed : σ → α → Prop) : σ → Prop
  | start : Reached step start allowed start
  | step {s s' : σ} {a : α} : Reached step start allowed s → allowed s a →
      step s a = some s' → Reached step start allowed s'

/-- The state after events, if all of them are allowed and can happen. -/
def run (step : σ → α → Option σ) (allowed : σ → α → Prop)
    [∀ s a, Decidable (allowed s a)] : σ → List α → Option σ
  | s, [] => some s
  | s, a :: as => if allowed s a then (step s a).bind (fun s' => run step allowed s' as) else none

theorem run_cons [∀ s a, Decidable (allowed s a)] {s s' : σ} {a : α} (ha : allowed s a)
    (h : step s a = some s') (as : List α) :
  run step allowed s (a :: as) = run step allowed s' as
  := by
  rw [run, if_pos ha, h, Option.bind_some]

theorem Reached.run [∀ s a, Decidable (allowed s a)] :
  ∀ {s : σ} (as : List α) {s' : σ}, Reached step start allowed s →
    run step allowed s as = some s' → Reached step start allowed s'
  | s, [], s', hs, h => by
      rw [← Option.some.inj h]
      apply hs
  | s, a :: as, s', hs, h => by
      rw [Transition.run] at h
      split at h
      next ha =>
        obtain ⟨t, ht, h⟩ := Option.bind_eq_some_iff.mp h
        apply Reached.run as (hs.step ha ht) h
      next => cases h

/-- What a run from the start leads to is reached. -/
theorem reached_of_run [∀ s a, Decidable (allowed s a)] {as : List α} {s : σ}
    (h : run step allowed start as = some s) :
  Reached step start allowed s
  := Reached.start.run as h

/-- A map of states and events that steps commute with maps runs to runs. -/
theorem run_map {τ β : Type*} {step' : τ → β → Option τ} {allowed' : τ → β → Prop}
    [∀ s a, Decidable (allowed s a)] [∀ t b, Decidable (allowed' t b)] (g : σ → τ) (f : α → β)
    (hallowed : ∀ s a, allowed' (g s) (f a) ↔ allowed s a)
    (hstep : ∀ s a, step' (g s) (f a) = (step s a).map g) :
  ∀ (s : σ) (as : List α),
    run step' allowed' (g s) (as.map f) = (run step allowed s as).map g
  | s, [] => rfl
  | s, a :: as => by
      rw [List.map_cons, run, run, apply_ite (Option.map g), hstep, Option.bind_map,
        Option.map_bind]
      simp only [hallowed, Option.map_none]
      congr 2
      funext s'
      exact run_map g f hallowed hstep s' as

theorem Reached.mono {allowed' : σ → α → Prop} (h : ∀ s a, allowed s a → allowed' s a) {s : σ}
    (hs : Reached step start allowed s) :
  Reached step start allowed' s
  := by
  induction hs with
  | start => exact .start
  | step _ ha hstep ih => exact ih.step (h _ _ ha) hstep

/-- What holds at the start and is preserved by steps holds in every reached state. -/
theorem Reached.invariant {Inv : σ → Prop} (hstart : Inv start)
    (hstep : ∀ {s s' a}, Reached step start allowed s → Inv s → allowed s a →
      step s a = some s' → Inv s')
    {s : σ} (h : Reached step start allowed s) :
  Inv s
  := by
  induction h with
  | start => apply hstart
  | step hs ha h ih => apply hstep hs ih ha h

end Transition
