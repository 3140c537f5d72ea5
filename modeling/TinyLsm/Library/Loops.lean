import Mathlib.Data.Nat.Basic

/-!
# Loops

A round of a loop leaves the loop with a result, or goes on from another state.  A loop ends
when its rounds leave it at some point.

* A loop whose rounds decrease a measure ends, in as many rounds as the measure allows:
  `run_of_decreasing`.
* A loop whose rounds decrease a measure or change nothing ends if and only if it visits no
  state that a round does not change: `ends_iff`.
-/

namespace Loops

variable {σ β : Type*} {step : σ → β ⊕ σ}

/-- The result of a loop, if it is left in so many rounds. -/
def run (step : σ → β ⊕ σ) : ℕ → σ → Option β
  | 0, _ => none
  | rounds + 1, s =>
      match step s with
      | .inl result => some result
      | .inr s' => run step rounds s'

/-- A loop is left after finitely many rounds. -/
def Ends (step : σ → β ⊕ σ) (s : σ) : Prop := ∃ rounds result, run step rounds s = some result

/-- The states a loop goes on from. -/
inductive Visits (step : σ → β ⊕ σ) (start : σ) : σ → Prop
  | start : Visits step start start
  | next {s s' : σ} : Visits step start s → step s = .inr s' → Visits step start s'

theorem run_of_left {s : σ} {result : β} (h : step s = .inl result) (rounds : ℕ) :
  run step (rounds + 1) s = some result
  := by
  rw [run, h]

theorem run_of_right {s s' : σ} (h : step s = .inr s') (rounds : ℕ) :
  run step (rounds + 1) s = run step rounds s'
  := by
  rw [run, h]

/-- A loop that is left is left in more rounds as well, with the same result. -/
theorem run_mono {result : β} :
  ∀ {rounds rounds' : ℕ} {s : σ}, run step rounds s = some result → rounds ≤ rounds' →
    run step rounds' s = some result
  | rounds + 1, rounds' + 1, s, h, hle => by
      cases hstep : step s with
      | inl result' =>
          rw [run_of_left hstep] at h ⊢
          apply h
      | inr s' =>
          rw [run_of_right hstep] at h ⊢
          apply run_mono h (Nat.le_of_succ_le_succ hle)

theorem ends_iff_of_right {s s' : σ} (h : step s = .inr s') : Ends step s ↔ Ends step s'
  := by
  constructor
  · rintro ⟨rounds, result, hrun⟩
    cases rounds with
    | zero => cases hrun
    | succ rounds => exact ⟨rounds, result, (run_of_right h rounds).symm.trans hrun⟩
  · rintro ⟨rounds, result, hrun⟩
    exact ⟨rounds + 1, result, (run_of_right h rounds).trans hrun⟩

/-- A loop ends if and only if it ends from a state it visits. -/
theorem Visits.ends_iff {start s : σ} (h : Visits step start s) :
  Ends step start ↔ Ends step s
  := by
  induction h with
  | start => exact Iff.rfl
  | next _ hstep ih => rw [ih, ends_iff_of_right hstep]

/-- What holds at the start and is preserved by the rounds holds in the states a loop goes on
from. -/
theorem Visits.invariant {Inv : σ → Prop} {start : σ} (hstart : Inv start)
    (hstep : ∀ s s', Inv s → step s = .inr s' → Inv s') {s : σ} (h : Visits step start s) :
  Inv s
  := by
  induction h with
  | start => exact hstart
  | next _ hround ih => exact hstep _ _ ih hround

theorem Visits.of_right {s s' s'' : σ} (h : step s = .inr s') (h' : Visits step s' s'') :
  Visits step s s''
  := by
  induction h' with
  | start => exact .next .start h
  | next _ hround ih => exact ih.next hround

/-- A loop is left from a state it visits. -/
theorem exists_visits_of_run {result : β} {rounds : ℕ} {start : σ}
    (h : run step rounds start = some result) :
  ∃ s, Visits step start s ∧ step s = .inl result
  := by
  induction rounds generalizing start with
  | zero => cases h
  | succ rounds ih =>
      cases hstep : step start with
      | inl result' =>
          rw [run_of_left hstep] at h
          cases h
          exact ⟨start, .start, hstep⟩
      | inr s' =>
          rw [run_of_right hstep] at h
          obtain ⟨s, hs, hleft⟩ := ih h
          exact ⟨s, hs.of_right hstep, hleft⟩

/-- A loop does not end whose rounds go on, and keep to the states in which they do. -/
theorem not_ends_of_invariant {Inv : σ → Prop}
    (hstep : ∀ s, Inv s → ∃ s', step s = .inr s' ∧ Inv s') {start : σ} (hstart : Inv start) :
  ¬ Ends step start
  := by
  rintro ⟨rounds, result, hrun⟩
  induction rounds generalizing start with
  | zero => cases hrun
  | succ rounds ih =>
      obtain ⟨s', hs', hinv⟩ := hstep start hstart
      exact ih hinv ((run_of_right hs' rounds).symm.trans hrun)

/-- A loop that a round does not take further does not end. -/
theorem not_ends_of_fixed {s : σ} (h : step s = .inr s) : ¬ Ends step s
  := by
  have hstays : ∀ s', s' = s → ∃ s'', step s' = .inr s'' ∧ s'' = s := by
    rintro _ rfl
    exact ⟨_, h, rfl⟩
  exact not_ends_of_invariant hstays rfl

/-- A loop whose rounds decrease a measure is left in one round more than the measure has
steps. -/
theorem run_of_decreasing {start : σ} (measure : σ → ℕ)
    (h : ∀ s s', Visits step start s → step s = .inr s' → measure s' < measure s) :
  ∃ result, run step (measure start + 1) start = some result
  := by
  have hrun : ∀ n s, Visits step start s → measure s ≤ n →
      ∃ result, run step (n + 1) s = some result := by
    intro n
    induction n with
    | zero =>
        intro s hs hle
        cases hstep : step s with
        | inl result => exact ⟨result, run_of_left hstep 0⟩
        | inr s' => exact absurd (h s s' hs hstep) (by omega)
    | succ n ih =>
        intro s hs hle
        cases hstep : step s with
        | inl result => exact ⟨result, run_of_left hstep (n + 1)⟩
        | inr s' =>
            have hlt := h s s' hs hstep
            obtain ⟨result, hresult⟩ := ih s' (hs.next hstep) (by omega)
            exact ⟨result, (run_of_right hstep (n + 1)).trans hresult⟩
  apply hrun _ start .start (le_refl _)

/-- A loop whose rounds keep an invariant and decrease a measure is left from a state with the
invariant. -/
theorem exists_run_of_invariant {Inv : σ → Prop} (measure : σ → ℕ)
    (h : ∀ s s', Inv s → step s = .inr s' → Inv s' ∧ measure s' < measure s) {start : σ}
    (hstart : Inv start) :
  ∃ n result s, run step n start = some result ∧ Inv s ∧ step s = .inl result
  := by
  have hinv : ∀ s, Visits step start s → Inv s :=
    fun s hs => hs.invariant hstart (fun s s' hs hstep => (h s s' hs hstep).1)
  obtain ⟨result, hrun⟩ :=
    run_of_decreasing measure (fun s s' hs hstep => (h s s' (hinv s hs) hstep).2)
  obtain ⟨s, hs, hleft⟩ := exists_visits_of_run hrun
  exact ⟨_, result, s, hrun, hinv s hs, hleft⟩

/-- A loop whose rounds decrease a measure or change nothing ends if and only if every round it
comes to changes something. -/
theorem ends_iff {start : σ} (measure : σ → ℕ)
    (h : ∀ s s', Visits step start s → step s = .inr s' → s' = s ∨ measure s' < measure s) :
  Ends step start ↔ ∀ s, Visits step start s → step s ≠ .inr s
  := by
  constructor
  · intro hends s hs hstep
    exact not_ends_of_fixed hstep (hs.ends_iff.mp hends)
  · intro hmoves
    have hdecreasing : ∀ s s', Visits step start s → step s = .inr s' →
        measure s' < measure s := by
      intro s s' hs hstep
      obtain rfl | hlt := h s s' hs hstep
      · exact absurd hstep (hmoves s' hs)
      · exact hlt
    obtain ⟨result, hrun⟩ := run_of_decreasing measure hdecreasing
    exact ⟨_, result, hrun⟩

end Loops
