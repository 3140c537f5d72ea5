import Mathlib.Data.List.Induction
import TinyLsm.Library.Cursor

/-!
# Runs of calls that may fail

A run takes a state through calls one after the other, and fails where a call does.
-/

namespace Runs

variable {φ σ κ : Type} {step : σ → κ → Except φ σ}

/-- A run returns if it returns before the last call, and this call returns. -/
theorem foldlM_concat_eq_ok {s s'' : σ} {calls : List κ} {c : κ} :
  (calls ++ [c]).foldlM step s = .ok s'' ↔
    ∃ s', calls.foldlM step s = .ok s' ∧ step s' c = .ok s''
  := by
  rw [List.foldlM_append]
  constructor
  · intro h
    obtain ⟨s', hcalls, hlast⟩ := Except.exists_of_bind_eq_ok h
    obtain ⟨s₁, hstep, hnil⟩ := Except.exists_of_bind_eq_ok hlast
    cases hnil
    exact ⟨s', hcalls, hstep⟩
  · rintro ⟨s', hcalls, hstep⟩
    rw [Except.bind_eq_of_ok _ hcalls, List.foldlM_cons, Except.bind_eq_of_ok _ hstep]
    rfl

/-- What holds at first, and is preserved by each call of a run, holds in all states of the run. -/
theorem invariant_of_prefix {Inv : σ → Prop} {start : σ} {calls : List κ} (hstart : Inv start)
    (hstep : ∀ {before c s s'}, before ++ [c] <+: calls → before.foldlM step start = .ok s →
      Inv s → step s c = .ok s' → Inv s')
    {before : List κ} (hbefore : before <+: calls) {s : σ}
    (hrun : before.foldlM step start = .ok s) :
  Inv s
  := by
  induction before using List.reverseRecOn generalizing s with
  | nil =>
      cases hrun
      exact hstart
  | append_singleton before c ih =>
      obtain ⟨s', hrun', hcall⟩ := foldlM_concat_eq_ok.mp hrun
      have hs' := ih ((List.prefix_append before [c]).trans hbefore) hrun'
      exact hstep hbefore hrun' hs' hcall

end Runs
