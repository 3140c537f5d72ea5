import Mathlib.Data.List.Forall2

/-!
# Replies of runs

A machine answers a request and goes on to another state.  Two machines whose states are related,
and stay so while they give the same answers, have the same replies to every run of requests.
-/

namespace Replies

variable {α ρ σ τ : Type*}

/-- The replies to requests, one after another. -/
def replies (exec : α → σ → ρ × σ) : List α → σ → List ρ
  | [], _ => []
  | a :: as, s => (exec a s).1 :: replies exec as (exec a s).2

/-- What holds of each request of a run and the state it finds. -/
def Along (exec : α → σ → ρ × σ) (P : α → σ → Prop) : List α → σ → Prop
  | [], _ => True
  | a :: as, s => P a s ∧ Along exec P as (exec a s).2

instance {exec : α → σ → ρ × σ} {P : α → σ → Prop} [∀ a s, Decidable (P a s)] :
    ∀ (as : List α) (s : σ), Decidable (Along exec P as s)
  | [], _ => .isTrue trivial
  | a :: as, s =>
      have : Decidable (Along exec P as (exec a s).2) := instDecidableAlong as (exec a s).2
      inferInstanceAs (Decidable (P a s ∧ Along exec P as (exec a s).2))

theorem Along.mono {exec : α → σ → ρ × σ} {P Q : α → σ → Prop} (h : ∀ a s, P a s → Q a s) :
  ∀ {as : List α} {s : σ}, Along exec P as s → Along exec Q as s
  | [], _, _ => trivial
  | a :: _, s, hP => ⟨h a s hP.1, hP.2.mono h⟩

/-- A relation of the states that a request preserves along with the answer gives the same
replies to a run. -/
theorem replies_eq_of_simulation {exec : α → σ → ρ × σ} {spec : α → τ → ρ × τ}
    {R : σ → τ → Prop} {P : α → τ → Prop}
    (hstep : ∀ {a s t}, R s t → P a t →
      (exec a s).1 = (spec a t).1 ∧ R (exec a s).2 (spec a t).2) :
  ∀ {as : List α} {s : σ} {t : τ}, R s t → Along spec P as t →
    replies exec as s = replies spec as t
  | [], _, _, _, _ => rfl
  | a :: as, s, t, hR, hP => by
      obtain ⟨hreply, hR'⟩ := hstep hR hP.1
      rw [replies, replies, hreply, replies_eq_of_simulation hstep hR' hP.2]

/-- The state after requests. -/
def after (exec : α → σ → ρ × σ) : List α → σ → σ
  | [], s => s
  | a :: as, s => after exec as (exec a s).2

theorem replies_append (exec : α → σ → ρ × σ) (bs : List α) :
  ∀ (as : List α) (s : σ),
    replies exec (as ++ bs) s = replies exec as s ++ replies exec bs (after exec as s)
  | [], _ => rfl
  | a :: as, s => by
      rw [List.cons_append, replies, replies, after, replies_append exec bs as, List.cons_append]

theorem after_of_simulation {exec : α → σ → ρ × σ} {spec : α → τ → ρ × τ}
    {R : σ → τ → Prop} {P : α → τ → Prop}
    (hstep : ∀ {a s t}, R s t → P a t →
      (exec a s).1 = (spec a t).1 ∧ R (exec a s).2 (spec a t).2) :
  ∀ {as : List α} {s : σ} {t : τ}, R s t → Along spec P as t → R (after exec as s) (after spec as t)
  | [], _, _, hR, _ => hR
  | a :: as, s, t, hR, hP => by
      have h := after_of_simulation hstep (hstep hR hP.1).2 hP.2
      exact h

/-- The replies up to the first failure. -/
def answered {ε : Type*} : List (Except ε ρ) → List ρ
  | .ok reply :: outcomes => reply :: answered outcomes
  | _ => []

/-- Requests with their times, by a clock that counts them. -/
def stamped {τ : Type*} (clock : ℕ → τ) : ℕ → List α → List (τ × α)
  | _, [] => []
  | n, a :: as => (clock n, a) :: stamped clock (n + 1) as

/-- Requests that are executed alike have the same replies. -/
theorem replies_stamped_eq_of_forall₂ {β τ : Type*} {exec : τ × α → σ → ρ × σ}
    {exec' : τ × β → σ → ρ × σ} (clock : ℕ → τ) :
  ∀ {as : List α} {bs : List β}, List.Forall₂ (fun a b => ∀ t, exec (t, a) = exec' (t, b)) as bs →
    ∀ (n : ℕ) (s : σ),
      replies exec (stamped clock n as) s = replies exec' (stamped clock n bs) s
  | [], [], _, _, _ => rfl
  | a :: as, b :: bs, .cons hab habs, n, s => by
      rw [stamped, stamped, replies, replies, hab, replies_stamped_eq_of_forall₂ clock habs]

theorem Along.of_mem {exec : α → σ → ρ × σ} {P : α → Prop} :
  ∀ {as : List α} {s : σ}, (∀ a ∈ as, P a) → Along exec (fun a _ => P a) as s
  | [], _, _ => trivial
  | a :: _, _, h => ⟨h a List.mem_cons_self, .of_mem (fun b hb => h b (List.mem_cons_of_mem a hb))⟩

theorem Along.and {exec : α → σ → ρ × σ} {P Q : α → σ → Prop} :
  ∀ {as : List α} {s : σ}, Along exec P as s → Along exec Q as s →
    Along exec (fun a s => P a s ∧ Q a s) as s
  | [], _, _, _ => trivial
  | _ :: _, _, hP, hQ => ⟨⟨hP.1, hQ.1⟩, hP.2.and hQ.2⟩

/-! ### Machines side by side -/

variable {ι : Type*} [DecidableEq ι] {request content : ι → Type*}

/-- Of machines that stand side by side, one answers a request, and the others stay as they are. -/
def sideBySide (machine : ∀ i, request i → content i → ρ × content i) (r : Σ i, request i)
    (t : ∀ i, content i) : ρ × ∀ i, content i :=
  ((machine r.1 r.2 (t r.1)).1, Function.update t r.1 (machine r.1 r.2 (t r.1)).2)

/-- A state that has a part for each machine keeps them, if a request changes the part of its own
machine as the machine changes, and none of the others. -/
theorem related_sideBySide {machine : ∀ i, request i → content i → ρ × content i}
    {R : ∀ i, σ → content i → Prop} {r : Σ i, request i} {s s' : σ} {t : ∀ i, content i}
    (h : ∀ i, R i s (t i)) (hown : R r.1 s' (machine r.1 r.2 (t r.1)).2)
    (hothers : ∀ i, i ≠ r.1 → R i s (t i) → R i s' (t i)) (i : ι) :
  R i s' ((sideBySide machine r t).2 i)
  := by
  by_cases hi : i = r.1
  · subst hi
    dsimp only [sideBySide]
    rwa [Function.update_self]
  · dsimp only [sideBySide]
    rw [Function.update_of_ne hi]
    exact hothers i hi (h i)

end Replies
