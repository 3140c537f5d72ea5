import Mathlib.Init

/-!
# Programs over calls and a lock

A program is a tree of calls: it is done with a result or an error, makes a call and goes on
with the answer to it, or takes or releases a lock.  What a call does and answers is not part of
the program, which can so be run on its own, from one end to the other, or a step at a time
among others.
-/

/-- How a lock is taken: with others that read, alone, or alone by a program that has released
its share in order to change what it has read. -/
inductive LockMode where
  | shared
  | exclusive
  | upgraded
deriving DecidableEq, Repr

inductive Program (C : Type) (Answer : C → Type) (ε : Type) (α : Type) : Type where
  | done (result : Except ε α)
  | call (c : C) (next : Answer c → Program C Answer ε α)
  | lock (mode : LockMode) (next : Program C Answer ε α)
  | unlock (next : Program C Answer ε α)

namespace Program

variable {C : Type} {Answer : C → Type} {ε α β σ : Type}

protected def bind : Program C Answer ε α → (α → Program C Answer ε β) → Program C Answer ε β
  | done (.ok a), f => f a
  | done (.error e), _ => done (.error e)
  | call c next, f => call c (fun a => (next a).bind f)
  | lock mode next, f => lock mode (next.bind f)
  | unlock next, f => unlock (next.bind f)

instance : Monad (Program C Answer ε) where
  pure a := done (.ok a)
  bind := Program.bind

/-- Run a program on its own. -/
def run (answer : (c : C) → σ → Answer c × σ) : Program C Answer ε α → σ → Except ε α × σ
  | done result, s => (result, s)
  | call c next, s => (next (answer c s).1).run answer (answer c s).2
  | lock _ next, s => next.run answer s
  | unlock next, s => next.run answer s

variable {answer : (c : C) → σ → Answer c × σ}

@[simp]
theorem run_pure (a : α) (s : σ) :
  (pure a : Program C Answer ε α).run answer s = (.ok a, s)
  := rfl

@[simp]
theorem run_done (result : Except ε α) (s : σ) :
  (done result : Program C Answer ε α).run answer s = (result, s)
  := rfl

/-- A program that goes on with another runs it from the state it is done in. -/
theorem run_bind (p : Program C Answer ε α) (f : α → Program C Answer ε β) (s : σ) :
  (p >>= f).run answer s =
    match p.run answer s with
    | (.ok a, s') => (f a).run answer s'
    | (.error e, s') => (.error e, s')
  := by
  change (p.bind f).run answer s = _
  induction p generalizing s with
  | done result => cases result <;> rfl
  | call c next ih => apply ih
  | lock mode next ih => apply ih
  | unlock next ih => apply ih

theorem run_bind_of_ok {p : Program C Answer ε α} {s s' : σ} {a : α}
    (h : p.run answer s = (.ok a, s')) (f : α → Program C Answer ε β) :
  (p >>= f).run answer s = (f a).run answer s'
  := by
  rw [run_bind, h]

theorem run_bind_of_error {p : Program C Answer ε α} {s s' : σ} {e : ε}
    (h : p.run answer s = (.error e, s')) (f : α → Program C Answer ε β) :
  (p >>= f).run answer s = (.error e, s')
  := by
  rw [run_bind, h]

/-- All calls that a program may make are of a kind, if the answers are possible ones. -/
def AllCalls (P : C → Prop) (possible : (c : C) → Answer c → Prop) : Program C Answer ε α → Prop
  | done _ => True
  | call c next => P c ∧ ∀ a, possible c a → (next a).AllCalls P possible
  | lock _ next => next.AllCalls P possible
  | unlock next => next.AllCalls P possible

/-- All results that a program may have are of a kind, if the answers are possible ones. -/
def Yields (possible : (c : C) → Answer c → Prop) (Q : α → Prop) : Program C Answer ε α → Prop
  | done (.ok a) => Q a
  | done (.error _) => True
  | call c next => ∀ a, possible c a → (next a).Yields possible Q
  | lock _ next => next.Yields possible Q
  | unlock next => next.Yields possible Q

theorem yields_true {possible : (c : C) → Answer c → Prop} :
  ∀ (p : Program C Answer ε α), p.Yields possible (fun _ => True)
  | done (.ok _) => trivial
  | done (.error _) => trivial
  | call _ next => fun a _ => (next a).yields_true
  | lock _ next => next.yields_true
  | unlock next => next.yields_true

theorem Yields.bind {possible : (c : C) → Answer c → Prop} {Q : α → Prop} {Q' : β → Prop}
    {p : Program C Answer ε α} {f : α → Program C Answer ε β} (hp : p.Yields possible Q)
    (hf : ∀ a, Q a → (f a).Yields possible Q') :
  (p >>= f).Yields possible Q'
  := by
  change (p.bind f).Yields possible Q'
  induction p with
  | done result =>
      cases result with
      | ok a => apply hf a hp
      | error e => trivial
  | call c next ih => exact fun a ha => ih a (hp a ha)
  | lock mode next ih => apply ih hp
  | unlock next ih => apply ih hp

/-- Whatever a program results in, what goes on with it has results of a kind. -/
theorem Yields.after {possible : (c : C) → Answer c → Prop} {Q : β → Prop}
    {p : Program C Answer ε α} {f : α → Program C Answer ε β}
    (hf : ∀ a, (f a).Yields possible Q) :
  (p >>= f).Yields possible Q
  := p.yields_true.bind (fun a _ => hf a)

/-- A program on its own has results of its kind. -/
theorem Yields.run {possible : (c : C) → Answer c → Prop}
    (hpossible : ∀ c s, possible c (answer c s).1) {Q : α → Prop} {p : Program C Answer ε α}
    (hp : p.Yields possible Q) {s : σ} {a : α} (h : (p.run answer s).1 = .ok a) :
  Q a
  := by
  induction p generalizing s with
  | done result =>
      rw [run_done] at h
      dsimp only at h
      subst h
      apply hp
  | call c next ih => apply ih _ (hp _ (hpossible c s)) h
  | lock mode next ih => apply ih hp h
  | unlock next ih => apply ih hp h

namespace AllCalls

variable {P : C → Prop} {possible : (c : C) → Answer c → Prop}

/-- What goes on with a result may rely on the kind of it. -/
theorem bind_of_yields {Q : α → Prop} {p : Program C Answer ε α} {f : α → Program C Answer ε β}
    (hp : p.AllCalls P possible) (hQ : p.Yields possible Q)
    (hf : ∀ a, Q a → (f a).AllCalls P possible) :
  (p >>= f).AllCalls P possible
  := by
  change (p.bind f).AllCalls P possible
  induction p with
  | done result =>
      cases result with
      | ok a => apply hf a hQ
      | error e => trivial
  | call c next ih => exact ⟨hp.1, fun a ha => ih a (hp.2 a ha) (hQ a ha)⟩
  | lock mode next ih => apply ih hp hQ
  | unlock next ih => apply ih hp hQ

theorem bind {p : Program C Answer ε α} {f : α → Program C Answer ε β}
    (hp : p.AllCalls P possible) (hf : ∀ a, (f a).AllCalls P possible) :
  (p >>= f).AllCalls P possible
  := bind_of_yields hp p.yields_true (fun a _ => hf a)

theorem mono {Q : C → Prop} (hPQ : ∀ c, P c → Q c) {p : Program C Answer ε α}
    (hp : p.AllCalls P possible) :
  p.AllCalls Q possible
  := by
  induction p with
  | done result => trivial
  | call c next ih => exact ⟨hPQ c hp.1, fun a ha => ih a (hp.2 a ha)⟩
  | lock mode next ih => apply ih hp
  | unlock next ih => apply ih hp

variable (hpossible : ∀ c s, possible c (answer c s).1)

include hpossible

/-- What each call keeps, the program keeps. -/
theorem run_keeps {I : σ → Prop} (hI : ∀ c, P c → ∀ s, I s → I (answer c s).2)
    {p : Program C Answer ε α} (hp : p.AllCalls P possible) {s : σ} (hs : I s) :
  I (p.run answer s).2
  := by
  induction p generalizing s with
  | done result => apply hs
  | call c next ih => apply ih _ (hp.2 _ (hpossible c s)) (hI c hp.1 s hs)
  | lock mode next ih => apply ih hp hs
  | unlock next ih => apply ih hp hs

/-- On states that the calls do not tell apart, the program has the same result. -/
theorem run_congr {R : σ → σ → Prop}
    (hR : ∀ c, P c → ∀ s t, R s t → (answer c s).1 = (answer c t).1 ∧
      R (answer c s).2 (answer c t).2)
    {p : Program C Answer ε α} (hp : p.AllCalls P possible) {s t : σ} (h : R s t) :
  (p.run answer s).1 = (p.run answer t).1 ∧ R (p.run answer s).2 (p.run answer t).2
  := by
  induction p generalizing s t with
  | done result => exact ⟨rfl, h⟩
  | call c next ih =>
      obtain ⟨hsame, hrelated⟩ := hR c hp.1 s t h
      rw [run, run, ← hsame]
      apply ih _ (hp.2 _ (hpossible c s)) hrelated
  | lock mode next ih => apply ih hp h
  | unlock next ih => apply ih hp h

end AllCalls

end Program
