import TinyLsm.Library.Transition
import Mathlib.Data.Fintype.Basic
import Mathlib.Data.Set.Basic

/-!
# Threads that take locks

Threads call operations, each of which takes and releases reader-writer locks in an order of its
own.  A thread cannot take a lock that is held in a conflicting mode.  In a deadlock, each thread
of a set waits for a lock that another thread of the set holds.
-/

namespace Locks

variable {ι κ O : Type}

inductive Mode where
  | shared
  | exclusive
deriving DecidableEq

inductive Action (κ : Type) where
  | acquire (lock : κ) (mode : Mode)
  | release (lock : κ) (mode : Mode)
deriving DecidableEq

/-- The locks that a thread holds, the last one taken first. -/
abbrev Held (κ : Type) := List (κ × Mode)

/-- What a thread holds, and what is left of the operation it has called. -/
structure Thread (κ : Type) where
  held : Held κ
  todo : List (Action κ)
deriving DecidableEq

abbrev State (ι κ : Type) := ι → Thread κ

/-- A thread calls an operation, or does its next action. -/
inductive Event (ι O : Type) where
  | call (i : ι) (op : O)
  | act (i : ι)
deriving DecidableEq

/-- The thread `i` holds the lock in a mode that excludes the given one. -/
def Blocks (s : State ι κ) (lock : κ) (mode : Mode) (i : ι) : Prop :=
  ∃ h ∈ (s i).held, h.1 = lock ∧ (mode = .exclusive ∨ h.2 = .exclusive)

/-- The thread `i` waits for a lock that the thread `j` holds. -/
def Waits (s : State ι κ) (i j : ι) : Prop :=
  ∃ lock mode todo, (s i).todo = .acquire lock mode :: todo ∧ Blocks s lock mode j

/-- Each thread of the set waits for a lock that another thread of the set holds. -/
def Deadlocked (s : State ι κ) (threads : Set ι) : Prop :=
  threads.Nonempty ∧ ∀ i ∈ threads, ∃ j ∈ threads, j ≠ i ∧ Waits s i j

def start : State ι κ := fun _ => ⟨[], []⟩

section

variable [DecidableEq κ]

/-- What is held after an action. -/
def Action.apply (held : Held κ) : Action κ → Held κ
  | acquire lock mode => (lock, mode) :: held
  | release lock mode => held.erase (lock, mode)

/-- What is held along a sequence of actions, and what is left of it. -/
def positions : Held κ → List (Action κ) → List (Thread κ)
  | held, [] => [⟨held, []⟩]
  | held, a :: todo => ⟨held, a :: todo⟩ :: positions (a.apply held) todo

instance (s : State ι κ) (lock : κ) (mode : Mode) : DecidablePred (Blocks s lock mode) :=
  fun i => inferInstanceAs (Decidable (∃ h ∈ (s i).held, _))

variable [Fintype ι] [DecidableEq ι]

/-- Call an operation when there is none, release a lock, or take one that nothing blocks. -/
def step (script : O → List (Action κ)) (s : State ι κ) : Event ι O → Option (State ι κ)
  | .call i op =>
      if (s i).todo = [] then some (Function.update s i ⟨(s i).held, script op⟩) else none
  | .act i =>
      match (s i).todo with
      | [] => none
      | .acquire lock mode :: todo =>
          if ∃ j, Blocks s lock mode j then none
          else some (Function.update s i ⟨(lock, mode) :: (s i).held, todo⟩)
      | .release lock mode :: todo =>
          some (Function.update s i ⟨(s i).held.erase (lock, mode), todo⟩)

end

/-! ### What holds in every state -/

/-- A lock held exclusively is held by one thread. -/
def Excludes (s : State ι κ) : Prop :=
  ∀ i j lock mode, (lock, .exclusive) ∈ (s i).held → (lock, mode) ∈ (s j).held → i = j

section

variable [DecidableEq κ]

/-- Every thread is in an operation, or between two. -/
def InScripts (script : O → List (Action κ)) (s : State ι κ) : Prop :=
  ∀ i, s i = ⟨[], []⟩ ∨ ∃ op, s i ∈ positions [] (script op)

theorem mem_positions_self (held : Held κ) (todo : List (Action κ)) :
  ⟨held, todo⟩ ∈ positions held todo
  := by
  cases todo with
  | nil => exact List.mem_singleton_self _
  | cons a todo => exact List.mem_cons_self

/-- After an action a thread is at the next position. -/
theorem mem_positions_apply {h : Held κ} {a : Action κ} {todo : List (Action κ)} :
  ∀ {held : Held κ} {actions : List (Action κ)}, ⟨h, a :: todo⟩ ∈ positions held actions →
    ⟨a.apply h, todo⟩ ∈ positions held actions
  | held, [], hmem => by
      cases List.mem_singleton.mp hmem
  | held, b :: actions, hmem => by
      rw [positions] at hmem ⊢
      rcases List.mem_cons.mp hmem with heq | hmem
      · cases heq
        exact List.mem_cons_of_mem _ (mem_positions_self _ _)
      · exact List.mem_cons_of_mem _ (mem_positions_apply hmem)

/-- Every operation releases what it takes. -/
def Balanced (script : O → List (Action κ)) : Prop :=
  ∀ op, ∀ t ∈ positions [] (script op), t.todo = [] → t.held = []

variable [Fintype ι] [DecidableEq ι] {script : O → List (Action κ)} {s s' : State ι κ}

/-- An action of a thread changes that thread, as the action says. -/
theorem step_act {i : ι} (h : step script s (.act i) = some s') :
  ∃ a todo, (s i).todo = a :: todo ∧ s' = Function.update s i ⟨a.apply (s i).held, todo⟩ ∧
    ∀ lock mode, a = .acquire lock mode → ∀ j, ¬ Blocks s lock mode j
  := by
  rw [step] at h
  split at h
  next => cases h
  next lock mode todo htodo =>
    split at h
    next => cases h
    next hfree =>
      refine ⟨_, todo, htodo, (Option.some.inj h).symm, ?_⟩
      intro lock' mode' heq j
      cases heq
      exact fun hblocks => hfree ⟨j, hblocks⟩
  next lock mode todo htodo =>
    refine ⟨_, todo, htodo, (Option.some.inj h).symm, ?_⟩
    intro lock' mode' heq
    cases heq

/-- A call starts an operation of a thread that has none. -/
theorem step_call {i : ι} {op : O} (h : step script s (.call i op) = some s') :
  (s i).todo = [] ∧ s' = Function.update s i ⟨(s i).held, script op⟩
  := by
  rw [step] at h
  split at h
  next htodo => exact ⟨htodo, (Option.some.inj h).symm⟩
  next => cases h

theorem InScripts.step (hbalanced : Balanced script) (h : InScripts script s)
    {e : Event ι O} (hstep : step script s e = some s') :
  InScripts script s'
  := by
  intro j
  cases e with
  | call i op =>
      obtain ⟨htodo, rfl⟩ := step_call hstep
      by_cases hj : j = i
      · subst hj
        rw [Function.update_self]
        have hheld : (s j).held = [] := by
          rcases h j with hidle | ⟨op', hmem⟩
          · rw [hidle]
          · exact hbalanced op' _ hmem htodo
        rw [hheld]
        exact .inr ⟨op, mem_positions_self _ _⟩
      · rw [Function.update_of_ne hj]
        apply h j
  | act i =>
      obtain ⟨a, todo, htodo, rfl, -⟩ := step_act hstep
      by_cases hj : j = i
      · subst hj
        rw [Function.update_self]
        rcases h j with hidle | ⟨op, hmem⟩
        · rw [hidle] at htodo
          cases htodo
        · have hthread : s j = ⟨(s j).held, a :: todo⟩ := by rw [← htodo]
          rw [hthread] at hmem
          exact .inr ⟨op, mem_positions_apply hmem⟩
      · rw [Function.update_of_ne hj]
        apply h j

/-- What a thread holds after an action it has held before, or has taken. -/
theorem mem_apply {h : κ × Mode} {held : Held κ} {a : Action κ} (hmem : h ∈ a.apply held) :
  h ∈ held ∨ a = .acquire h.1 h.2
  := by
  cases a with
  | acquire lock mode =>
      rcases List.mem_cons.mp hmem with rfl | hmem
      · exact .inr rfl
      · exact .inl hmem
  | release lock mode => exact .inl (List.mem_of_mem_erase hmem)

theorem Excludes.step (h : Excludes s) {e : Event ι O} (hstep : step script s e = some s') :
  Excludes s'
  := by
  intro j k lock mode hj hk
  cases e with
  | call i op =>
      obtain ⟨-, rfl⟩ := step_call hstep
      have hheld : ∀ l, (Function.update s i ⟨(s i).held, script op⟩ l).held = (s l).held := by
        intro l
        by_cases hl : l = i
        · subst hl
          rw [Function.update_self]
        · rw [Function.update_of_ne hl]
      rw [hheld] at hj hk
      exact h j k lock mode hj hk
  | act i =>
      obtain ⟨a, todo, -, rfl, hfree⟩ := step_act hstep
      have hheld : ∀ l x, x ∈ (Function.update s i ⟨a.apply (s i).held, todo⟩ l).held →
          x ∈ (s l).held ∨ l = i ∧ a = .acquire x.1 x.2 := by
        intro l x hx
        by_cases hl : l = i
        · subst hl
          rw [Function.update_self] at hx
          rcases mem_apply hx with hx | ha
          · exact .inl hx
          · exact .inr ⟨rfl, ha⟩
        · rw [Function.update_of_ne hl] at hx
          exact .inl hx
      rcases hheld j _ hj with hj' | ⟨rfl, ha⟩
      · rcases hheld k _ hk with hk' | ⟨rfl, ha⟩
        · exact h j k lock mode hj' hk'
        · exact absurd ⟨(lock, .exclusive), hj', rfl, .inr rfl⟩ (hfree lock mode ha j)
      · rcases hheld k _ hk with hk' | ⟨rfl, -⟩
        · exact absurd ⟨(lock, mode), hk', rfl, .inl rfl⟩ (hfree lock .exclusive ha k)
        · rfl

/-- In every state that is reached, the threads are in operations and exclude each other. -/
theorem inScripts_of_reached (hbalanced : Balanced script) {allowed : State ι κ → Event ι O → Prop}
    (h : Transition.Reached (step script) start allowed s) :
  InScripts script s ∧ Excludes s
  := by
  induction h with
  | start => exact ⟨fun _ => .inl rfl, fun _ _ _ _ hmem => nomatch hmem⟩
  | step _ _ hstep ih => exact ⟨ih.1.step hbalanced hstep, ih.2.step hstep⟩

end

end Locks
