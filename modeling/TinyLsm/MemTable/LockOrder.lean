import TinyLsm.Library.Deadlock

/-!
# The order of the locks of the memtable

A commit takes the lock of the frozen tables and then that of the current table.  `clear` and
`get_total_size` take them the other way around.  The threads are in a deadlock if and only if
one of them is between the two locks of a commit and another one between those of such a call.
-/

namespace TinyLsm

namespace MemTable

open Locks

inductive Mutex where
  | curMtx
  | frozenMtx
deriving DecidableEq

/-! ### The operations -/

def getCurSize : List (Action Mutex) :=
  [.acquire .curMtx .shared, .release .curMtx .shared]

def getFrozenSize : List (Action Mutex) :=
  [.acquire .frozenMtx .shared, .release .frozenMtx .shared]

/-- The order in which the operands of the sum are evaluated is not specified. -/
def getTotalSize (frozenFirst : Bool) : List (Action Mutex) :=
  [.acquire .curMtx .shared, .acquire .frozenMtx .shared] ++
    (if frozenFirst then getFrozenSize ++ getCurSize else getCurSize ++ getFrozenSize) ++
    [.release .frozenMtx .shared, .release .curMtx .shared]

def clear : List (Action Mutex) :=
  [.acquire .curMtx .exclusive, .acquire .frozenMtx .exclusive,
    .release .frozenMtx .exclusive, .release .curMtx .exclusive]

def flushLast : List (Action Mutex) :=
  [.acquire .frozenMtx .exclusive, .release .frozenMtx .exclusive]

/-- `TranContext::commit` at a level that buffers the writes. -/
def commit : List (Action Mutex) :=
  [.acquire .frozenMtx .exclusive, .acquire .curMtx .exclusive,
    .release .curMtx .exclusive, .release .frozenMtx .exclusive]

inductive Operation where
  | commit
  | getTotalSize (frozenFirst : Bool)
  | clear
  | flushLast
deriving DecidableEq

def Operation.script : Operation → List (Action Mutex)
  | commit => MemTable.commit
  | getTotalSize frozenFirst => MemTable.getTotalSize frozenFirst
  | clear => MemTable.clear
  | flushLast => MemTable.flushLast

/-! ### Between two locks -/

/-- The thread takes the first lock next, and then the second one. -/
def Starts (first second : Mutex) (t : Thread Mutex) : Prop :=
  match t.held, t.todo with
  | [], .acquire lock _ :: .acquire lock' _ :: _ => lock = first ∧ lock' = second
  | _, _ => False

/-- The thread holds the first lock only, and takes the second one next. -/
def Between (first second : Mutex) (t : Thread Mutex) : Prop :=
  match t.held, t.todo with
  | [(lock, _)], .acquire lock' _ :: _ => lock = first ∧ lock' = second
  | _, _ => False

instance (first second : Mutex) : DecidablePred (Starts first second)
  | ⟨[], .acquire lock _ :: .acquire lock' _ :: _⟩ =>
      inferInstanceAs (Decidable (lock = first ∧ lock' = second))
  | ⟨_ :: _, _⟩ | ⟨[], []⟩ | ⟨[], .release _ _ :: _⟩ | ⟨[], [.acquire _ _]⟩
  | ⟨[], .acquire _ _ :: .release _ _ :: _⟩ => .isFalse id

instance (first second : Mutex) : DecidablePred (Between first second)
  | ⟨[(lock, _)], .acquire lock' _ :: _⟩ =>
      inferInstanceAs (Decidable (lock = first ∧ lock' = second))
  | ⟨[], _⟩ | ⟨_ :: _ :: _, _⟩ | ⟨[_], []⟩ | ⟨[_], .release _ _ :: _⟩ => .isFalse id

/-- A commit takes its first lock while no other call is between its locks, and the other way
around. -/
def InOrder {ι : Type} (s : State ι Mutex) : Event ι Operation → Prop
  | .call _ _ => True
  | .act i =>
      (Starts .frozenMtx .curMtx (s i) → ∀ j, ¬ Between .curMtx .frozenMtx (s j)) ∧
        (Starts .curMtx .frozenMtx (s i) → ∀ j, ¬ Between .frozenMtx .curMtx (s j))

instance {ι : Type} [Fintype ι] (s : State ι Mutex) :
    DecidablePred (InOrder s)
  | .call _ _ => .isTrue trivial
  | .act _ => inferInstanceAs (Decidable (_ ∧ _))

/-! ### Positions in the operations -/

/-- The thread after its next action. -/
def afterNext (t : Thread Mutex) : Thread Mutex :=
  match t.todo with
  | [] => t
  | a :: todo => ⟨a.apply t.held, todo⟩

/-- What a thread that takes a lock holds. -/
def Takes (lock : Mutex) (mode : Mode) (t : Thread Mutex) : Prop :=
  t.held = [] ∨ Between .frozenMtx .curMtx t ∨ Between .curMtx .frozenMtx t ∨
    mode = .shared ∧ (lock, .shared) ∈ t.held

instance (lock : Mutex) (mode : Mode) (t : Thread Mutex) : Decidable (Takes lock mode t) :=
  inferInstanceAs (Decidable (_ ∨ _ ∨ _ ∨ _))

/-- A thread takes a lock that it does not share while it holds none, or one, between its
locks. -/
theorem takes_of_mem_positions (op : Operation) :
  ∀ t ∈ positions [] op.script, ∀ lock ∈ [Mutex.curMtx, .frozenMtx],
    ∀ mode ∈ [Mode.shared, .exclusive], t.todo.head? = some (.acquire lock mode) →
      Takes lock mode t
  := by
  cases op with
  | commit => decide
  | getTotalSize frozenFirst => cases frozenFirst <;> decide
  | clear => decide
  | flushLast => decide

/-- A thread comes between two locks by taking the first one. -/
theorem starts_of_mem_positions (op : Operation) :
  ∀ t ∈ positions [] op.script, ∀ first ∈ [Mutex.curMtx, .frozenMtx],
    ∀ second ∈ [Mutex.curMtx, .frozenMtx], Between first second (afterNext t) →
      t.todo = [] ∨ Starts first second t
  := by
  cases op with
  | commit => decide
  | getTotalSize frozenFirst => cases frozenFirst <;> decide
  | clear => decide
  | flushLast => decide

/-- Between the locks of a commit both of them are exclusive. -/
theorem exclusive_of_mem_positions (op : Operation) :
  ∀ t ∈ positions [] op.script, Between .frozenMtx .curMtx t →
    t.held = [(.frozenMtx, .exclusive)] ∧ t.todo.head? = some (.acquire .curMtx .exclusive)
  := by
  cases op with
  | commit => decide
  | getTotalSize frozenFirst => cases frozenFirst <;> decide
  | clear => decide
  | flushLast => decide

theorem balanced_script : Balanced Operation.script
  := by
  intro op
  cases op with
  | commit => decide
  | getTotalSize frozenFirst => cases frozenFirst <;> decide
  | clear => decide
  | flushLast => decide

theorem Between.eq {first second : Mutex} {t : Thread Mutex} (h : Between first second t) :
  ∃ mode mode' todo, t = ⟨[(first, mode)], .acquire second mode' :: todo⟩
  := by
  obtain ⟨held, todo⟩ := t
  rw [Between] at h
  split at h
  next lock mode lock' mode' todo hheld htodo =>
    obtain ⟨rfl, rfl⟩ := h
    cases hheld
    cases htodo
    exact ⟨mode, mode', todo, rfl⟩
  next => cases h

theorem Starts.eq {first second : Mutex} {t : Thread Mutex} (h : Starts first second t) :
  ∃ mode mode' todo, t = ⟨[], .acquire first mode :: .acquire second mode' :: todo⟩
  := by
  obtain ⟨held, todo⟩ := t
  rw [Starts] at h
  split at h
  next lock mode lock' mode' todo hheld htodo =>
    obtain ⟨rfl, rfl⟩ := h
    cases hheld
    cases htodo
    exact ⟨mode, mode', todo, rfl⟩
  next => cases h

theorem Between.fst_eq {first second : Mutex} {t : Thread Mutex} (h : Between first second t)
    {lock : Mutex} {mode : Mode} (hmem : (lock, mode) ∈ t.held) :
  lock = first
  := by
  obtain ⟨mode', _, _, rfl⟩ := h.eq
  cases List.mem_singleton.mp hmem
  rfl

/-- No thread is at two different pairs of locks. -/
theorem Between.first_unique {first second first' second' : Mutex} {t : Thread Mutex}
    (h : Between first second t) (h' : Between first' second' t) :
  first = first'
  := by
  obtain ⟨mode, _, _, rfl⟩ := h.eq
  exact h'.fst_eq (List.mem_singleton_self (first, mode))

/-! ### Deadlocks -/

variable {ι : Type} {s s' : State ι Mutex}

/-- A commit is between its locks, and a call that takes them the other way around is too. -/
def Crossed (s : State ι Mutex) : Prop :=
  (∃ i, Between .frozenMtx .curMtx (s i)) ∧ ∃ j, Between .curMtx .frozenMtx (s j)

/-- A thread that waits for another one, and holds a lock, is between two locks. -/
theorem between_of_waits (hscripts : InScripts Operation.script s) (hexcl : Excludes s) {i j : ι}
    (hne : j ≠ i) (hwaits : Waits s i j) (hheld : (s i).held ≠ []) :
  Between .frozenMtx .curMtx (s i) ∨ Between .curMtx .frozenMtx (s i)
  := by
  obtain ⟨lock, mode, todo, htodo, ⟨lock', mode'⟩, hmem, rfl, hmode⟩ := hwaits
  rcases hscripts i with hidle | ⟨op, hpos⟩
  · rw [hidle] at htodo
    cases htodo
  · have hhead : (s i).todo.head? = some (.acquire lock' mode) := by rw [htodo, List.head?_cons]
    have hlock : lock' ∈ [Mutex.curMtx, .frozenMtx] := by cases lock' <;> decide
    have hmodes : mode ∈ [Mode.shared, .exclusive] := by cases mode <;> decide
    rcases takes_of_mem_positions op _ hpos lock' hlock mode hmodes hhead with
      hnone | hcommit | hother | ⟨rfl, hshared⟩
    · exact absurd hnone hheld
    · exact .inl hcommit
    · exact .inr hother
    · rcases hmode with hmode | rfl
      · cases hmode
      · exact absurd (hexcl j i lock' .shared hmem hshared) hne

/-- A thread between two locks waits for one that holds the second lock. -/
theorem Between.mem_held_of_waits {first second : Mutex} {i j : ι}
    (h : Between first second (s i)) (hwaits : Waits s i j) :
  ∃ mode, (second, mode) ∈ (s j).held
  := by
  obtain ⟨mode, mode', rest, heq⟩ := h.eq
  obtain ⟨lock, _, _, htodo, ⟨lock', held⟩, hmem, rfl, -⟩ := hwaits
  rw [heq] at htodo
  cases htodo
  exact ⟨held, hmem⟩

/-- Some threads are in a deadlock if and only if two threads have crossed. -/
theorem deadlocked_iff_crossed (hscripts : InScripts Operation.script s) (hexcl : Excludes s) :
  (∃ threads, Deadlocked s threads) ↔ Crossed s
  := by
  constructor
  · rintro ⟨threads, ⟨i, hi⟩, hwaits⟩
    -- Whoever is waited for holds a lock, and so it is between two locks itself.
    have hbetween : ∀ j ∈ threads, (s j).held ≠ [] →
        Between .frozenMtx .curMtx (s j) ∨ Between .curMtx .frozenMtx (s j) := by
      intro j hj hheld
      obtain ⟨k, -, hne, hjk⟩ := hwaits j hj
      apply between_of_waits hscripts hexcl hne hjk hheld
    have hother : ∀ {first second : Mutex}, first ≠ second → ∀ j ∈ threads,
        Between first second (s j) → ∃ k ∈ threads, ¬ Between first second (s k) ∧
          (Between .frozenMtx .curMtx (s k) ∨ Between .curMtx .frozenMtx (s k)) := by
      intro first second hlocks j hj hjb
      obtain ⟨k, hk, -, hjk⟩ := hwaits j hj
      obtain ⟨mode, hmem⟩ := hjb.mem_held_of_waits hjk
      refine ⟨k, hk, fun hkb => hlocks (hkb.fst_eq hmem).symm, hbetween k hk ?_⟩
      exact List.ne_nil_of_mem hmem
    obtain ⟨j, hj, -, _, _, _, -, h, hmem, -⟩ := hwaits i hi
    rcases hbetween j hj (List.ne_nil_of_mem hmem) with hj' | hj'
    · obtain ⟨k, -, hnot, hk⟩ := hother (by decide) j hj hj'
      exact ⟨⟨j, hj'⟩, ⟨k, hk.resolve_left hnot⟩⟩
    · obtain ⟨k, -, hnot, hk⟩ := hother (by decide) j hj hj'
      exact ⟨⟨k, hk.resolve_right hnot⟩, ⟨j, hj'⟩⟩
  · rintro ⟨⟨i, hi⟩, ⟨j, hj⟩⟩
    have hcommit : (s i).held = [(.frozenMtx, .exclusive)] ∧
        (s i).todo.head? = some (.acquire .curMtx .exclusive) := by
      rcases hscripts i with hidle | ⟨op, hpos⟩
      · rw [hidle] at hi
        cases hi
      · exact exclusive_of_mem_positions op _ hpos hi
    obtain ⟨mode, _, rest, heq⟩ := hi.eq
    obtain ⟨mode', mode'', rest', heq'⟩ := hj.eq
    rw [heq] at hcommit
    obtain ⟨hheld, htodo⟩ := hcommit
    cases hheld
    cases htodo
    have hne : j ≠ i := by
      rintro rfl
      cases hi.first_unique hj
    refine ⟨{i, j}, ⟨i, Set.mem_insert _ _⟩, ?_⟩
    rintro k (rfl | rfl)
    · refine ⟨j, Set.mem_insert_of_mem _ rfl, hne, .curMtx, .exclusive, rest, ?_, ?_⟩
      · rw [heq]
      · refine ⟨(.curMtx, mode'), ?_, rfl, .inl rfl⟩
        rw [heq']
        exact List.mem_singleton_self _
    · refine ⟨i, Set.mem_insert _ _, hne.symm, .frozenMtx, mode'', rest', ?_, ?_⟩
      · rw [heq']
      · refine ⟨(.frozenMtx, .exclusive), ?_, rfl, .inr rfl⟩
        rw [heq]
        exact List.mem_singleton_self _

variable [Fintype ι] [DecidableEq ι]

/-- A thread that comes between two locks by a step has been at the first of them. -/
theorem starts_of_step (hscripts : InScripts Operation.script s) {e : Event ι Operation}
    (hstep : step Operation.script s e = some s') {first second : Mutex} {i : ι}
    (h : Between first second (s' i)) :
  Between first second (s i) ∨ e = .act i ∧ Starts first second (s i)
  := by
  have hmem : ∀ lock : Mutex, lock ∈ [Mutex.curMtx, .frozenMtx] := by
    intro lock
    cases lock <;> decide
  cases e with
  | call j op =>
      obtain ⟨htodo, rfl⟩ := step_call hstep
      by_cases hi : i = j
      · subst hi
        rw [Function.update_self] at h
        have hheld : (s i).held = [] := by
          rcases hscripts i with hidle | ⟨op', hpos⟩
          · rw [hidle]
          · exact balanced_script op' _ hpos htodo
        obtain ⟨_, _, _, heq⟩ := h.eq
        rw [hheld] at heq
        cases heq
      · rw [Function.update_of_ne hi] at h
        exact .inl h
  | act j =>
      obtain ⟨a, todo, htodo, rfl, -⟩ := step_act hstep
      by_cases hi : i = j
      · subst hi
        rw [Function.update_self] at h
        have hnext : afterNext (s i) = ⟨a.apply (s i).held, todo⟩ := by rw [afterNext, htodo]
        rcases hscripts i with hidle | ⟨op, hpos⟩
        · rw [hidle] at htodo
          cases htodo
        · rw [← hnext] at h
          rcases starts_of_mem_positions op _ hpos _ (hmem _) _ (hmem _) h with hnil | hstarts
          · rw [hnil] at htodo
            cases htodo
          · exact .inr ⟨rfl, hstarts⟩
      · rw [Function.update_of_ne hi] at h
        exact .inl h

/-- A thread between two locks stays there while another thread does its next action. -/
theorem Between.of_act {first second : Mutex} {i j : ι} (h : Between first second (s j))
    (hi : j ≠ i) (hstep : step Operation.script s (.act i) = some s') :
  Between first second (s' j)
  := by
  obtain ⟨a, todo, -, rfl, -⟩ := step_act hstep
  rw [Function.update_of_ne hi]
  exact h

/-- A thread is between two locks after it has taken the first one. -/
theorem Starts.between {first second : Mutex} {i : ι} (h : Starts first second (s i))
    (hstep : step Operation.script s (.act i) = some s') :
  Between first second (s' i)
  := by
  obtain ⟨a, todo, htodo, rfl, -⟩ := step_act hstep
  obtain ⟨mode, mode', rest, heq⟩ := h.eq
  rw [heq] at htodo
  cases htodo
  rw [Function.update_self, heq]
  exact ⟨rfl, rfl⟩

theorem Starts.not_between {first second first' second' : Mutex} {t : Thread Mutex}
    (h : Starts first second t) :
  ¬ Between first' second' t
  := by
  intro h'
  obtain ⟨_, _, _, rfl⟩ := h.eq
  exact h'

/-- A step crosses two threads if and only if it is not in order. -/
theorem crossed_iff_of_step (hscripts : InScripts Operation.script s) (hcrossed : ¬ Crossed s)
    {e : Event ι Operation} (hstep : step Operation.script s e = some s') :
  Crossed s' ↔ ¬ InOrder s e
  := by
  constructor
  · rintro ⟨⟨i, hi⟩, ⟨j, hj⟩⟩
    rcases starts_of_step hscripts hstep hi with hi' | ⟨rfl, hi'⟩
    · rcases starts_of_step hscripts hstep hj with hj' | ⟨rfl, hj'⟩
      · exact absurd ⟨⟨i, hi'⟩, ⟨j, hj'⟩⟩ hcrossed
      · exact fun horder => horder.2 hj' i hi'
    · rcases starts_of_step hscripts hstep hj with hj' | ⟨heq, -⟩
      · exact fun horder => horder.1 hi' j hj'
      · cases heq
        cases hi.first_unique hj
  · intro horder
    cases e with
    | call i op => exact absurd trivial horder
    | act i =>
        rcases not_and_or.mp horder with h | h
        · obtain ⟨hi, h⟩ := Classical.not_imp.mp h
          obtain ⟨j, hj⟩ := not_forall_not.mp h
          refine ⟨⟨i, hi.between hstep⟩, ⟨j, hj.of_act ?_ hstep⟩⟩
          rintro rfl
          exact hi.not_between hj
        · obtain ⟨hi, h⟩ := Classical.not_imp.mp h
          obtain ⟨j, hj⟩ := not_forall_not.mp h
          refine ⟨⟨j, hj.of_act ?_ hstep⟩, ⟨i, hi.between hstep⟩⟩
          rintro rfl
          exact hi.not_between hj

/-- While all steps are in order no threads have crossed. -/
theorem not_crossed_of_reached
    (h : Transition.Reached (step Operation.script) start InOrder s) :
  ¬ Crossed s
  := by
  induction h with
  | start => exact fun hcrossed => hcrossed.1.elim fun _ hi => hi
  | step hs horder hstep ih =>
      intro hcrossed
      have hscripts := (inScripts_of_reached balanced_script hs).1
      exact (crossed_iff_of_step hscripts ih hstep).mp hcrossed horder

/-- After steps that are all in order no threads are in a deadlock, and the next step leads to one
if and only if it is not in order. -/
theorem deadlock_iff (h : Transition.Reached (step Operation.script) start InOrder s) :
  (¬ ∃ threads, Deadlocked s threads) ∧
    ∀ e s', step Operation.script s e = some s' →
      ((∃ threads, Deadlocked s' threads) ↔ ¬ InOrder s e)
  := by
  obtain ⟨hscripts, hexcl⟩ := inScripts_of_reached balanced_script h
  have hcrossed := not_crossed_of_reached h
  constructor
  · rw [deadlocked_iff_crossed hscripts hexcl]
    apply hcrossed
  · intro e s' hstep
    rw [deadlocked_iff_crossed (hscripts.step balanced_script hstep) (hexcl.step hstep)]
    apply crossed_iff_of_step hscripts hcrossed hstep

/-- A commit has taken its first lock, and `clear` goes on to take its own. -/
theorem deadlock_iff_commit_clear :
  ∃ s s' : State (Fin 2) Mutex, step Operation.script s (.act 1) = some s' ∧
    (¬ ∃ threads, Deadlocked s threads) ∧ ∃ threads, Deadlocked s' threads
  := by
  have hcommit : Transition.Reached (step Operation.script) (start : State (Fin 2) Mutex)
      InOrder _ := .step (a := .call 0 .commit) .start trivial rfl
  have hclear := hcommit.step (a := .call 1 .clear) (by trivial) rfl
  have hfrozen := hclear.step (a := .act 0) (by decide) rfl
  refine ⟨_, _, rfl, (deadlock_iff hfrozen).1, ((deadlock_iff hfrozen).2 (.act 1) _ rfl).mpr ?_⟩
  decide

/-- A commit and `clear` that take their first locks one after the other wait for each other. -/
theorem not_deadlock_free :
  ¬ ∀ (n : ℕ) (s : State (Fin n) Mutex),
      Transition.Reached (step Operation.script) start (fun _ _ => True) s →
        ¬ ∃ threads, Deadlocked s threads
  := by
  intro h
  have hcommit : Transition.Reached (step Operation.script) (start : State (Fin 2) Mutex)
      (fun _ _ => True) _ := .step (a := .call 0 .commit) .start trivial rfl
  have hclear := hcommit.step (a := .call 1 .clear) (by trivial) rfl
  have hfrozen := hclear.step (a := .act 0) (by trivial) rfl
  have hcur := hfrozen.step (a := .act 1) (by trivial) rfl
  apply h 2 _ hcur
  refine ⟨Set.univ, Set.univ_nonempty, ?_⟩
  intro i _
  match i with
  | 0 => exact ⟨1, trivial, by decide, .curMtx, .exclusive, _, rfl, by decide⟩
  | 1 => exact ⟨0, trivial, by decide, .frozenMtx, .exclusive, _, rfl, by decide⟩

end MemTable

end TinyLsm
