import Mathlib.Data.Fintype.Basic
import Mathlib.Data.List.Nodup
import TinyLsm.Library.Locking
import TinyLsm.Library.Transition

/-!
# Programs that run interleaved

Each thread runs its program, one call at a time, and takes a lock that several may share or one
alone may hold.  A thread begins with a check, which only makes queries and shares the lock, and
then makes changes.  If what the check has found is still so when the changes begin, and no
others come in between that touch the same places, the threads leave what they would leave if
they ran one after another, in the order in which they end.
-/

namespace Program

variable {C : Type} {Answer : C → Type} {ε α σ : Type}

/-- A program that makes no more calls and takes no lock. -/
def Finished : Program C Answer ε α → Prop
  | done _ => True
  | unlock next => next.Finished
  | call _ _ | lock _ _ => False

instance : ∀ p : Program C Answer ε α, Decidable p.Finished
  | done _ => .isTrue trivial
  | unlock next => instDecidableFinished next
  | call _ _ | lock _ _ => .isFalse id

/-- The next step of a program is its end, or a call that is not made with the lock shared. -/
def AtChange (held : Option LockMode) : Program C Answer ε α → Prop
  | done _ => True
  | call _ _ => held ≠ some .shared
  | lock _ _ | unlock _ => False

instance (held : Option LockMode) : ∀ p : Program C Answer ε α, Decidable (p.AtChange held)
  | done _ => .isTrue trivial
  | call _ _ => inferInstanceAs (Decidable (held ≠ some .shared))
  | lock _ _ | unlock _ => .isFalse id

/-- With the lock shared the program only makes queries, and what it comes to then is of a kind. -/
def ArrivesAt (query : C → Prop) (possible : (c : C) → Answer c → Prop)
    (T : Option LockMode → Program C Answer ε α → Prop) :
    Option LockMode → Program C Answer ε α → Prop
  | held, done result => T held (done result)
  | some .shared, call c next =>
      query c ∧ ∀ a, possible c a → (next a).ArrivesAt query possible T (some .shared)
  | held, call c next => T held (call c next)
  | _, lock mode next => next.ArrivesAt query possible T (some mode)
  | _, unlock next => next.ArrivesAt query possible T none

theorem run_of_finished {answer : (c : C) → σ → Answer c × σ} :
  ∀ {p : Program C Answer ε α}, p.Finished → ∀ s, (p.run answer s).2 = s
  | done _, _, _ => rfl
  | unlock next, h, s => run_of_finished (p := next) h s

theorem arrivesAt_of_atChange {query : C → Prop} {possible : (c : C) → Answer c → Prop}
    {T : Option LockMode → Program C Answer ε α → Prop} {held : Option LockMode}
    {p : Program C Answer ε α} (h : T held p) (hchange : p.AtChange held) :
  p.ArrivesAt query possible T held
  := by
  cases p with
  | done result =>
      rw [ArrivesAt.eq_def]
      exact h
  | call c next =>
      match held, hchange with
      | some .shared, hchange => exact absurd rfl hchange
      | some .exclusive, _ => exact h
      | some .upgraded, _ => exact h
      | none, _ => exact h
  | lock mode next => cases hchange
  | unlock next => cases hchange

theorem ArrivesAt.of_atChange {query : C → Prop} {possible : (c : C) → Answer c → Prop}
    {T : Option LockMode → Program C Answer ε α → Prop} {held : Option LockMode}
    {p : Program C Answer ε α} (h : p.ArrivesAt query possible T held) (hchange : p.AtChange held) :
  T held p
  := by
  cases p with
  | done result =>
      rw [ArrivesAt.eq_def] at h
      exact h
  | call c next =>
      match held, hchange with
      | some .shared, hchange => exact absurd rfl hchange
      | some .exclusive, _ => exact h
      | some .upgraded, _ => exact h
      | none, _ => exact h
  | lock mode next => cases hchange
  | unlock next => cases hchange

end Program

/-- Threads that run programs, where a thread touches only the places that it owns.  When a thread
is about to begin its changes, it is ready if the rest of its program does the same as the
program from the beginning. -/
structure Threads (ι C : Type) (Answer : C → Type) (ε α σ X V : Type) where
  program : ι → Program C Answer ε α
  answer : ι → (c : C) → σ → Answer c × σ
  view : σ → X → V
  own : ι → X → Prop
  within : ι → C → Prop
  query : C → Prop
  possible : (c : C) → Answer c → Prop
  arrives : ι → Option LockMode → Program C Answer ε α → Prop
  ready : ι → Option LockMode → σ → Prop
  eq_of_view : ∀ {s t}, (∀ x, view s x = view t x) → s = t
  possible_answer : ∀ i c s, possible c (answer i c s).1
  answer_query : ∀ {i c}, query c → ∀ s, (answer i c s).2 = s
  view_answer : ∀ {i c}, within i c → ∀ s {x}, ¬ own i x → view (answer i c s).2 x = view s x
  answer_congr : ∀ {i c}, within i c → ∀ {s t}, (∀ x, own i x → view s x = view t x) →
    (answer i c s).1 = (answer i c t).1 ∧
      ∀ x, own i x → view (answer i c s).2 x = view (answer i c t).2 x
  program_within : ∀ i, (program i).AllCalls (within i) possible
  program_arrives : ∀ i, (program i).ArrivesAt query possible (arrives i) none
  run_of_ready : ∀ {i held p s}, arrives i held p → ready i held s →
    (p.run (answer i) s).2 = ((program i).run (answer i) s).2

namespace Threads

variable {ι C : Type} {Answer : C → Type} {ε α σ X V : Type}

/-- The lock is held alone. -/
def Alone : Option LockMode → Prop
  | some .exclusive | some .upgraded => True
  | some .shared | none => False

/-- The store, and for each thread the rest of its program, how it holds the lock, and whether it
has begun its changes or is done without any. -/
structure State (ι C : Type) (Answer : C → Type) (ε α σ : Type) where
  store : σ
  rest : ι → Program C Answer ε α
  held : ι → Option LockMode
  begun : ι → Bool

namespace State

variable [DecidableEq ι]

/-- The state after a step of a thread. -/
def set (s : State ι C Answer ε α σ) (i : ι) (p : Program C Answer ε α) (held : Option LockMode)
    (begun : Bool) (store : σ) : State ι C Answer ε α σ where
  store := store
  rest := Function.update s.rest i p
  held := Function.update s.held i held
  begun := Function.update s.begun i begun

section

variable (s : State ι C Answer ε α σ) (i : ι) {j : ι} (p : Program C Answer ε α)
  (held : Option LockMode) (begun : Bool) (store : σ)

@[simp]
theorem set_store : (s.set i p held begun store).store = store
  := rfl

@[simp]
theorem set_rest_self : (s.set i p held begun store).rest i = p
  := Function.update_self _ _ _

@[simp]
theorem set_held_self : (s.set i p held begun store).held i = held
  := Function.update_self _ _ _

@[simp]
theorem set_begun_self : (s.set i p held begun store).begun i = begun
  := Function.update_self _ _ _

theorem set_rest_of_ne (h : j ≠ i) : (s.set i p held begun store).rest j = s.rest j
  := Function.update_of_ne h _ _

theorem set_held_of_ne (h : j ≠ i) : (s.set i p held begun store).held j = s.held j
  := Function.update_of_ne h _ _

theorem set_begun_of_ne (h : j ≠ i) : (s.set i p held begun store).begun j = s.begun j
  := Function.update_of_ne h _ _

end

/-- The others hold the lock in such a way that the thread can take it in a mode. -/
def Free (s : State ι C Answer ε α σ) (i : ι) : LockMode → Prop
  | .shared => ∀ j, j ≠ i → ¬ Alone (s.held j)
  | .exclusive | .upgraded => ∀ j, j ≠ i → s.held j = none

instance : DecidablePred Alone
  | some .exclusive | some .upgraded => .isTrue trivial
  | some .shared | none => .isFalse id

instance [Fintype ι] (s : State ι C Answer ε α σ) (i : ι) : DecidablePred (s.Free i)
  | .shared => inferInstanceAs (Decidable (∀ j, j ≠ i → ¬ Alone (s.held j)))
  | .exclusive | .upgraded => inferInstanceAs (Decidable (∀ j, j ≠ i → s.held j = none))

omit [DecidableEq ι] in
/-- The thread has begun its changes, and there are more calls to come. -/
def InProgress (s : State ι C Answer ε α σ) (i : ι) : Prop :=
  s.begun i = true ∧ ¬ (s.rest i).Finished

omit [DecidableEq ι] in
/-- The thread has made all its calls. -/
def Served (s : State ι C Answer ε α σ) (i : ι) : Prop :=
  s.begun i = true ∧ (s.rest i).Finished

omit [DecidableEq ι] in
/-- All threads have made all their calls. -/
def Over (s : State ι C Answer ε α σ) : Prop := ∀ i, s.Served i

omit [DecidableEq ι] in
instance (s : State ι C Answer ε α σ) (i : ι) : Decidable (s.InProgress i) :=
  inferInstanceAs (Decidable (s.begun i = true ∧ ¬ (s.rest i).Finished))

omit [DecidableEq ι] in
instance (s : State ι C Answer ε α σ) (i : ι) : Decidable (s.Served i) :=
  inferInstanceAs (Decidable (s.begun i = true ∧ (s.rest i).Finished))

omit [DecidableEq ι] in
instance [Fintype ι] (s : State ι C Answer ε α σ) : Decidable s.Over :=
  inferInstanceAs (Decidable (∀ i, s.Served i))

end State

variable (T : Threads ι C Answer ε α σ X V)

/-- No thread has begun. -/
def start (store : σ) : State ι C Answer ε α σ :=
  ⟨store, T.program, fun _ => none, fun _ => false⟩

/-- The next step of a thread, if the lock lets it. -/
def step [Fintype ι] [DecidableEq ι] (s : State ι C Answer ε α σ) (i : ι) :
    Option (State ι C Answer ε α σ) :=
  match s.rest i with
  | .done result => some (s.set i (.done result) none true s.store)
  | .call c next =>
      let outcome := T.answer i c s.store
      some (s.set i (next outcome.1) (s.held i) (s.begun i || decide (s.held i ≠ some .shared))
        outcome.2)
  | .lock mode next =>
      if s.Free i mode then some (s.set i next (some mode) (s.begun i) s.store) else none
  | .unlock next => some (s.set i next none (s.begun i) s.store)

/-- A thread begins its changes when it is ready, and while no other thread is in progress, unless
it is one that has released the lock and owns other places. -/
def Orderly (s : State ι C Answer ε α σ) (i : ι) : Prop :=
  s.begun i = false → (s.rest i).AtChange (s.held i) →
    T.ready i (s.held i) s.store ∧
      ∀ j, j ≠ i → s.InProgress j → (s.held j = none ∨ ¬ Alone (s.held i)) →
        ∀ x, T.own i x → ¬ T.own j x

/-- What a thread leaves when it runs on its own. -/
def exec (i : ι) (store : σ) : σ := ((T.program i).run (T.answer i) store).2

/-- What threads leave when they run one after another. -/
def serial (order : List ι) (store : σ) : σ := order.foldl (fun store i => T.exec i store) store

/-! ### What a thread touches -/

section

variable {T} {i : ι} {p : Program C Answer ε α}

theorem view_run (hp : p.AllCalls (T.within i) T.possible) (s : σ) {x : X} (hx : ¬ T.own i x) :
  T.view (p.run (T.answer i) s).2 x = T.view s x
  := by
  apply Program.AllCalls.run_keeps (T.possible_answer i) (I := fun t => T.view t x = T.view s x) _
    hp rfl
  intro c hc t ht
  rw [T.view_answer hc t hx, ht]

theorem run_congr (hp : p.AllCalls (T.within i) T.possible) {s t : σ}
    (h : ∀ x, T.own i x → T.view s x = T.view t x) {x : X} (hx : T.own i x) :
  T.view (p.run (T.answer i) s).2 x = T.view (p.run (T.answer i) t).2 x
  := by
  have hsame := Program.AllCalls.run_congr (T.possible_answer i)
    (R := fun s t => ∀ x, T.own i x → T.view s x = T.view t x)
    (fun c hc s t hst => T.answer_congr hc hst) hp h
  apply hsame.2 x hx

end

/-! ### The lock -/

variable {T} [DecidableEq ι]

/-- While one thread holds the lock alone, no other holds it. -/
def Mutex (s : State ι C Answer ε α σ) : Prop :=
  ∀ i j, i ≠ j → Alone (s.held i) → s.held j = none

theorem Mutex.set {s : State ι C Answer ε α σ} (h : Mutex s) {i : ι} {held : Option LockMode}
    (hself : Alone held → ∀ j, j ≠ i → s.held j = none)
    (hother : ∀ j, j ≠ i → Alone (s.held j) → held = none)
    (p : Program C Answer ε α) (begun : Bool) (store : σ) :
  Mutex (s.set i p held begun store)
  := by
  intro j k hne halone
  by_cases hj : j = i
  · subst hj
    rw [State.set_held_self] at halone
    rw [State.set_held_of_ne _ _ _ _ _ _ hne.symm]
    apply hself halone k hne.symm
  · rw [State.set_held_of_ne _ _ _ _ _ _ hj] at halone
    by_cases hk : k = i
    · subst hk
      rw [State.set_held_self]
      apply hother j hj halone
    · rw [State.set_held_of_ne _ _ _ _ _ _ hk]
      apply h j k hne halone

theorem Mutex.step [Fintype ι] {s s' : State ι C Answer ε α σ} {i : ι} (h : Mutex s)
    (hstep : T.step s i = some s') :
  Mutex s'
  := by
  rw [Threads.step] at hstep
  split at hstep
  next =>
    obtain rfl := Option.some.inj hstep
    exact h.set (fun halone => absurd halone id) (fun _ _ _ => rfl) _ _ _
  next =>
    obtain rfl := Option.some.inj hstep
    exact h.set (fun halone j hj => h i j hj.symm halone) (fun j hj halone => h j i hj halone) _ _ _
  next mode next _ =>
    split at hstep
    next hfree =>
      obtain rfl := Option.some.inj hstep
      apply h.set
      · intro halone j hj
        cases mode with
        | shared => cases halone
        | exclusive => apply hfree j hj
        | upgraded => apply hfree j hj
      · intro j hj halone
        cases mode with
        | shared => exact absurd halone (hfree j hj)
        | exclusive =>
            rw [hfree j hj] at halone
            cases halone
        | upgraded =>
            rw [hfree j hj] at halone
            cases halone
    next => cases hstep
  next =>
    obtain rfl := Option.some.inj hstep
    exact h.set (fun halone => absurd halone id) (fun _ _ _ => rfl) _ _ _

/-! ### The programs -/

/-- What is left of the programs touches what the threads own, and comes to changes as it should. -/
structure Proper (T : Threads ι C Answer ε α σ X V) (s : State ι C Answer ε α σ) : Prop where
  within : ∀ i, (s.rest i).AllCalls (T.within i) T.possible
  arrives : ∀ i, s.begun i = false →
    (s.rest i).ArrivesAt T.query T.possible (T.arrives i) (s.held i)

theorem Proper.set {s : State ι C Answer ε α σ} (h : Proper T s) {i : ι}
    {p : Program C Answer ε α} {held : Option LockMode} {begun : Bool}
    (hwithin : p.AllCalls (T.within i) T.possible)
    (harrives : begun = false → p.ArrivesAt T.query T.possible (T.arrives i) held) (store : σ) :
  Proper T (s.set i p held begun store)
  := by
  constructor
  · intro j
    by_cases hj : j = i
    · subst hj
      rwa [State.set_rest_self]
    · rw [State.set_rest_of_ne _ _ _ _ _ _ hj]
      apply h.within
  · intro j hbegun
    by_cases hj : j = i
    · subst hj
      rw [State.set_begun_self] at hbegun
      rw [State.set_rest_self, State.set_held_self]
      apply harrives hbegun
    · rw [State.set_begun_of_ne _ _ _ _ _ _ hj] at hbegun
      rw [State.set_rest_of_ne _ _ _ _ _ _ hj, State.set_held_of_ne _ _ _ _ _ _ hj]
      apply h.arrives j hbegun

/-- Steps before the changes, and those of others, leave the programs proper. -/
theorem Proper.step [Fintype ι] {s s' : State ι C Answer ε α σ} {i : ι} (h : Proper T s)
    (hstep : T.step s i = some s') :
  Proper T s'
  := by
  have hwithin := h.within i
  have harrives := h.arrives i
  rw [Threads.step] at hstep
  split at hstep
  next result heq =>
    obtain rfl := Option.some.inj hstep
    apply h.set (p := .done result) trivial
    exact nofun
  next c next heq =>
    obtain rfl := Option.some.inj hstep
    rw [heq] at hwithin harrives
    have hpossible := T.possible_answer i c s.store
    apply h.set (hwithin.2 _ hpossible)
    intro hbegun
    obtain ⟨hbegun, hheld⟩ := Bool.or_eq_false_iff.mp hbegun
    have hshared : s.held i = some .shared := by simpa using hheld
    have hcheck := harrives hbegun
    rw [hshared] at hcheck ⊢
    exact hcheck.2 _ hpossible
  next mode next heq =>
    rw [heq] at hwithin harrives
    split at hstep
    next =>
      obtain rfl := Option.some.inj hstep
      apply h.set (p := next) hwithin
      intro hbegun
      have hcheck := harrives hbegun
      rwa [Program.ArrivesAt.eq_def] at hcheck
    next => cases hstep
  next next heq =>
    obtain rfl := Option.some.inj hstep
    rw [heq] at hwithin harrives
    apply h.set (p := next) hwithin
    intro hbegun
    have hcheck := harrives hbegun
    rwa [Program.ArrivesAt.eq_def] at hcheck

/-! ### The order -/

/-- The store is what the threads leave that have made all their calls, one after another, up to
the places of the threads that are in progress: what those leave there is what they would leave
after the others. -/
structure Serial (T : Threads ι C Answer ε α σ X V) (store : σ) (s : State ι C Answer ε α σ)
    (order : List ι) : Prop where
  nodup : order.Nodup
  mem : ∀ i, i ∈ order ↔ s.Served i
  apart : ∀ i j, i ≠ j → s.InProgress i → s.InProgress j → ∀ x, T.own i x → ¬ T.own j x
  view : ∀ x, (∀ i, s.InProgress i → ¬ T.own i x) → T.view (T.serial order store) x = T.view s.store x
  run : ∀ i, s.InProgress i → ∀ x, T.own i x →
    T.view (T.exec i (T.serial order store)) x =
      T.view ((s.rest i).run (T.answer i) s.store).2 x

omit [DecidableEq ι] in
theorem serial_append (order : List ι) (i : ι) (store : σ) :
  T.serial (order ++ [i]) store = T.exec i (T.serial order store)
  := by
  rw [serial, List.foldl_append]
  rfl

section

variable {s : State ι C Answer ε α σ} {i : ι} {p : Program C Answer ε α} {held : Option LockMode}
  {begun : Bool} {t : σ}

theorem inProgress_set_of_ne {j : ι} (hj : j ≠ i) :
  (s.set i p held begun t).InProgress j ↔ s.InProgress j
  := by
  rw [State.InProgress, State.set_begun_of_ne _ _ _ _ _ _ hj, State.set_rest_of_ne _ _ _ _ _ _ hj,
    State.InProgress]

theorem served_set_of_ne {j : ι} (hj : j ≠ i) :
  (s.set i p held begun t).Served j ↔ s.Served j
  := by
  rw [State.Served, State.set_begun_of_ne _ _ _ _ _ _ hj, State.set_rest_of_ne _ _ _ _ _ _ hj,
    State.Served]

theorem inProgress_set_self :
  (s.set i p held begun t).InProgress i ↔ begun = true ∧ ¬ p.Finished
  := by
  rw [State.InProgress, State.set_begun_self, State.set_rest_self]

theorem served_set_self :
  (s.set i p held begun t).Served i ↔ begun = true ∧ p.Finished
  := by
  rw [State.Served, State.set_begun_self, State.set_rest_self]

end

section

variable {store : σ} {s : State ι C Answer ε α σ} {order : List ι} {i : ι}
  {p : Program C Answer ε α} {held : Option LockMode} {t : σ}

/-- A thread that is not in progress and does not come to be so leaves everything as it is. -/
theorem Serial.idle {begun : Bool} (h : Serial T store s order)
    (hprogress : ¬ s.InProgress i) (hbegun : begun = s.begun i)
    (hfinished : begun = true → (p.Finished ↔ (s.rest i).Finished)) :
  Serial T store (s.set i p held begun s.store) order
  := by
  have hprogress' : ¬ (s.set i p held begun s.store).InProgress i := by
    rw [inProgress_set_self]
    rintro ⟨htrue, hnot⟩
    exact hprogress ⟨hbegun.symm.trans htrue, fun h => hnot ((hfinished htrue).mpr h)⟩
  have hsame : ∀ j, (s.set i p held begun s.store).InProgress j ↔ s.InProgress j := by
    intro j
    by_cases hj : j = i
    · subst hj
      exact iff_of_false hprogress' hprogress
    · exact inProgress_set_of_ne hj
  constructor
  · apply h.nodup
  · intro j
    rw [h.mem]
    by_cases hj : j = i
    · subst hj
      rw [served_set_self, State.Served, ← hbegun]
      exact and_congr_right (fun htrue => (hfinished htrue).symm)
    · exact (served_set_of_ne hj).symm
  · intro j k hne hj hk
    apply h.apart j k hne ((hsame j).mp hj) ((hsame k).mp hk)
  · intro x hx
    apply h.view x
    exact fun j hj => hx j ((hsame j).mpr hj)
  · intro j hj x hx
    have hne : j ≠ i := by
      rintro rfl
      exact hprogress' hj
    rw [State.set_rest_of_ne _ _ _ _ _ _ hne]
    apply h.run j ((hsame j).mp hj) x hx

/-- A thread goes on in its own places, where what it leaves in the end is what it would leave
after the threads that have made all their calls. -/
theorem Serial.advance (h : Serial T store s order) (hproper : Proper T s) (hserved : ¬ s.Served i)
    (hapart : ∀ j, j ≠ i → s.InProgress j → ∀ x, T.own i x → ¬ T.own j x)
    (hframe : ∀ x, ¬ T.own i x → T.view t x = T.view s.store x)
    (hrun : ∀ x, T.own i x → T.view (T.exec i (T.serial order store)) x =
      T.view (p.run (T.answer i) t).2 x) :
  ∃ order, Serial T store (s.set i p held true t) order
  := by
  have hnotMem : i ∉ order := fun hmem => hserved ((h.mem i).mp hmem)
  have hother : ∀ j, j ≠ i → s.InProgress j → ∀ x, T.own j x → T.view t x = T.view s.store x :=
    fun j hj hprogress x hx => hframe x (fun hx' => hapart j hj hprogress x hx' hx)
  have hotherRun : ∀ j, j ≠ i → s.InProgress j → ∀ x, T.own j x →
      T.view (((s.set i p held true t).rest j).run (T.answer j) t).2 x =
        T.view ((s.rest j).run (T.answer j) s.store).2 x := by
    intro j hj hprogress x hx
    rw [State.set_rest_of_ne _ _ _ _ _ _ hj]
    exact run_congr (hproper.within j) (hother j hj hprogress) hx
  by_cases hfinished : p.Finished
  · have hne : ∀ j, (s.set i p held true t).InProgress j → j ≠ i := by
      rintro j hj rfl
      exact (inProgress_set_self.mp hj).2 hfinished
    refine ⟨order ++ [i], ?_, ?_, ?_, ?_, ?_⟩
    · rw [← List.concat_eq_append]
      exact h.nodup.concat hnotMem
    · intro j
      rw [List.mem_append, List.mem_singleton]
      by_cases hj : j = i
      · subst hj
        exact iff_of_true (.inr rfl) (served_set_self.mpr ⟨rfl, hfinished⟩)
      · rw [or_iff_left hj, h.mem, served_set_of_ne hj]
    · intro j k hjk hj hk
      exact h.apart j k hjk ((inProgress_set_of_ne (hne j hj)).mp hj)
        ((inProgress_set_of_ne (hne k hk)).mp hk)
    · intro x hx
      rw [serial_append, State.set_store]
      by_cases hown : T.own i x
      · rw [hrun x hown, Program.run_of_finished hfinished]
      · rw [exec, view_run (T.program_within i) _ hown, hframe x hown]
        apply h.view x
        intro j hj
        by_cases hji : j = i
        · subst hji
          apply hown
        · exact hx j ((inProgress_set_of_ne hji).mpr hj)
    · intro j hj x hx
      have hji := hne j hj
      have hj := (inProgress_set_of_ne hji).mp hj
      rw [serial_append, State.set_store, hotherRun j hji hj x hx, ← h.run j hj x hx]
      apply run_congr (T.program_within j) _ hx
      exact fun y hy => view_run (T.program_within i) _ (fun hy' => hapart j hji hj y hy' hy)
  · have hself : (s.set i p held true t).InProgress i := inProgress_set_self.mpr ⟨rfl, hfinished⟩
    refine ⟨order, h.nodup, ?_, ?_, ?_, ?_⟩
    · intro j
      by_cases hj : j = i
      · subst hj
        exact iff_of_false hnotMem (fun hserved => hfinished (served_set_self.mp hserved).2)
      · rw [h.mem, served_set_of_ne hj]
    · intro j k hjk hj hk x hxj hxk
      by_cases hji : j = i
      · subst hji
        exact hapart k hjk.symm ((inProgress_set_of_ne hjk.symm).mp hk) x hxj hxk
      · have hj' := (inProgress_set_of_ne hji).mp hj
        by_cases hki : k = i
        · subst hki
          exact hapart j hji hj' x hxk hxj
        · exact h.apart j k hjk hj' ((inProgress_set_of_ne hki).mp hk) x hxj hxk
    · intro x hx
      rw [State.set_store, hframe x (hx i hself)]
      apply h.view x
      intro j hj
      by_cases hji : j = i
      · subst hji
        apply hx j hself
      · exact hx j ((inProgress_set_of_ne hji).mpr hj)
    · intro j hj x hx
      by_cases hji : j = i
      · subst hji
        rw [State.set_rest_self, State.set_store, hrun x hx]
      · have hj := (inProgress_set_of_ne hji).mp hj
        rw [State.set_store, hotherRun j hji hj x hx, h.run j hj x hx]

/-- A thread in progress goes on. -/
theorem Serial.goOn (h : Serial T store s order) (hproper : Proper T s) (hprogress : s.InProgress i)
    (hframe : ∀ x, ¬ T.own i x → T.view t x = T.view s.store x)
    (hrun : (p.run (T.answer i) t).2 = ((s.rest i).run (T.answer i) s.store).2) :
  ∃ order, Serial T store (s.set i p held true t) order
  := by
  apply h.advance hproper (fun hserved => hprogress.2 hserved.2) _ hframe
  · intro x hx
    rw [hrun, h.run i hprogress x hx]
  · exact fun j hj hj' => h.apart i j hj.symm hprogress hj'

end

/-- Steps that are orderly leave the store to be explained by an order. -/
theorem Serial.step [Fintype ι] {store : σ} {s s' : State ι C Answer ε α σ} {order : List ι} {i : ι}
    (h : Serial T store s order) (hmutex : Mutex s) (hproper : Proper T s)
    (horderly : T.Orderly s i) (hstep : T.step s i = some s') :
  ∃ order, Serial T store s' order
  := by
  have hready : s.begun i = false → (s.rest i).AtChange (s.held i) →
      (∀ j, j ≠ i → s.InProgress j → ∀ x, T.own i x → ¬ T.own j x) ∧
      ∀ x, T.own i x → T.view (T.exec i (T.serial order store)) x =
        T.view ((s.rest i).run (T.answer i) s.store).2 x := by
    intro hbegun hchange
    obtain ⟨hready, hapart⟩ := horderly hbegun hchange
    have hapart' : ∀ j, j ≠ i → s.InProgress j → ∀ x, T.own i x → ¬ T.own j x := by
      intro j hj hprogress
      apply hapart j hj hprogress
      by_cases halone : Alone (s.held i)
      · exact .inl (hmutex i j hj.symm halone)
      · exact .inr halone
    refine ⟨hapart', ?_⟩
    intro x hx
    have harrives := (hproper.arrives i hbegun).of_atChange hchange
    rw [T.run_of_ready harrives hready]
    apply run_congr (T.program_within i) _ hx
    intro y hy
    apply h.view y
    intro j hj
    by_cases hji : j = i
    · subst hji
      exact absurd hj.1 (by rw [hbegun]; exact Bool.false_ne_true)
    · exact hapart' j hji hj y hy
  have hwithin := hproper.within i
  have hnotBegun : s.begun i = false → ¬ s.Served i ∧ ¬ s.InProgress i := by
    intro hbegun
    rw [State.Served, State.InProgress, hbegun]
    exact ⟨fun h => Bool.false_ne_true h.1, fun h => Bool.false_ne_true h.1⟩
  rw [Threads.step] at hstep
  cases hrest : s.rest i with
  | done result =>
      rw [hrest] at hstep hready
      obtain rfl := Option.some.inj hstep
      cases hbegun : s.begun i with
      | true =>
          refine ⟨order, h.idle ?_ hbegun.symm (fun _ => by rw [hrest])⟩
          rw [State.InProgress, hrest]
          exact fun hprogress => hprogress.2 trivial
      | false =>
          obtain ⟨hapart, hrun⟩ := hready hbegun trivial
          exact h.advance hproper (hnotBegun hbegun).1 hapart (fun _ _ => rfl) hrun
  | call c next =>
      rw [hrest] at hstep hready hwithin
      obtain rfl := Option.some.inj hstep
      have hframe := fun x (hx : ¬ T.own i x) => T.view_answer hwithin.1 s.store hx
      cases hbegun : s.begun i with
      | true =>
          apply h.goOn hproper ⟨hbegun, by rw [hrest]; exact id⟩ hframe
          rw [hrest]
          rfl
      | false =>
          by_cases hheld : s.held i = some .shared
          · have harrives := hproper.arrives i hbegun
            rw [hrest, hheld] at harrives
            rw [T.answer_query harrives.1, decide_eq_false (fun hne => hne hheld)]
            exact ⟨order, h.idle (hnotBegun hbegun).2 hbegun.symm nofun⟩
          · obtain ⟨hapart, hrun⟩ := hready hbegun hheld
            rw [decide_eq_true hheld]
            exact h.advance hproper (hnotBegun hbegun).1 hapart hframe hrun
  | lock mode next =>
      rw [hrest] at hstep
      dsimp only at hstep
      split at hstep
      next =>
        obtain rfl := Option.some.inj hstep
        cases hbegun : s.begun i with
        | true =>
            apply h.goOn hproper ⟨hbegun, by rw [hrest]; exact id⟩ (fun _ _ => rfl)
            rw [hrest]
            rfl
        | false => exact ⟨order, h.idle (hnotBegun hbegun).2 hbegun.symm nofun⟩
      next => cases hstep
  | unlock next =>
      rw [hrest] at hstep
      obtain rfl := Option.some.inj hstep
      cases hbegun : s.begun i with
      | true =>
          by_cases hfinished : next.Finished
          · refine ⟨order, h.idle ?_ hbegun.symm (fun _ => by rw [hrest]; rfl)⟩
            rw [State.InProgress, hrest]
            exact fun hprogress => hprogress.2 hfinished
          · apply h.goOn hproper ⟨hbegun, by rw [hrest]; exact hfinished⟩ (fun _ _ => rfl)
            rw [hrest]
            rfl
      | false => exact ⟨order, h.idle (hnotBegun hbegun).2 hbegun.symm nofun⟩

omit [DecidableEq ι] in
theorem serial_start (store : σ) : Serial T store (T.start store) []
  := by
  constructor
  · exact List.nodup_nil
  · exact fun i => iff_of_false List.not_mem_nil (fun hserved => Bool.false_ne_true hserved.1)
  · exact fun i _ _ hprogress => absurd hprogress.1 Bool.false_ne_true
  · exact fun _ _ => rfl
  · exact fun i hprogress => absurd hprogress.1 Bool.false_ne_true

/-- If all steps are orderly, what the threads leave is what they leave one after another, in some
order. -/
theorem serial_of_reached [Fintype ι] {store : σ} {s : State ι C Answer ε α σ}
    (h : Transition.Reached T.step (T.start store) T.Orderly s) (hover : s.Over) :
  ∃ order : List ι, order.Nodup ∧ (∀ i, i ∈ order) ∧ s.store = T.serial order store
  := by
  have hinv : Mutex s ∧ Proper T s ∧ ∃ order, Serial T store s order := by
    apply h.invariant
    · refine ⟨fun i _ _ halone => absurd halone id, ?_, [], serial_start store⟩
      exact ⟨T.program_within, fun i _ => T.program_arrives i⟩
    · rintro s s' i - ⟨hmutex, hproper, order, hserial⟩ horderly hstep
      exact ⟨hmutex.step hstep, hproper.step hstep,
        hserial.step hmutex hproper horderly hstep⟩
  obtain ⟨-, -, order, hserial⟩ := hinv
  refine ⟨order, hserial.nodup, fun i => (hserial.mem i).mpr (hover i), ?_⟩
  apply T.eq_of_view
  intro x
  rw [hserial.view x (fun i hprogress => absurd (hover i).2 hprogress.2)]

end Threads
