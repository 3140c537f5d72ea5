import TinyLsm.Library.Program

/-!
# Programs and the lock that they hold

What a program may call depends on how it holds the lock.  A section of a program goes up to
where the program takes the lock again, or is done.
-/

namespace Program

variable {C : Type} {Answer : C → Type} {ε α β σ : Type}

/-- The program takes and releases no lock. -/
def NoLocks (possible : (c : C) → Answer c → Prop) : Program C Answer ε α → Prop
  | done _ => True
  | call c next => ∀ a, possible c a → (next a).NoLocks possible
  | lock _ _ => False
  | unlock _ => False

/-- All calls that the program may make are allowed by how it holds the lock then, and so are its
results in the end. -/
def UnderLock (P : Option LockMode → C → Prop) (possible : (c : C) → Answer c → Prop)
    (Q : Option LockMode → α → Prop) : Option LockMode → Program C Answer ε α → Prop
  | held, done (.ok a) => Q held a
  | _, done (.error _) => True
  | held, call c next => P held c ∧ ∀ a, possible c a → (next a).UnderLock P possible Q held
  | _, lock mode next => next.UnderLock P possible Q (some mode)
  | _, unlock next => next.UnderLock P possible Q none

section

variable {P : Option LockMode → C → Prop} {possible : (c : C) → Answer c → Prop}
  {Q : Option LockMode → α → Prop} {held : Option LockMode}

theorem NoLocks.bind {p : Program C Answer ε α} {f : α → Program C Answer ε β}
    (hp : p.NoLocks possible) (hf : ∀ a, (f a).NoLocks possible) :
  (p >>= f).NoLocks possible
  := by
  change (p.bind f).NoLocks possible
  induction p with
  | done result =>
      cases result with
      | ok a => apply hf
      | error e => trivial
  | call c next ih => exact fun a ha => ih a (hp a ha)
  | lock mode next => cases hp
  | unlock next => cases hp

theorem UnderLock.bind {Q' : Option LockMode → β → Prop} {p : Program C Answer ε α}
    {f : α → Program C Answer ε β} (hp : p.UnderLock P possible Q held)
    (hf : ∀ held a, Q held a → (f a).UnderLock P possible Q' held) :
  (p >>= f).UnderLock P possible Q' held
  := by
  change (p.bind f).UnderLock P possible Q' held
  induction p generalizing held with
  | done result =>
      cases result with
      | ok a => apply hf held a hp
      | error e => trivial
  | call c next ih => exact ⟨hp.1, fun a ha => ih a (hp.2 a ha)⟩
  | lock mode next ih => apply ih hp
  | unlock next ih => apply ih hp

/-- A program that takes no lock holds it all along as at first. -/
theorem UnderLock.of_noLocks {p : Program C Answer ε α} (hp : p.NoLocks possible)
    (hcalls : p.AllCalls (P held) possible) :
  p.UnderLock P possible (fun held' _ => held' = held) held
  := by
  induction p with
  | done result =>
      cases result with
      | ok a => exact rfl
      | error e => trivial
  | call c next ih => exact ⟨hcalls.1, fun a ha => ih a (hp a ha) (hcalls.2 a ha)⟩
  | lock mode next => cases hp
  | unlock next => cases hp

theorem UnderLock.mono {Q' : Option LockMode → α → Prop} (hQ : ∀ held a, Q held a → Q' held a)
    {p : Program C Answer ε α} (hp : p.UnderLock P possible Q held) :
  p.UnderLock P possible Q' held
  := by
  induction p generalizing held with
  | done result =>
      cases result with
      | ok a => apply hQ held a hp
      | error e => trivial
  | call c next ih => exact ⟨hp.1, fun a ha => ih a (hp.2 a ha)⟩
  | lock mode next ih => apply ih hp
  | unlock next ih => apply ih hp

end

theorem allCalls_true {possible : (c : C) → Answer c → Prop} :
  ∀ (p : Program C Answer ε α), p.AllCalls (fun _ => True) possible
  | done _ => trivial
  | call _ next => ⟨trivial, fun a _ => (next a).allCalls_true⟩
  | lock _ next => next.allCalls_true
  | unlock next => next.allCalls_true

/-! ### Sections -/

/-- What a program does in a section: the calls that it makes, what it goes on with, and the state
in the end. -/
structure Section (C : Type) (Answer : C → Type) (ε α σ : Type) where
  calls : List C
  rest : Program C Answer ε α
  state : σ

variable {answer : (c : C) → σ → Answer c × σ}

/-- Run a program up to where it takes the lock, or is done. -/
def toLock (answer : (c : C) → σ → Answer c × σ) :
    Program C Answer ε α → σ → Section C Answer ε α σ
  | done result, s => ⟨[], done result, s⟩
  | call c next, s =>
      let later := (next (answer c s).1).toLock answer (answer c s).2
      { later with calls := c :: later.calls }
  | lock mode next, s => ⟨[], lock mode next, s⟩
  | unlock next, s => next.toLock answer s

/-- Run a section of a program that stands where it takes the lock, or at its beginning. -/
def runSection (answer : (c : C) → σ → Answer c × σ) (p : Program C Answer ε α) (s : σ) :
    Section C Answer ε α σ :=
  match p with
  | lock _ next => next.toLock answer s
  | p => p.toLock answer s

/-- The lock as it is held in the next section. -/
def nextMode : Program C Answer ε α → Option LockMode
  | lock mode _ => some mode
  | done _ | call _ _ | unlock _ => none

section

variable {P : C → Prop} {possible : (c : C) → Answer c → Prop}
  (hpossible : ∀ c s, possible c (answer c s).1)

include hpossible

theorem AllCalls.toLock {p : Program C Answer ε α} (hp : p.AllCalls P possible) (s : σ) :
  (∀ c ∈ (p.toLock answer s).calls, P c) ∧ (p.toLock answer s).rest.AllCalls P possible
  := by
  induction p generalizing s with
  | done result => exact ⟨nofun, trivial⟩
  | call c next ih =>
      obtain ⟨hcalls, hrest⟩ := ih _ (hp.2 _ (hpossible c s)) (answer c s).2
      exact ⟨List.forall_mem_cons.mpr ⟨hp.1, hcalls⟩, hrest⟩
  | lock mode next => exact ⟨nofun, hp⟩
  | unlock next ih => apply ih hp

/-- The calls of a section are of the kind that all are. -/
theorem AllCalls.runSection {p : Program C Answer ε α} (hp : p.AllCalls P possible) (s : σ) :
  (∀ c ∈ (p.runSection answer s).calls, P c) ∧ (p.runSection answer s).rest.AllCalls P possible
  := by
  cases p with
  | lock mode next => exact AllCalls.toLock hpossible (p := next) hp s
  | done result => apply AllCalls.toLock hpossible hp
  | call c next => apply AllCalls.toLock hpossible hp
  | unlock next => apply AllCalls.toLock hpossible hp

/-- What each call keeps, a section keeps. -/
theorem AllCalls.toLock_keeps {I : σ → Prop} (hI : ∀ c, P c → ∀ s, I s → I (answer c s).2)
    {p : Program C Answer ε α} (hp : p.AllCalls P possible) {s : σ} (hs : I s) :
  I (p.toLock answer s).state
  := by
  induction p generalizing s with
  | done result => apply hs
  | call c next ih => apply ih _ (hp.2 _ (hpossible c s)) (hI c hp.1 s hs)
  | lock mode next => apply hs
  | unlock next ih => apply ih hp hs

theorem AllCalls.runSection_keeps {I : σ → Prop} (hI : ∀ c, P c → ∀ s, I s → I (answer c s).2)
    {p : Program C Answer ε α} (hp : p.AllCalls P possible) {s : σ} (hs : I s) :
  I (p.runSection answer s).state
  := by
  cases p with
  | lock mode next => apply AllCalls.toLock_keeps hpossible hI (p := next) hp hs
  | done result => apply AllCalls.toLock_keeps hpossible hI hp hs
  | call c next => apply AllCalls.toLock_keeps hpossible hI hp hs
  | unlock next => apply AllCalls.toLock_keeps hpossible hI hp hs

end

section

variable {P : Option LockMode → C → Prop} {possible : (c : C) → Answer c → Prop}
  (hpossible : ∀ c s, possible c (answer c s).1)

include hpossible

/-- Until the program takes the lock again, it holds it as before, or not at all. -/
theorem UnderLock.toLock {held : Option LockMode} {p : Program C Answer ε α}
    (hp : p.UnderLock P possible (fun _ _ => True) held) (s : σ) :
  (∀ c ∈ (p.toLock answer s).calls, P held c ∨ P none c) ∧
    (p.toLock answer s).rest.UnderLock P possible (fun _ _ => True) none
  := by
  induction p generalizing held s with
  | done result =>
      refine ⟨nofun, ?_⟩
      cases result with
      | ok a => exact trivial
      | error e => exact trivial
  | call c next ih =>
      obtain ⟨hcalls, hrest⟩ := ih _ (hp.2 _ (hpossible c s)) (answer c s).2
      exact ⟨List.forall_mem_cons.mpr ⟨.inl hp.1, hcalls⟩, hrest⟩
  | lock mode next => exact ⟨nofun, hp⟩
  | unlock next ih =>
      obtain ⟨hcalls, hrest⟩ := ih hp s
      exact ⟨fun c hc => .inr ((hcalls c hc).elim id id), hrest⟩

theorem UnderLock.runSection {p : Program C Answer ε α}
    (hp : p.UnderLock P possible (fun _ _ => True) none) (s : σ) :
  (∀ c ∈ (p.runSection answer s).calls, P p.nextMode c ∨ P none c) ∧
    (p.runSection answer s).rest.UnderLock P possible (fun _ _ => True) none
  := by
  cases p with
  | lock mode next => exact UnderLock.toLock hpossible (p := next) hp s
  | done result => apply UnderLock.toLock hpossible hp
  | call c next => apply UnderLock.toLock hpossible hp
  | unlock next => apply UnderLock.toLock hpossible hp

end

end Program
