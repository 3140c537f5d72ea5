import Mathlib.Data.List.Basic

/-!
# Cursors

A cursor over states `σ` says whether a state is at the end, what the element under it is,
and which state follows.  Looking at the element and stepping may fail, and looking may
change the state, as it does when the element is cached.

A relation between states and lists tracks a cursor when the list is what the cursor still
has to deliver.  A tracked cursor delivers its list: `drain_of_tracks`.
-/

/-- A bind in `Except` whose first computation returns. -/
theorem Except.bind_eq_of_ok
    {φ α β : Type} {x : Except φ α} {a : α} (f : α → Except φ β) (h : x = .ok a) :
  (x >>= f) = f a
  := by
  rw [h]
  rfl

/-- A bind in `Except` that returns has a first computation that returns. -/
theorem Except.exists_of_bind_eq_ok
    {φ α β : Type} {x : Except φ α} {f : α → Except φ β} {b : β} (h : (x >>= f) = .ok b) :
  ∃ a, x = .ok a ∧ f a = .ok b
  := by
  cases x with
  | error e => nomatch h
  | ok a => exact ⟨a, rfl, h⟩

/-- A bind in `Except` fails where its first computation does, or where the second one does on
what the first one returns. -/
theorem Except.of_bind_eq_error
    {φ α β : Type} {x : Except φ α} {f : α → Except φ β} {e : φ} (h : (x >>= f) = .error e) :
  x = .error e ∨ ∃ a, x = .ok a ∧ f a = .error e
  := by
  cases x with
  | error e' => exact .inl (congrArg _ (Except.error.inj h))
  | ok a => exact .inr ⟨a, rfl, h⟩

/-- The operations of a cursor with states `σ`, elements `α` and failures `φ`. -/
structure Cursor (φ α σ : Type) where
  isEnd : σ → Bool
  peek : σ → Except φ (α × σ)
  next : σ → Except φ σ

namespace Cursor

variable {φ α σ : Type}

/-- Collect the elements from a state to the end, failing with `stuck` when the end is not
reached in fewer than `fuel` steps. -/
def drain (c : Cursor φ α σ) (stuck : φ) : ℕ → σ → Except φ (List α)
  | 0, _ => .error stuck
  | fuel + 1, s =>
      if c.isEnd s then
        .ok []
      else do
        let (x, s') ← c.peek s
        let s'' ← c.next s'
        let xs ← c.drain stuck fuel s''
        return x :: xs

/-- `R s xs` implies that the cursor has the elements `xs` left at the state `s`. -/
structure Tracks (c : Cursor φ α σ) (R : σ → List α → Prop) : Prop where
  isEnd_nil : ∀ {s}, R s [] → c.isEnd s = true
  isEnd_cons : ∀ {s x xs}, R s (x :: xs) → c.isEnd s = false
  peek_cons : ∀ {s x xs}, R s (x :: xs) → ∃ s', c.peek s = .ok (x, s') ∧ R s' (x :: xs)
  next_cons : ∀ {s x xs}, R s (x :: xs) → ∃ s', c.next s = .ok s' ∧ R s' xs

/-- A tracked cursor delivers the list it is at, once the fuel exceeds its length. -/
theorem drain_of_tracks
    {c : Cursor φ α σ} {R : σ → List α → Prop} (h : c.Tracks R) (stuck : φ) :
  ∀ {xs : List α} {s : σ} {fuel : ℕ}, R s xs → xs.length < fuel →
    c.drain stuck fuel s = .ok xs
  | [], _, n + 1, hs, _ => by
      rw [drain, h.isEnd_nil hs]
      rfl
  | x :: xs, _, n + 1, hs, hfuel => by
      obtain ⟨s', hpeek, hs'⟩ := h.peek_cons hs
      obtain ⟨s'', hnext, hs''⟩ := h.next_cons hs'
      have hrest := drain_of_tracks h stuck hs'' (Nat.lt_of_succ_lt_succ hfuel)
      rw [drain, h.isEnd_cons hs, if_neg Bool.false_ne_true, Except.bind_eq_of_ok _ hpeek]
      dsimp only
      rw [Except.bind_eq_of_ok _ hnext, Except.bind_eq_of_ok _ hrest]
      rfl

end Cursor
