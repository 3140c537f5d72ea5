import TinyLsm.Basic
import TinyLsm.Library.Cursor

/-!
# Iterators

The interface `BaseIterator` of the iterators over the stored entries.  Dereferencing may
fill a cache of the iterator, so it answers the iterator with its cache filled as well.

Reading an iterator at each position, with `operator*` and `get_tranc_id`, and stepping it
with `operator++` makes it a cursor over entries.
-/

namespace TinyLsm

/-- The operations of an iterator: `operator++`, `operator*`, `get_tranc_id`, `is_end` and
`is_valid`. -/
class BaseIterator (ι : Type) where
  next : ι → Except Fault ι
  deref : ι → Except Fault ((Bytes × Bytes) × ι)
  getTrancId : ι → TrancId
  isEnd : ι → Bool
  isValid : ι → Bool

namespace BaseIterator

variable {ι : Type} [BaseIterator ι]

/-- The entry an iterator is at: the pair `operator*` answers, with the id `get_tranc_id`
reports. -/
def entry (it : ι) : Except Fault (Entry × ι) := do
  let ((key, value), it') ← deref it
  return (⟨key, value, getTrancId it'⟩, it')

theorem entry_of_deref
    {it it' : ι} {key value : Bytes} (h : deref it = .ok ((key, value), it')) :
  entry it = .ok (⟨key, value, getTrancId it'⟩, it')
  := by
  rw [entry, Except.bind_eq_of_ok _ h]
  rfl

/-- An iterator at an entry dereferences to its pair and reports its id. -/
theorem deref_of_entry {it it' : ι} {e : Entry} (h : entry it = .ok (e, it')) :
  deref it = .ok ((e.key, e.value), it') ∧ getTrancId it' = e.trancId
  := by
  rw [entry] at h
  cases hderef : deref it with
  | error fault =>
      rw [hderef] at h
      cases h
  | ok found =>
      obtain ⟨⟨key, value⟩, it''⟩ := found
      rw [Except.bind_eq_of_ok _ hderef] at h
      cases h
      exact ⟨rfl, rfl⟩

variable (ι) in
/-- An iterator as a cursor over entries. -/
def cursor : Cursor Fault Entry ι where
  isEnd := isEnd
  peek := entry
  next := next

/-- The entries met by stepping an iterator to its end. -/
def drain (fuel : ℕ) (it : ι) : Except Fault (List Entry) :=
  (cursor ι).drain .outOfFuel fuel it

/-! ### Pairs -/

variable (ι) in
/-- An iterator as a cursor over the pairs `operator*` answers. -/
def pairs : Cursor Fault (Bytes × Bytes) ι where
  isEnd := isEnd
  peek := deref
  next := next

/-- The pairs met by stepping an iterator to its end. -/
def drainPairs (fuel : ℕ) (it : ι) : Except Fault (List (Bytes × Bytes)) :=
  (pairs ι).drain .outOfFuel fuel it

/-- An iterator related to a list has the pairs of the list left, and is valid when there are
such. -/
structure Yields (R : ι → List (Bytes × Bytes) → Prop) : Prop where
  isEnd_eq : ∀ {it ps}, R it ps → isEnd it = ps.isEmpty
  isValid_eq : ∀ {it ps}, R it ps → isValid it = !ps.isEmpty
  deref_cons : ∀ {it p ps}, R it (p :: ps) → ∃ it', deref it = .ok (p, it') ∧ R it' (p :: ps)
  next_cons : ∀ {it p ps}, R it (p :: ps) → ∃ it', next it = .ok it' ∧ R it' ps

theorem Yields.tracks {R : ι → List (Bytes × Bytes) → Prop} (h : Yields R) : (pairs ι).Tracks R
  where
  isEnd_nil := h.isEnd_eq
  isEnd_cons := h.isEnd_eq
  peek_cons := h.deref_cons
  next_cons := h.next_cons

end BaseIterator

end TinyLsm
