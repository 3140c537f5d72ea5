import TinyLsm.Basic

/-!
# Lists of versions

What a skip list is for: a list of the versions of keys, in the order of the keys, the
versions of a key from the newest on.  A version is put before the other versions of its
key, or, if the first of these has the same id, in its place.
-/

namespace TinyLsm

/-- Put a version in: in place of the first version of its key if that has its id, and
before it otherwise. -/
def insertVersion (e : Entry) : List Entry → List Entry
  | [] => [e]
  | e' :: es =>
      if e'.key < e.key then
        e' :: insertVersion e es
      else if e'.key = e.key ∧ e'.trancId = e.trancId then
        e :: es
      else
        e :: e' :: es

/-- The first version of a key. -/
def topVersion (key : Bytes) (es : List Entry) : Option Entry :=
  es.find? (fun e => decide (e.key = key))

/-- The versions of smaller keys stay in front. -/
theorem insertVersion_append (e : Entry) :
  ∀ {es es' : List Entry}, (∀ e' ∈ es, e'.key < e.key) →
    insertVersion e (es ++ es') = es ++ insertVersion e es'
  | [], _, _ => rfl
  | e' :: es, es', h => by
      rw [List.cons_append, insertVersion, if_pos (h e' List.mem_cons_self),
        insertVersion_append e (fun e'' h' => h e'' (List.mem_cons_of_mem e' h'))]
      rfl

/-- What a version takes up: its key, its value and its id. -/
def Entry.size (e : Entry) : ℕ := e.key.length + e.value.length + 8

/-- The version in place of which a version is put. -/
def replacedVersion (e : Entry) (es : List Entry) : Option Entry :=
  (topVersion e.key es).filter (fun e' => decide (e'.trancId = e.trancId))

/-- The counter of bytes after putting a version into versions.  The value of a version that is
replaced is taken off, and the new one is not added. -/
def insertedSize (e : Entry) (size : UInt64) (es : List Entry) : UInt64 :=
  match replacedVersion e es with
  | some e' => size - UInt64.ofNat e'.value.length
  | none => size + UInt64.ofNat e.size

/-- The counter of bytes after removing the first version of a key. -/
def removedSize (key : Bytes) (size : UInt64) (es : List Entry) : UInt64 :=
  match topVersion key es with
  | some e => size - UInt64.ofNat e.size
  | none => size

/-- The versions without the first one of a key. -/
def removeVersion (key : Bytes) (es : List Entry) : List Entry :=
  es.eraseP (fun e => decide (e.key = key))

theorem removeVersion_cons (key : Bytes) (e : Entry) (es : List Entry) :
  removeVersion key (e :: es) = if e.key = key then es else e :: removeVersion key es
  := by
  by_cases h : e.key = key
  · rw [if_pos h]
    apply List.eraseP_cons_of_pos
    apply decide_eq_true h
  · rw [if_neg h]
    apply List.eraseP_cons_of_neg (by simpa using h)

/-- The versions of smaller keys stay in front. -/
theorem removeVersion_append (key : Bytes) :
  ∀ {es es' : List Entry}, (∀ e ∈ es, e.key < key) →
    removeVersion key (es ++ es') = es ++ removeVersion key es'
  | [], _, _ => rfl
  | e :: es, es', h => by
      rw [List.cons_append, removeVersion_cons, if_neg (h e List.mem_cons_self).ne,
        removeVersion_append key (fun e' h' => h e' (List.mem_cons_of_mem e h'))]
      rfl

/-- There is nothing to remove among the versions of greater keys. -/
theorem removeVersion_of_lt {key : Bytes} {es : List Entry} (h : ∀ e ∈ es, key < e.key) :
  removeVersion key es = es
  := by
  apply List.eraseP_of_forall_not
  intro e he heq
  exact (h e he).ne (of_decide_eq_true heq).symm

/-- Putting a version in makes it the first of its key, and leaves the first versions of the
other keys. -/
theorem topVersion_insertVersion (key : Bytes) (e : Entry) :
  ∀ es : List Entry, topVersion key (insertVersion e es) =
    if e.key = key then some e else topVersion key es
  | [] => by
      rw [insertVersion, topVersion, List.find?_singleton]
      simp only [decide_eq_true_iff]
      rfl
  | e' :: es => by
      have ih := topVersion_insertVersion key e es
      rw [topVersion] at ih
      rw [insertVersion]
      split
      next hlt =>
        by_cases hkey : e'.key = key
        · have hne : e.key ≠ key := fun heq => (lt_irrefl key) (by rwa [heq, hkey] at hlt)
          simp only [topVersion, List.find?_cons, hkey, decide_true, if_neg hne]
        · simp only [topVersion, List.find?_cons, hkey, decide_false, ih]
      · split
        next hsame =>
          by_cases hkey : e.key = key
          · simp only [topVersion, List.find?_cons, hkey, decide_true, if_true]
          · have hkey' : e'.key ≠ key := by
              rw [hsame.1]
              apply hkey
            simp only [topVersion, List.find?_cons, hkey, hkey', decide_false, if_false]
        · by_cases hkey : e.key = key
          · simp only [topVersion, List.find?_cons, hkey, decide_true, if_true]
          · simp only [topVersion, List.find?_cons, hkey, decide_false, if_false]

end TinyLsm
