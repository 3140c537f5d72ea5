import TinyLsm.Library.Lookup
import TinyLsm.Library.Program
import TinyLsm.Utils.Text

/-!
# The calls of the commands

The commands work on the engine through the calls of `LSM`, and read the clock.  The engine
is taken for one sorted map of strings: the empty value marks a removed key, so that storing
it removes the key, and a query by a predicate lists the live keys that meet it in ascending
order.
-/

namespace TinyLsm

/-- The live keys and their values. -/
structure LSM where
  map : OrderedMap Bytes Bytes
  live : ∀ p ∈ map.pairs, p.2 ≠ []

namespace LSM

def empty : LSM := ⟨.empty, nofun⟩

def get (lsm : LSM) (key : Bytes) : Option Bytes := lsm.map.lookup key

def remove (lsm : LSM) (key : Bytes) : LSM :=
  ⟨lsm.map.erase key, fun p hp => lsm.live p (OrderedMap.mem_erase.mp hp).1⟩

def put (lsm : LSM) (key value : Bytes) : LSM :=
  if h : value = [] then lsm.remove key
  else ⟨lsm.map.assign key value, by
    intro p hp
    rcases OrderedMap.mem_assignPair hp with rfl | hp
    · apply h
    · apply lsm.live p hp⟩

def putBatch (lsm : LSM) (kvs : List (Bytes × Bytes)) : LSM :=
  kvs.foldl (fun lsm kv => lsm.put kv.1 kv.2) lsm

def removeBatch (lsm : LSM) (keys : List Bytes) : LSM := keys.foldl remove lsm

/-- The live keys at which the predicate is zero, with their values, if there are any. -/
def itersMonotonyPredicate (lsm : LSM) (predicate : Bytes → ℤ) : Option (List (Bytes × Bytes)) :=
  match lsm.map.pairs.filter (fun p => decide (predicate p.1 = 0)) with
  | [] => none
  | p :: ps => some (p :: ps)

/-- What a value is stored as. -/
def stored (value : Bytes) : Option Bytes := if value = [] then none else some value

@[simp]
theorem stored_nil : stored [] = none
  := rfl

theorem stored_of_ne_nil {value : Bytes} (h : value ≠ []) : stored value = some value
  := if_neg h

@[simp]
theorem get_empty (key : Bytes) : empty.get key = none
  := rfl

theorem ne_nil_of_get {lsm : LSM} {key value : Bytes} (h : lsm.get key = some value) : value ≠ []
  := lsm.live _ (OrderedMap.lookup_eq_some_iff.mp h)

theorem get_remove (lsm : LSM) (key other : Bytes) :
  (lsm.remove key).get other = if other = key then none else lsm.get other
  := by
  have hlookup := OrderedMap.lookup_erase lsm.map key other
  split
  next heq => rwa [if_pos heq] at hlookup
  next hne => rwa [if_neg hne] at hlookup

theorem get_put (lsm : LSM) (key value other : Bytes) :
  (lsm.put key value).get other = if other = key then stored value else lsm.get other
  := by
  rw [put]
  split
  next h =>
    rw [get_remove, h]
    rfl
  next h =>
    have hlookup := OrderedMap.lookup_assign lsm.map key other value
    rw [stored_of_ne_nil h]
    split
    next heq => rwa [if_pos heq] at hlookup
    next hne => rwa [if_neg hne] at hlookup

@[simp]
theorem get_remove_self (lsm : LSM) (key : Bytes) : (lsm.remove key).get key = none
  := by
  rw [get_remove, if_pos rfl]

theorem get_remove_of_ne (lsm : LSM) {key other : Bytes} (h : other ≠ key) :
  (lsm.remove key).get other = lsm.get other
  := by
  rw [get_remove, if_neg h]

@[simp]
theorem get_put_self (lsm : LSM) (key value : Bytes) : (lsm.put key value).get key = stored value
  := by
  rw [get_put, if_pos rfl]

theorem get_put_of_ne (lsm : LSM) {key other : Bytes} (h : other ≠ key) (value : Bytes) :
  (lsm.put key value).get other = lsm.get other
  := by
  rw [get_put, if_neg h]

theorem get_removeBatch {other : Bytes} :
  ∀ (keys : List Bytes) (lsm : LSM),
    (lsm.removeBatch keys).get other = if other ∈ keys then none else lsm.get other
  | [], lsm => by rw [if_neg List.not_mem_nil, removeBatch, List.foldl_nil]
  | key :: keys, lsm => by
      rw [removeBatch, List.foldl_cons, ← removeBatch, get_removeBatch keys, get_remove]
      simp only [List.mem_cons]
      split
      next h => rw [if_pos (.inr h)]
      next h =>
        split
        next heq => rw [if_pos (.inl heq)]
        next hne => rw [if_neg (fun hor => hor.elim hne h)]

/-- A batch of entries leaves the other keys. -/
theorem get_putBatch_of_notMem {other : Bytes} :
  ∀ {kvs : List (Bytes × Bytes)} {lsm : LSM}, (∀ kv ∈ kvs, kv.1 ≠ other) →
    (lsm.putBatch kvs).get other = lsm.get other
  | [], _, _ => rfl
  | kv :: kvs, lsm, h => by
      rw [putBatch, List.foldl_cons, ← putBatch,
        get_putBatch_of_notMem (fun kv' hmem => h kv' (List.mem_cons_of_mem kv hmem)),
        get_put_of_ne lsm (h kv List.mem_cons_self).symm]

/-- What a batch leaves under a key depends on what was there. -/
theorem get_putBatch_congr {other : Bytes} :
  ∀ (kvs : List (Bytes × Bytes)) {lsm lsm' : LSM}, lsm.get other = lsm'.get other →
    (lsm.putBatch kvs).get other = (lsm'.putBatch kvs).get other
  | [], _, _, h => h
  | kv :: kvs, lsm, lsm', h => by
      rw [putBatch, putBatch, List.foldl_cons, List.foldl_cons, ← putBatch, ← putBatch]
      apply get_putBatch_congr kvs
      rw [get_put, get_put, h]

theorem putBatch_append (lsm : LSM) (kvs kvs' : List (Bytes × Bytes)) :
  lsm.putBatch (kvs ++ kvs') = (lsm.putBatch kvs).putBatch kvs'
  := List.foldl_append

/-- A batch with one value for all its keys. -/
theorem get_putBatch_map (value : Bytes) {other : Bytes} :
  ∀ (keys : List Bytes) (lsm : LSM),
    (lsm.putBatch (keys.map (fun key => (key, value)))).get other =
      if other ∈ keys then stored value else lsm.get other
  | [], lsm => by
      rw [if_neg List.not_mem_nil]
      rfl
  | key :: keys, lsm => by
      rw [List.map_cons, putBatch, List.foldl_cons, ← putBatch, get_putBatch_map value keys,
        get_put]
      simp only [List.mem_cons]
      split
      next h => rw [if_pos (.inr h)]
      next h =>
        split
        next heq => rw [if_pos (.inl heq)]
        next hne => rw [if_neg (fun hor => hor.elim hne h)]

theorem mem_pairs_iff {lsm : LSM} {p : Bytes × Bytes} : p ∈ lsm.map.pairs ↔ lsm.get p.1 = some p.2
  := OrderedMap.lookup_eq_some_iff.symm

theorem ext_get {lsm lsm' : LSM} (h : ∀ key, lsm.get key = lsm'.get key) : lsm = lsm'
  := by
  obtain ⟨map, _⟩ := lsm
  obtain ⟨map', _⟩ := lsm'
  obtain rfl : map = map' := OrderedMap.ext_lookup h
  rfl

/-- Removing a key that is not live changes nothing. -/
theorem remove_of_get_eq_none {lsm : LSM} {key : Bytes} (h : lsm.get key = none) :
  lsm.remove key = lsm
  := by
  apply ext_get
  intro other
  rw [get_remove]
  split
  next heq => rw [heq, h]
  next => rfl

/-- A query depends on the keys that meet the predicate only. -/
theorem itersMonotonyPredicate_congr {lsm lsm' : LSM} {predicate : Bytes → ℤ}
    (h : ∀ key, predicate key = 0 → lsm.get key = lsm'.get key) :
  lsm.itersMonotonyPredicate predicate = lsm'.itersMonotonyPredicate predicate
  := by
  have hlookup : ∀ key, (fun key => decide (predicate key = 0)) key →
      lsm.map.lookup key = lsm'.map.lookup key :=
    fun key hkey => h key (of_decide_eq_true hkey)
  have hfilter := OrderedMap.filter_pairs_congr hlookup
  rw [itersMonotonyPredicate, itersMonotonyPredicate, hfilter]

/-- A query finds nothing exactly if no live key meets the predicate. -/
theorem itersMonotonyPredicate_eq_none {lsm : LSM} {predicate : Bytes → ℤ} :
  lsm.itersMonotonyPredicate predicate = none ↔
    ∀ key, predicate key = 0 → lsm.get key = none
  := by
  rw [itersMonotonyPredicate]
  split
  next hnil =>
    rw [List.filter_eq_nil_iff] at hnil
    apply iff_of_true rfl
    intro key hkey
    cases hget : lsm.get key with
    | none => rfl
    | some value => exact absurd (decide_eq_true hkey) (hnil (key, value) (mem_pairs_iff.mpr hget))
  next p ps hcons =>
    apply iff_of_false nofun
    intro h
    obtain ⟨hp, hpredicate⟩ := List.mem_filter.mp (hcons ▸ List.mem_cons_self)
    rw [mem_pairs_iff, h p.1 (of_decide_eq_true hpredicate)] at hp
    cases hp

/-- What a query finds are the live keys that meet the predicate, in ascending order. -/
theorem itersMonotonyPredicate_spec {lsm : LSM} {predicate : Bytes → ℤ}
    {found : List (Bytes × Bytes)} (h : lsm.itersMonotonyPredicate predicate = some found) :
  (∀ p, p ∈ found ↔ lsm.get p.1 = some p.2 ∧ predicate p.1 = 0) ∧
    found.Pairwise (fun p q => p.1 < q.1)
  := by
  rw [itersMonotonyPredicate] at h
  split at h
  next => cases h
  next p ps hcons =>
    obtain rfl := Option.some.inj h
    rw [← hcons]
    constructor
    · intro q
      rw [List.mem_filter, mem_pairs_iff, decide_eq_true_iff]
    · apply lsm.map.ascending.filter

theorem ne_nil_of_itersMonotonyPredicate {lsm : LSM} {predicate : Bytes → ℤ}
    {found : List (Bytes × Bytes)} (h : lsm.itersMonotonyPredicate predicate = some found) :
  found ≠ []
  := by
  rw [itersMonotonyPredicate] at h
  split at h
  next => cases h
  next p ps _ =>
    obtain rfl := Option.some.inj h
    exact List.cons_ne_nil p ps

/-- The live keys that meet the predicate, where finding none is finding no keys. -/
def query (lsm : LSM) (predicate : Bytes → ℤ) : List (Bytes × Bytes) :=
  (lsm.itersMonotonyPredicate predicate).getD []

theorem mem_query {lsm : LSM} {predicate : Bytes → ℤ} {p : Bytes × Bytes} :
  p ∈ lsm.query predicate ↔ lsm.get p.1 = some p.2 ∧ predicate p.1 = 0
  := by
  rw [query]
  cases hfound : lsm.itersMonotonyPredicate predicate with
  | none =>
      apply iff_of_false List.not_mem_nil
      rintro ⟨hget, hpredicate⟩
      rw [itersMonotonyPredicate_eq_none.mp hfound p.1 hpredicate] at hget
      cases hget
  | some found => apply (itersMonotonyPredicate_spec hfound).1

theorem query_ascending (lsm : LSM) (predicate : Bytes → ℤ) :
  (lsm.query predicate).Pairwise (fun p q => p.1 < q.1)
  := by
  rw [query]
  cases hfound : lsm.itersMonotonyPredicate predicate with
  | none => apply List.Pairwise.nil
  | some found => apply (itersMonotonyPredicate_spec hfound).2

end LSM

/-- The calls of `LSM` that the commands make, and the reading of the clock. -/
inductive Call where
  | get (key : Bytes)
  | put (key value : Bytes)
  | putBatch (kvs : List (Bytes × Bytes))
  | remove (key : Bytes)
  | removeBatch (keys : List Bytes)
  | itersMonotonyPredicate (predicate : Bytes → ℤ)
  | clear
  | now

@[reducible]
def Call.Answer : Call → Type
  | get _ => Option Bytes
  | itersMonotonyPredicate _ => Option (List (Bytes × Bytes))
  | now => ℤ
  | put _ _ | putBatch _ | remove _ | removeBatch _ | clear => Unit

/-- The engine and the clock. -/
structure World where
  lsm : LSM
  now : ℤ

/-- What a call answers and does. -/
def World.answer : (c : Call) → World → c.Answer × World
  | .get key, w => (w.lsm.get key, w)
  | .put key value, w => ((), { w with lsm := w.lsm.put key value })
  | .putBatch kvs, w => ((), { w with lsm := w.lsm.putBatch kvs })
  | .remove key, w => ((), { w with lsm := w.lsm.remove key })
  | .removeBatch keys, w => ((), { w with lsm := w.lsm.removeBatch keys })
  | .itersMonotonyPredicate predicate, w => (w.lsm.itersMonotonyPredicate predicate, w)
  | .clear, w => ((), { w with lsm := .empty })
  | .now, w => (w.now, w)

/-- Programs of the commands. -/
abbrev Redis (α : Type) := Program Call Call.Answer Fault α

namespace Redis

variable {α : Type}

def get (key : Bytes) : Redis (Option Bytes) := .call (.get key) pure

def put (key value : Bytes) : Redis Unit := .call (.put key value) pure

def putBatch (kvs : List (Bytes × Bytes)) : Redis Unit := .call (.putBatch kvs) pure

def remove (key : Bytes) : Redis Unit := .call (.remove key) pure

def removeBatch (keys : List Bytes) : Redis Unit := .call (.removeBatch keys) pure

def itersMonotonyPredicate (predicate : Bytes → ℤ) : Redis (Option (List (Bytes × Bytes))) :=
  .call (.itersMonotonyPredicate predicate) pure

def clear : Redis Unit := .call .clear pure

def now : Redis ℤ := .call .now pure

def lock (mode : LockMode) : Redis Unit := Program.lock mode (pure ())

def unlock : Redis Unit := Program.unlock (pure ())

/-- Run a program on its own. -/
def run (p : Redis α) (w : World) : Except Fault α × World := Program.run World.answer p w

@[simp]
theorem run_pure (a : α) (w : World) : run (pure a) w = (.ok a, w)
  := rfl

@[simp]
theorem run_done (result : Except Fault α) (w : World) : run (.done result) w = (result, w)
  := rfl

section

variable (f : Unit → Redis α) (w : World)

@[simp]
theorem run_get (key : Bytes) (f : Option Bytes → Redis α) :
  run (get key >>= f) w = run (f (w.lsm.get key)) w
  := rfl

@[simp]
theorem run_put (key value : Bytes) :
  run (put key value >>= f) w = run (f ()) { w with lsm := w.lsm.put key value }
  := rfl

@[simp]
theorem run_putBatch (kvs : List (Bytes × Bytes)) :
  run (putBatch kvs >>= f) w = run (f ()) { w with lsm := w.lsm.putBatch kvs }
  := rfl

@[simp]
theorem run_remove (key : Bytes) :
  run (remove key >>= f) w = run (f ()) { w with lsm := w.lsm.remove key }
  := rfl

@[simp]
theorem run_removeBatch (keys : List Bytes) :
  run (removeBatch keys >>= f) w = run (f ()) { w with lsm := w.lsm.removeBatch keys }
  := rfl

@[simp]
theorem run_itersMonotonyPredicate (predicate : Bytes → ℤ)
    (f : Option (List (Bytes × Bytes)) → Redis α) :
  run (itersMonotonyPredicate predicate >>= f) w =
    run (f (w.lsm.itersMonotonyPredicate predicate)) w
  := rfl

@[simp]
theorem run_clear :
  run (clear >>= f) w = run (f ()) { w with lsm := .empty }
  := rfl

@[simp]
theorem run_now (f : ℤ → Redis α) : run (now >>= f) w = run (f w.now) w
  := rfl

@[simp]
theorem run_lock (mode : LockMode) : run (lock mode >>= f) w = run (f ()) w
  := rfl

@[simp]
theorem run_unlock : run (unlock >>= f) w = run (f ()) w
  := rfl

end

theorem run_bind_of_ok {β : Type} {p : Redis β} {w w' : World} {b : β} (h : run p w = (.ok b, w'))
    (f : β → Redis α) :
  run (p >>= f) w = run (f b) w'
  := Program.run_bind_of_ok h f

theorem run_bind_of_error {β : Type} {p : Redis β} {w w' : World} {e : Fault}
    (h : run p w = (.error e, w')) (f : β → Redis α) :
  run (p >>= f) w = (.error e, w')
  := Program.run_bind_of_error h f

end Redis

end TinyLsm
