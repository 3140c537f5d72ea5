import TinyLsm.Lsm.Calls
import TinyLsm.Lsm.Tables

/-!
# What a buffered transaction reads

A buffered transaction reads what it wrote last, a removal as the empty value, and otherwise
what it has read before or what the engine answers.  At the levels that keep what they read,
the engine is asked about a key only once, so that what it answers later does not matter.
-/

namespace TinyLsm

namespace TranContext

variable {ε : Type} [LSMEngine ε]

/-! ### What calls keep -/

/-- Only the writes of a buffered transaction change what it keeps. -/
theorem tempMap_next {c : TranContext} (h : c.isolationLevel.Buffered) (s : Step ε) :
  (c.next s).tempMap = match s.call with
    | .write w => c.tempMap.insert w.key w.value
    | _ => c.tempMap
  := by
  obtain ⟨e, m, call⟩ := s
  cases call with
  | write w => rw [next, TranContext.call, write_eq, tempMap_prepare h]
  | get key =>
      obtain ⟨_, hget⟩ := get_context c e key
      rw [next, TranContext.call, hget]
  | commit writes walOk testFail =>
      obtain ⟨_, _, _, hcommit⟩ := commit_context c e m writes walOk testFail
      rw [next, TranContext.call, hcommit]
  | abort rollbacks => rfl

/-- The temporary map has the last write on each key. -/
theorem lookup_tempMap_after (trancId : TrancId) {level : IsolationLevel} (h : level.Buffered)
    (key : Bytes) (steps : List (Step ε)) :
  ((new trancId level).after steps).tempMap.lookup key =
    (lastWrite key (writesOf steps)).map WriteCall.value
  := by
  induction steps using List.reverseRecOn with
  | nil => rfl
  | append_singleton steps s ih =>
      have hlevel : ((new trancId level).after steps).isolationLevel.Buffered := by
        rw [isolationLevel_after]
        apply h
      rw [after_concat, tempMap_next hlevel, writesOf_concat]
      cases s.call with
      | write w =>
          dsimp only
          rw [lastWrite_concat]
          by_cases hkey : w.key = key
          · rw [if_pos hkey, hkey, AList.lookup_insert]
            rfl
          · rw [if_neg hkey, AList.lookup_insert_ne (Ne.symm hkey), ih]
      | get key' => rw [List.append_nil, ih]
      | commit writes walOk testFail => rw [List.append_nil, ih]
      | abort rollbacks => rw [List.append_nil, ih]

/-! ### The read map -/

/-- What the read map or else the engine has for a key. -/
def readOrGet (c : TranContext) (e : ε) (key : Bytes) : Option (Bytes × TrancId) :=
  (c.readMap.lookup key).getD (LSMEngine.get e key c.trancId)

/-- A read of a key that is not kept is a query. -/
theorem get_of_lookup_none {c : TranContext} {key : Bytes} (h : c.tempMap.lookup key = none)
    (e : ε) :
  c.get e key = ((c.query e key).1.map Prod.fst, (c.query e key).2)
  := by
  rw [get, h]

/-- The levels that keep what they read ask the engine about a key they have not read, and
keep the answer. -/
theorem query_checked {c : TranContext} (h : c.isolationLevel.Checked) (e : ε) (key : Bytes) :
  (c.query e key).1 = c.readOrGet e key ∧
    (c.query e key).2.readMap.lookup key = some (c.readOrGet e key) ∧
    ∀ key', key' ≠ key → (c.query e key).2.readMap.lookup key' = c.readMap.lookup key'
  := by
  have hquery : c.query e key = (c.readMap.lookup key).elim
      (LSMEngine.get e key c.trancId,
        { c with readMap := c.readMap.insert key (LSMEngine.get e key c.trancId) })
      (fun query => (query, c)) := by
    rw [query]
    split
    next hlevel => exact absurd hlevel h.buffered
    next hlevel =>
      rw [hlevel] at h
      rcases h with h | h <;> cases h
    next =>
      cases c.readMap.lookup key with
      | some query => rfl
      | none => rfl
  rw [hquery, readOrGet]
  cases hlookup : c.readMap.lookup key with
  | some query => exact ⟨rfl, hlookup, fun _ _ => rfl⟩
  | none =>
      refine ⟨rfl, AList.lookup_insert _, ?_⟩
      intro key' hkey
      apply AList.lookup_insert_ne hkey

theorem query_readOpCommitted {c : TranContext} (h : c.isolationLevel = .readOpCommitted)
    (e : ε) (key : Bytes) :
  c.query e key = (LSMEngine.get e key c.trancId, c)
  := by
  rw [query, h]

/-- A query leaves the context as it is, except at the levels that keep what they read. -/
theorem query_cases (c : TranContext) (e : ε) (key : Bytes) :
  (c.query e key).2 = c ∨ c.isolationLevel.Checked
  := by
  rw [query]
  split
  · exact .inl rfl
  · exact .inl rfl
  next hunbuffered hreadOp =>
    right
    cases hlevel : c.isolationLevel with
    | readUnopCommitted => exact absurd hlevel hunbuffered
    | readOpCommitted => exact absurd hlevel hreadOp
    | repeatableRead => exact .inl rfl
    | serializable => exact .inr rfl

/-- What has been read stays read. -/
theorem lookup_readMap_next {c : TranContext} {key : Bytes} {query : Option (Bytes × TrancId)}
    (h : c.readMap.lookup key = some query) (s : Step ε) :
  (c.next s).readMap.lookup key = some query
  := by
  obtain ⟨e, m, call⟩ := s
  cases call with
  | write w => rwa [next, TranContext.call, write_eq, readMap_prepare]
  | get key' =>
      rw [next, TranContext.call]
      dsimp only
      cases htemp : c.tempMap.lookup key' with
      | some value =>
          rw [get, htemp]
          apply h
      | none =>
          rw [get_of_lookup_none htemp]
          rcases query_cases c e key' with hsame | hlevel
          · rw [hsame]
            apply h
          · obtain ⟨-, hself, hother⟩ := query_checked hlevel e key'
            by_cases hkey : key = key'
            · subst hkey
              rw [hself, readOrGet, h]
              rfl
            · rwa [hother key hkey]
  | commit writes walOk testFail =>
      obtain ⟨_, _, _, hcommit⟩ := commit_context c e m writes walOk testFail
      rwa [next, TranContext.call, hcommit]
  | abort rollbacks => apply h

theorem lookup_readMap_after {c : TranContext} {key : Bytes}
    {query : Option (Bytes × TrancId)} (h : c.readMap.lookup key = some query)
    (steps : List (Step ε)) :
  (c.after steps).readMap.lookup key = some query
  := by
  induction steps using List.reverseRecOn with
  | nil => apply h
  | append_singleton steps s ih =>
      rw [after_concat]
      apply lookup_readMap_next ih s

/-- At the level `READ_OP_COMMITTED` nothing is kept of what is read. -/
theorem readMap_after (trancId : TrancId) (steps : List (Step ε)) :
  ((new trancId .readOpCommitted).after steps).readMap = ∅
  := by
  induction steps using List.reverseRecOn with
  | nil => rfl
  | append_singleton steps s ih =>
      have hlevel := isolationLevel_after (new trancId .readOpCommitted) steps
      rw [after_concat]
      obtain ⟨e, m, call⟩ := s
      cases call with
      | write w => rwa [next, TranContext.call, write_eq, readMap_prepare]
      | get key =>
          rw [next, TranContext.call]
          dsimp only
          cases htemp : ((new trancId .readOpCommitted).after steps).tempMap.lookup key with
          | some value =>
              rw [get, htemp]
              apply ih
          | none =>
              rw [get_of_lookup_none htemp, query_readOpCommitted hlevel]
              apply ih
      | commit writes walOk testFail =>
          obtain ⟨_, _, _, hcommit⟩ := commit_context
            ((new trancId .readOpCommitted).after steps) e m writes walOk testFail
          rwa [next, TranContext.call, hcommit]
      | abort rollbacks => apply ih

/-- What a buffered transaction has not written it reads from its read map, or else from the
engine. -/
theorem get_unwritten (trancId : TrancId) {level : IsolationLevel} (h : level.Buffered)
    (steps : List (Step ε)) (e : ε) {key : Bytes}
    (hkey : lastWrite key (writesOf steps) = none) :
  (((new trancId level).after steps).get e key).1 =
    (((new trancId level).after steps).readOrGet e key).map Prod.fst
  := by
  have htemp := lookup_tempMap_after trancId h key steps
  rw [hkey, Option.map_none] at htemp
  have hlevel := isolationLevel_after (new trancId level) steps
  rw [get_of_lookup_none htemp]
  cases level with
  | readUnopCommitted => exact absurd rfl h
  | readOpCommitted =>
      rw [query_readOpCommitted hlevel, readOrGet, readMap_after]
      rfl
  | repeatableRead => rw [(query_checked (.inl hlevel) e key).1]
  | serializable => rw [(query_checked (.inr hlevel) e key).1]

/-! ### Own writes -/

/-- A transaction reads its own last write on a key, a removal as no value, and what it has
read or the engine answers for a key it has not written. -/
def ReadsOwnWrites (c : TranContext) (e : ε) (ws : List WriteCall) (key : Bytes) : Prop :=
  match lastWrite key ws with
  | some (.put _ value) => value ≠ [] → (c.get e key).1 = some value
  | some (.remove _) => (c.get e key).1 = none
  | none => (c.get e key).1 = (c.readOrGet e key).map Prod.fst

/-- A buffered transaction reads its own writes of a key exactly when the last of them is not
a removal. -/
theorem readsOwnWrites_iff (trancId : TrancId) {level : IsolationLevel} (h : level.Buffered)
    (steps : List (Step ε)) (e : ε) (key : Bytes) :
  ReadsOwnWrites ((new trancId level).after steps) e (writesOf steps) key ↔
    lastWrite key (writesOf steps) ≠ some (.remove key)
  := by
  have htemp := lookup_tempMap_after trancId h key steps
  rw [ReadsOwnWrites]
  cases hlast : lastWrite key (writesOf steps) with
  | none =>
      constructor
      · intro _ hremove
        cases hremove
      · intro _
        apply get_unwritten trancId h steps e hlast
  | some w =>
      rw [hlast, Option.map_some] at htemp
      cases w with
      | put key' value =>
          constructor
          · intro _ hremove
            cases hremove
          · intro _ _
            rw [get, htemp]
            rfl
      | remove key' =>
          constructor
          · intro hnone
            rw [get, htemp] at hnone
            cases hnone
          · intro hremove
            have hkey : key' = key := lastWrite_key hlast
            exact absurd (by rw [hkey]) hremove

/-- A transaction that puts a key and removes it reads the empty value. -/
theorem not_readsOwnWrites_removed :
  ¬ ReadsOwnWrites ((new 1 .readOpCommitted).after
      [⟨({} : Tables), {}, .write (.put [1] [7])⟩, ⟨{}, {}, .write (.remove [1])⟩])
    ({} : Tables) [.put [1] [7], .remove [1]] [1]
  := by
  intro h
  have hnone : some [] = none := h
  cases hnone

/-- A transaction that removes a key and puts it again reads what it put. -/
theorem readsOwnWrites_put :
  ReadsOwnWrites ((new 1 .serializable).after
      [⟨({} : Tables), {}, .write (.remove [1])⟩, ⟨{}, {}, .write (.put [1] [7])⟩])
    ({} : Tables) [.remove [1], .put [1] [7]] [1] ↔
  lastWrite [1] [.remove [1], .put [1] [7]] ≠ some (.remove [1])
  := readsOwnWrites_iff 1 (by decide)
    [⟨({} : Tables), {}, .write (.remove [1])⟩, ⟨{}, {}, .write (.put [1] [7])⟩] {} [1]

/-! ### Repeated reads -/

/-- At the levels that keep what they read, two reads of a key answer the same if the key is
not written before the second one, whatever engines the calls find. -/
theorem get_repeatable (trancId : TrancId) {level : IsolationLevel} (h : level.Checked)
    (steps steps' : List (Step ε)) (first second : ε) (m : TranManager) {key : Bytes}
    (hkey : ∀ w ∈ writesOf (steps ++ steps'), w.key ≠ key) :
  (((new trancId level).after (steps ++ ⟨first, m, .get key⟩ :: steps')).get second key).1 =
    (((new trancId level).after steps).get first key).1
  := by
  have hwrites : writesOf (steps ++ ⟨first, m, .get key⟩ :: steps') =
      writesOf steps ++ writesOf steps' := by
    rw [writesOf, List.filterMap_append, List.filterMap_cons]
    rfl
  have hnone : ∀ w ∈ writesOf steps ++ writesOf steps', w.key ≠ key := by
    rw [writesOf, List.filterMap_append] at hkey
    apply hkey
  have hlevel : ((new trancId level).after steps).isolationLevel.Checked := by
    rw [isolationLevel_after]
    apply h
  have htemp := lookup_tempMap_after trancId h.buffered key steps
  rw [lastWrite_eq_none.mpr (fun w hw => hnone w (List.mem_append_left _ hw)),
    Option.map_none] at htemp
  obtain ⟨hanswer, hread, -⟩ := query_checked hlevel first key
  have hnext : (((new trancId level).after steps).next ⟨first, m, .get key⟩).readMap.lookup key =
      some (((new trancId level).after steps).readOrGet first key) := by
    rw [next, TranContext.call, get_of_lookup_none htemp]
    apply hread
  have hlast : lastWrite key (writesOf (steps ++ ⟨first, m, .get key⟩ :: steps')) = none := by
    rw [hwrites]
    apply lastWrite_eq_none.mpr hnone
  rw [get_unwritten trancId h.buffered _ second hlast, get_of_lookup_none htemp, hanswer]
  congr 1
  rw [after_append]
  apply congrArg (Option.getD · _) (lookup_readMap_after hnext steps')

/-- A read repeated after another transaction has put the key. -/
theorem get_repeatable_overwritten :
  (((new 2 .repeatableRead).after ([⟨({} : Tables).put ⟨[1], [7], 1⟩, {}, .write (.put [2] [9])⟩] ++
      ⟨({} : Tables).put ⟨[1], [7], 1⟩, {}, .get [1]⟩ :: [⟨{}, {}, .commit [⟨[2], [9]⟩] true false⟩])
    ).get ((({} : Tables).put ⟨[1], [7], 1⟩).put ⟨[1], [8], 2⟩) [1]).1 =
    (((new 2 .repeatableRead).after
      [⟨({} : Tables).put ⟨[1], [7], 1⟩, {}, .write (.put [2] [9])⟩]).get
        (({} : Tables).put ⟨[1], [7], 1⟩) [1]).1
  := get_repeatable 2 (.inl rfl) _ _ _ _ _ (by decide)

end TranContext

end TinyLsm
