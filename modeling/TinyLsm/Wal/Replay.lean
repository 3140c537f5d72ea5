import TinyLsm.Lsm.Calls
import TinyLsm.Lsm.Tables
import TinyLsm.SkipList.Refinement

/-!
# Replaying the log

The log has every write of a transaction in order, while the temporary map has the last one
on each key.  Replaying the first or applying the second puts the same version of each key
before those a skip list has, whatever the order of the map.
-/

namespace TinyLsm

/-- The version a record is replayed as: a removal as an empty value, and the records that
are not writes not at all. -/
def Record.entry? (r : Record) : Option Entry :=
  match r.operationType with
  | .opPut => some ⟨r.key, r.value, r.trancId⟩
  | .opDelete => some ⟨r.key, [], r.trancId⟩
  | .opCreate | .opCommit | .opRollback | .unnamed _ _ => none

namespace SkipList

/-- Put versions one after the other, each with coin flips of its own. -/
def putAll (s : SkipList) (flips : ℕ → List Bool) : List Entry → Except Fault SkipList
  | [] => .ok s
  | e :: es => do
      let s' ← s.put (flips 0) e.key e.value e.trancId
      putAll s' (fun i => flips (i + 1)) es

def replay (s : SkipList) (flips : ℕ → List Bool) (records : List Record) :
    Except Fault SkipList :=
  s.putAll flips (records.filterMap Record.entry?)

def applyTempMap (s : SkipList) (flips : ℕ → List Bool) (trancId : TrancId)
    (writes : Iteration Bytes) : Except Fault SkipList :=
  s.putAll flips (tempEntries trancId writes)

/-- After several puts, the first version of a key is the last one put, or else the one
there was. -/
theorem Chained.putAll_eq :
  ∀ {s : SkipList} {chain : List Ref}, s.Chained chain →
    ∀ (flips : ℕ → List Bool) (es : List Entry),
      ∃ s' chain', s.putAll flips es = .ok s' ∧ s'.Chained chain' ∧
        ∀ key, topVersion key (s'.versions chain') =
          (topVersion key es.reverse).or (topVersion key (s.versions chain))
  | s, chain, h, _, [] => ⟨s, chain, rfl, h, fun _ => rfl⟩
  | s, chain, h, flips, e :: es => by
      obtain ⟨s₁, chain₁, hput, h₁, hversions, -⟩ := h.put_eq (flips 0) e.key e.value e.trancId
      obtain ⟨s₂, chain₂, hputAll, h₂, htop⟩ := putAll_eq h₁ (fun i => flips (i + 1)) es
      use s₂, chain₂
      rw [putAll, Except.bind_eq_of_ok _ hput]
      refine ⟨hputAll, h₂, ?_⟩
      intro key
      rw [htop key, hversions, topVersion_insertVersion]
      simp only [topVersion, List.reverse_cons, List.find?_append, Option.or_assoc]
      congr 1
      rw [List.find?_singleton]
      by_cases hkey : e.key = key
      · rw [if_pos hkey, if_pos (decide_eq_true hkey)]
        rfl
      · rw [if_neg hkey, if_neg (by simpa using hkey)]
        rfl

/-- Several puts leave the same first version of each key as others do, when the last
version of each key among them is the same. -/
theorem Chained.lookup_putAll {s : SkipList} {chain : List Ref} (h : s.Chained chain)
    (flips flips' : ℕ → List Bool) {es es' : List Entry}
    (hlast : ∀ key, topVersion key es.reverse = topVersion key es'.reverse) :
  ∃ s₁ s₂, s.putAll flips es = .ok s₁ ∧ s.putAll flips' es' = .ok s₂ ∧
    ∀ key trancId, ∃ version, s₁.lookup key trancId = .ok version ∧
      s₂.lookup key trancId = .ok version
  := by
  obtain ⟨s₁, chain₁, hput₁, h₁, htop₁⟩ := h.putAll_eq flips es
  obtain ⟨s₂, chain₂, hput₂, h₂, htop₂⟩ := h.putAll_eq flips' es'
  use s₁, s₂, hput₁, hput₂
  intro key trancId
  refine ⟨_, h₁.lookup_eq key trancId, ?_⟩
  rw [h₂.lookup_eq key trancId, htop₁ key, htop₂ key, hlast key]

end SkipList

/-! ### The last version of a key -/

/-- Looking a key up in a list of pairs finds the first version of it. -/
theorem topVersion_tempEntries (key : Bytes) (trancId : TrancId) :
  ∀ writes : Iteration Bytes, topVersion key (tempEntries trancId writes) =
    (writes.dlookup key).map (fun value => ⟨key, value, trancId⟩)
  | [] => rfl
  | ⟨key', value⟩ :: writes => by
      rw [tempEntries, List.map_cons, topVersion, List.find?_cons]
      by_cases hkey : key' = key
      · subst hkey
        rw [decide_eq_true rfl, List.dlookup_cons_eq]
        rfl
      · rw [decide_eq_false hkey, List.dlookup_cons_ne _ _ (Ne.symm hkey)]
        apply topVersion_tempEntries key trancId writes

/-- In any order, the last version of a key is the one the map has. -/
theorem topVersion_iteration {key : Bytes} {trancId : TrancId} {tempMap : UnorderedMap Bytes}
    {writes : Iteration Bytes} (h : writes.Perm tempMap.entries) :
  topVersion key (tempEntries trancId writes).reverse =
    (tempMap.lookup key).map (fun value => ⟨key, value, trancId⟩)
  := by
  have hperm : writes.reverse.Perm tempMap.entries := (List.reverse_perm writes).trans h
  rw [tempEntries, ← List.map_reverse, ← tempEntries, topVersion_tempEntries]
  rw [List.perm_dlookup key ((List.perm_nodupKeys hperm).mpr tempMap.nodupKeys) hperm]
  rfl

namespace TranContext

variable {ε : Type} [LSMEngine ε]

/-- The temporary map has the last write on each key. -/
theorem lookup_tempMap_writeAll (trancId : TrancId) {level : IsolationLevel}
    (h : level.Buffered) (e : ε) (key : Bytes) (ws : List WriteCall) :
  ((new trancId level).writeAll e ws).1.tempMap.lookup key =
    (lastWrite key ws).map WriteCall.value
  := by
  induction ws using List.reverseRecOn with
  | nil => rfl
  | append_singleton ws w ih =>
      have hlevel : ((new trancId level).writeAll e ws).1.isolationLevel.Buffered := by
        rw [isolationLevel_writeAll]
        apply h
      rw [writeAll_concat, write_eq, tempMap_prepare hlevel, lastWrite_concat]
      by_cases hkey : w.key = key
      · rw [if_pos hkey, hkey, AList.lookup_insert]
        rfl
      · rw [if_neg hkey, AList.lookup_insert_ne (Ne.symm hkey), ih]

/-- The records of a transaction are replayed as its writes in order. -/
theorem entries_operations_writeAll (trancId : TrancId) (level : IsolationLevel) (e : ε)
    (ws : List WriteCall) :
  ((new trancId level).writeAll e ws).1.operations.filterMap Record.entry? =
    ws.map (fun w => ⟨w.key, w.value, trancId⟩)
  := by
  induction ws using List.reverseRecOn with
  | nil => rfl
  | append_singleton ws w ih =>
      rw [writeAll_concat, write_eq, operations_prepare, List.filterMap_append, ih,
        List.map_append, trancId_writeAll]
      cases w with
      | put key value => rfl
      | remove key => rfl

theorem topVersion_writes (key : Bytes) (trancId : TrancId) (ws : List WriteCall) :
  topVersion key (ws.map (fun w => (⟨w.key, w.value, trancId⟩ : Entry))).reverse =
    (lastWrite key ws).map (fun w => ⟨key, w.value, trancId⟩)
  := by
  induction ws using List.reverseRecOn with
  | nil => rfl
  | append_singleton ws w ih =>
      rw [List.map_append, List.map_singleton, List.reverse_concat, topVersion, List.find?_cons,
        lastWrite_concat]
      by_cases hkey : w.key = key
      · rw [decide_eq_true hkey, if_pos hkey, hkey]
        rfl
      · rw [decide_eq_false hkey, if_neg hkey]
        apply ih

/-- Replaying the records a commit logs gives what applying the temporary map gives, on any
chained skip list, for any order of the map and any coin flips. -/
theorem replay_commitRecords (trancId : TrancId) {level : IsolationLevel}
    (hlevel : level.Buffered) (e : ε) (ws : List WriteCall) {writes : Iteration Bytes}
    (hwrites : writes.Perm ((new trancId level).writeAll e ws).1.tempMap.entries)
    {s : SkipList} {chain : List Ref} (hs : s.Chained chain) (flips flips' : ℕ → List Bool) :
  ∃ s₁ s₂, s.replay flips ((new trancId level).writeAll e ws).1.commitRecords = .ok s₁ ∧
    s.applyTempMap flips' trancId writes = .ok s₂ ∧
    ∀ key, ∃ version, s₁.lookup key 0 = .ok version ∧ s₂.lookup key 0 = .ok version
  := by
  have hlast : ∀ key, topVersion key (((new trancId level).writeAll e ws).1.commitRecords.filterMap
      Record.entry?).reverse = topVersion key (tempEntries trancId writes).reverse := by
    intro key
    have hcommit : [Record.commitRecord ((new trancId level).writeAll e ws).1.trancId].filterMap
        Record.entry? = [] := rfl
    rw [commitRecords, List.filterMap_append, hcommit, List.append_nil,
      entries_operations_writeAll, topVersion_writes, topVersion_iteration hwrites,
      lookup_tempMap_writeAll trancId hlevel, Option.map_map]
    rfl
  obtain ⟨s₁, s₂, h₁, h₂, hlookup⟩ := hs.lookup_putAll flips flips' hlast
  exact ⟨s₁, s₂, h₁, h₂, fun key => hlookup key 0⟩

/-- Two puts and a removal, with the map in the other order, on an empty skip list. -/
theorem replay_commitRecords_overwritten :
  ∃ s₁ s₂, (SkipList.empty 4).replay (fun _ => [true, false])
      ((new 3 .repeatableRead).writeAll ({} : Tables)
        [.put [1] [7], .put [2] [8], .remove [1]]).1.commitRecords = .ok s₁ ∧
    (SkipList.empty 4).applyTempMap (fun _ => []) 3 [⟨[2], [8]⟩, ⟨[1], []⟩] = .ok s₂ ∧
    ∀ key, ∃ version, s₁.lookup key 0 = .ok version ∧ s₂.lookup key 0 = .ok version
  := replay_commitRecords 3 (by decide) ({} : Tables) [.put [1] [7], .put [2] [8], .remove [1]]
    (by decide) (SkipList.chained_empty (by decide)) _ _

end TranContext

end TinyLsm
