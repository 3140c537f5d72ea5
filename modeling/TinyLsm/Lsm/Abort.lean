import TinyLsm.Lsm.Calls
import TinyLsm.Lsm.Tables

/-!
# Aborting an unbuffered transaction

The rollback map notes what the engine holds each time a key is written, so in the end it
has what the last write on the key overwrote.  Aborting therefore puts back the value that
the last write but one left: the value before the transaction if there was only one write
on the key, and otherwise a value of the transaction itself.
-/

namespace TinyLsm

/-- The last call but one on a key. -/
def lastButOneWrite (key : Bytes) (ws : List WriteCall) : Option WriteCall :=
  (ws.reverse.filter (fun w => decide (w.key = key)))[1]?

theorem lastButOneWrite_concat (key : Bytes) (ws : List WriteCall) (w : WriteCall) :
  lastButOneWrite key (ws ++ [w]) =
    if w.key = key then lastWrite key ws else lastButOneWrite key ws
  := by
  rw [lastButOneWrite, List.reverse_concat, List.filter_cons]
  by_cases hkey : w.key = key
  · rw [if_pos (decide_eq_true hkey), if_pos hkey, List.getElem?_cons_succ,
      ← List.head?_eq_getElem?, List.head?_filter]
    rfl
  · rw [if_neg (by simpa using hkey), if_neg hkey]
    rfl

namespace TranContext

variable {ε : Type} [LawfulEngine ε]

/-- The value of a key, as a query without a transaction answers it. -/
def valueAt (e : ε) (key : Bytes) : Option Bytes := (LSMEngine.get e key 0).map Prod.fst

/-- The value a write leaves, unless the engine hides it. -/
def valueLeft (ε : Type) [LawfulEngine ε] : WriteCall → Option Bytes
  | .put _ value =>
      if LawfulEngine.hidesEmpty ε && value.isEmpty then none else some value
  | .remove _ => none

theorem valueAt_apply (trancId : TrancId) (e : ε) (w : WriteCall) (key : Bytes) :
  valueAt (w.apply trancId e) key = if w.key = key then valueLeft ε w else valueAt e key
  := by
  rw [valueAt]
  cases w with
  | put key' value =>
      by_cases hkey : key' = key
      · subst hkey
        rw [WriteCall.apply, LawfulEngine.get_put, WriteCall.key, if_pos rfl, valueLeft]
        split <;> rfl
      · rw [WriteCall.apply, LawfulEngine.get_put_ne _ _ _ _ _ (Ne.symm hkey), WriteCall.key,
          if_neg hkey, valueAt]
  | remove key' =>
      by_cases hkey : key' = key
      · subst hkey
        rw [WriteCall.apply, LawfulEngine.get_remove, WriteCall.key, if_pos rfl]
        rfl
      · rw [WriteCall.apply, LawfulEngine.get_remove_ne _ _ _ _ (Ne.symm hkey), WriteCall.key,
          if_neg hkey, valueAt]

/-! ### What the writes leave -/

theorem write_unbuffered {c : TranContext} (h : c.isolationLevel = .readUnopCommitted) (e : ε)
    (w : WriteCall) :
  (c.write e w).1.rollbackMap = c.rollbackMap.insert w.key (LSMEngine.get e w.key 0) ∧
    (c.write e w).2 = w.apply c.trancId e
  := by
  rw [write_eq, if_pos h]
  exact ⟨(prepare_unbuffered h e _ _ _).1, rfl⟩

/-- The engine holds what the last write on a key left. -/
theorem valueAt_writeAll (trancId : TrancId) (e : ε) (ws : List WriteCall) (key : Bytes) :
  valueAt ((new trancId .readUnopCommitted).writeAll e ws).2 key =
    ((lastWrite key ws).map (valueLeft ε)).getD (valueAt e key)
  := by
  induction ws using List.reverseRecOn with
  | nil => rfl
  | append_singleton ws w ih =>
      have hlevel := isolationLevel_writeAll (new trancId .readUnopCommitted) e ws
      rw [writeAll_concat, (write_unbuffered hlevel _ w).2, valueAt_apply, lastWrite_concat, ih]
      split <;> rfl

/-- The rollback map has what the last write but one on a key left. -/
theorem lookup_rollbackMap_writeAll (trancId : TrancId) (e : ε) (ws : List WriteCall)
    (key : Bytes) :
  (((new trancId .readUnopCommitted).writeAll e ws).1.rollbackMap.lookup key).map
      (Option.map Prod.fst) =
    (lastWrite key ws).map
      (fun _ => ((lastButOneWrite key ws).map (valueLeft ε)).getD (valueAt e key))
  := by
  induction ws using List.reverseRecOn with
  | nil => rfl
  | append_singleton ws w ih =>
      have hlevel := isolationLevel_writeAll (new trancId .readUnopCommitted) e ws
      rw [writeAll_concat, (write_unbuffered hlevel _ w).1, lastWrite_concat,
        lastButOneWrite_concat]
      by_cases hkey : w.key = key
      · rw [if_pos hkey, if_pos hkey, ← valueAt_writeAll trancId, hkey, AList.lookup_insert]
        rfl
      · rw [if_neg hkey, if_neg hkey, AList.lookup_insert_ne (Ne.symm hkey), ih]

/-- An answer of a lawful engine is not hidden when it is put back. -/
def Shown (ε : Type) [LawfulEngine ε] (previous : Option (Bytes × TrancId)) : Prop :=
  ∀ value trancId, previous = some (value, trancId) →
    (LawfulEngine.hidesEmpty ε && value.isEmpty) = false

theorem shown_rollbackMap_writeAll (trancId : TrancId) (e : ε) (ws : List WriteCall) :
  ∀ key previous, ((new trancId .readUnopCommitted).writeAll e ws).1.rollbackMap.lookup key =
    some previous → Shown ε previous
  := by
  induction ws using List.reverseRecOn with
  | nil =>
      intro key previous h
      cases h
  | append_singleton ws w ih =>
      have hlevel := isolationLevel_writeAll (new trancId .readUnopCommitted) e ws
      intro key previous h
      rw [writeAll_concat, (write_unbuffered hlevel _ w).1] at h
      by_cases hkey : key = w.key
      · subst hkey
        rw [AList.lookup_insert] at h
        intro value trancId hprevious
        apply LawfulEngine.get_ne _ _ _ _ ((Option.some.inj h).trans hprevious)
      · rw [AList.lookup_insert_ne hkey] at h
        apply ih key previous h

/-! ### Putting back -/

theorem get_restore (c : TranContext) (e : ε) (key : Bytes)
    {previous : Option (Bytes × TrancId)} (h : Shown ε previous) (key' : Bytes) :
  LSMEngine.get (c.restore e key previous) key' 0 =
    if key' = key then previous else LSMEngine.get e key' 0
  := by
  by_cases hkey : key' = key
  · subst hkey
    rw [if_pos rfl]
    cases previous with
    | none => apply LawfulEngine.get_remove e key' c.trancId
    | some version =>
        obtain ⟨value, trancId⟩ := version
        have hshown := h value trancId rfl
        rw [restore, LawfulEngine.get_put, hshown]
        rfl
  · rw [if_neg hkey]
    cases previous with
    | none => apply LawfulEngine.get_remove_ne e key c.trancId key' hkey
    | some version => apply LawfulEngine.get_put_ne e key version.1 version.2 key' hkey

/-- Putting back the pairs of a map, in any order, puts back what it has for each key. -/
theorem get_foldl_restore (c : TranContext) (key : Bytes) :
  ∀ (rollbacks : Iteration (Option (Bytes × TrancId))) (e : ε), rollbacks.NodupKeys →
    (∀ r ∈ rollbacks, Shown ε r.2) →
    LSMEngine.get (rollbacks.foldl (fun e r => c.restore e r.1 r.2) e) key 0 =
      (rollbacks.dlookup key).getD (LSMEngine.get e key 0)
  | [], _, _, _ => rfl
  | ⟨key', previous⟩ :: rollbacks, e, hnodup, hshown => by
      obtain ⟨hnotMem, hnodup'⟩ := List.nodupKeys_cons.mp hnodup
      rw [List.foldl_cons, get_foldl_restore c key rollbacks _ hnodup'
        (fun r hr => hshown r (List.mem_cons_of_mem _ hr)),
        get_restore c e key' (hshown _ List.mem_cons_self)]
      by_cases hkey : key = key'
      · subst hkey
        rw [if_pos rfl, List.dlookup_eq_none.mpr hnotMem, List.dlookup_cons_eq]
        rfl
      · rw [if_neg hkey, List.dlookup_cons_ne _ _ hkey]

theorem lastButOneWrite_eq_none {key : Bytes} {ws : List WriteCall}
    (h : lastWrite key ws = none) :
  lastButOneWrite key ws = none
  := by
  have hnil : ws.reverse.filter (fun w => decide (w.key = key)) = [] := by
    apply List.filter_eq_nil_iff.mpr
    intro w hw
    rw [decide_eq_true_iff]
    apply lastWrite_eq_none.mp h w (List.mem_reverse.mp hw)
  rw [lastButOneWrite, hnil]
  rfl

/-- Aborting leaves, for each key, what the last write but one on it left, or else the value
before the transaction. -/
theorem valueAt_abort (trancId : TrancId) (e : ε) (ws : List WriteCall) (m : TranManager)
    {rollbacks : Iteration (Option (Bytes × TrancId))}
    (h : rollbacks.Perm
      ((new trancId .readUnopCommitted).writeAll e ws).1.rollbackMap.entries) (key : Bytes) :
  valueAt (((new trancId .readUnopCommitted).writeAll e ws).1.abort
      ((new trancId .readUnopCommitted).writeAll e ws).2 m rollbacks).2.2.1 key =
    ((lastButOneWrite key ws).map (valueLeft ε)).getD (valueAt e key)
  := by
  have hlevel := isolationLevel_writeAll (new trancId .readUnopCommitted) e ws
  have hlookup := lookup_rollbackMap_writeAll trancId e ws key
  have hshown := shown_rollbackMap_writeAll trancId e ws
  have hvalue := valueAt_writeAll trancId e ws key
  generalize ((new trancId .readUnopCommitted).writeAll e ws).1 = c at *
  generalize ((new trancId .readUnopCommitted).writeAll e ws).2 = e' at *
  have hnodup : rollbacks.NodupKeys := (List.perm_nodupKeys h).mpr c.rollbackMap.nodupKeys
  have habort : (c.abort e' m rollbacks).2.2.1 =
      rollbacks.foldl (fun e r => c.restore e r.1 r.2) e' := if_pos hlevel
  have hdlookup : rollbacks.dlookup key = c.rollbackMap.lookup key :=
    List.perm_dlookup key hnodup h
  have hputBack : ∀ r ∈ rollbacks, Shown ε r.2 := by
    intro r hr
    apply hshown r.1 r.2 (AList.mem_lookup_iff.mpr (h.mem_iff.mp hr))
  rw [habort, valueAt, get_foldl_restore c key rollbacks e' hnodup hputBack, hdlookup]
  cases hprevious : c.rollbackMap.lookup key with
  | none =>
      rw [hprevious, Option.map_none] at hlookup
      have hlast := Option.map_eq_none_iff.mp hlookup.symm
      rw [lastButOneWrite_eq_none hlast]
      rw [hlast] at hvalue
      apply hvalue
  | some previous =>
      rw [hprevious, Option.map_some] at hlookup
      obtain ⟨w, -, hw⟩ := Option.map_eq_some_iff.mp hlookup.symm
      apply hw.symm

/-- Aborting leaves a key with the value before the transaction exactly when it has been
written at most once, or the last write but one on it left just that value. -/
theorem abort_restores_iff (trancId : TrancId) (e : ε) (ws : List WriteCall) (m : TranManager)
    {rollbacks : Iteration (Option (Bytes × TrancId))}
    (h : rollbacks.Perm
      ((new trancId .readUnopCommitted).writeAll e ws).1.rollbackMap.entries) :
  (∀ key, valueAt (((new trancId .readUnopCommitted).writeAll e ws).1.abort
      ((new trancId .readUnopCommitted).writeAll e ws).2 m rollbacks).2.2.1 key =
    valueAt e key) ↔
  ∀ key w, lastButOneWrite key ws = some w → valueLeft ε w = valueAt e key
  := by
  apply forall_congr'
  intro key
  rw [valueAt_abort trancId e ws m h key]
  cases lastButOneWrite key ws with
  | none =>
      constructor
      · intro _ w hw
        cases hw
      · intro _
        rfl
  | some w =>
      constructor
      · intro hvalue w' hw'
        rw [← Option.some.inj hw']
        apply hvalue
      · intro hvalue
        apply hvalue w rfl

/-- A key written twice keeps the value first written. -/
theorem not_abort_restores_rewritten :
  ¬ ∀ key, valueAt (((new 1 .readUnopCommitted).writeAll ({} : Tables)
      [.put [1] [7], .put [1] [8]]).1.abort
    ((new 1 .readUnopCommitted).writeAll ({} : Tables) [.put [1] [7], .put [1] [8]]).2 {}
    [⟨[1], some ([7], 1)⟩]).2.2.1 key = valueAt ({} : Tables) key
  := by
  intro h
  exact absurd (h [1]) (by decide)

/-- One key is put and another one removed, each once. -/
theorem abort_restores_rewritten :
  (∀ key, valueAt (((new 2 .readUnopCommitted).writeAll
      (({} : Tables).put ⟨[1], [7], 1⟩) [.put [2] [8], .remove [1]]).1.abort
    ((new 2 .readUnopCommitted).writeAll
      (({} : Tables).put ⟨[1], [7], 1⟩) [.put [2] [8], .remove [1]]).2 {}
    [⟨[2], none⟩, ⟨[1], some ([7], 1)⟩]).2.2.1 key =
      valueAt (({} : Tables).put ⟨[1], [7], 1⟩) key) ↔
  ∀ key w, lastButOneWrite key [.put [2] [8], .remove [1]] = some w →
    valueLeft Tables w = valueAt (({} : Tables).put ⟨[1], [7], 1⟩) key
  := abort_restores_iff 2 _ _ {} (by decide)

end TranContext

end TinyLsm
