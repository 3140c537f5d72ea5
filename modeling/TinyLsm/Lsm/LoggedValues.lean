import TinyLsm.Lsm.Past
import TinyLsm.Lsm.Recovery

/-!
# Logged values

What a transaction had written when it committed last, according to the history; what the
records in a log have of a transaction; and the first version of a key in a table whose id
satisfies a condition.
-/

namespace TinyLsm

/-! ### The last committed writes -/

namespace History

/-- The value a transaction had last written to a key when it committed last. -/
def committedValue (trancId : TrancId) (key : Bytes) : History → Option Bytes
  | [] => none
  | o :: h =>
      if o = .committed trancId then lastWritten trancId key h else committedValue trancId key h

theorem lastWritten_isSome_cons {trancId : TrancId} {key : Bytes} (o : Occurrence) {h : History}
    (hlast : (lastWritten trancId key h).isSome) :
  (lastWritten trancId key (o :: h)).isSome
  := by
  rw [lastWritten_cons, Option.isSome_or, hlast, Bool.or_true]

theorem lastWritten_isSome_of_committed {trancId : TrancId} {key : Bytes} :
  ∀ {h : History}, (committedValue trancId key h).isSome → (lastWritten trancId key h).isSome
  | o :: h, hsome => by
      apply lastWritten_isSome_cons o
      rw [committedValue] at hsome
      split at hsome
      · apply hsome
      · apply lastWritten_isSome_of_committed hsome

/-- A value stays committed. -/
theorem committedValue_isSome_append {trancId : TrancId} {key : Bytes} {h : History}
    (hsome : (committedValue trancId key h).isSome) :
  ∀ h' : History, (committedValue trancId key (h' ++ h)).isSome
  | [] => hsome
  | o :: h' => by
      rw [List.cons_append, committedValue]
      have ih := committedValue_isSome_append hsome h'
      split
      · apply lastWritten_isSome_of_committed ih
      · apply ih

/-- Occurrences that are not commits of a transaction leave what it has committed. -/
theorem committedValue_append {trancId : TrancId} {key : Bytes} {h : History} :
  ∀ {h' : History}, .committed trancId ∉ h' →
    committedValue trancId key (h' ++ h) = committedValue trancId key h
  | [], _ => rfl
  | o :: h', hnot => by
      obtain ⟨hne, hnot⟩ := not_or.mp (fun h => hnot (List.mem_cons.mpr h))
      rw [List.cons_append, committedValue, if_neg (Ne.symm hne), committedValue_append hnot]

/-- Versions that were written before the history are of no transaction in it. -/
theorem lastWritten_ofVersions (trancId : TrancId) (key : Bytes) (h : History) (es : List Entry) :
  lastWritten trancId key (h ++ ofVersions es) = lastWritten trancId key h
  := by
  have hnone : lastWritten trancId key (ofVersions es) = none := by
    apply List.findSome?_eq_none_iff.mpr
    intro o ho
    obtain ⟨e, -, rfl | rfl⟩ := mem_ofVersions.mp ho <;> rfl
  rw [lastWritten, List.findSome?_append, ← lastWritten, ← lastWritten, hnone, Option.or_none]

theorem committedValue_ofVersions (trancId : TrancId) (key : Bytes) (es : List Entry) :
  ∀ h : History, committedValue trancId key (h ++ ofVersions es) = committedValue trancId key h
  | [] => by
      have hnot : .committed trancId ∉ ofVersions es := by
        intro hmem
        obtain ⟨e, -, heq | heq⟩ := mem_ofVersions.mp hmem <;> cases heq
      rw [List.nil_append, ← List.append_nil (ofVersions es), committedValue_append hnot]
  | o :: h => by
      rw [List.cons_append, committedValue, committedValue, lastWritten_ofVersions,
        committedValue_ofVersions trancId key es h]

end History

/-! ### The last logged writes -/

/-- The value a record writes as a given transaction to a given key. -/
def Record.written? (trancId : TrancId) (key : Bytes) (r : Record) : Option Bytes :=
  match Record.entry? r with
  | some e => if e.trancId = trancId ∧ e.key = key then some e.value else none
  | none => none

/-- The value that the last record of a write of a transaction to a key writes. -/
def loggedValue (trancId : TrancId) (key : Bytes) (records : List Record) : Option Bytes :=
  records.reverse.findSome? (Record.written? trancId key)

theorem loggedValue_append (trancId : TrancId) (key : Bytes) (records records' : List Record) :
  loggedValue trancId key (records ++ records') =
    (loggedValue trancId key records').or (loggedValue trancId key records)
  := by
  rw [loggedValue, List.reverse_append, List.findSome?_append]
  rfl

theorem Record.entry?_trancId {r : Record} {e : Entry} (h : Record.entry? r = some e) :
  e.trancId = r.trancId
  := by
  rw [Record.entry?] at h
  split at h
  · rw [← Option.some.inj h]
  · rw [← Option.some.inj h]
  all_goals cases h

theorem Record.written?_of_ne {trancId : TrancId} {r : Record} (key : Bytes)
    (h : r.trancId ≠ trancId) :
  r.written? trancId key = none
  := by
  rw [written?]
  split
  next e he => rw [if_neg (fun h' => h (entry?_trancId he ▸ h'.1))]
  next => rfl

/-- Records of other transactions write nothing for a transaction. -/
theorem loggedValue_of_ne {trancId : TrancId} (key : Bytes) {records : List Record}
    (h : ∀ r ∈ records, r.trancId ≠ trancId) :
  loggedValue trancId key records = none
  := by
  apply List.findSome?_eq_none_iff.mpr
  intro r hr
  apply Record.written?_of_ne key (h r (List.mem_reverse.mp hr))

theorem loggedValue_commitRecord (trancId trancId' : TrancId) (key : Bytes) :
  loggedValue trancId key [Record.commitRecord trancId'] = none
  := rfl

theorem loggedValue_record (trancId : TrancId) (key : Bytes) (w : WriteCall) :
  loggedValue trancId key [w.record trancId] = if w.key = key then some w.value else none
  := by
  have hwritten : (w.record trancId).written? trancId key =
      if w.key = key then some w.value else none := by
    cases w with
    | put key' value => exact if_congr (and_iff_right rfl) rfl rfl
    | remove key' => exact if_congr (and_iff_right rfl) rfl rfl
  rw [loggedValue, List.reverse_singleton, List.findSome?_singleton, hwritten]

/-- The first version of a key whose id satisfies a condition. -/
def firstVersion (key : Bytes) (P : TrancId → Prop) [DecidablePred P] (es : List Entry) :
    Option Entry :=
  es.find? (fun e => decide (e.key = key ∧ P e.trancId))

theorem firstVersion_cons (key : Bytes) (P : TrancId → Prop) [DecidablePred P] (e : Entry)
    (es : List Entry) :
  firstVersion key P (e :: es) =
    if e.key = key ∧ P e.trancId then some e else firstVersion key P es
  := by
  rw [firstVersion, List.find?_cons]
  by_cases h : e.key = key ∧ P e.trancId
  · rw [if_pos h, decide_eq_true h]
  · rw [if_neg h, decide_eq_false h]
    rfl

theorem firstVersion_append (key : Bytes) (P : TrancId → Prop) [DecidablePred P]
    (es es' : List Entry) :
  firstVersion key P (es ++ es') = (firstVersion key P es).or (firstVersion key P es')
  := List.find?_append

theorem firstVersion_eq_none {key : Bytes} {P : TrancId → Prop} [DecidablePred P]
    {es : List Entry} :
  firstVersion key P es = none ↔ ∀ e ∈ es, ¬ (e.key = key ∧ P e.trancId)
  := by
  rw [firstVersion, List.find?_eq_none]
  simp only [decide_eq_true_iff]

/-- No version before the one that is found is of the key and satisfies the condition. -/
theorem firstVersion_eq_some {key : Bytes} {P : TrancId → Prop} [DecidablePred P]
    {es : List Entry} {e : Entry} :
  firstVersion key P es = some e ↔ (e.key = key ∧ P e.trancId) ∧
    ∃ es₁ es₂, es = es₁ ++ e :: es₂ ∧ ∀ e' ∈ es₁, ¬ (e'.key = key ∧ P e'.trancId)
  := by
  rw [firstVersion, List.find?_eq_some_iff_append]
  simp only [decide_eq_true_iff, Bool.not_eq_true', decide_eq_false_iff_not]

/-- The first version of a transaction and a key among the versions of records, from the last
one on, has the value logged last. -/
theorem firstVersion_entries (trancId : TrancId) (key : Bytes) (records : List Record) :
  (firstVersion key (· = trancId) (records.filterMap Record.entry?).reverse).map Entry.value =
    loggedValue trancId key records
  := by
  rw [loggedValue, ← List.filterMap_reverse]
  induction records.reverse with
  | nil => rfl
  | cons r rs ih =>
      rw [List.findSome?_cons, List.filterMap_cons, Record.written?]
      cases Record.entry? r with
      | none => apply ih
      | some e =>
          dsimp only
          rw [firstVersion_cons]
          by_cases he : e.trancId = trancId ∧ e.key = key
          · rw [if_pos he, if_pos he.symm]
            rfl
          · rw [if_neg he, if_neg (fun h => he h.symm)]
            apply ih

end TinyLsm
