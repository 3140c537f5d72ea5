import TinyLsm.Lsm.Commits
import TinyLsm.Lsm.Reads

/-!
# Snapshots

A transaction that keeps what it reads answers every read of a key it has not written as the
engine answered the first one.  So what it sees of another transaction depends on whether
that committed before the first read of each key, and not at all if the other is newer.
-/

namespace TinyLsm

namespace History

/-- What had occurred before the first read of a key by a transaction. -/
def beforeFirstRead (trancId : TrancId) (key : Bytes) : History → Option History
  | [] => none
  | .read trancId' key' _ :: h =>
      (beforeFirstRead trancId key h).or
        (if trancId' = trancId ∧ key' = key then some h else none)
  | _ :: h => beforeFirstRead trancId key h

/-- What the versions applied so far answer to a transaction. -/
def answerTo (h : History) (trancId : TrancId) (key : Bytes) : Option (Bytes × TrancId) :=
  (latest key trancId h.entries).bind Entry.answer

theorem beforeFirstRead_cons_self (trancId : TrancId) (key : Bytes) (value : Option Bytes)
    (h : History) :
  beforeFirstRead trancId key (.read trancId key value :: h) =
    (beforeFirstRead trancId key h).or (some h)
  := by
  rw [beforeFirstRead, if_pos ⟨rfl, rfl⟩]

theorem beforeFirstRead_cons_ne {trancId : TrancId} {key : Bytes} {o : Occurrence}
    (ho : ∀ value, o ≠ .read trancId key value) (h : History) :
  beforeFirstRead trancId key (o :: h) = beforeFirstRead trancId key h
  := by
  cases o with
  | read trancId' key' value =>
      have hne : ¬ (trancId' = trancId ∧ key' = key) := by
        rintro ⟨rfl, rfl⟩
        apply ho value rfl
      rw [beforeFirstRead, if_neg hne, Option.or_none]
  | _ => rfl

/-- Nothing comes before the first read exactly when there is no read. -/
theorem beforeFirstRead_eq_none {trancId : TrancId} {key : Bytes} :
  ∀ {h : History}, beforeFirstRead trancId key h = none ↔
    ∀ value, .read trancId key value ∉ h
  | [] => by
      constructor
      · intro _ value hmem
        cases hmem
      · intro _
        rfl
  | o :: h => by
      by_cases ho : ∃ value, o = .read trancId key value
      · obtain ⟨value, rfl⟩ := ho
        rw [beforeFirstRead_cons_self]
        constructor
        · intro hnone
          cases (Option.or_eq_none_iff.mp hnone).2
        · intro hnot
          exact absurd List.mem_cons_self (hnot value)
      · have hne : ∀ value, o ≠ .read trancId key value := fun value heq => ho ⟨value, heq⟩
        rw [beforeFirstRead_cons_ne hne, beforeFirstRead_eq_none]
        apply forall_congr'
        intro value
        rw [List.mem_cons, not_or]
        exact (and_iff_right (hne value).symm).symm

/-- What comes before the first read is the end of the history. -/
theorem suffix_of_beforeFirstRead {trancId : TrancId} {key : Bytes} :
  ∀ {h older : History}, beforeFirstRead trancId key h = some older → older <:+ h
  | o :: h, older, hfirst => by
      by_cases ho : ∃ value, o = .read trancId key value
      · obtain ⟨value, rfl⟩ := ho
        rw [beforeFirstRead_cons_self] at hfirst
        rcases Option.or_eq_some_iff.mp hfirst with hfirst | ⟨-, hfirst⟩
        · exact (suffix_of_beforeFirstRead hfirst).trans (List.suffix_cons _ _)
        · rw [Option.some.inj hfirst]
          apply List.suffix_cons _ _
      · rw [beforeFirstRead_cons_ne (fun value heq => ho ⟨value, heq⟩)] at hfirst
        exact (suffix_of_beforeFirstRead hfirst).trans (List.suffix_cons _ _)

/-- The first read is among the older occurrences, if there is one. -/
theorem beforeFirstRead_append {trancId : TrancId} {key : Bytes} :
  ∀ h h' : History, beforeFirstRead trancId key (h ++ h') =
    (beforeFirstRead trancId key h').or ((beforeFirstRead trancId key h).map (· ++ h'))
  | [], h' => by
      rw [List.nil_append, beforeFirstRead, Option.map_none, Option.or_none]
  | o :: h, h' => by
      have ih : beforeFirstRead trancId key (h ++ h') = _ := beforeFirstRead_append h h'
      by_cases ho : ∃ value, o = .read trancId key value
      · obtain ⟨value, rfl⟩ := ho
        rw [List.cons_append, beforeFirstRead_cons_self, beforeFirstRead_cons_self, ih,
          Option.or_assoc]
        cases beforeFirstRead trancId key h <;> rfl
      · have hne : ∀ value, o ≠ .read trancId key value := fun value heq => ho ⟨value, heq⟩
        rw [List.cons_append, beforeFirstRead_cons_ne hne, beforeFirstRead_cons_ne hne, ih]

theorem beforeFirstRead_append_of_not {trancId : TrancId} {key : Bytes} {h : History}
    (hnot : ∀ value, .read trancId key value ∉ h) (h' : History) :
  beforeFirstRead trancId key (h ++ h') = beforeFirstRead trancId key h'
  := by
  rw [beforeFirstRead_append, beforeFirstRead_eq_none.mpr hnot, Option.map_none, Option.or_none]

end History

namespace System

variable {ε : Type} [DocumentedEngine ε]

structure ReadInvariant (allowed : System ε → Event → Prop) (s : System ε) : Prop where
  issued : ∀ trancId key value, .read trancId key value ∈ s.history →
    ∃ c, s.contexts trancId = some c
  cached : ∀ trancId c, s.contexts trancId = some c → c.isolationLevel.Checked →
    ∀ key, (∀ w, .wrote trancId w ∈ s.history → w.key ≠ key) →
      c.readMap.lookup key =
        (s.history.beforeFirstRead trancId key).map (History.answerTo · trancId key)
  read : ∀ trancId c, s.contexts trancId = some c → c.isolationLevel.Checked →
    ∀ key, (∀ w, .wrote trancId w ∈ s.history → w.key ≠ key) →
      ∀ value, .read trancId key value ∈ s.history →
        ∃ older, s.history.beforeFirstRead trancId key = some older ∧
          value = (older.answerTo trancId key).map Prod.fst
  reached : ∀ trancId key older, s.history.beforeFirstRead trancId key = some older →
    ∃ s₀, Reached allowed s₀ ∧ s₀.history = older

/-- Occurrences that are not reads keep the invariant, if no context reads or changes its
level. -/
theorem ReadInvariant.extend {allowed : System ε → Event → Prop} {s : System ε}
    (hs : s.ReadInvariant allowed) (s' : System ε) (h : History)
    (hhistory : s'.history = h ++ s.history)
    (hread : ∀ trancId key value, .read trancId key value ∉ h)
    (hcontexts : ∀ trancId c', s'.contexts trancId = some c' →
      ∃ c, s.contexts trancId = some c ∧ c'.isolationLevel = c.isolationLevel ∧
        c'.readMap = c.readMap)
    (hsame : ∀ trancId c, s.contexts trancId = some c → ∃ c', s'.contexts trancId = some c') :
  s'.ReadInvariant allowed
  := by
  have hfirst : ∀ trancId key, History.beforeFirstRead trancId key (h ++ s.history) =
      s.history.beforeFirstRead trancId key := by
    intro trancId key
    apply History.beforeFirstRead_append_of_not (hread trancId key) s.history
  constructor
  · intro trancId key value hmem
    rw [hhistory] at hmem
    obtain ⟨c, hc⟩ := hs.issued trancId key value
      ((List.mem_append.mp hmem).resolve_left (hread trancId key value))
    apply hsame trancId c hc
  · intro trancId c' hc' hlevel key hnot
    obtain ⟨c, hc, hsameLevel, hsameMap⟩ := hcontexts trancId c' hc'
    rw [hsameLevel] at hlevel
    rw [hhistory] at hnot ⊢
    rw [hsameMap, hfirst]
    apply hs.cached trancId c hc hlevel key (fun w hw => hnot w (List.mem_append_right h hw))
  · intro trancId c' hc' hlevel key hnot value hmem
    obtain ⟨c, hc, hsameLevel, -⟩ := hcontexts trancId c' hc'
    rw [hsameLevel] at hlevel
    rw [hhistory] at hnot hmem ⊢
    rw [hfirst]
    apply hs.read trancId c hc hlevel key (fun w hw => hnot w (List.mem_append_right h hw)) value
      ((List.mem_append.mp hmem).resolve_left (hread trancId key value))
  · intro trancId key older hfirst'
    rw [hhistory, hfirst] at hfirst'
    apply hs.reached trancId key older hfirst'

/-- Occurrences that are not reads keep the invariant, if one context changes other things
than its level and what it has read. -/
theorem ReadInvariant.setContext {allowed : System ε → Event → Prop} {s : System ε}
    (hs : s.ReadInvariant allowed) (s' : System ε) (h : History)
    (hhistory : s'.history = h ++ s.history)
    (hread : ∀ trancId key value, .read trancId key value ∉ h) {trancId : TrancId}
    {c c' : TranContext} (hc : s.contexts trancId = some c)
    (hcontexts : s'.contexts = Function.update s.contexts trancId (some c'))
    (hlevel : c'.isolationLevel = c.isolationLevel) (hmap : c'.readMap = c.readMap) :
  s'.ReadInvariant allowed
  := by
  apply hs.extend s' h hhistory hread
  · intro trancId' c'' hc''
    rw [hcontexts] at hc''
    rcases update_eq_some hc'' with ⟨rfl, rfl⟩ | ⟨-, hc''⟩
    · exact ⟨c, hc, hlevel, hmap⟩
    · exact ⟨c'', hc'', rfl, rfl⟩
  · intro trancId' c'' hc''
    rw [hcontexts]
    by_cases hid : trancId' = trancId
    · subst hid
      exact ⟨c', Function.update_self _ _ _⟩
    · exact ⟨c'', (Function.update_of_ne hid _ _).trans hc''⟩

theorem ReadInvariant.unchanged {allowed : System ε → Event → Prop} {s : System ε}
    (hs : s.ReadInvariant allowed) (s' : System ε) (h : History)
    (hhistory : s'.history = h ++ s.history)
    (hread : ∀ trancId key value, .read trancId key value ∉ h)
    (hcontexts : s'.contexts = s.contexts) :
  s'.ReadInvariant allowed
  := by
  apply hs.extend s' h hhistory hread
  · intro trancId c hc
    rw [hcontexts] at hc
    exact ⟨c, hc, rfl, rfl⟩
  · intro trancId c hc
    rw [hcontexts]
    exact ⟨c, hc⟩

theorem ReadInvariant.newTranc {allowed : System ε → Event → Prop} {s : System ε}
    (hs : s.ReadInvariant allowed) (hinv : s.Invariant) (level : IsolationLevel) :
  (s.newTranc level).ReadInvariant allowed
  := by
  have hnone := (hinv.unused s.manager.nextTransactionId (le_refl _)).1
  have hnot : ∀ key value, .read s.manager.nextTransactionId key value ∉ s.history := by
    intro key value hmem
    obtain ⟨c, hc⟩ := hs.issued _ key value hmem
    rw [hnone] at hc
    cases hc
  have hold : ∀ trancId c, (s.newTranc level).contexts trancId = some c →
      trancId = s.manager.nextTransactionId ∧ c = TranContext.new trancId level ∨
        s.contexts trancId = some c := by
    intro trancId c hc
    rcases update_eq_some hc with ⟨rfl, rfl⟩ | ⟨-, hc⟩
    · exact .inl ⟨rfl, rfl⟩
    · exact .inr hc
  constructor
  · intro trancId key value hmem
    obtain ⟨c, hc⟩ := hs.issued trancId key value
      (List.mem_of_ne_of_mem Occurrence.noConfusion hmem)
    exact ⟨c, (Function.update_of_ne (hinv.lt_next hc).ne _ _).trans hc⟩
  · intro trancId c hc hlevel key hwrote
    rcases hold trancId c hc with ⟨rfl, rfl⟩ | hc
    · have hfirst : s.history.beforeFirstRead s.manager.nextTransactionId key = none :=
        History.beforeFirstRead_eq_none.mpr (hnot key)
      exact (congrArg (Option.map _) hfirst).symm
    · apply hs.cached trancId c hc hlevel key
        (fun w hw => hwrote w (List.mem_cons_of_mem _ hw))
  · intro trancId c hc hlevel key hwrote value hmem
    have hmem := List.mem_of_ne_of_mem Occurrence.noConfusion hmem
    rcases hold trancId c hc with ⟨rfl, rfl⟩ | hc
    · exact absurd hmem (hnot key value)
    · apply hs.read trancId c hc hlevel key
        (fun w hw => hwrote w (List.mem_cons_of_mem _ hw)) value hmem
  · apply hs.reached

/-- The first read of a key keeps what the engine answers, and the later ones answer it. -/
theorem ReadInvariant.get_checked {allowed : System ε → Event → Prop} {s : System ε}
    (hs : s.ReadInvariant allowed) (hinv : s.Invariant) {trancId : TrancId} {c : TranContext}
    (hc : s.contexts trancId = some c) (hlevel : c.isolationLevel.Checked) {key : Bytes}
    (hwrote : ∀ w, .wrote trancId w ∈ s.history → w.key ≠ key) :
  ∃ older, (s.history.beforeFirstRead trancId key).or (some s.history) = some older ∧
    (c.get s.engine key).1 = (older.answerTo trancId key).map Prod.fst ∧
    (c.get s.engine key).2.readMap.lookup key = some (older.answerTo trancId key)
  := by
  have htemp : c.tempMap.lookup key = none := by
    rw [(hinv.consistent trancId c hc).tempMap hlevel.buffered]
    apply Option.eq_none_iff_forall_ne_some.mpr
    intro value hvalue
    obtain ⟨w, hw, hkey, -⟩ := History.mem_of_lastWritten hvalue
    apply hwrote w hw hkey
  obtain ⟨hanswer, hread, -⟩ := TranContext.query_checked hlevel s.engine key
  have hcached := hs.cached trancId c hc hlevel key hwrote
  rw [TranContext.get_of_lookup_none htemp]
  dsimp only
  rw [hanswer, hread, TranContext.readOrGet, hcached, DocumentedEngine.get_eq, hinv.engine,
    (hinv.consistent trancId c hc).trancId_eq]
  cases s.history.beforeFirstRead trancId key with
  | some older => exact ⟨older, rfl, rfl, rfl⟩
  | none => exact ⟨s.history, rfl, rfl, rfl⟩

theorem ReadInvariant.get {allowed : System ε → Event → Prop} {s : System ε}
    (hs : s.ReadInvariant allowed) (hreached : Reached allowed s) {trancId : TrancId}
    {c : TranContext} (hc : s.contexts trancId = some c) (key : Bytes) :
  (s.get trancId c key).ReadInvariant allowed
  := by
  have hinv := reached_invariant hreached
  have hold : ∀ trancId' c', (s.get trancId c key).contexts trancId' = some c' →
      trancId' = trancId ∧ c' = (c.get s.engine key).2 ∨
        trancId' ≠ trancId ∧ s.contexts trancId' = some c' :=
    fun trancId' c' hc' => update_eq_some hc'
  have hother : ∀ trancId' key', ¬ (trancId' = trancId ∧ key' = key) →
      (∀ value, .read trancId' key' value ∈ (s.get trancId c key).history →
        .read trancId' key' value ∈ s.history) ∧
      (s.get trancId c key).history.beforeFirstRead trancId' key' =
        s.history.beforeFirstRead trancId' key' := by
    intro trancId' key' hne
    have hread : ∀ value, Occurrence.read trancId key (c.get s.engine key).1 ≠
        .read trancId' key' value := by
      intro value heq
      obtain ⟨hid, hkey, -⟩ := Occurrence.read.inj heq
      apply hne ⟨hid.symm, hkey.symm⟩
    constructor
    · intro value hmem
      exact (List.mem_cons.mp hmem).resolve_left (fun heq => hread value heq.symm)
    · apply History.beforeFirstRead_cons_ne hread s.history
  have hself : (s.get trancId c key).history.beforeFirstRead trancId key =
      (s.history.beforeFirstRead trancId key).or (some s.history) :=
    History.beforeFirstRead_cons_self _ _ _ _
  have hsub : ∀ {trancId' key'}, (∀ w, .wrote trancId' w ∈ (s.get trancId c key).history →
      w.key ≠ key') → ∀ w, .wrote trancId' w ∈ s.history → w.key ≠ key' :=
    fun hwrote w hw => hwrote w (List.mem_cons_of_mem _ hw)
  obtain ⟨_, hlevel'⟩ := TranContext.get_context c s.engine key
  constructor
  · intro trancId' key' value hmem
    by_cases hid : trancId' = trancId
    · subst hid
      exact ⟨_, Function.update_self _ _ _⟩
    · obtain ⟨c', hc'⟩ := hs.issued trancId' key' value
        ((hother trancId' key' (fun h => hid h.1)).1 value hmem)
      exact ⟨c', (Function.update_of_ne hid _ _).trans hc'⟩
  · intro trancId' c' hc' hlevel key' hwrote
    rcases hold trancId' c' hc' with ⟨rfl, rfl⟩ | ⟨hid, hc'⟩
    · rw [hlevel'] at hlevel
      by_cases hkey : key' = key
      · subst hkey
        obtain ⟨older, holder, -, hread⟩ := hs.get_checked hinv hc hlevel (hsub hwrote)
        rw [hself, holder, hread]
        rfl
      · rw [(hother trancId' key' (fun h => hkey h.2)).2,
          ← hs.cached trancId' c hc hlevel key' (hsub hwrote)]
        rcases TranContext.get_cases c s.engine key with hsame | hread
        · rw [hsame]
        · rw [hread]
          apply AList.lookup_insert_ne hkey
    · rw [(hother trancId' key' (fun h => hid h.1)).2]
      apply hs.cached trancId' c' hc' hlevel key' (hsub hwrote)
  · intro trancId' c' hc' hlevel key' hwrote value hmem
    by_cases hpair : trancId' = trancId ∧ key' = key
    · obtain ⟨rfl, rfl⟩ := hpair
      have hlevel : c.isolationLevel.Checked := by
        rcases hold trancId' c' hc' with ⟨-, rfl⟩ | ⟨hid, -⟩
        · rwa [hlevel'] at hlevel
        · exact absurd rfl hid
      rcases List.mem_cons.mp hmem with heq | hmem
      · obtain ⟨older, holder, hvalue, -⟩ := hs.get_checked hinv hc hlevel (hsub hwrote)
        refine ⟨older, hself.trans holder, ?_⟩
        rw [(Occurrence.read.inj heq).2.2, hvalue]
      · obtain ⟨older, holder, hvalue⟩ :=
          hs.read trancId' c hc hlevel key' (hsub hwrote) value hmem
        refine ⟨older, ?_, hvalue⟩
        rw [hself, holder]
        rfl
    · obtain ⟨hmem', hfirst⟩ := hother trancId' key' hpair
      rw [hfirst]
      rcases hold trancId' c' hc' with ⟨rfl, rfl⟩ | ⟨-, hc'⟩
      · rw [hlevel'] at hlevel
        apply hs.read trancId' c hc hlevel key' (hsub hwrote) value (hmem' value hmem)
      · apply hs.read trancId' c' hc' hlevel key' (hsub hwrote) value (hmem' value hmem)
  · intro trancId' key' older hfirst
    by_cases hpair : trancId' = trancId ∧ key' = key
    · obtain ⟨rfl, rfl⟩ := hpair
      rw [hself] at hfirst
      rcases Option.or_eq_some_iff.mp hfirst with hfirst | ⟨-, hfirst⟩
      · apply hs.reached trancId' key' older hfirst
      · exact ⟨s, hreached, Option.some.inj hfirst⟩
    · rw [(hother trancId' key' hpair).2] at hfirst
      apply hs.reached trancId' key' older hfirst

theorem ReadInvariant.stepped {allowed : System ε → Event → Prop} {s s' : System ε}
    (hs : s.ReadInvariant allowed) (hreached : Reached allowed s) (h : Stepped s s') :
  s'.ReadInvariant allowed
  := by
  have hinv := reached_invariant hreached
  cases h with
  | newTranc level => apply hs.newTranc hinv level
  | write trancId c w hc hidle =>
      apply hs.setContext (s.write trancId c w) [.wrote trancId w] rfl _ hc rfl
      · apply TranContext.isolationLevel_prepare
      · apply TranContext.readMap_prepare
      · intro trancId' key value hmem
        cases List.mem_singleton.mp hmem
  | get trancId c key hc => apply hs.get hreached hc key
  | failed trancId c operations hc =>
      exact hs.setContext _ [] rfl (fun _ _ _ => List.not_mem_nil) hc rfl rfl rfl
  | beginCommit trancId c hc hidle hlevel =>
      apply hs.setContext (s.beginCommit trancId c true) [] rfl (fun _ _ _ => List.not_mem_nil)
        hc rfl rfl rfl
  | refused trancId c hc =>
      apply hs.setContext (s.refused trancId c) [.refused trancId] rfl _ hc rfl rfl rfl
      intro trancId' key value hmem
      cases List.mem_singleton.mp hmem
  | committed trancId c writes hc hidle hlevel hwrites hconflicts =>
      apply hs.setContext (s.committed trancId c writes)
        (.committed trancId :: applications trancId writes) rfl _ hc rfl rfl rfl
      intro trancId' key value hmem
      rcases eq_of_mem_commit hmem with heq | ⟨_, heq⟩ <;> cases heq
  | beginAbort trancId c rollbacks hc hidle hlevel hrollbacks =>
      apply hs.unchanged (s.beginAbort trancId c rollbacks) [] rfl (fun _ _ _ => List.not_mem_nil)
        rfl
  | finish trancId c state hc hpending =>
      apply hs.setContext (s.finish trancId c state) [endOccurrence trancId state] rfl _ hc rfl
      · cases state <;> rfl
      · cases state <;> rfl
      · intro trancId' key value hmem
        cases state <;> cases List.mem_singleton.mp hmem
  | lsmWrite w =>
      apply hs.unchanged (s.lsmWrite w) [.lsmWrote s.manager.nextTransactionId w] rfl _ rfl
      intro trancId' key value hmem
      cases List.mem_singleton.mp hmem
  | perform trancId call calls ending hpending =>
      apply hs.unchanged (s.perform trancId call ⟨calls, ending⟩) [.applied trancId call.entry] rfl
        _ rfl
      intro trancId' key value hmem
      cases List.mem_singleton.mp hmem
  | frozenCurTable => exact hs.unchanged _ [] rfl (fun _ _ _ => List.not_mem_nil) rfl

theorem reached_readInvariant {allowed : System ε → Event → Prop} {s : System ε}
    (h : Reached allowed s) :
  s.ReadInvariant allowed
  := by
  apply h.invariant
  · constructor
    · intro trancId key value hmem
      cases hmem
    · intro trancId c hc
      cases hc
    · intro trancId c hc
      cases hc
    · intro trancId key older holder
      cases holder
  · intro s s' event hs hread _ hstep
    rcases step_stepped hstep with hstepped | ⟨-, rfl⟩
    · apply hread.stepped hs hstepped
    · apply hread.unchanged s.flush [] rfl (fun _ _ _ => List.not_mem_nil) rfl

/-! ### Reading what one other transaction writes -/

/-- What a query answers for a value that was written. -/
def shown (value : Bytes) : Option Bytes := if value = [] then none else some value

/-- Only one transaction writes a key, and no plain call does. -/
structure OnlyWriter (h : History) (trancId : TrancId) (key : Bytes) : Prop where
  wrote : ∀ i w, .wrote i w ∈ h → w.key = key → i = trancId
  lsmWrote : ∀ i w, .lsmWrote i w ∈ h → w.key ≠ key

theorem OnlyWriter.mono {h h' : History} {trancId : TrancId} {key : Bytes}
    (honly : OnlyWriter h' trancId key) (hsub : h ⊆ h') :
  OnlyWriter h trancId key
  := ⟨fun i w hw => honly.wrote i w (hsub hw), fun i w hw => honly.lsmWrote i w (hsub hw)⟩

/-- If a buffered transaction is the only writer of a key, then the versions of the key are
those it has committed. -/
theorem CommitInvariant.of_onlyWriter {s : System ε} (hs : s.CommitInvariant)
    (hinv : s.Invariant) {trancId : TrancId}
    (hbuffered : ∀ level, .created trancId level ∈ s.history → level.Buffered)
    {key : Bytes} (hkey : key ≠ []) (honly : OnlyWriter s.history trancId key) {e : Entry}
    (he : e ∈ s.history.entries) (hekey : e.key = key) :
  e.trancId = trancId ∧ ∃ older, (.committed trancId :: older) <:+ s.history ∧
    .applied trancId e ∈ older ∧ History.lastWritten trancId key older = some e.value
  := by
  subst hekey
  obtain ⟨writer, happlied⟩ := History.mem_entries.mp he
  obtain ⟨w, hw, hwkey⟩ := (hinv.applied writer e happlied).wrote hkey
  have hwrote : .wrote writer w ∈ s.history :=
    hw.resolve_right (fun hw => honly.lsmWrote writer w hw hwkey)
  have hwriter := honly.wrote writer w hwrote hwkey
  rw [hwriter] at happlied hwrote
  obtain ⟨c, hc⟩ := hinv.wrote trancId w hwrote
  have hcreated := (hinv.consistent trancId c hc).created
  apply hs.commits.buffered trancId e ⟨_, hbuffered _ hcreated, hcreated⟩ happlied hkey

/-- Before the only writer of a key has committed, the engine answers nothing. -/
theorem answerTo_of_not_committed {s : System ε} (hs : s.CommitInvariant) (hinv : s.Invariant)
    {writer : TrancId} (hbuffered : ∀ level, .created writer level ∈ s.history → level.Buffered)
    {key : Bytes} (hkey : key ≠ [])
    (honly : OnlyWriter s.history writer key) (hnot : .committed writer ∉ s.history)
    (reader : TrancId) :
  s.history.answerTo reader key = none
  := by
  rw [History.answerTo, Option.bind_eq_none_iff]
  intro e he
  obtain ⟨hmem, hekey, -⟩ := latest_eq_some he
  obtain ⟨-, older, hsuffix, -⟩ := hs.of_onlyWriter hinv hbuffered hkey honly hmem hekey
  exact absurd (hsuffix.subset List.mem_cons_self) hnot

/-- After the only writer of a key has committed once, the engine answers to a newer
transaction what the writer wrote last before, and nothing to an older one. -/
theorem answerTo_of_committed {s : System ε} (hs : s.CommitInvariant) (hinv : s.Invariant)
    {writer : TrancId} (hbuffered : ∀ level, .created writer level ∈ s.history → level.Buffered)
    {key : Bytes} (hkey : key ≠ [])
    (honly : OnlyWriter s.history writer key) {newer older : History}
    (hhistory : s.history = newer ++ .committed writer :: older)
    (honce : .committed writer ∉ newer ∧ .committed writer ∉ older) {value : Bytes}
    (hvalue : History.lastWritten writer key older = some value) {reader : TrancId}
    (hreader : reader ≠ 0) :
  (s.history.answerTo reader key).map Prod.fst =
    if writer ≤ reader then shown value else none
  := by
  have hsuffix : (.committed writer :: older) <:+ s.history := by
    rw [hhistory]
    apply List.suffix_append _ _
  have heq : ∀ e ∈ s.history.entries, e.key = key → e = ⟨key, value, writer⟩ := by
    intro e he hekey
    obtain ⟨hid, older', hsuffix', -, hlast⟩ :=
      hs.of_onlyWriter hinv hbuffered hkey honly he hekey
    rw [hhistory] at hsuffix'
    have hsuffix' := suffix_of_suffix_append honce.1 hsuffix'
    rcases List.suffix_cons_iff.mp hsuffix' with holder | hsuffix'
    · rw [(List.cons.inj holder).2, hvalue] at hlast
      cases e
      simp only at hekey hid hlast
      rw [hekey, hid, Option.some.inj hlast]
    · exact absurd (hsuffix'.subset List.mem_cons_self) honce.2
  have hmem : ⟨key, value, writer⟩ ∈ s.history.entries := by
    apply History.mem_entries.mpr
    use writer
    apply hsuffix.subset
    apply List.mem_cons_of_mem _ (hs.commits.committed writer older hsuffix key value hkey hvalue)
  rw [History.answerTo]
  cases hlatest : latest key reader s.history.entries with
  | some e =>
      obtain ⟨he, hekey, hvisible⟩ := latest_eq_some hlatest
      rw [heq e he hekey] at hvisible ⊢
      rw [if_pos (hvisible.resolve_left hreader), Option.bind_some, Entry.answer, shown]
      split <;> rfl
  | none =>
      have hhidden : ¬ writer ≤ reader := by
        intro hle
        have hnot := List.find?_eq_none.mp hlatest _ hmem
        rw [decide_eq_true_iff] at hnot
        apply hnot ⟨rfl, .inr hle⟩
      rw [if_neg hhidden]
      rfl

/-- What is read of the only writer of a key, which commits once: what it wrote last, unless
the reader is older or has read the key before the commit. -/
theorem read_of_onlyWriter {allowed : System ε → Event → Prop} {s : System ε}
    (hs : Reached allowed s) {reader writer : TrancId} (hreader : s.history.Checked reader)
    (hwriter : s.history.Buffered writer) (hne : reader ≠ writer) {key : Bytes}
    (hkey : key ≠ []) (honly : OnlyWriter s.history writer key) {newer older : History}
    (hhistory : s.history = newer ++ .committed writer :: older)
    (honce : .committed writer ∉ newer ∧ .committed writer ∉ older) {value : Bytes}
    (hvalue : History.lastWritten writer key older = some value) {answer : Option Bytes}
    (hread : .read reader key answer ∈ s.history) :
  ((∃ answer', .read reader key answer' ∈ older) → answer = none) ∧
  ((¬ ∃ answer', .read reader key answer' ∈ older) →
    answer = if writer ≤ reader then shown value else none)
  := by
  have hinv := reached_invariant hs
  have hbuffered : ∀ level, .created writer level ∈ s.history → level.Buffered := by
    intro level hcreated
    obtain ⟨level', hlevel', hcreated'⟩ := hwriter
    obtain ⟨c, hc, rfl⟩ := hinv.created writer level hcreated
    obtain ⟨c', hc', rfl⟩ := hinv.created writer level' hcreated'
    rw [hc] at hc'
    rwa [Option.some.inj hc']
  obtain ⟨level, hlevel, hcreated⟩ := hreader
  obtain ⟨c, hc, rfl⟩ := hinv.created reader level hcreated
  obtain ⟨before, hbefore, rfl⟩ := (reached_readInvariant hs).read reader c hc hlevel key
    (fun w hw hwkey => hne (honly.wrote reader w hw hwkey)) answer hread
  obtain ⟨s₀, hs₀, rfl⟩ := (reached_readInvariant hs).reached reader key before hbefore
  have hsuffix := History.suffix_of_beforeFirstRead hbefore
  have hbuffered₀ : ∀ level, .created writer level ∈ s₀.history → level.Buffered :=
    fun level hcreated => hbuffered level (hsuffix.subset hcreated)
  have hcommits₀ := reached_commitInvariant hs₀
  have hinv₀ := reached_invariant hs₀
  have honly₀ := honly.mono hsuffix.subset
  have hsplit : (History.beforeFirstRead reader key older).or
      ((History.beforeFirstRead reader key (newer ++ [.committed writer])).map (· ++ older)) =
      some s₀.history := by
    rw [← History.beforeFirstRead_append, List.append_assoc, List.singleton_append, ← hhistory]
    apply hbefore
  constructor
  · rintro ⟨answer', hread'⟩
    have hsome : History.beforeFirstRead reader key older = some s₀.history := by
      rcases Option.or_eq_some_iff.mp hsplit with hsome | ⟨hnone, -⟩
      · apply hsome
      · exact absurd hread' (History.beforeFirstRead_eq_none.mp hnone answer')
    have hnot : .committed writer ∉ s₀.history :=
      fun hmem => honce.2 ((History.suffix_of_beforeFirstRead hsome).subset hmem)
    rw [answerTo_of_not_committed hcommits₀ hinv₀ hbuffered₀ hkey honly₀ hnot]
    rfl
  · intro hnot
    have hnone : History.beforeFirstRead reader key older = none :=
      History.beforeFirstRead_eq_none.mpr (fun answer' hmem => hnot ⟨answer', hmem⟩)
    rw [hnone, Option.none_or, History.beforeFirstRead_append] at hsplit
    obtain ⟨front, hfront, hhistory₀⟩ := Option.map_eq_some_iff.mp hsplit
    obtain ⟨newer₀, hnewer₀, rfl⟩ := Option.map_eq_some_iff.mp hfront
    rw [List.append_assoc, List.singleton_append] at hhistory₀
    have honce₀ : .committed writer ∉ newer₀ :=
      fun hmem => honce.1 ((History.suffix_of_beforeFirstRead hnewer₀).subset hmem)
    apply answerTo_of_committed hcommits₀ hinv₀ hbuffered₀ hkey honly₀ hhistory₀.symm
      ⟨honce₀, honce.2⟩ hvalue (hinv.consistent reader c hc).pos.ne'

/-- A transaction that keeps what it reads sees both writes of another one or none of them,
if it is the older of the two, or the commit of the other does not fall between its first
reads of the two keys. -/
theorem reads_together {allowed : System ε → Event → Prop} {s : System ε}
    (hs : Reached allowed s) {reader writer : TrancId} (hreader : s.history.Checked reader)
    (hwriter : s.history.Buffered writer) (hne : reader ≠ writer) {a b : Bytes} (ha : a ≠ [])
    (hb : b ≠ []) (honlya : OnlyWriter s.history writer a)
    (honlyb : OnlyWriter s.history writer b) {newer older : History}
    (hhistory : s.history = newer ++ .committed writer :: older)
    (honce : .committed writer ∉ newer ∧ .committed writer ∉ older) {va vb : Bytes}
    (hva : History.lastWritten writer a older = some va)
    (hvb : History.lastWritten writer b older = some vb)
    (hbetween : reader < writer ∨
      ((∃ answer, .read reader a answer ∈ older) ↔ ∃ answer, .read reader b answer ∈ older))
    {ra rb : Option Bytes} (hra : .read reader a ra ∈ s.history)
    (hrb : .read reader b rb ∈ s.history) :
  (ra = shown va ∧ rb = shown vb) ∨ (ra = none ∧ rb = none)
  := by
  obtain ⟨hnonea, hsomea⟩ :=
    read_of_onlyWriter hs hreader hwriter hne ha honlya hhistory honce hva hra
  obtain ⟨hnoneb, hsomeb⟩ :=
    read_of_onlyWriter hs hreader hwriter hne hb honlyb hhistory honce hvb hrb
  by_cases hle : writer ≤ reader
  · have hiff := hbetween.resolve_left (not_lt_of_ge hle)
    rw [if_pos hle] at hsomea hsomeb
    by_cases hearly : ∃ answer, .read reader a answer ∈ older
    · exact .inr ⟨hnonea hearly, hnoneb (hiff.mp hearly)⟩
    · exact .inl ⟨hsomea hearly, hsomeb (fun h => hearly (hiff.mpr h))⟩
  · rw [if_neg hle] at hsomea hsomeb
    right
    constructor
    · by_cases hearly : ∃ answer, .read reader a answer ∈ older
      · apply hnonea hearly
      · apply hsomea hearly
    · by_cases hearly : ∃ answer, .read reader b answer ∈ older
      · apply hnoneb hearly
      · apply hsomeb hearly

/-- Both writes are seen when the commit comes before both reads. -/
theorem reads_together_committed :
  ∃ s, Transition.run step (fun _ _ => True) (start : System Tables)
      [.newTranc .repeatableRead, .newTranc .serializable, .write 1 (.put [1] [7]),
        .write 1 (.put [2] [8]), .commit 1 [⟨[1], [7]⟩, ⟨[2], [8]⟩] true, .get 2 [1],
        .get 2 [2]] = some s ∧
    ((some [7] = shown [7] ∧ some [8] = shown [8]) ∨
      ((some [7] : Option Bytes) = none ∧ (some [8] : Option Bytes) = none))
  := by
  have hrun : (Transition.run step (fun _ _ => True) (start : System Tables)
      [.newTranc .repeatableRead, .newTranc .serializable, .write 1 (.put [1] [7]),
        .write 1 (.put [2] [8]), .commit 1 [⟨[1], [7]⟩, ⟨[2], [8]⟩] true, .get 2 [1],
        .get 2 [2]]).map System.history =
      some ([.read 2 [2] (some [8]), .read 2 [1] (some [7])] ++ .committed 1 ::
        [.applied 1 ⟨[], [], 1⟩, .applied 1 ⟨[2], [8], 1⟩, .applied 1 ⟨[1], [7], 1⟩,
          .wrote 1 (.put [2] [8]), .wrote 1 (.put [1] [7]), .created 2 .serializable,
          .created 1 .repeatableRead]) := by decide
  obtain ⟨s, hs, hhistory⟩ := Option.map_eq_some_iff.mp hrun
  refine ⟨s, hs, ?_⟩
  have honly : ∀ key, OnlyWriter s.history 1 key := by
    intro key
    rw [hhistory]
    constructor
    · intro i w hw _
      simp at hw
      rcases hw with ⟨hi, -⟩ | ⟨hi, -⟩ <;> exact hi
    · intro i w hw
      simp at hw
  have hreader : s.history.Checked 2 := by
    rw [hhistory]
    exact ⟨.serializable, by decide, by decide⟩
  have hwriter : s.history.Buffered 1 := by
    rw [hhistory]
    exact ⟨.repeatableRead, by decide, by decide⟩
  have hra : .read 2 [1] (some [7]) ∈ s.history := by
    rw [hhistory]
    decide
  have hrb : .read 2 [2] (some [8]) ∈ s.history := by
    rw [hhistory]
    decide
  apply reads_together (Transition.reached_of_run hs) hreader hwriter (by decide) (by decide)
    (by decide) (honly [1]) (honly [2]) hhistory (by decide) (by decide) (by decide)
    (by right; simp) hra hrb

/-- One write is seen and the other is not when an older transaction commits between the
reads. -/
theorem not_reads_together :
  ¬ ∀ s : System Tables, Reached (fun _ _ => True) s →
    ∀ (reader writer : TrancId) (a b : Bytes) (newer older : History) (va vb : Bytes)
      (ra rb : Option Bytes), s.history.Checked reader → s.history.Buffered writer →
      reader ≠ writer → a ≠ [] → b ≠ [] → OnlyWriter s.history writer a →
      OnlyWriter s.history writer b → s.history = newer ++ .committed writer :: older →
      .committed writer ∉ newer ∧ .committed writer ∉ older →
      History.lastWritten writer a older = some va →
      History.lastWritten writer b older = some vb →
      .read reader a ra ∈ s.history → .read reader b rb ∈ s.history →
      (ra = shown va ∧ rb = shown vb) ∨ (ra = none ∧ rb = none)
  := by
  intro h
  have hrun : (Transition.run step (fun _ _ => True) (start : System Tables)
      [.newTranc .repeatableRead, .newTranc .repeatableRead, .write 1 (.put [1] [7]),
        .write 1 (.put [2] [8]), .get 2 [1], .commit 1 [⟨[1], [7]⟩, ⟨[2], [8]⟩] true,
        .get 2 [2]]).map System.history =
      some ([.read 2 [2] (some [8])] ++ .committed 1 ::
        [.applied 1 ⟨[], [], 1⟩, .applied 1 ⟨[2], [8], 1⟩, .applied 1 ⟨[1], [7], 1⟩,
          .read 2 [1] none, .wrote 1 (.put [2] [8]), .wrote 1 (.put [1] [7]),
          .created 2 .repeatableRead, .created 1 .repeatableRead]) := by decide
  obtain ⟨s, hs, hhistory⟩ := Option.map_eq_some_iff.mp hrun
  have honly : ∀ key, OnlyWriter s.history 1 key := by
    intro key
    rw [hhistory]
    constructor
    · intro i w hw _
      simp at hw
      rcases hw with ⟨hi, -⟩ | ⟨hi, -⟩ <;> exact hi
    · intro i w hw
      simp at hw
  have htorn := h s (Transition.reached_of_run hs) 2 1 [1] [2] _ _ [7] [8] none (some [8])
    (by rw [hhistory]; exact ⟨.repeatableRead, by decide, by decide⟩)
    (by rw [hhistory]; exact ⟨.repeatableRead, by decide, by decide⟩) (by decide) (by decide)
    (by decide) (honly [1]) (honly [2]) hhistory (by decide) (by decide) (by decide)
    (by rw [hhistory]; decide) (by rw [hhistory]; decide)
  revert htorn
  decide

end System

end TinyLsm
