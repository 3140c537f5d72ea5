import TinyLsm.Lsm.System

/-!
# The invariant of the system

In every state that is reached the engine answers as the versions applied do, a buffered
transaction keeps what it wrote last, and every value that is applied, pending, noted for
putting back, or read, is genuine: the transaction whose id it carries has put it.
-/

namespace TinyLsm

/-- A version whose value was put by its transaction, which is a plain call, has committed,
or is unbuffered. -/
def Genuine (h : History) (e : Entry) : Prop :=
  .lsmWrote e.trancId (.put e.key e.value) ∈ h ∨
    .wrote e.trancId (.put e.key e.value) ∈ h ∧
      (.committed e.trancId ∈ h ∨ .created e.trancId .readUnopCommitted ∈ h)

/-- A version that a writer may apply: it is genuine or a deletion mark, and on a key that
the writer wrote. -/
structure Applicable (h : History) (writer : TrancId) (e : Entry) : Prop where
  genuine : e.value ≠ [] → Genuine h e
  wrote : e.key ≠ [] → ∃ w, h.Wrote writer w ∧ w.key = e.key

/-- What the context of a transaction holds is what has occurred. -/
structure TranContext.Consistent (c : TranContext) (h : History) (trancId : TrancId) :
    Prop where
  pos : 0 < trancId
  trancId_eq : c.trancId = trancId
  created : .created trancId c.isolationLevel ∈ h
  tempMap : c.isolationLevel.Buffered →
    ∀ key, c.tempMap.lookup key = h.lastWritten trancId key
  rollback : ∀ key value i, c.rollbackMap.lookup key = some (some (value, i)) →
    Genuine h ⟨key, value, i⟩
  rollback_wrote : ∀ key, key ∈ c.rollbackMap → ∃ w, .wrote trancId w ∈ h ∧ w.key = key
  read : ∀ key value i, c.readMap.lookup key = some (some (value, i)) →
    Genuine h ⟨key, value, i⟩ ∧ i ≤ trancId

/-! ### Longer histories -/

theorem Genuine.mono {h h' : History} {e : Entry} (he : Genuine h e) (hsub : h ⊆ h') :
  Genuine h' e
  := by
  rcases he with hplain | ⟨hwrote, hcommitted | hcreated⟩
  · exact .inl (hsub hplain)
  · exact .inr ⟨hsub hwrote, .inl (hsub hcommitted)⟩
  · exact .inr ⟨hsub hwrote, .inr (hsub hcreated)⟩

theorem History.Wrote.mono {h h' : History} {trancId : TrancId} {w : WriteCall}
    (hw : h.Wrote trancId w) (hsub : h ⊆ h') :
  h'.Wrote trancId w
  := hw.imp (fun hw => hsub hw) (fun hw => hsub hw)

theorem Applicable.mono {h h' : History} {writer : TrancId} {e : Entry}
    (he : Applicable h writer e) (hsub : h ⊆ h') :
  Applicable h' writer e
  := by
  constructor
  · intro hvalue
    exact (he.genuine hvalue).mono hsub
  · intro hkey
    obtain ⟨w, hw, hw'⟩ := he.wrote hkey
    exact ⟨w, hw.mono hsub, hw'⟩

/-- A context stays consistent when its transaction writes nothing more. -/
theorem TranContext.Consistent.mono {c : TranContext} {h h' : History} {trancId : TrancId}
    (hc : c.Consistent h trancId) (hsub : h ⊆ h')
    (hlast : ∀ key, h'.lastWritten trancId key = h.lastWritten trancId key) :
  c.Consistent h' trancId
  := by
  constructor
  · apply hc.pos
  · apply hc.trancId_eq
  · apply hsub hc.created
  · intro hlevel key
    rw [hlast key]
    apply hc.tempMap hlevel key
  · intro key value i hlookup
    exact (hc.rollback key value i hlookup).mono hsub
  · intro key hkey
    obtain ⟨w, hw, hw'⟩ := hc.rollback_wrote key hkey
    exact ⟨w, hsub hw, hw'⟩
  · intro key value i hlookup
    obtain ⟨hgenuine, hi⟩ := hc.read key value i hlookup
    exact ⟨hgenuine.mono hsub, hi⟩

namespace System

variable {ε : Type} [DocumentedEngine ε]

structure Invariant (s : System ε) : Prop where
  next_pos : 0 < s.manager.nextTransactionId
  unused : ∀ trancId, s.manager.nextTransactionId ≤ trancId →
    s.contexts trancId = none ∧ s.pending trancId = {}
  consistent : ∀ trancId c, s.contexts trancId = some c → c.Consistent s.history trancId
  created : ∀ trancId level, .created trancId level ∈ s.history →
    ∃ c, s.contexts trancId = some c ∧ c.isolationLevel = level
  wrote : ∀ trancId w, .wrote trancId w ∈ s.history → ∃ c, s.contexts trancId = some c
  buffered : ∀ trancId c, s.contexts trancId = some c → c.isolationLevel.Buffered →
    s.pending trancId = {}
  pending : ∀ trancId, ∀ call ∈ (s.pending trancId).calls,
    Applicable s.history trancId call.entry
  applied : ∀ writer e, .applied writer e ∈ s.history → Applicable s.history writer e
  engine : ∀ key trancId, latest key trancId (DocumentedEngine.tables s.engine).versions =
    latest key trancId s.history.entries

/-! ### What changes, one thing at a time -/

omit [DocumentedEngine ε] in
theorem update_eq_some {α : Type} {f : TrancId → Option α} {trancId trancId' : TrancId}
    {a b : α} (h : Function.update f trancId (some a) trancId' = some b) :
  trancId' = trancId ∧ b = a ∨ trancId' ≠ trancId ∧ f trancId' = some b
  := by
  by_cases hid : trancId' = trancId
  · subst hid
    rw [Function.update_self] at h
    exact .inl ⟨rfl, (Option.some.inj h).symm⟩
  · rw [Function.update_of_ne hid] at h
    exact .inr ⟨hid, h⟩

/-- An occurrence that is neither a creation nor a write of a transaction, and of a version
that may be applied if it applies one. -/
def Quiet (h : History) : Occurrence → Prop
  | .created _ _ | .wrote _ _ => False
  | .applied writer e => Applicable h writer e
  | _ => True

theorem Invariant.occur {s : System ε} (hs : s.Invariant) (h : History) (engine : ε)
    (hquiet : ∀ o ∈ h, Quiet (h ++ s.history) o)
    (hengine : ∀ key trancId, latest key trancId (DocumentedEngine.tables engine).versions =
      latest key trancId (History.entries (h ++ s.history))) :
  Invariant { s with engine, history := h ++ s.history }
  := by
  have hsub : s.history ⊆ h ++ s.history := List.subset_append_right h s.history
  constructor
  · apply hs.next_pos
  · apply hs.unused
  · intro trancId c hc
    apply (hs.consistent trancId c hc).mono hsub
    intro key
    apply History.lastWritten_append
    intro w hw
    apply hquiet _ hw
  · intro trancId level hcreated
    rcases List.mem_append.mp hcreated with hcreated | hcreated
    · exact absurd (hquiet _ hcreated) id
    · apply hs.created trancId level hcreated
  · intro trancId w hw
    rcases List.mem_append.mp hw with hw | hw
    · exact absurd (hquiet _ hw) id
    · apply hs.wrote trancId w hw
  · apply hs.buffered
  · intro trancId call hcall
    exact (hs.pending trancId call hcall).mono hsub
  · intro writer e he
    rcases List.mem_append.mp he with he | he
    · apply hquiet _ he
    · exact (hs.applied writer e he).mono hsub
  · apply hengine

/-- Another context for a transaction, at the same level, and perhaps a write of it. -/
theorem Invariant.setContext {s : System ε} (hs : s.Invariant) {trancId : TrancId}
    {c : TranContext} (hc : s.contexts trancId = some c) (c' : TranContext)
    (hlevel : c'.isolationLevel = c.isolationLevel) (h : History)
    (hwrites : ∀ o ∈ h, ∃ w, o = .wrote trancId w)
    (hc' : c'.Consistent (h ++ s.history) trancId) :
  Invariant { s with
    contexts := Function.update s.contexts trancId (some c')
    history := h ++ s.history }
  := by
  have hsub : s.history ⊆ h ++ s.history := List.subset_append_right h s.history
  constructor
  · apply hs.next_pos
  · intro trancId' hle
    obtain ⟨hnone, hpending⟩ := hs.unused trancId' hle
    have hne : trancId' ≠ trancId := by
      rintro rfl
      rw [hnone] at hc
      cases hc
    exact ⟨(Function.update_of_ne hne _ _).trans hnone, hpending⟩
  · intro trancId' c'' hc''
    rcases update_eq_some hc'' with ⟨rfl, rfl⟩ | ⟨hne, hc''⟩
    · apply hc'
    · apply (hs.consistent trancId' c'' hc'').mono hsub
      intro key
      apply History.lastWritten_append
      intro w hw
      obtain ⟨w', hw'⟩ := hwrites _ hw
      apply hne (Occurrence.wrote.inj hw').1
  · intro trancId' level hcreated
    have hcreated' : .created trancId' level ∈ s.history := by
      rcases List.mem_append.mp hcreated with hcreated | hcreated
      · obtain ⟨w, hw⟩ := hwrites _ hcreated
        cases hw
      · apply hcreated
    obtain ⟨c'', hc'', hlevel''⟩ := hs.created trancId' level hcreated'
    by_cases hid : trancId' = trancId
    · subst hid
      refine ⟨c', Function.update_self _ _ _, ?_⟩
      rw [hc] at hc''
      rw [hlevel, Option.some.inj hc'', hlevel'']
    · exact ⟨c'', (Function.update_of_ne hid _ _).trans hc'', hlevel''⟩
  · intro trancId' w hw
    by_cases hid : trancId' = trancId
    · subst hid
      exact ⟨c', Function.update_self _ _ _⟩
    · rcases List.mem_append.mp hw with hw | hw
      · obtain ⟨w', hw'⟩ := hwrites _ hw
        exact absurd (Occurrence.wrote.inj hw').1 hid
      · obtain ⟨c'', hc''⟩ := hs.wrote trancId' w hw
        exact ⟨c'', (Function.update_of_ne hid _ _).trans hc''⟩
  · intro trancId' c'' hc'' hbuffered
    rcases update_eq_some hc'' with ⟨rfl, rfl⟩ | ⟨-, hc''⟩
    · rw [hlevel] at hbuffered
      apply hs.buffered trancId' c hc hbuffered
    · apply hs.buffered trancId' c'' hc'' hbuffered
  · intro trancId' call hcall
    exact (hs.pending trancId' call hcall).mono hsub
  · intro writer e he
    rcases List.mem_append.mp he with he | he
    · obtain ⟨w, hw⟩ := hwrites _ he
      cases hw
    · exact (hs.applied writer e he).mono hsub
  · intro key trancId'
    have hnil : History.entries h = [] := by
      apply List.filterMap_eq_nil_iff.mpr
      intro o ho
      obtain ⟨w, rfl⟩ := hwrites o ho
      rfl
    rw [History.entries_append, hnil]
    apply hs.engine key trancId'

/-- Other calls pending. -/
theorem Invariant.setPending {s : System ε} (hs : s.Invariant) {trancId : TrancId}
    (hlt : trancId < s.manager.nextTransactionId) (pending : Pending)
    (hlevel : ∀ c, s.contexts trancId = some c → c.isolationLevel.Buffered → pending = {})
    (hcalls : ∀ call ∈ pending.calls, Applicable s.history trancId call.entry) :
  Invariant { s with pending := Function.update s.pending trancId pending }
  := by
  constructor
  · apply hs.next_pos
  · intro trancId' hle
    obtain ⟨hnone, hpending⟩ := hs.unused trancId' hle
    have hne : trancId' ≠ trancId := (hlt.trans_le hle).ne'
    exact ⟨hnone, (Function.update_of_ne hne _ _).trans hpending⟩
  · apply hs.consistent
  · apply hs.created
  · apply hs.wrote
  · intro trancId' c hc hbuffered
    by_cases hid : trancId' = trancId
    · subst hid
      exact (Function.update_self _ _ _).trans (hlevel c hc hbuffered)
    · exact (Function.update_of_ne hid _ _).trans (hs.buffered trancId' c hc hbuffered)
  · intro trancId' call hcall
    by_cases hid : trancId' = trancId
    · subst hid
      dsimp only at hcall
      rw [Function.update_self] at hcall
      apply hcalls call hcall
    · dsimp only at hcall
      rw [Function.update_of_ne hid] at hcall
      apply hs.pending trancId' call hcall
  · apply hs.applied
  · apply hs.engine

/-- Another manager, which has not handed out fewer ids. -/
theorem Invariant.setManager {s : System ε} (hs : s.Invariant) (manager : TranManager)
    (hle : s.manager.nextTransactionId ≤ manager.nextTransactionId) :
  Invariant { s with manager }
  := ⟨hs.next_pos.trans_le hle, fun trancId hle' => hs.unused trancId (hle.trans hle'),
    hs.consistent, hs.created, hs.wrote, hs.buffered, hs.pending, hs.applied, hs.engine⟩

/-- Another engine with the same versions. -/
theorem Invariant.setEngine {s : System ε} (hs : s.Invariant) {engine : ε}
    (hversions : (DocumentedEngine.tables engine).versions =
      (DocumentedEngine.tables s.engine).versions) :
  Invariant { s with engine }
  := ⟨hs.next_pos, hs.unused, hs.consistent, hs.created, hs.wrote, hs.buffered, hs.pending,
    hs.applied, fun key trancId => by rw [← hs.engine key trancId, ← hversions]⟩

/-! ### Answers of the engine -/

/-- What the engine answers is genuine, and visible to the query. -/
theorem Invariant.genuine_of_get {s : System ε} (hs : s.Invariant) {key value : Bytes}
    {trancId i : TrancId} (h : LSMEngine.get s.engine key trancId = some (value, i)) :
  Genuine s.history ⟨key, value, i⟩ ∧ (trancId = 0 ∨ i ≤ trancId)
  := by
  rw [DocumentedEngine.get_eq, hs.engine] at h
  obtain ⟨e, he, hanswer⟩ := Option.bind_eq_some_iff.mp h
  obtain ⟨hmem, rfl, hvisible⟩ := latest_eq_some he
  obtain ⟨writer, happlied⟩ := History.mem_entries.mp hmem
  rw [Entry.answer] at hanswer
  split at hanswer
  next => cases hanswer
  next hvalue =>
    obtain ⟨rfl, rfl⟩ := Prod.mk.inj (Option.some.inj hanswer)
    exact ⟨(hs.applied writer e happlied).genuine hvalue, hvisible⟩

theorem Invariant.lt_next {s : System ε} (hs : s.Invariant) {trancId : TrancId}
    {c : TranContext} (hc : s.contexts trancId = some c) :
  trancId < s.manager.nextTransactionId
  := by
  apply lt_of_not_ge
  intro hle
  rw [(hs.unused trancId hle).1] at hc
  cases hc

/-! ### The steps -/

theorem Invariant.newTranc {s : System ε} (hs : s.Invariant) (level : IsolationLevel) :
  Invariant (s.newTranc level)
  := by
  obtain ⟨hnone, hpending⟩ := hs.unused s.manager.nextTransactionId (le_refl _)
  have hsub : s.history ⊆ .created s.manager.nextTransactionId level :: s.history :=
    List.subset_cons_self _ _
  have hfresh : ∀ trancId c, s.contexts trancId = some c →
      trancId ≠ s.manager.nextTransactionId := by
    intro trancId c hc
    exact (hs.lt_next hc).ne
  constructor
  · apply Nat.succ_pos _
  · intro trancId hle
    have hlt : s.manager.nextTransactionId < trancId := hle
    obtain ⟨hnone', hpending'⟩ := hs.unused trancId hlt.le
    exact ⟨(Function.update_of_ne hlt.ne' _ _).trans hnone', hpending'⟩
  · intro trancId c hc
    by_cases hid : trancId = s.manager.nextTransactionId
    · subst hid
      have hc' := (Function.update_self _ _ _).symm.trans hc
      rw [← Option.some.inj hc']
      have hlast : ∀ key, s.history.lastWritten s.manager.nextTransactionId key = none := by
        intro key
        apply Option.eq_none_iff_forall_ne_some.mpr
        intro value hvalue
        obtain ⟨w, hw, -⟩ := History.mem_of_lastWritten hvalue
        obtain ⟨c, hc⟩ := hs.wrote _ w hw
        apply hfresh _ c hc rfl
      constructor
      · apply hs.next_pos
      · rfl
      · apply List.mem_cons_self
      · intro _ key
        exact (hlast key).symm
      · intro key value i hlookup
        cases hlookup
      · intro key hkey
        cases hkey
      · intro key value i hlookup
        cases hlookup
    · have hc' := (Function.update_of_ne hid _ _).symm.trans hc
      exact (hs.consistent trancId c hc').mono hsub (fun _ => rfl)
  · intro trancId level' hcreated
    rcases List.mem_cons.mp hcreated with hcreated | hcreated
    · obtain ⟨rfl, rfl⟩ := Occurrence.created.inj hcreated
      exact ⟨_, Function.update_self _ _ _, rfl⟩
    · obtain ⟨c, hc, hlevel⟩ := hs.created trancId level' hcreated
      exact ⟨c, (Function.update_of_ne (hfresh trancId c hc) _ _).trans hc, hlevel⟩
  · intro trancId w hw
    rcases List.mem_cons.mp hw with hw | hw
    · cases hw
    · obtain ⟨c, hc⟩ := hs.wrote trancId w hw
      exact ⟨c, (Function.update_of_ne (hfresh trancId c hc) _ _).trans hc⟩
  · intro trancId c hc hbuffered
    by_cases hid : trancId = s.manager.nextTransactionId
    · rw [hid]
      apply hpending
    · have hc' := (Function.update_of_ne hid _ _).symm.trans hc
      apply hs.buffered trancId c hc' hbuffered
  · intro trancId call hcall
    exact (hs.pending trancId call hcall).mono hsub
  · intro writer e he
    rcases List.mem_cons.mp he with he | he
    · cases he
    · exact (hs.applied writer e he).mono hsub
  · apply hs.engine

/-- What a context holds after it has noted or kept a write. -/
theorem Invariant.consistent_prepare {s : System ε} (hs : s.Invariant) {trancId : TrancId}
    {c : TranContext} (hc : s.contexts trancId = some c) (record : Record) (w : WriteCall) :
  (c.prepare s.engine record w.key w.value).Consistent (.wrote trancId w :: s.history) trancId
  := by
  have hold := hs.consistent trancId c hc
  have hsub : s.history ⊆ .wrote trancId w :: s.history := List.subset_cons_self _ _
  have hread : ∀ key value i,
      (c.prepare s.engine record w.key w.value).readMap.lookup key = some (some (value, i)) →
        Genuine (.wrote trancId w :: s.history) ⟨key, value, i⟩ ∧ i ≤ trancId := by
    intro key value i hlookup
    rw [TranContext.readMap_prepare] at hlookup
    obtain ⟨hgenuine, hi⟩ := hold.read key value i hlookup
    exact ⟨hgenuine.mono hsub, hi⟩
  have hwrote : ∀ key, key ∈ c.rollbackMap →
      ∃ w', .wrote trancId w' ∈ Occurrence.wrote trancId w :: s.history ∧ w'.key = key := by
    intro key hkey
    obtain ⟨w', hw', hkey'⟩ := hold.rollback_wrote key hkey
    exact ⟨w', hsub hw', hkey'⟩
  by_cases hlevel : c.isolationLevel = .readUnopCommitted
  · obtain ⟨hrollback, -⟩ := TranContext.prepare_unbuffered hlevel s.engine record w.key w.value
    constructor
    · apply hold.pos
    · rw [TranContext.trancId_prepare]
      apply hold.trancId_eq
    · rw [TranContext.isolationLevel_prepare]
      apply hsub hold.created
    · intro hbuffered
      rw [TranContext.isolationLevel_prepare] at hbuffered
      exact absurd hlevel hbuffered
    · intro key value i hlookup
      rw [hrollback] at hlookup
      by_cases hkey : key = w.key
      · subst hkey
        rw [AList.lookup_insert] at hlookup
        exact (hs.genuine_of_get (Option.some.inj hlookup)).1.mono hsub
      · rw [AList.lookup_insert_ne hkey] at hlookup
        exact (hold.rollback key value i hlookup).mono hsub
    · intro key hkey
      rw [hrollback] at hkey
      rcases AList.mem_insert _ |>.mp hkey with rfl | hkey
      · exact ⟨w, List.mem_cons_self, rfl⟩
      · apply hwrote key hkey
    · apply hread
  · constructor
    · apply hold.pos
    · rw [TranContext.trancId_prepare]
      apply hold.trancId_eq
    · rw [TranContext.isolationLevel_prepare]
      apply hsub hold.created
    · intro _ key
      rw [TranContext.tempMap_prepare hlevel, History.lastWritten_cons_wrote]
      by_cases hkey : w.key = key
      · rw [if_pos hkey, hkey, AList.lookup_insert]
      · rw [if_neg hkey, AList.lookup_insert_ne (Ne.symm hkey), hold.tempMap hlevel]
    · intro key value i hlookup
      rw [TranContext.rollbackMap_prepare hlevel] at hlookup
      exact (hold.rollback key value i hlookup).mono hsub
    · intro key hkey
      rw [TranContext.rollbackMap_prepare hlevel] at hkey
      apply hwrote key hkey
    · apply hread

theorem Invariant.write {s : System ε} (hs : s.Invariant) {trancId : TrancId}
    {c : TranContext} (hc : s.contexts trancId = some c) (w : WriteCall) :
  Invariant (s.write trancId c w)
  := by
  have hold := hs.consistent trancId c hc
  have hwrite := hs.setContext hc _ (TranContext.isolationLevel_prepare c s.engine
    (w.record c.trancId) w.key w.value) [.wrote trancId w]
    (fun o ho => ⟨w, List.mem_singleton.mp ho⟩) (hs.consistent_prepare hc _ w)
  apply hwrite.setPending (hs.lt_next hc)
  · intro c' hc' hbuffered
    rcases update_eq_some hc' with ⟨-, rfl⟩ | ⟨hne, -⟩
    · rw [TranContext.isolationLevel_prepare] at hbuffered
      rw [if_neg hbuffered]
    · exact absurd rfl hne
  · intro call hcall
    dsimp only at hcall
    split at hcall
    next hlevel =>
      rw [List.mem_singleton.mp hcall, EngineCall.entry, hold.trancId_eq]
      constructor
      · intro hvalue
        right
        rw [← WriteCall.eq_put hvalue]
        refine ⟨List.mem_cons_self, .inr (List.mem_cons_of_mem _ ?_)⟩
        rw [← hlevel]
        apply hold.created
      · intro _
        exact ⟨w, .inl List.mem_cons_self, rfl⟩
    next => cases hcall

theorem Invariant.get {s : System ε} (hs : s.Invariant) {trancId : TrancId} {c : TranContext}
    (hc : s.contexts trancId = some c) (key : Bytes) :
  Invariant (s.get trancId c key)
  := by
  have hold := hs.consistent trancId c hc
  have hread : (c.get s.engine key).2.Consistent s.history trancId := by
    rcases TranContext.get_cases c s.engine key with hsame | hread
    · rw [hsame]
      apply hold
    · rw [hread]
      refine ⟨hold.pos, hold.trancId_eq, hold.created, hold.tempMap, hold.rollback,
        hold.rollback_wrote, ?_⟩
      intro key' value i hlookup
      dsimp only at hlookup
      by_cases hkey : key' = key
      · subst hkey
        rw [AList.lookup_insert] at hlookup
        obtain ⟨hgenuine, hi⟩ := hs.genuine_of_get (Option.some.inj hlookup)
        rw [hold.trancId_eq] at hi
        exact ⟨hgenuine, hi.resolve_left hold.pos.ne'⟩
      · rw [AList.lookup_insert_ne hkey] at hlookup
        apply hold.read key' value i hlookup
  obtain ⟨_, hcontext⟩ := TranContext.get_context c s.engine key
  have hset := hs.setContext hc (c.get s.engine key).2 (by rw [hcontext]) []
    (fun o ho => by cases ho) hread
  apply hset.occur [.read trancId key (c.get s.engine key).1] s.engine
  · intro o ho
    rw [List.mem_singleton.mp ho]
    trivial
  · apply hset.engine

/-- The records and the flags of a context do not matter. -/
theorem Invariant.setFlags {s : System ε} (hs : s.Invariant) {trancId : TrancId}
    {c : TranContext} (hc : s.contexts trancId = some c) (operations : List Record)
    (isCommited isAborted : Bool) :
  Invariant { s with
    contexts := Function.update s.contexts trancId
      (some { c with operations, isCommited, isAborted }) }
  := by
  have hold := hs.consistent trancId c hc
  apply hs.setContext hc { c with operations, isCommited, isAborted } rfl []
    (fun o ho => by cases ho)
  exact ⟨hold.pos, hold.trancId_eq, hold.created, hold.tempMap, hold.rollback,
    hold.rollback_wrote, hold.read⟩

theorem Invariant.beginCommit {s : System ε} (hs : s.Invariant) {trancId : TrancId}
    {c : TranContext} (hc : s.contexts trancId = some c)
    (hlevel : c.isolationLevel = .readUnopCommitted) :
  Invariant (s.beginCommit trancId c true)
  := by
  have hlogged := (hs.setFlags hc c.commitRecords c.isCommited c.isAborted).setManager
    { s.manager with wal := s.manager.wal ++ c.commitRecords } (le_refl _)
  apply hlogged.setPending (hs.lt_next hc)
  · intro c' hc' hbuffered
    rcases update_eq_some hc' with ⟨-, rfl⟩ | ⟨hne, -⟩
    · exact absurd hlevel hbuffered
    · exact absurd rfl hne
  · intro call hcall
    rw [List.mem_singleton.mp hcall]
    exact ⟨fun hvalue => absurd rfl hvalue, fun hkey => absurd rfl hkey⟩

theorem Invariant.beginAbort {s : System ε} (hs : s.Invariant) {trancId : TrancId}
    {c : TranContext} (hc : s.contexts trancId = some c)
    (hlevel : c.isolationLevel = .readUnopCommitted)
    {rollbacks : Iteration (Option (Bytes × TrancId))}
    (hrollbacks : rollbacks.Perm c.rollbackMap.entries) :
  Invariant (s.beginAbort trancId c rollbacks)
  := by
  have hold := hs.consistent trancId c hc
  apply hs.setPending (hs.lt_next hc)
  · intro c' hc' hbuffered
    rw [hc] at hc'
    rw [← Option.some.inj hc'] at hbuffered
    exact absurd hlevel hbuffered
  · intro call hcall
    obtain ⟨⟨key, previous⟩, hr, rfl⟩ := List.mem_map.mp hcall
    have hlookup : c.rollbackMap.lookup key = some previous :=
      AList.mem_lookup_iff.mpr (hrollbacks.mem_iff.mp hr)
    have hwrote : ∃ w, s.history.Wrote trancId w ∧ w.key = key := by
      have hmem : key ∈ c.rollbackMap := AList.lookup_isSome.mp (by rw [hlookup]; rfl)
      obtain ⟨w, hw, hkey⟩ := hold.rollback_wrote key hmem
      exact ⟨w, .inl hw, hkey⟩
    cases previous with
    | none => exact ⟨fun hvalue => absurd rfl hvalue, fun _ => hwrote⟩
    | some version => exact ⟨fun _ => hold.rollback key _ _ hlookup, fun _ => hwrote⟩

theorem Invariant.finish {s : System ε} (hs : s.Invariant) {trancId : TrancId}
    {c : TranContext} (hc : s.contexts trancId = some c) (state : TransactionState) :
  Invariant (s.finish trancId c state)
  := by
  have hended : Invariant { s with
      contexts := Function.update s.contexts trancId (some (c.ended state)) } := by
    cases state with
    | opCommitted => apply hs.setFlags hc c.operations true c.isAborted
    | aborted => apply hs.setFlags hc c.operations c.isCommited true
  have hpending := (hended.setManager (s.manager.addReadyToFlushTrancId c.trancId state)
    (le_refl _)).setPending (hs.lt_next hc) {} (fun _ _ _ => rfl)
    (fun call hcall => by cases hcall)
  apply hpending.occur [endOccurrence trancId state] s.engine
  · intro o ho
    rw [List.mem_singleton.mp ho]
    cases state <;> trivial
  · intro key i
    have hentries : History.entries (endOccurrence trancId state :: s.history) =
        s.history.entries := by
      cases state <;> rfl
    exact (hs.engine key i).trans (congrArg (latest key i) hentries.symm)

theorem Invariant.lsmWrite {s : System ε} (hs : s.Invariant) (w : WriteCall) :
  Invariant (s.lsmWrite w)
  := by
  have hnone := (hs.unused s.manager.nextTransactionId (le_refl _)).1
  have hwrote := (hs.setManager s.manager.getNextTransactionId.2
    (Nat.le_succ _)).occur [.lsmWrote s.manager.nextTransactionId w] s.engine
    (fun o ho => by rw [List.mem_singleton.mp ho]; trivial) hs.engine
  apply hwrote.setPending (Nat.lt_succ_self _)
  · intro c hc
    rw [show s.contexts s.manager.nextTransactionId = some c from hc] at hnone
    cases hnone
  · intro call hcall
    rw [List.mem_singleton.mp hcall, EngineCall.entry]
    constructor
    · intro hvalue
      left
      rw [← WriteCall.eq_put hvalue]
      apply List.mem_cons_self
    · intro _
      exact ⟨w, .inr List.mem_cons_self, rfl⟩

theorem Invariant.perform {s : System ε} (hs : s.Invariant) {trancId : TrancId}
    {call : EngineCall} {calls : List EngineCall} {ending : Option TransactionState}
    (hpending : s.pending trancId = ⟨call :: calls, ending⟩) :
  Invariant (s.perform trancId call ⟨calls, ending⟩)
  := by
  have happlicable := hs.pending trancId
  rw [hpending] at happlicable
  have happlied := hs.occur [.applied trancId call.entry] (call.perform s.engine)
    (fun o ho => by
      rw [List.mem_singleton.mp ho]
      exact (happlicable call List.mem_cons_self).mono (List.subset_append_right _ _))
    (fun key i => by
      rw [EngineCall.tables_perform, Tables.latest_put, latest_cons, hs.engine key i,
        ← latest_cons]
      rfl)
  have hlt : trancId < s.manager.nextTransactionId := by
    apply lt_of_not_ge
    intro hle
    rw [(hs.unused trancId hle).2] at hpending
    cases hpending
  apply happlied.setPending hlt
  · intro c hc hbuffered
    have hidle := hs.buffered trancId c hc hbuffered
    rw [hpending] at hidle
    cases hidle
  · intro call' hcall'
    exact (happlicable call' (List.mem_cons_of_mem _ hcall')).mono
      (List.subset_append_right _ _)

theorem Invariant.committed {s : System ε} (hs : s.Invariant) {trancId : TrancId}
    {c : TranContext} (hc : s.contexts trancId = some c) (hlevel : c.isolationLevel.Buffered)
    {writes : Iteration Bytes} (hwrites : writes.Perm c.tempMap.entries) :
  Invariant (s.committed trancId c writes)
  := by
  have hold := hs.consistent trancId c hc
  have hlogged := (hs.setFlags hc c.commitRecords true c.isAborted).setManager
    (({ s.manager with wal := s.manager.wal ++ c.commitRecords } :
      TranManager).addReadyToFlushTrancId c.trancId .opCommitted) (le_refl _)
  apply hlogged.occur (.committed trancId :: applications trancId writes)
    (c.applyWrites s.engine writes)
  · intro o ho
    rcases List.mem_cons.mp ho with rfl | ho
    · trivial
    · rcases mem_applications.mp ho with rfl | ⟨key, value, hkept, rfl⟩
      · exact ⟨fun hvalue => absurd rfl hvalue, fun hkey => absurd rfl hkey⟩
      · have hlookup : c.tempMap.lookup key = some value :=
          AList.mem_lookup_iff.mpr (hwrites.mem_iff.mp hkept)
        rw [hold.tempMap hlevel] at hlookup
        obtain ⟨w, hw, rfl, rfl⟩ := History.mem_of_lastWritten hlookup
        have hmem := List.mem_append_right (.committed trancId :: applications trancId writes) hw
        constructor
        · intro hvalue
          right
          rw [← WriteCall.eq_put hvalue]
          exact ⟨hmem, .inl (List.mem_append_left _ List.mem_cons_self)⟩
        · intro _
          exact ⟨w, .inl hmem, rfl⟩
  · intro key i
    have hentries : History.entries (.committed trancId :: applications trancId writes) =
      ⟨[], [], trancId⟩ :: (tempEntries trancId writes).reverse :=
        entries_applications trancId writes
    rw [TranContext.latest_applyWrites, hold.trancId_eq, History.entries_append, hentries,
      List.cons_append, latest_cons, latest_cons, latest_append, latest_append, hs.engine]

/-- Every step but a flush keeps the invariant. -/
theorem Invariant.stepped {s s' : System ε} (hs : s.Invariant) (h : Stepped s s') :
  Invariant s'
  := by
  cases h with
  | newTranc level => apply hs.newTranc level
  | write trancId c w hc hidle => apply hs.write hc w
  | get trancId c key hc => apply hs.get hc key
  | failed trancId c operations hc => apply hs.setFlags hc operations c.isCommited c.isAborted
  | beginCommit trancId c hc hidle hlevel => apply hs.beginCommit hc hlevel
  | refused trancId c hc =>
      have hset := (hs.setFlags hc c.operations c.isCommited true).setManager
        (s.manager.addReadyToFlushTrancId c.trancId .aborted) (le_refl _)
      apply hset.occur [.refused trancId] s.engine
      · intro o ho
        rw [List.mem_singleton.mp ho]
        trivial
      · apply hs.engine
  | committed trancId c writes hc hidle hlevel hwrites hconflicts =>
      apply hs.committed hc hlevel hwrites
  | beginAbort trancId c rollbacks hc hidle hlevel hrollbacks =>
      apply hs.beginAbort hc hlevel hrollbacks
  | finish trancId c state hc hpending => apply hs.finish hc state
  | lsmWrite w => apply hs.lsmWrite w
  | perform trancId call calls ending hpending => apply hs.perform hpending
  | frozenCurTable =>
      apply hs.setEngine
      rw [DocumentedEngine.tables_frozenCurTable, Tables.versions_frozenCurTable]

theorem Invariant.flush {s : System ε} (hs : s.Invariant) : Invariant s.flush
  := by
  have hengine : (DocumentedEngine.tables (DocumentedEngine.flush s.engine).2).versions =
      (DocumentedEngine.tables s.engine).versions := by
    rw [DocumentedEngine.tables_flush, Tables.versions_flushLast]
  exact (hs.setEngine hengine).setManager _
    (TranManager.nextTransactionId_foldl_addFlushedTrancId _ _).ge

theorem start_invariant : (start : System ε).Invariant
  := by
  constructor
  · apply Nat.one_pos
  · intro _ _
    exact ⟨rfl, rfl⟩
  · intro trancId c hc
    cases hc
  · intro trancId level hcreated
    cases hcreated
  · intro trancId w hw
    cases hw
  · intro trancId c hc
    cases hc
  · intro trancId call hcall
    cases hcall
  · intro writer e he
    cases he
  · intro key trancId
    have hfresh : (DocumentedEngine.tables (start : System ε).engine) = {} :=
      DocumentedEngine.tables_fresh
    rw [hfresh]
    rfl

/-- The invariant holds in every state that is reached. -/
theorem reached_invariant {allowed : System ε → Event → Prop} {s : System ε}
    (h : Reached allowed s) :
  s.Invariant
  := by
  apply h.invariant start_invariant
  intro s s' event _ hs _ hstep
  rcases step_stepped hstep with hstepped | ⟨-, rfl⟩
  · apply hs.stepped hstepped
  · apply hs.flush

end System

end TinyLsm
