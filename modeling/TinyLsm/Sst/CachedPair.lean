import TinyLsm.Library.Runs
import TinyLsm.Sst.Concatenation

/-!
# The pair behind the arrow

`operator*` of a table iterator reads the pair at the position.  `operator->` reads it once and
keeps it, and `operator++` does not drop what is kept.  So the two agree as long as no step leaves
a position with a pair kept for one with another pair.
-/

namespace TinyLsm

/-- The operations that look at an iterator, besides those of `BaseIterator`. -/
class ArrowIterator (ι : Type) extends BaseIterator ι where
  arrow : ι → Except Fault ((Bytes × Bytes) × ι)
  key : ι → Except Fault (Bytes × ι)
  value : ι → Except Fault (Bytes × ι)

namespace ArrowIterator

open BaseIterator

inductive Call where
  | next
  | arrow
  | deref
  | key
  | value

variable {ι : Type} [ArrowIterator ι]

/-- The iterator after a call. -/
def call (it : ι) : Call → Except Fault ι
  | .next => next it
  | .arrow => do return (← arrow it).2
  | .deref => do return (← deref it).2
  | .key => do return (← key it).2
  | .value => do return (← value it).2

/-- `operator->` and `operator*` give the same pair, or fail in the same way. -/
def Agree (it : ι) : Prop := (arrow it).map Prod.fst = (deref it).map Prod.fst

/-- In every valid position of a run the operators agree. -/
def Agrees (start : ι) (calls : List Call) : Prop :=
  ∀ before it, before <+: calls → before.foldlM call start = .ok it → isValid it = true → Agree it

/-- Every step of a run is taken from a position with a property. -/
def StepsFrom (P : ι → Prop) (start : ι) (calls : List Call) : Prop :=
  ∀ before it, before ++ [.next] <+: calls → before.foldlM call start = .ok it → P it

theorem stepsFrom_nil (P : ι → Prop) (start : ι) : StepsFrom P start []
  := fun _ _ hbefore _ => absurd (List.prefix_nil.mp hbefore) (List.append_ne_nil_of_right_ne_nil _
    (List.cons_ne_nil _ _))

theorem stepsFrom_cons {P : ι → Prop} {start : ι} {c : Call} {calls : List Call} :
  StepsFrom P start (c :: calls) ↔
    (c = .next → P start) ∧ ∀ it, call start c = .ok it → StepsFrom P it calls
  := by
  constructor
  · intro h
    constructor
    · rintro rfl
      exact h [] start (List.prefix_append [Call.next] calls) rfl
    · intro it hcall before it' hbefore hrun
      apply h (c :: before) it'
      · exact (List.prefix_cons_inj c).mpr hbefore
      · rw [List.foldlM_cons, Except.bind_eq_of_ok _ hcall, hrun]
  · rintro ⟨hstart, hcalls⟩ before it hbefore hrun
    cases before with
    | nil =>
        obtain rfl := Except.ok.inj hrun
        exact hstart (List.cons_prefix_cons.mp hbefore).1.symm
    | cons c' before =>
        obtain ⟨rfl, hrest⟩ := List.cons_prefix_cons.mp hbefore
        rw [List.foldlM_cons] at hrun
        obtain ⟨it', hcall, hrun⟩ := Except.exists_of_bind_eq_ok hrun
        exact hcalls it' hcall before it hrest hrun

/-- If an invariant is kept by looking, and by a step exactly from positions with a property, then
the operators agree in a run exactly if its steps are taken from such positions. -/
theorem agrees_iff_stepsFrom (Inv P : ι → Prop)
    (hlook : ∀ {it it' c}, Inv it → c ≠ .next → call it c = .ok it' → Inv it')
    (hstep : ∀ {it it'}, Inv it → P it → next it = .ok it' → Inv it')
    (hagree : ∀ {it}, Inv it → isValid it = true → Agree it)
    (hP : ∀ {it}, Inv it → (∀ it', next it = .ok it' → isValid it' = true → Agree it') → P it)
    {start : ι} (hstart : Inv start) (calls : List Call) :
  Agrees start calls ↔ StepsFrom P start calls
  := by
  have hcall {it it' : ι} {c : Call} (hit : Inv it) (hc : c = .next → P it)
      (hrun : call it c = .ok it') : Inv it' := by
    by_cases hnext : c = .next
    · subst hnext
      exact hstep hit (hc rfl) hrun
    · exact hlook hit hnext hrun
  constructor
  · intro hagrees
    have hsteps {before : List Call} {it : ι} (hbefore : before ++ [.next] <+: calls)
        (hrun : before.foldlM call start = .ok it) (hit : Inv it) : P it := by
      apply hP hit
      intro it' hnext hvalid
      exact hagrees _ it' hbefore (Runs.foldlM_concat_eq_ok.mpr ⟨it, hrun, hnext⟩) hvalid
    intro before it hbefore hrun
    apply hsteps hbefore hrun
    apply Runs.invariant_of_prefix hstart _ ((List.prefix_append _ _).trans hbefore) hrun
    intro before' c s s' hbefore' hrun' hs hs'
    exact hcall hs (fun hc => hsteps (hc ▸ hbefore') hrun' hs) hs'
  · intro hsteps before it hbefore hrun hvalid
    apply hagree _ hvalid
    apply Runs.invariant_of_prefix hstart _ hbefore hrun
    intro before' c s s' hbefore' hrun' hs hs'
    exact hcall hs (fun hc => hsteps before' s (hc ▸ hbefore') hrun') hs'

end ArrowIterator

/-! ### One table -/

@[simp]
theorem BlockIterator.updateCurrent_currentIndex (it : BlockIterator) :
  it.updateCurrent.currentIndex = it.currentIndex
  := by
  rw [updateCurrent]
  split
  · rfl
  · rfl

namespace SstIterator

/-- Keep the pair at the position, unless a pair is kept. -/
def updateCurrent (it : SstIterator) : Except Fault SstIterator :=
  match it.cachedValue, it.blockIt with
  | none, some blockIt =>
      if blockIt.isEnd then .ok it
      else do
        let (raw, it') ← it.deref
        return { it' with cachedValue := some raw }
  | _, _ => .ok it

/-- `operator->`, the address of the pair kept, is undefined if none is. -/
def arrow (it : SstIterator) : Except Fault ((Bytes × Bytes) × SstIterator) := do
  let it' ← it.updateCurrent
  match it'.cachedValue with
  | some raw => return (raw, it')
  | none => throw .undefinedBehavior

instance : ArrowIterator SstIterator where
  arrow := arrow
  key := key
  value := value

/-- The pair stored at the position, with the value the table resolves. -/
def stored (it : SstIterator) : Except Fault (Bytes × Bytes) :=
  match it.blockIt, it.sst with
  | some blockIt, some sst =>
      match blockIt.block.getEntryAt blockIt.currentIndex with
      | some e => (sst.resolveValue e.value).map (fun value => (e.key, value))
      | none => .error .undefinedBehavior
  | _, _ => .error .undefinedBehavior

/-- A step leads to no valid position, or to one that stores the pair kept, if one is. -/
def KeepsPair (it : SstIterator) : Prop :=
  ∀ raw ∈ it.cachedValue, ∀ it', it.next = .ok it' → it'.isValid = true → it'.stored = .ok raw

/-- The pair kept, if one is, is the one stored at the position. -/
structure Honest (it : SstIterator) : Prop where
  placed : it.Placed
  cached : it.isValid = true → ∀ raw ∈ it.cachedValue, it.stored = .ok raw

/-- The iterator once its block iterator has read its pair. -/
def filled (it : SstIterator) : SstIterator :=
  { it with blockIt := it.blockIt.map BlockIterator.updateCurrent }

theorem deref_map_fst {it : SstIterator} (hplaced : it.Placed) (hvalid : it.isValid = true) :
  it.deref.map Prod.fst = it.stored
  := by
  obtain ⟨sst, blockIt, e, es, hsst, hblockIt, hcoherent, hrest, -⟩ :=
    exists_of_isValid hplaced hvalid
  rw [deref_of_rest hsst hblockIt hcoherent hrest, stored, hblockIt, hsst]
  dsimp only
  rw [BlockIterator.getEntryAt_of_rest hrest]
  dsimp only
  cases sst.resolveValue e.value with
  | error fault => rfl
  | ok value => rfl

theorem placed_filled {it : SstIterator} (h : it.Placed) : it.filled.Placed
  := by
  intro blockIt' hblockIt'
  obtain ⟨blockIt, hblock, rfl⟩ := Option.map_eq_some_iff.mp hblockIt'
  apply BlockIterator.coherent_updateCurrent (h blockIt hblock)

theorem isValid_filled (it : SstIterator) : it.filled.isValid = it.isValid
  := by
  have hblockIt : it.filled.blockIt = it.blockIt.map BlockIterator.updateCurrent := rfl
  have hsst : it.filled.sst = it.sst := rfl
  rw [isValid, isValid, hblockIt, hsst]
  cases it.blockIt with
  | none => rfl
  | some blockIt =>
      cases it.sst with
      | none => rfl
      | some sst =>
          dsimp only [Option.map]
          rw [BlockIterator.isEnd, BlockIterator.isEnd, BlockIterator.updateCurrent_currentIndex,
            BlockIterator.updateCurrent_block]
          rfl

theorem stored_filled (it : SstIterator) : it.filled.stored = it.stored
  := by
  have hblockIt : it.filled.blockIt = it.blockIt.map BlockIterator.updateCurrent := rfl
  have hsst : it.filled.sst = it.sst := rfl
  rw [stored, stored, hblockIt, hsst]
  cases it.blockIt with
  | none => rfl
  | some blockIt =>
      cases it.sst with
      | none => rfl
      | some sst =>
          dsimp only [Option.map]
          rw [BlockIterator.updateCurrent_currentIndex, BlockIterator.updateCurrent_block]

theorem Honest.filled {it : SstIterator} (h : it.Honest) : it.filled.Honest
  where
  placed := placed_filled h.placed
  cached := by
    rw [isValid_filled, stored_filled]
    exact h.cached

theorem eq_filled_of_deref {it it' : SstIterator} {raw : Bytes × Bytes}
    (h : it.deref = .ok (raw, it')) :
  it' = it.filled
  := by
  rw [deref] at h
  split at h
  next => cases h
  next => cases h
  next blockIt sst hblockIt hsst =>
    obtain ⟨⟨raw', blockIt'⟩, hderef, h⟩ := Except.exists_of_bind_eq_ok h
    obtain ⟨value, -, h⟩ := Except.exists_of_bind_eq_ok h
    cases h
    rw [SstIterator.filled, hblockIt, BlockIterator.eq_updateCurrent_of_deref hderef, hsst]
    rfl

theorem eq_filled_of_key {it it' : SstIterator} {key : Bytes} (h : it.key = .ok (key, it')) :
  it' = it.filled
  := by
  rw [SstIterator.key] at h
  split at h
  next => cases h
  next blockIt hblockIt =>
    obtain ⟨⟨raw', blockIt'⟩, harrow, h⟩ := Except.exists_of_bind_eq_ok h
    cases h
    rw [SstIterator.filled, hblockIt, BlockIterator.eq_updateCurrent_of_arrow harrow]
    rfl

theorem eq_filled_of_value {it it' : SstIterator} {value : Bytes}
    (h : it.value = .ok (value, it')) :
  it' = it.filled
  := by
  rw [SstIterator.value] at h
  split at h
  next => cases h
  next => cases h
  next blockIt sst hblockIt hsst =>
    obtain ⟨⟨raw', blockIt'⟩, harrow, h⟩ := Except.exists_of_bind_eq_ok h
    obtain ⟨value', -, h⟩ := Except.exists_of_bind_eq_ok h
    cases h
    rw [SstIterator.filled, hblockIt, BlockIterator.eq_updateCurrent_of_arrow harrow]
    rfl

/-- If a pair is kept, the arrow gives it. -/
theorem arrow_of_cached {it : SstIterator} {raw : Bytes × Bytes} (h : it.cachedValue = some raw) :
  it.arrow = .ok (raw, it)
  := by
  have hupdate : it.updateCurrent = .ok it := by
    rw [updateCurrent, h]
  rw [arrow, Except.bind_eq_of_ok _ hupdate, h]
  rfl

/-- If none is kept, the arrow gives the pair at the position and keeps it. -/
theorem arrow_of_not_cached {it : SstIterator} {blockIt : BlockIterator}
    (hblockIt : it.blockIt = some blockIt) (hend : blockIt.isEnd = false)
    (h : it.cachedValue = none) :
  it.arrow = it.deref.map (fun p => (p.1, { p.2 with cachedValue := some p.1 }))
  := by
  rw [arrow, updateCurrent, h, hblockIt]
  dsimp only
  rw [hend, if_neg Bool.false_ne_true]
  cases it.deref with
  | error fault => rfl
  | ok p => rfl

theorem not_isEnd_of_isValid {it : SstIterator} (hvalid : it.isValid = true) :
  ∃ blockIt, it.blockIt = some blockIt ∧ blockIt.isEnd = false
  := by
  rw [isValid] at hvalid
  split at hvalid
  next blockIt sst hblockIt hsst =>
    have hend := ((Bool.and_eq_true _ _).mp hvalid).1
    exact ⟨blockIt, hblockIt, (Bool.not_eq_true' _).mp hend⟩
  next => cases hvalid

theorem Honest.agree {it : SstIterator} (h : it.Honest) (hvalid : it.isValid = true) :
  ArrowIterator.Agree it
  := by
  change it.arrow.map Prod.fst = it.deref.map Prod.fst
  cases hcached : it.cachedValue with
  | none =>
      obtain ⟨blockIt, hblockIt, hend⟩ := not_isEnd_of_isValid hvalid
      rw [arrow_of_not_cached hblockIt hend hcached]
      cases it.deref with
      | error fault => rfl
      | ok p => rfl
  | some raw =>
      rw [arrow_of_cached hcached, deref_map_fst h.placed hvalid, h.cached hvalid raw hcached]
      rfl

/-- The arrow keeps the pair at the position. -/
theorem Honest.of_arrow {it it' : SstIterator} (h : it.Honest) {raw : Bytes × Bytes}
    (harrow : it.arrow = .ok (raw, it')) :
  it'.Honest
  := by
  cases hcached : it.cachedValue with
  | some raw' =>
      rw [arrow_of_cached hcached] at harrow
      cases harrow
      exact h
  | none =>
      cases hblockIt : it.blockIt with
      | none =>
          have hupdate : it.updateCurrent = .ok it := by rw [updateCurrent, hcached, hblockIt]
          rw [SstIterator.arrow, Except.bind_eq_of_ok _ hupdate, hcached] at harrow
          cases harrow
      | some blockIt =>
          cases hend : blockIt.isEnd with
          | true =>
              have hupdate : it.updateCurrent = .ok it := by
                rw [updateCurrent, hcached, hblockIt]
                exact if_pos hend
              rw [SstIterator.arrow, Except.bind_eq_of_ok _ hupdate, hcached] at harrow
              cases harrow
          | false =>
              rw [arrow_of_not_cached hblockIt hend hcached] at harrow
              cases hderef : it.deref with
              | error fault =>
                  rw [hderef] at harrow
                  cases harrow
              | ok p =>
                  rw [hderef] at harrow
                  cases harrow
                  obtain ⟨raw, it''⟩ := p
                  rw [eq_filled_of_deref hderef]
                  refine ⟨placed_filled h.placed, ?_⟩
                  rintro hvalid raw' ⟨⟩
                  have hvalid' : it.isValid = true := (isValid_filled it).symm.trans hvalid
                  have hstored := deref_map_fst h.placed hvalid'
                  rw [hderef] at hstored
                  exact (stored_filled it).trans hstored.symm

/-- Looking at an iterator moves nothing. -/
theorem Honest.of_look {it it' : SstIterator} (h : it.Honest) {c : ArrowIterator.Call}
    (hc : c ≠ .next) (hcall : ArrowIterator.call it c = .ok it') :
  it'.Honest
  := by
  cases c with
  | next => exact absurd rfl hc
  | arrow =>
      obtain ⟨⟨raw, it''⟩, harrow, hret⟩ := Except.exists_of_bind_eq_ok hcall
      cases hret
      exact h.of_arrow harrow
  | deref =>
      obtain ⟨⟨raw, it''⟩, hderef, hret⟩ := Except.exists_of_bind_eq_ok hcall
      cases hret
      rw [eq_filled_of_deref hderef]
      exact h.filled
  | key =>
      obtain ⟨⟨key, it''⟩, hkey, hret⟩ := Except.exists_of_bind_eq_ok hcall
      cases hret
      rw [eq_filled_of_key hkey]
      exact h.filled
  | value =>
      obtain ⟨⟨value, it''⟩, hvalue, hret⟩ := Except.exists_of_bind_eq_ok hcall
      cases hret
      rw [eq_filled_of_value hvalue]
      exact h.filled

/-- A step leaves the iterator placed, with the same pair kept. -/
theorem next_placed {it it' : SstIterator} (hplaced : it.Placed) (hnext : it.next = .ok it') :
  it'.Placed ∧ it'.cachedValue = it.cachedValue
  := by
  rw [next] at hnext
  split at hnext
  next =>
    cases hnext
    exact ⟨hplaced, rfl⟩
  next => cases hnext
  next blockIt sst hblockIt hsst =>
    split at hnext
    next =>
      split at hnext
      next =>
        obtain ⟨block, -, hret⟩ := Except.exists_of_bind_eq_ok hnext
        cases hret
        exact ⟨placed_atIndex it (it.blockIdx + 1) block, rfl⟩
      next =>
        cases hnext
        exact ⟨by rintro _ ⟨⟩, rfl⟩
    next =>
      cases hnext
      refine ⟨?_, rfl⟩
      rintro blockIt' ⟨⟩
      exact BlockIterator.coherent_next (hplaced blockIt hblockIt)

theorem Honest.of_next {it it' : SstIterator} (h : it.Honest) (hkeeps : it.KeepsPair)
    (hnext : it.next = .ok it') :
  it'.Honest
  := by
  obtain ⟨hplaced, hcached⟩ := next_placed h.placed hnext
  refine ⟨hplaced, ?_⟩
  intro hvalid raw hraw
  exact hkeeps raw (hcached ▸ hraw) it' hnext hvalid

/-- If the operators agree after a step, the step is one that keeps the pair. -/
theorem Honest.keepsPair {it : SstIterator} (h : it.Honest)
    (hagree : ∀ it', it.next = .ok it' → it'.isValid = true → ArrowIterator.Agree it') :
  it.KeepsPair
  := by
  intro raw hraw it' hnext hvalid
  obtain ⟨hplaced, hcached⟩ := next_placed h.placed hnext
  have heq : it'.arrow.map Prod.fst = it'.deref.map Prod.fst := hagree it' hnext hvalid
  rw [arrow_of_cached (hcached.trans hraw), deref_map_fst hplaced hvalid] at heq
  exact heq.symm

end SstIterator

/-! ### Tables one after the other -/

namespace ConcactIterator

def arrow (it : ConcactIterator) : Except Fault ((Bytes × Bytes) × ConcactIterator) := do
  let (raw, curIter) ← it.curIter.arrow
  return (raw, { it with curIter })

def key (it : ConcactIterator) : Except Fault (Bytes × ConcactIterator) := do
  let (key, curIter) ← it.curIter.key
  return (key, { it with curIter })

def value (it : ConcactIterator) : Except Fault (Bytes × ConcactIterator) := do
  let (value, curIter) ← it.curIter.value
  return (value, { it with curIter })

instance : ArrowIterator ConcactIterator where
  arrow := arrow
  key := key
  value := value

theorem isValid_eq (it : ConcactIterator) : it.isValid = it.curIter.isValid
  := by
  have hend := relay.isEnd_eq it
  exact (Bool.not_not _).symm.trans ((congrArg not hend).trans (Bool.not_not _))

theorem agree_iff (it : ConcactIterator) :
  ArrowIterator.Agree it ↔ ArrowIterator.Agree it.curIter
  := by
  have harrow : it.arrow.map Prod.fst = it.curIter.arrow.map Prod.fst := by
    rw [arrow]
    cases it.curIter.arrow with
    | error fault => rfl
    | ok p => rfl
  have hderef : it.deref.map Prod.fst = it.curIter.deref.map Prod.fst := by
    rw [deref]
    cases it.curIter.deref with
    | error fault => rfl
    | ok p => rfl
  change it.arrow.map Prod.fst = it.deref.map Prod.fst ↔ _
  rw [harrow, hderef]
  rfl

theorem look_eq_ok {α : Type} {it it' : ConcactIterator} {x : Except Fault (α × SstIterator)}
    (h : ((x >>= fun p => pure (p.1, { it with curIter := p.2 })) >>= fun p => pure p.2) =
      .ok it') :
  (x >>= fun p => pure p.2) = .ok it'.curIter
  := by
  cases x with
  | error fault => cases h
  | ok p =>
      cases h
      rfl

/-- A call that is no step is one of the current iterator. -/
theorem curIter_of_look {it it' : ConcactIterator} {c : ArrowIterator.Call} (hc : c ≠ .next)
    (hcall : ArrowIterator.call it c = .ok it') :
  ArrowIterator.call it.curIter c = .ok it'.curIter
  := by
  cases c with
  | next => exact absurd rfl hc
  | arrow => exact look_eq_ok hcall
  | deref => exact look_eq_ok hcall
  | key => exact look_eq_ok hcall
  | value => exact look_eq_ok hcall

/-- The iterator at the start of a table keeps no pair. -/
theorem honest_begin {sst : SST} {trancId : TrancId} {keepAllVersions : Bool} {it : SstIterator}
    (h : sst.begin trancId keepAllVersions = .ok it) :
  it.Honest
  := by
  obtain ⟨it', hbegin, hplaced, -⟩ := sst.begin_placed trancId keepAllVersions
  cases h.symm.trans hbegin
  have hempty : it.cachedValue = none := by
    rw [SST.begin, SstIterator.atFirst, SstIterator.seekFirst] at h
    dsimp only at h
    split at h
    next =>
      cases h
      rfl
    next =>
      obtain ⟨block, -, hret⟩ := Except.exists_of_bind_eq_ok h
      cases hret
      rfl
  refine ⟨hplaced, ?_⟩
  rw [hempty]
  rintro - raw ⟨⟩

/-- The null iterator. -/
theorem honest_null (trancId : TrancId) :
  SstIterator.Honest { sst := none, maxTrancId := trancId, keepAllVersions := false }
  := ⟨by rintro _ ⟨⟩, by rintro ⟨⟩⟩

theorem honest_handOver {it it' : ConcactIterator} (hover : it.handOver = .ok it') :
  it'.curIter.Honest
  := by
  rw [handOver] at hover
  split at hover
  next sst hsst =>
    obtain ⟨curIter, hbegin, hret⟩ := Except.exists_of_bind_eq_ok hover
    cases hret
    exact honest_begin hbegin
  next =>
    cases hover
    exact honest_null it.maxTrancId

theorem honest_ofSsts {ssts : List SST} {trancId : TrancId} {keepAllVersions : Bool}
    {it : ConcactIterator} (h : ofSsts ssts trancId keepAllVersions = .ok it) :
  it.curIter.Honest
  := by
  cases ssts with
  | nil =>
      cases h
      exact honest_null trancId
  | cons sst ssts =>
      obtain ⟨curIter, hbegin, hret⟩ := Except.exists_of_bind_eq_ok h
      cases hret
      exact honest_begin hbegin

/-- A step that stays in the current table is one of the current iterator. -/
theorem next_of_isValid {it : ConcactIterator} {stepped : SstIterator}
    (hnext : it.curIter.next = .ok stepped) (hvalid : stepped.isValid = true) :
  it.next = .ok { it with curIter := stepped }
  := by
  have heq := relay.next_eq it
  change it.next = it.curIter.next.bind _ at heq
  rw [heq, hnext]
  change (if (!stepped.isValid) = true then _ else _) = _
  rw [hvalid]
  rfl

theorem honest_next {it it' : ConcactIterator} (h : it.curIter.Honest)
    (hkeeps : it.curIter.KeepsPair) (hnext : it.next = .ok it') :
  it'.curIter.Honest
  := by
  cases hstep : it.curIter.next with
  | error fault =>
      rw [next, hstep] at hnext
      cases hnext
  | ok stepped =>
      cases hvalid : stepped.isValid with
      | true =>
          cases (next_of_isValid hstep hvalid).symm.trans hnext
          exact h.of_next hkeeps hstep
      | false =>
          have heq := relay.next_eq it
          change it.next = it.curIter.next.bind _ at heq
          rw [hstep, hnext] at heq
          change _ = if (!stepped.isValid) = true then it.handOver else _ at heq
          rw [hvalid] at heq
          exact honest_handOver heq.symm

end ConcactIterator

/-- In every run of an iterator over a table that keeps no pair at first, and of one over tables
one after the other, the operators agree in all valid positions exactly if no step is taken with a
pair kept to a valid position with another one. -/
theorem arrow_agrees_iff (calls : List ArrowIterator.Call) :
  (∀ start : SstIterator, start.Placed → start.cachedValue = none →
      (ArrowIterator.Agrees start calls ↔
        ArrowIterator.StepsFrom SstIterator.KeepsPair start calls)) ∧
    ∀ ssts trancId keepAllVersions start,
      ConcactIterator.ofSsts ssts trancId keepAllVersions = .ok start →
        (ArrowIterator.Agrees start calls ↔
          ArrowIterator.StepsFrom (fun it => it.curIter.KeepsPair) start calls)
  := by
  constructor
  · intro start hplaced hempty
    apply ArrowIterator.agrees_iff_stepsFrom SstIterator.Honest SstIterator.KeepsPair
    · exact fun h hc hcall => h.of_look hc hcall
    · exact fun h hkeeps hnext => h.of_next hkeeps hnext
    · exact fun h hvalid => h.agree hvalid
    · exact fun h hagree => h.keepsPair hagree
    · refine ⟨hplaced, ?_⟩
      rw [hempty]
      rintro - raw ⟨⟩
  · intro ssts trancId keepAllVersions start hstart
    apply ArrowIterator.agrees_iff_stepsFrom (fun it : ConcactIterator => it.curIter.Honest)
    · exact fun h hc hcall => h.of_look hc (ConcactIterator.curIter_of_look hc hcall)
    · exact fun h hkeeps hnext => ConcactIterator.honest_next h hkeeps hnext
    · intro it h hvalid
      rw [ConcactIterator.agree_iff]
      exact h.agree ((ConcactIterator.isValid_eq it).symm.trans hvalid)
    · intro it h hagree
      apply h.keepsPair
      intro stepped hnext hvalid
      have hstep := ConcactIterator.next_of_isValid hnext hvalid
      have hsteppedAgree := hagree _ hstep ((ConcactIterator.isValid_eq _).trans hvalid)
      exact (ConcactIterator.agree_iff _).mp hsteppedAgree
    · exact ConcactIterator.honest_ofSsts hstart

/-- A table with two keys in a block. -/
def twoKeys : SST := ⟨1, [⟨[⟨[1], [7], 1⟩, ⟨[2], [8], 1⟩]⟩], 0, none⟩

/-- The iterator at the first key. -/
def atFirstKey : SstIterator :=
  { sst := some twoKeys
    maxTrancId := 0
    blockIt := some ⟨⟨[⟨[1], [7], 1⟩, ⟨[2], [8], 1⟩]⟩, 0, 0, none, false⟩ }

/-- The arrow may be used at every position but the ones that a step leaves for another. -/
theorem arrow_agrees_iff_atFirstKey :
  ArrowIterator.Agrees atFirstKey [.deref, .next, .arrow, .value, .next]
  := by
  have hplaced : atFirstKey.Placed := by
    rintro blockIt ⟨⟩
    exact ⟨by rintro _ ⟨⟩, by decide⟩
  apply ((arrow_agrees_iff [.deref, .next, .arrow, .value, .next]).1 atFirstKey hplaced rfl).mpr
  simp only [ArrowIterator.stepsFrom_cons]
  constructor
  · rintro ⟨⟩
  rintro _ ⟨⟩
  constructor
  · rintro - raw ⟨⟩
  rintro _ ⟨⟩
  constructor
  · rintro ⟨⟩
  rintro _ ⟨⟩
  constructor
  · rintro ⟨⟩
  rintro _ ⟨⟩
  constructor
  · -- the last step leads to the end
    rintro - raw ⟨⟩ _ ⟨⟩ hvalid
    cases hvalid
  · rintro it -
    apply ArrowIterator.stepsFrom_nil

/-- The pair kept at the first key is given at the second one. -/
theorem not_arrow_agrees :
  ¬ ∀ (sst : SST) (trancId : TrancId) (keepAllVersions : Bool) (start : SstIterator),
    sst.begin trancId keepAllVersions = .ok start → ∀ calls, ArrowIterator.Agrees start calls
  := by
  intro h
  have hagree := h twoKeys 0 false atFirstKey rfl [.arrow, .next] [.arrow, .next] _
    (List.prefix_refl _) rfl rfl
  cases hagree

end TinyLsm
