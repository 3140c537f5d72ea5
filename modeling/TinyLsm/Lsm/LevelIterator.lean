import TinyLsm.Iterator.BaseIterator
import TinyLsm.Library.Firsts

/-!
# The iterator over the levels

`Level_Iterator` merges the iterators over the levels of an engine, its sources.  It takes the
least of the keys the sources are at, from the first source that is at it, or, for a transaction,
from the one that reports the greatest id.  Before it goes on it skips the key in all the sources,
and a deletion mark it skips as well.

For no transaction, and sources whose keys are not empty and do not decrease, it shows the first
pair of each key, in the order of the sources, that is not a deletion mark.
-/

namespace TinyLsm

open BaseIterator

/-- An iterator merging iterators of a type `ι`.  The source does not bound the rounds of the
loops; they are given `rounds`. -/
structure LevelIterator (ι : Type) where
  iterVec : List ι
  curIdx : ℕ := 0
  maxTrancId : TrancId
  cachedValue : Option (Bytes × Bytes) := none
  rounds : ℕ

namespace LevelIterator

variable {ι : Type} [BaseIterator ι]

/-- Dereference the source with an index. -/
def derefAt (it : LevelIterator ι) (i : ℕ) : Except Fault ((Bytes × Bytes) × LevelIterator ι) :=
  match it.iterVec[i]? with
  | none => .error .undefinedBehavior
  | some source => do
      let (raw, source') ← BaseIterator.deref source
      return (raw, { it with iterVec := it.iterVec.set i source' })

/-- The source with the index `i` reports a greater id than the one with the index `j`. -/
def newerAt (it : LevelIterator ι) (i j : ℕ) : Bool :=
  match it.iterVec[i]?, it.iterVec[j]? with
  | some source, some source' =>
      decide (BaseIterator.getTrancId source' < BaseIterator.getTrancId source)
  | _, _ => false

/-- A round of the loop of `get_min_key_idx`: compare the source with the index `i` with the best
one so far.  The least key is empty as long as there is none. -/
def minStep (s : (ℕ × Bytes) × LevelIterator ι) (i : ℕ) :
    Except Fault ((ℕ × Bytes) × LevelIterator ι) :=
  let ((minIdx, minKey), it) := s
  match it.iterVec[i]? with
  | none => .error .undefinedBehavior
  | some source =>
      if BaseIterator.isValid source then do
        let (raw, it') ← it.derefAt i
        if minKey = [] then
          return ((i, raw.1), it')
        else do
          let (least, it'') ← it'.derefAt minIdx
          if raw.1 < least.1 then
            return ((i, raw.1), it'')
          else if raw.1 = minKey ∧ it''.maxTrancId ≠ 0 ∧ it''.newerAt i minIdx then
            return ((i, minKey), it'')
          else
            return ((minIdx, minKey), it'')
      else
        .ok s

/-- The index of the source to be shown and the least key. -/
def getMinKeyIdx (it : LevelIterator ι) : Except Fault ((ℕ × Bytes) × LevelIterator ι) :=
  (List.range it.iterVec.length).foldlM minStep ((0, []), it)

/-- Step a source while it is at a key. -/
def skipSource (key : Bytes) : ℕ → ι → Except Fault ι
  | 0, _ => .error .outOfFuel
  | fuel + 1, source =>
      if BaseIterator.isValid source then do
        let (raw, source') ← BaseIterator.deref source
        if raw.1 = key then do
          let source'' ← BaseIterator.next source'
          skipSource key fuel source''
        else
          return source'
      else
        .ok source

/-- Skip a key in all sources. -/
def skipKey (it : LevelIterator ι) (key : Bytes) : Except Fault (LevelIterator ι) := do
  let iterVec ← it.iterVec.mapM (skipSource key it.rounds)
  return { it with iterVec }

/-- Cache the pair of the current source. -/
def updateCurrent (it : LevelIterator ι) : Except Fault (LevelIterator ι) :=
  match it.iterVec[it.curIdx]? with
  | none => .error .undefinedBehavior
  | some source =>
      if BaseIterator.isValid source then do
        let (raw, it') ← it.derefAt it.curIdx
        return { it' with cachedValue := some raw }
      else
        .error (.runtimeError "Level_Iterator is invalid")

def isEnd (it : LevelIterator ι) : Bool :=
  it.iterVec.all (fun source => !BaseIterator.isValid source)

def isValid (it : LevelIterator ι) : Bool := !it.isEnd

/-- Choose the current source, skipping the keys whose pair is a deletion mark, as the constructor
and `operator++` do last. -/
def settle : ℕ → LevelIterator ι → Except Fault (LevelIterator ι)
  | 0, _ => .error .outOfFuel
  | fuel + 1, it =>
      if it.isEnd then
        .ok it
      else do
        let ((minIdx, _), it₁) ← it.getMinKeyIdx
        let it₂ ← updateCurrent { it₁ with curIdx := minIdx }
        match it₂.cachedValue with
        | none => .error .undefinedBehavior
        | some (key, value) =>
            if value = [] then do
              let it₃ ← it₂.skipKey key
              settle fuel it₃
            else
              return it₂

/-- The iterator merging a vector of iterators. -/
def ofSources (rounds : ℕ) (iterVec : List ι) (maxTrancId : TrancId) :
    Except Fault (LevelIterator ι) :=
  settle rounds { iterVec, maxTrancId, rounds }

/-- Skip the current key and choose the next source.  The key is read off the cache, which is
undefined when it is empty. -/
def next (it : LevelIterator ι) : Except Fault (LevelIterator ι) :=
  match it.cachedValue with
  | none => .error .undefinedBehavior
  | some (key, _) => do
      let it' ← it.skipKey key
      settle it.rounds it'

def deref (it : LevelIterator ι) : Except Fault ((Bytes × Bytes) × LevelIterator ι) :=
  match it.cachedValue with
  | none => .error (.runtimeError "Level_Iterator is invalid")
  | some raw => .ok (raw, it)

def getTrancId (it : LevelIterator ι) : TrancId := it.maxTrancId

instance : BaseIterator (LevelIterator ι) where
  next := next
  deref := deref
  getTrancId := getTrancId
  isEnd := isEnd
  isValid := isValid

/-! ### Reading and stepping the sources -/

section

variable {R : ι → List (Bytes × Bytes) → Prop}

omit [BaseIterator ι] in
/-- A source related to a list of pairs is at the index of the list. -/
theorem exists_source :
  ∀ {iterVec : List ι} {pss : List (List (Bytes × Bytes))}, List.Forall₂ R iterVec pss →
    ∀ {i : ℕ} {ps : List (Bytes × Bytes)}, pss[i]? = some ps →
      ∃ source, iterVec[i]? = some source ∧ R source ps
  | _, _, .cons h _, 0, _, hps => by
      obtain rfl := Option.some.inj hps
      exact ⟨_, rfl, h⟩
  | _, _, .cons _ hs, i + 1, _, hps => exists_source hs hps

omit [BaseIterator ι] in
theorem forall₂_set :
  ∀ {iterVec : List ι} {pss : List (List (Bytes × Bytes))}, List.Forall₂ R iterVec pss →
    ∀ {i : ℕ} {ps : List (Bytes × Bytes)}, pss[i]? = some ps → ∀ {source : ι}, R source ps →
      List.Forall₂ R (iterVec.set i source) pss
  | _, _, .cons _ hs, 0, _, hps, _, h => by
      obtain rfl := Option.some.inj hps
      exact .cons h hs
  | _, _, .cons h hs, i + 1, _, hps, _, h' => .cons h (forall₂_set hs hps h')

variable (hR : Yields R)

include hR

/-- Dereferencing the source with an index gives the first of its pairs, and changes nothing but
the cache of the source. -/
theorem derefAt_eq (it : LevelIterator ι) {pss : List (List (Bytes × Bytes))}
    (h : List.Forall₂ R it.iterVec pss) {i : ℕ} {p : Bytes × Bytes} {ps : List (Bytes × Bytes)}
    (hps : pss[i]? = some (p :: ps)) :
  ∃ iterVec, it.derefAt i = .ok (p, { it with iterVec }) ∧ List.Forall₂ R iterVec pss
  := by
  obtain ⟨source, hsource, hrel⟩ := exists_source h hps
  obtain ⟨source', hderef, hrel'⟩ := hR.deref_cons hrel
  refine ⟨it.iterVec.set i source', ?_, forall₂_set h hps hrel'⟩
  rw [derefAt, hsource]
  dsimp only
  rw [Except.bind_eq_of_ok _ hderef]
  rfl

/-- The iterator is at its end when no source has pairs left. -/
theorem isEnd_iff :
  ∀ {iterVec : List ι} {pss : List (List (Bytes × Bytes))}, List.Forall₂ R iterVec pss →
    (iterVec.all (fun source => !BaseIterator.isValid source) = true ↔ ∀ ps ∈ pss, ps = [])
  | _, _, .nil => by simp
  | _, _, .cons h hs => by
      rw [List.all_cons, hR.isValid_eq h, Bool.not_not, Bool.and_eq_true, List.isEmpty_iff,
        isEnd_iff hs, List.forall_mem_cons]

/-- Skipping a key in a source leaves its pairs from the first of another key on. -/
theorem skipSource_eq (key : Bytes) :
  ∀ {ps : List (Bytes × Bytes)} {source : ι} {fuel : ℕ}, R source ps → ps.length < fuel →
    ∃ source', skipSource key fuel source = .ok source' ∧ R source' (Keyed.dropKey Prod.fst key ps)
  | [], source, fuel + 1, h, _ => by
      refine ⟨source, ?_, h⟩
      rw [skipSource, hR.isValid_eq h]
      rfl
  | p :: ps, source, fuel + 1, h, hfuel => by
      obtain ⟨source', hderef, h'⟩ := hR.deref_cons h
      rw [skipSource, hR.isValid_eq h, List.isEmpty_cons, Bool.not_false, if_pos rfl,
        Except.bind_eq_of_ok _ hderef]
      by_cases hkey : p.1 = key
      · obtain ⟨source'', hnext, h''⟩ := hR.next_cons h'
        dsimp only
        rw [if_pos hkey, Except.bind_eq_of_ok _ hnext, Keyed.dropKey_cons_of_eq hkey]
        apply skipSource_eq key h'' (Nat.lt_of_succ_lt_succ hfuel)
      · dsimp only
        rw [if_neg hkey, Keyed.dropKey_cons_of_ne hkey]
        exact ⟨source', rfl, h'⟩

/-- Skipping a key in all sources. -/
theorem mapM_skipSource_eq (key : Bytes) (fuel : ℕ) :
  ∀ {iterVec : List ι} {pss : List (List (Bytes × Bytes))}, List.Forall₂ R iterVec pss →
    (∀ ps ∈ pss, ps.length < fuel) →
    ∃ iterVec', iterVec.mapM (skipSource key fuel) = .ok iterVec' ∧
      List.Forall₂ R iterVec' (pss.map (Keyed.dropKey Prod.fst key))
  | _, _, .nil, _ => ⟨[], rfl, .nil⟩
  | _, _, .cons h hs, hfuel => by
      obtain ⟨hps, hpss⟩ := List.forall_mem_cons.mp hfuel
      obtain ⟨source, hskip, h'⟩ := skipSource_eq hR key h hps
      obtain ⟨iterVec, hmap, hs'⟩ := mapM_skipSource_eq key fuel hs hpss
      refine ⟨source :: iterVec, ?_, .cons h' hs'⟩
      rw [List.mapM_cons, Except.bind_eq_of_ok _ hskip, Except.bind_eq_of_ok _ hmap]
      rfl

/-! ### The least key -/

omit hR in
/-- The list at `minIdx` starts with the first of the least keys, `minKey`, or all lists are empty,
and so is `minKey`. -/
inductive MinOf (pss : List (List (Bytes × Bytes))) : ℕ → Bytes → Prop
  | none (minIdx : ℕ) (h : ∀ ps ∈ pss, ps = []) : MinOf pss minIdx []
  | some {minIdx : ℕ} {p : Bytes × Bytes} (h : Keyed.Least Prod.fst pss minIdx p)
      (hne : p.1 ≠ []) : MinOf pss minIdx p.1

omit hR in
/-- A source with no pairs left does not change the least key. -/
theorem MinOf.concat_nil {pss : List (List (Bytes × Bytes))} {minIdx : ℕ} {minKey : Bytes}
    (h : MinOf pss minIdx minKey) :
  MinOf (pss ++ [[]]) minIdx minKey
  := by
  cases h with
  | none hnil =>
      apply MinOf.none
      intro ps hps
      rcases List.mem_append.mp hps with hps | hps
      · apply hnil ps hps
      · apply List.mem_singleton.mp hps
  | some hleast hne => exact .some (hleast.concat (by simp)) hne

/-- Comparing with one more source gives the least key of the sources so far, when no source has
an empty key. -/
theorem minStep_eq (it : LevelIterator ι) (hmax : it.maxTrancId = 0)
    {pss : List (List (Bytes × Bytes))} (h : List.Forall₂ R it.iterVec pss)
    (hkeys : ∀ ps ∈ pss, ∀ p ∈ ps, p.1 ≠ []) {n : ℕ} (hn : n < pss.length) {minIdx : ℕ}
    {minKey : Bytes} (hmin : MinOf (pss.take n) minIdx minKey) :
  ∃ minIdx' minKey' iterVec,
    minStep ((minIdx, minKey), it) n = .ok ((minIdx', minKey'), { it with iterVec }) ∧
    List.Forall₂ R iterVec pss ∧ MinOf (pss.take (n + 1)) minIdx' minKey'
  := by
  have hget := List.getElem?_eq_getElem hn
  have hlen : (pss.take n).length = n := List.length_take_of_le (le_of_lt hn)
  obtain ⟨source, hsource, hrel⟩ := exists_source h hget
  rw [List.take_add_one, hget, Option.toList_some, minStep]
  dsimp only
  rw [hsource]
  dsimp only
  rw [hR.isValid_eq hrel]
  cases hps : pss[n] with
  | nil => exact ⟨minIdx, minKey, it.iterVec, rfl, h, hmin.concat_nil⟩
  | cons p ps =>
      rw [hps] at hget
      have hp : p.1 ≠ [] := hkeys _ (List.mem_of_getElem? hget) p List.mem_cons_self
      obtain ⟨iterVec, hderef, h'⟩ := derefAt_eq hR it h hget
      rw [List.isEmpty_cons, Bool.not_false, if_pos rfl, Except.bind_eq_of_ok _ hderef]
      dsimp only
      cases hmin with
      | none hnil =>
          have hleast : Keyed.Least Prod.fst (pss.take n ++ [p :: ps]) (pss.take n).length p := by
            apply Keyed.Least.of_concat
            intro ys hys b hb
            rw [hnil ys hys] at hb
            cases hb
          rw [if_pos rfl]
          rw [hlen] at hleast
          exact ⟨n, p.1, iterVec, rfl, h', .some hleast hp⟩
      | @some least hleast hne =>
          obtain ⟨ps', hat⟩ := hleast.at_eq
          have hat' : pss[minIdx]? = some (least :: ps') := by
            obtain ⟨hlt, -⟩ := List.getElem?_eq_some_iff.mp hat
            rw [hlen] at hlt
            rwa [List.getElem?_take_of_lt hlt] at hat
          obtain ⟨iterVec', hderef', h''⟩ :=
            derefAt_eq hR { it with iterVec } h' hat'
          rw [if_neg hne, Except.bind_eq_of_ok _ hderef']
          dsimp only
          by_cases hlt : p.1 < least.1
          · have hnew : Keyed.Least Prod.fst (pss.take n ++ [p :: ps]) (pss.take n).length p := by
              apply Keyed.Least.of_concat
              intro ys hys b hb
              apply lt_of_lt_of_le hlt (hleast.le ys hys b hb)
            rw [if_pos hlt]
            rw [hlen] at hnew
            exact ⟨n, p.1, iterVec', rfl, h'', .some hnew hp⟩
          · have hold : Keyed.Least Prod.fst (pss.take n ++ [p :: ps]) minIdx least := by
              apply hleast.concat
              intro b hb
              obtain rfl := Option.some.inj hb
              apply le_of_not_gt hlt
            rw [if_neg hlt, if_neg (fun hnewer => hnewer.2.1 hmax)]
            exact ⟨minIdx, least.1, iterVec', rfl, h'', .some hold hne⟩

/-- The loop gives the least key of the sources. -/
theorem getMinKeyIdx_eq {it : LevelIterator ι} (hmax : it.maxTrancId = 0)
    {pss : List (List (Bytes × Bytes))} (h : List.Forall₂ R it.iterVec pss)
    (hkeys : ∀ ps ∈ pss, ∀ p ∈ ps, p.1 ≠ []) :
  ∃ minIdx minKey iterVec,
    it.getMinKeyIdx = .ok ((minIdx, minKey), { it with iterVec }) ∧
    List.Forall₂ R iterVec pss ∧ MinOf pss minIdx minKey
  := by
  have hrun : ∀ n ≤ pss.length, ∃ minIdx minKey iterVec,
      (List.range n).foldlM minStep ((0, []), it) = .ok ((minIdx, minKey), { it with iterVec }) ∧
      List.Forall₂ R iterVec pss ∧ MinOf (pss.take n) minIdx minKey := by
    intro n
    induction n with
    | zero => exact fun _ => ⟨0, [], it.iterVec, rfl, h, .none 0 (by simp)⟩
    | succ n ih =>
        intro hn
        obtain ⟨minIdx, minKey, iterVec, hfold, h', hmin⟩ := ih (Nat.le_of_succ_le hn)
        obtain ⟨minIdx', minKey', iterVec', hstep, h'', hmin'⟩ :=
          minStep_eq hR { it with iterVec } hmax h' hkeys hn hmin
        refine ⟨minIdx', minKey', iterVec', ?_, h'', hmin'⟩
        rw [List.range_succ, List.foldlM_append, Except.bind_eq_of_ok _ hfold,
          List.foldlM_cons, Except.bind_eq_of_ok _ hstep]
        rfl
  have hall := hrun pss.length le_rfl
  rwa [List.take_length, ← h.length_eq] at hall

/-- The current source is at the first of its pairs, and this is cached. -/
theorem updateCurrent_eq (it : LevelIterator ι) {pss : List (List (Bytes × Bytes))}
    (h : List.Forall₂ R it.iterVec pss) {p : Bytes × Bytes} {ps : List (Bytes × Bytes)}
    (hps : pss[it.curIdx]? = some (p :: ps)) :
  ∃ iterVec, it.updateCurrent = .ok { it with iterVec, cachedValue := some p } ∧
    List.Forall₂ R iterVec pss
  := by
  obtain ⟨source, hsource, hrel⟩ := exists_source h hps
  obtain ⟨iterVec, hderef, h'⟩ := derefAt_eq hR it h hps
  refine ⟨iterVec, ?_, h'⟩
  rw [updateCurrent, hsource]
  dsimp only
  rw [hR.isValid_eq hrel, List.isEmpty_cons, Bool.not_false, if_pos rfl,
    Except.bind_eq_of_ok _ hderef]
  rfl

end

/-! ### Showing the first live pair of each key -/

/-- The pair is not a deletion mark. -/
def Live (p : Bytes × Bytes) : Prop := p.2 ≠ []

instance (p : Bytes × Bytes) : Decidable (Live p) := inferInstanceAs (Decidable (_ ≠ _))

/-- The iterator belongs to no transaction, its sources are related by `R` to the lists `pss` of
pairs, which are sorted and have no empty key, and `out` is the selection of the first pairs of
the keys in the lists that are not deletion marks. -/
structure Scans (R : ι → List (Bytes × Bytes) → Prop) (it : LevelIterator ι)
    (pss : List (List (Bytes × Bytes))) (out : List (Bytes × Bytes)) : Prop where
  noTranc : it.maxTrancId = 0
  sources : List.Forall₂ R it.iterVec pss
  sorted : ∀ ps ∈ pss, Keyed.Sorted Prod.fst ps
  keys_ne : ∀ ps ∈ pss, ∀ p ∈ ps, p.1 ≠ []
  short : pss.flatten.length < it.rounds
  selects : Keyed.Selects Prod.fst Live pss.flatten out

/-- The iterator has the pairs `out` left, and is at the first of them. -/
def Shows (R : ι → List (Bytes × Bytes) → Prop) (it : LevelIterator ι)
    (out : List (Bytes × Bytes)) : Prop :=
  ∃ pss, Scans R it pss out ∧ (out = [] → ∀ ps ∈ pss, ps = []) ∧
    ∀ p ∈ out.head?, it.cachedValue = some p ∧ ∃ minIdx, Keyed.Least Prod.fst pss minIdx p

section

variable {R : ι → List (Bytes × Bytes) → Prop} (hR : Yields R)

include hR

/-- Skipping the least key leaves the pairs of the other keys, from which is to be selected what is
left. -/
theorem Scans.skipKey {it : LevelIterator ι} {pss : List (List (Bytes × Bytes))}
    {out out' : List (Bytes × Bytes)} (h : Scans R it pss out) {minIdx : ℕ} {p : Bytes × Bytes}
    (hleast : Keyed.Least Prod.fst pss minIdx p)
    (hsel : Keyed.Selects Prod.fst Live (pss.map (Keyed.dropKey Prod.fst p.1)).flatten out') :
  ∃ it', it.skipKey p.1 = .ok it' ∧ it'.rounds = it.rounds ∧
    Scans R it' (pss.map (Keyed.dropKey Prod.fst p.1)) out'
  := by
  have hshort : ∀ ps ∈ pss, ps.length < it.rounds := by
    intro ps hps
    apply lt_of_le_of_lt (List.sublist_flatten_of_mem hps).length_le h.short
  obtain ⟨iterVec, hskip, hsources⟩ := mapM_skipSource_eq hR p.1 it.rounds h.sources hshort
  refine ⟨{ it with iterVec }, ?_, rfl, ?_⟩
  · rw [LevelIterator.skipKey, Except.bind_eq_of_ok _ hskip]
    rfl
  · constructor
    · apply h.noTranc
    · apply hsources
    · intro ps hps
      obtain ⟨ps', hps', rfl⟩ := List.mem_map.mp hps
      apply (h.sorted ps' hps').dropKey
    · intro ps hps q hq
      obtain ⟨ps', hps', rfl⟩ := List.mem_map.mp hps
      apply h.keys_ne ps' hps' q ((Keyed.dropKey_sublist Prod.fst p.1 ps').subset hq)
    · apply lt_trans (hleast.length_dropKey h.sorted) h.short
    · apply hsel

/-- The loop ends at the first of the pairs to be shown, when it is given more rounds than there
are pairs. -/
theorem settle_shows :
  ∀ {fuel : ℕ} {it : LevelIterator ι} {pss : List (List (Bytes × Bytes))}
    {out : List (Bytes × Bytes)}, Scans R it pss out → pss.flatten.length < fuel →
    ∃ it', settle fuel it = .ok it' ∧ Shows R it' out
  | fuel + 1, it, pss, out, h, hfuel => by
      rw [settle, isEnd]
      by_cases hnil : ∀ ps ∈ pss, ps = []
      · rw [if_pos ((isEnd_iff hR h.sources).mpr hnil)]
        obtain rfl := h.selects.eq_nil hnil
        exact ⟨it, rfl, pss, h, fun _ => hnil, by simp⟩
      · rw [if_neg (fun hend => hnil ((isEnd_iff hR h.sources).mp hend))]
        obtain ⟨minIdx, minKey, iterVec, hmin, hsources, hminOf⟩ :=
          getMinKeyIdx_eq hR h.noTranc h.sources h.keys_ne
        rw [Except.bind_eq_of_ok _ hmin]
        dsimp only
        cases hminOf with
        | none hnil' => exact absurd hnil' hnil
        | @some p hleast hne =>
            obtain ⟨ps, hat⟩ := hleast.at_eq
            obtain ⟨iterVec', hcurrent, hsources'⟩ :=
              updateCurrent_eq hR { it with iterVec, curIdx := minIdx } hsources hat
            have hscans : Scans R
                { it with iterVec := iterVec', curIdx := minIdx, cachedValue := some p } pss out :=
              { h with sources := hsources' }
            rw [Except.bind_eq_of_ok _ hcurrent]
            dsimp only
            by_cases hvalue : p.2 = []
            · have hdead : ¬ Live p := fun hlive => hlive hvalue
              have hsel := h.selects.of_least_dead hleast h.sorted hdead
              obtain ⟨it', hskip, -, hscans'⟩ := hscans.skipKey hR hleast hsel
              rw [if_pos hvalue, Except.bind_eq_of_ok _ hskip]
              apply settle_shows hscans'
              apply lt_of_lt_of_le (hleast.length_dropKey h.sorted) (Nat.le_of_lt_succ hfuel)
            · obtain ⟨out', rfl, -⟩ := h.selects.of_least_live hleast h.sorted hvalue
              rw [if_neg hvalue]
              refine ⟨_, rfl, pss, hscans, by rintro ⟨⟩, ?_⟩
              intro q hq
              obtain rfl := Option.some.inj hq
              exact ⟨rfl, minIdx, hleast⟩

/-- Stepping leaves the pairs of the other keys. -/
theorem Shows.next {it : LevelIterator ι} {p : Bytes × Bytes} {out : List (Bytes × Bytes)}
    (h : Shows R it (p :: out)) :
  ∃ it', it.next = .ok it' ∧ Shows R it' out
  := by
  obtain ⟨pss, hscans, -, hhead⟩ := h
  obtain ⟨hcached, minIdx, hleast⟩ := hhead p rfl
  have hlive : Live p := ((hscans.selects.mem_iff p).mp List.mem_cons_self).1
  obtain ⟨out', hout, hsel⟩ := hscans.selects.of_least_live hleast hscans.sorted hlive
  obtain ⟨-, rfl⟩ := List.cons.inj hout
  obtain ⟨it', hskip, hrounds, hscans'⟩ := hscans.skipKey hR hleast hsel
  rw [LevelIterator.next, hcached]
  dsimp only
  rw [Except.bind_eq_of_ok _ hskip, ← hrounds]
  apply settle_shows hR hscans' hscans'.short

/-- The iterator is at its end when it has no pairs left. -/
theorem Shows.isEnd_eq {it : LevelIterator ι} {out : List (Bytes × Bytes)} (h : Shows R it out) :
  it.isEnd = out.isEmpty
  := by
  obtain ⟨pss, hscans, hnil, hhead⟩ := h
  have hend := isEnd_iff hR hscans.sources
  rw [LevelIterator.isEnd]
  cases out with
  | nil => apply hend.mpr (hnil rfl)
  | cons p out =>
      obtain ⟨-, minIdx, hleast⟩ := hhead p rfl
      obtain ⟨ps, hat⟩ := hleast.at_eq
      rw [List.isEmpty_cons, Bool.eq_false_iff, Ne, hend]
      intro hall
      cases hall _ (List.mem_of_getElem? hat)

/-- An iterator over the levels delivers the pairs it has left. -/
theorem yields_shows :
  Yields (Shows R)
  where
  isEnd_eq h := h.isEnd_eq hR
  isValid_eq h := congrArg not (h.isEnd_eq hR)
  deref_cons := by
    intro it p out h
    obtain ⟨pss, hscans, hnil, hhead⟩ := h
    refine ⟨it, ?_, pss, hscans, hnil, hhead⟩
    change it.deref = _
    rw [deref, (hhead p rfl).1]
  next_cons h := h.next hR

/-- The iterator over sources of sorted pairs, without empty keys, shows a selection of the first
pairs of the keys that are not deletion marks. -/
theorem ofSources_shows {iterVec : List ι} {pss : List (List (Bytes × Bytes))}
    (h : List.Forall₂ R iterVec pss) (hsorted : ∀ ps ∈ pss, Keyed.Sorted Prod.fst ps)
    (hkeys : ∀ ps ∈ pss, ∀ p ∈ ps, p.1 ≠ []) :
  ∃ out, Keyed.Selects Prod.fst Live pss.flatten out ∧
    ∀ rounds > pss.flatten.length,
      ∃ it, ofSources rounds iterVec 0 = .ok it ∧ Shows R it out
  := by
  obtain ⟨out, hsel⟩ := Keyed.exists_selects Prod.fst Live pss.flatten
  refine ⟨out, hsel, ?_⟩
  intro rounds hrounds
  apply settle_shows hR _ hrounds
  exact ⟨rfl, h, hsorted, hkeys, hrounds, hsel⟩

end

end LevelIterator

end TinyLsm
