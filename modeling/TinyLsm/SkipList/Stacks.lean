import TinyLsm.SkipList.Remove

/-!
# A skip list as a map to stacks of versions

What a skip list is for, without its order: a map from keys to stacks of versions, which a put
pushes to, or whose top it replaces when this has the same id, and which a removal pops.  A
skip list does what the map does, whatever the coin flips, and lists the versions by their
keys, the versions of a key from the top of its stack on.
-/

namespace TinyLsm

/-- The values and the ids of the versions of each key, the top of the stack first. -/
abbrev VersionStacks := Bytes → List (Bytes × TrancId)

/-- The calls that change a skip list. -/
inductive SkipListCall where
  | put (key value : Bytes) (trancId : TrancId)
  | remove (key : Bytes)
  | clear

/-- Push a version to a stack, or replace the top if it has the same id. -/
def pushVersion (value : Bytes) (trancId : TrancId) :
    List (Bytes × TrancId) → List (Bytes × TrancId)
  | [] => [(value, trancId)]
  | top :: stack =>
      if top.2 = trancId then (value, trancId) :: stack else (value, trancId) :: top :: stack

def VersionStacks.perform (m : VersionStacks) : SkipListCall → VersionStacks
  | .put key value trancId => Function.update m key (pushVersion value trancId (m key))
  | .remove key => Function.update m key (m key).tail
  | .clear => fun _ => []

/-- The stack of a key in a list of versions. -/
def stackOf (key : Bytes) (es : List Entry) : List (Bytes × TrancId) :=
  (es.filter (fun e => decide (e.key = key))).map (fun e => (e.value, e.trancId))

theorem stackOf_cons (key : Bytes) (e : Entry) (es : List Entry) :
  stackOf key (e :: es) =
    if e.key = key then (e.value, e.trancId) :: stackOf key es else stackOf key es
  := by
  rw [stackOf, List.filter_cons]
  by_cases h : e.key = key
  · rw [if_pos h, if_pos (decide_eq_true h)]
    rfl
  · rw [if_neg h, if_neg (by simpa using h)]
    rfl

/-- A key has no versions among those of greater keys. -/
theorem stackOf_of_lt {key : Bytes} {es : List Entry} (h : ∀ e ∈ es, key < e.key) :
  stackOf key es = []
  := by
  rw [stackOf, List.filter_eq_nil_iff.mpr]
  · rfl
  · intro e he heq
    exact (h e he).ne (of_decide_eq_true heq).symm

/-- Putting a version into a list whose keys do not decrease pushes it to the stack of its
key, and leaves the other stacks. -/
theorem stackOf_insertVersion (key : Bytes) (e : Entry) :
  ∀ {es : List Entry}, es.Pairwise (fun e e' => e.key ≤ e'.key) →
    stackOf key (insertVersion e es) =
      if e.key = key then pushVersion e.value e.trancId (stackOf key es) else stackOf key es
  | [], _ => by
      rw [insertVersion, stackOf_cons]
      rfl
  | e' :: es, h => by
      obtain ⟨hfirst, hes⟩ := List.pairwise_cons.mp h
      rw [insertVersion]
      split
      next hlt =>
        rw [stackOf_cons, stackOf_insertVersion key e hes, stackOf_cons]
        by_cases hkey : e.key = key
        · have hne : e'.key ≠ key := hkey ▸ hlt.ne
          simp only [if_pos hkey, if_neg hne]
        · simp only [if_neg hkey]
      next hge =>
        split
        next hsame =>
          rw [stackOf_cons, stackOf_cons, hsame.1]
          by_cases hkey : e.key = key
          · simp only [if_pos hkey, pushVersion, if_pos hsame.2]
          · simp only [if_neg hkey]
        next hdiffers =>
          rw [stackOf_cons]
          by_cases hkey : e.key = key
          · simp only [if_pos hkey]
            by_cases hkey' : e'.key = key
            · have hid : e'.trancId ≠ e.trancId := fun hid => hdiffers ⟨hkey'.trans hkey.symm, hid⟩
              simp only [stackOf_cons, if_pos hkey', pushVersion, if_neg hid]
            · -- the first key that is not less is greater, so that the stack is empty
              have hlt : key < e'.key := lt_of_le_of_ne (hkey ▸ le_of_not_gt hge) (Ne.symm hkey')
              have hnil : stackOf key (e' :: es) = [] := by
                apply stackOf_of_lt
                intro e'' he''
                rcases List.mem_cons.mp he'' with rfl | he''
                · apply hlt
                · apply hlt.trans_le (hfirst e'' he'')
              rw [hnil]
              rfl
          · simp only [if_neg hkey]

/-- Removing the first version of a key pops the stack of the key, and leaves the other
stacks. -/
theorem stackOf_removeVersion (key key' : Bytes) :
  ∀ es : List Entry, stackOf key (removeVersion key' es) =
    if key' = key then (stackOf key es).tail else stackOf key es
  | [] => by
      split <;> rfl
  | e :: es => by
      rw [removeVersion_cons, stackOf_cons]
      by_cases hkey : key' = key
      · subst hkey
        rw [if_pos rfl]
        by_cases heq : e.key = key'
        · rw [if_pos heq, if_pos heq]
          rfl
        · rw [if_neg heq, if_neg heq, stackOf_cons, if_neg heq, stackOf_removeVersion, if_pos rfl]
      · rw [if_neg hkey]
        by_cases heq : e.key = key'
        · rw [if_pos heq, if_neg (by rwa [heq])]
        · rw [if_neg heq, stackOf_cons, stackOf_removeVersion, if_neg hkey]

/-- The first version of a key is the top of its stack. -/
theorem topVersion_eq_head? (key : Bytes) :
  ∀ es : List Entry,
    topVersion key es = (stackOf key es).head?.map (fun top => ⟨key, top.1, top.2⟩)
  | [] => rfl
  | e :: es => by
      rw [topVersion, List.find?_cons, stackOf_cons]
      by_cases heq : e.key = key
      · rw [if_pos heq, decide_eq_true heq, List.head?_cons, Option.map_some, ← heq]
      · rw [if_neg heq, decide_eq_false heq]
        apply topVersion_eq_head? key es

/-! ### Iterating -/

/-- The nodes from a link on, as the links of the lowest level visit them. -/
def SkipList.Visits (s : SkipList) : List Ref → Prop
  | [] => True
  | r :: rs => List.Links (s.forwardAt 0) r rs ∧ ∀ q ∈ r :: rs, 0 < s.heightAt q

theorem SkipList.Visits.tail {s : SkipList} {r : Ref} {rs : List Ref} (h : s.Visits (r :: rs)) :
  s.forwardAt 0 r = .ok rs.head? ∧ s.Visits rs
  := by
  cases rs with
  | nil => exact ⟨h.1, trivial⟩
  | cons r' rs => exact ⟨h.1.1, h.1.2, fun q hq => h.2 q (List.mem_cons_of_mem r hq)⟩

/-- The links of the lowest level visit the chain. -/
theorem SkipList.Chained.visits {s : SkipList} {chain : List Ref} (h : s.Chained chain) :
  s.forwardAt 0 s.head = .ok chain.head? ∧ s.Visits chain
  := by
  have hlinks := h.forward 0 (h.level_pos.trans_le h.level_le)
  have hreaching : s.reaching 0 chain = chain := List.filter_eq_self.mpr (fun r hr =>
    decide_eq_true (h.height_pos r hr))
  rw [hreaching] at hlinks
  cases chain with
  | nil => exact ⟨hlinks, trivial⟩
  | cons r rs => exact ⟨hlinks.1, hlinks.2, h.height_pos⟩

theorem SkipList.Visits.flushFrom_eq {s : SkipList} :
  ∀ {rs : List Ref} {fuel : ℕ}, s.Visits rs → rs.length ≤ fuel →
    s.flushFrom fuel rs.head? = .ok (s.versions rs)
  | [], 0, _, _ => rfl
  | [], _ + 1, _, _ => rfl
  | r :: rs, fuel + 1, h, hfuel => by
      obtain ⟨n, -, hnode, -, hentry⟩ := exists_node_of_height (h.2 r List.mem_cons_self)
      obtain ⟨hnext, hrest⟩ := h.tail
      have ih := hrest.flushFrom_eq (Nat.le_of_succ_le_succ hfuel)
      rw [List.head?_cons, SkipList.flushFrom, Except.bind_eq_of_ok _ hnode,
        Except.bind_eq_of_ok _ hnext, Except.bind_eq_of_ok _ ih, hentry]
      rfl

/-- `flush` lists the versions. -/
theorem SkipList.Chained.flush_eq {s : SkipList} {chain : List Ref} (h : s.Chained chain) :
  s.flush = .ok (s.versions chain)
  := by
  obtain ⟨hfirst, hvisits⟩ := h.visits
  rw [flush, Except.bind_eq_of_ok _ hfirst]
  apply hvisits.flushFrom_eq h.length_lt.le

/-- An iterator has entries left: those of the nodes visited from the one it is at. -/
def SkipListIterator.Shows (it : SkipListIterator) (es : List Entry) : Prop :=
  ∃ rs, it.current = rs.head? ∧ it.list.Visits rs ∧ es = it.list.versions rs

theorem SkipListIterator.tracks_shows :
  (BaseIterator.cursor SkipListIterator).Tracks Shows
  where
  isEnd_nil := by
    rintro ⟨s, current⟩ ⟨rs, hcurrent, -, hes⟩
    obtain rfl := List.map_eq_nil_iff.mp hes.symm
    subst hcurrent
    rfl
  isEnd_cons := by
    rintro ⟨s, current⟩ e es ⟨rs, hcurrent, -, hes⟩
    cases rs with
    | nil => nomatch hes
    | cons r rs =>
        subst hcurrent
        rfl
  peek_cons := by
    rintro ⟨s, current⟩ e es ⟨rs, hcurrent, hvisits, hes⟩
    cases rs with
    | nil => nomatch hes
    | cons r rs =>
        obtain ⟨n, hn, hnode, -, hentry⟩ :=
          SkipList.exists_node_of_height (hvisits.2 r List.mem_cons_self)
        obtain rfl : e = n.entry := (List.cons.inj hes).1.trans hentry.symm
        obtain rfl : current = some r := hcurrent
        refine ⟨⟨s, some r⟩, ?_, r :: rs, rfl, hvisits, hes⟩
        have hderef : BaseIterator.deref (⟨s, some r⟩ : SkipListIterator) =
            .ok ((n.key, n.value), ⟨s, some r⟩) := by
          change (s.node r >>= _) = _
          rw [Except.bind_eq_of_ok _ hnode]
          rfl
        have hid : BaseIterator.getTrancId (⟨s, some r⟩ : SkipListIterator) = n.trancId := by
          change ((s.nodes[r]?).map SkipListNode.trancId).getD 0 = _
          rw [hn]
          rfl
        change BaseIterator.entry (⟨s, some r⟩ : SkipListIterator) = _
        rw [BaseIterator.entry_of_deref hderef, hid]
        rfl
  next_cons := by
    rintro ⟨s, current⟩ e es ⟨rs, hcurrent, hvisits, hes⟩
    cases rs with
    | nil => nomatch hes
    | cons r rs =>
        obtain ⟨hnext, hrest⟩ := hvisits.tail
        obtain rfl : current = some r := hcurrent
        refine ⟨⟨s, rs.head?⟩, ?_, rs, rfl, hrest, (List.cons.inj hes).2⟩
        change (s.forwardAt 0 r >>= _) = _
        rw [Except.bind_eq_of_ok _ hnext]
        rfl

/-- Iterating from `begin` lists the versions. -/
theorem SkipList.Chained.drain_begin {s : SkipList} {chain : List Ref} (h : s.Chained chain) :
  (do
    let it ← s.begin
    BaseIterator.drain (chain.length + 1) it) = .ok (s.versions chain)
  := by
  obtain ⟨hfirst, hvisits⟩ := h.visits
  have hbegin : s.begin = .ok ⟨s, chain.head?⟩ := by
    rw [SkipList.begin, Except.bind_eq_of_ok _ hfirst]
    rfl
  rw [Except.bind_eq_of_ok _ hbegin]
  apply Cursor.drain_of_tracks SkipListIterator.tracks_shows _ ⟨chain, rfl, hvisits, rfl⟩
  rw [versions, List.length_map]
  apply Nat.lt_succ_self

/-! ### Runs -/

namespace SkipList

/-- A call, with the outcomes of the coin flips in case it is a put. -/
def perform (s : SkipList) (flips : List Bool) : SkipListCall → Except Fault SkipList
  | .put key value trancId => s.put flips key value trancId
  | .remove key => s.remove key
  | .clear => .ok s.clear

/-- Calls one after the other, each with coin flips of its own. -/
def performAll (s : SkipList) (flips : ℕ → List Bool) : List SkipListCall → Except Fault SkipList
  | [] => .ok s
  | c :: cs => do
      let s' ← s.perform (flips 0) c
      performAll s' (fun i => flips (i + 1)) cs

/-- A chained list holds the stacks of a map. -/
structure Holds (s : SkipList) (chain : List Ref) (m : VersionStacks) : Prop where
  chained : s.Chained chain
  stacks_eq : ∀ key, stackOf key (s.versions chain) = m key

theorem Chained.sorted_versions {s : SkipList} {chain : List Ref} (h : s.Chained chain) :
  (s.versions chain).Pairwise (fun e e' => e.key ≤ e'.key)
  := List.pairwise_map.mpr h.sorted

/-- A call on the list does what it does on the map. -/
theorem Holds.perform_eq {s : SkipList} {chain : List Ref} {m : VersionStacks}
    (h : s.Holds chain m) (flips : List Bool) (c : SkipListCall) :
  ∃ s' chain', s.perform flips c = .ok s' ∧ s'.Holds chain' (m.perform c)
  := by
  cases c with
  | put key value trancId =>
      obtain ⟨s', chain', hput, hchained, hversions, -⟩ :=
        h.chained.put_eq flips key value trancId
      refine ⟨s', chain', hput, hchained, ?_⟩
      intro key'
      rw [hversions, stackOf_insertVersion key' _ h.chained.sorted_versions, h.stacks_eq]
      by_cases hkey : key = key'
      · subst hkey
        rw [if_pos rfl, VersionStacks.perform, Function.update_self]
      · rw [if_neg hkey, VersionStacks.perform, Function.update_of_ne (Ne.symm hkey)]
  | remove key =>
      obtain ⟨s', chain', hremove, hchained, hversions, -⟩ := h.chained.remove_eq key
      refine ⟨s', chain', hremove, hchained, ?_⟩
      intro key'
      rw [hversions, stackOf_removeVersion, h.stacks_eq]
      by_cases hkey : key = key'
      · subst hkey
        rw [if_pos rfl, VersionStacks.perform, Function.update_self]
      · rw [if_neg hkey, VersionStacks.perform, Function.update_of_ne (Ne.symm hkey)]
  | clear => exact ⟨s.clear, [], rfl, h.chained.clear, fun _ => rfl⟩

/-- Calls on the list do what they do on the map. -/
theorem Holds.performAll_eq :
  ∀ {s : SkipList} {chain : List Ref} {m : VersionStacks}, s.Holds chain m →
    ∀ (flips : ℕ → List Bool) (cs : List SkipListCall),
      ∃ s' chain', s.performAll flips cs = .ok s' ∧
        s'.Holds chain' (cs.foldl VersionStacks.perform m)
  | s, chain, _, h, _, [] => ⟨s, chain, rfl, h⟩
  | s, chain, m, h, flips, c :: cs => by
      obtain ⟨s₁, chain₁, hperform, h₁⟩ := h.perform_eq (flips 0) c
      obtain ⟨s₂, chain₂, hrest, h₂⟩ := performAll_eq h₁ (fun i => flips (i + 1)) cs
      use s₂, chain₂
      rw [performAll, Except.bind_eq_of_ok _ hperform]
      exact ⟨hrest, h₂⟩

/-- Whatever the calls on the empty list and the coin flips: `get` finds the top of the stack
of a key, and both `flush` and iterating list the versions by their keys, those of a key from
the top of its stack on. -/
theorem performAll_empty {maxLvl : ℕ} (hmax : 0 < maxLvl) (flips : ℕ → List Bool)
    (cs : List SkipListCall) :
  ∃ s, (empty maxLvl).performAll flips cs = .ok s ∧
    (∀ key, s.lookup key 0 =
      .ok ((cs.foldl VersionStacks.perform (fun _ => []) key).head?.map
        (fun top => ⟨key, top.1, top.2⟩))) ∧
    ∃ es : List Entry, s.flush = .ok es ∧
      (do
        let it ← s.begin
        BaseIterator.drain (es.length + 1) it) = .ok es ∧
      es.Pairwise (fun e e' => e.key ≤ e'.key) ∧
      ∀ key, stackOf key es = cs.foldl VersionStacks.perform (fun _ => []) key
  := by
  have hempty : (empty maxLvl).Holds [] (fun _ => []) := ⟨chained_empty hmax, fun _ => rfl⟩
  obtain ⟨s, chain, hperform, hholds⟩ := hempty.performAll_eq flips cs
  refine ⟨s, hperform, ?_, s.versions chain, hholds.chained.flush_eq, ?_,
    hholds.chained.sorted_versions, hholds.stacks_eq⟩
  · intro key
    rw [hholds.chained.lookup_zero, topVersion_eq_head?, hholds.stacks_eq]
  · have hdrain := hholds.chained.drain_begin
    rwa [versions, List.length_map]

/-- Two versions of a key around one of another key, of which the newest is removed. -/
theorem performAll_empty_remove :
  ∃ s, (empty 16).performAll (fun i => [i == 1])
      [.put [1] [7] 1, .put [2] [8] 2, .put [1] [9] 3, .remove [1]] = .ok s ∧
    s.lookup [1] 0 = .ok (some ⟨[1], [7], 1⟩) ∧
    ∃ es, s.flush = .ok es ∧ stackOf [1] es = [([7], 1)] ∧ stackOf [2] es = [([8], 2)]
  := by
  obtain ⟨s, hperform, hlookup, es, hflush, -, -, hstacks⟩ := performAll_empty
    (show 0 < 16 by decide) (fun i => [i == 1])
    [.put [1] [7] 1, .put [2] [8] 2, .put [1] [9] 3, .remove [1]]
  refine ⟨s, hperform, ?_, es, hflush, ?_, ?_⟩
  · rw [hlookup [1]]
    rfl
  · rw [hstacks [1]]
    rfl
  · rw [hstacks [2]]
    rfl

end SkipList

end TinyLsm
