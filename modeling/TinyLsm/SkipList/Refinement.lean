import TinyLsm.SkipList.Put
import TinyLsm.SkipList.Versions

/-!
# A skip list as a list of versions

The entries of a chained skip list, along its chain, are a list of versions.  `put` puts a
version into this list, whatever the coin flips, and `get` finds the first version of a
key.
-/

namespace TinyLsm

namespace SkipList

/-- The versions of a skip list with a chain. -/
def versions (s : SkipList) (chain : List Ref) : List Entry := chain.map s.entryAt

/-- The version the iterator of `get` points to. -/
def lookup (s : SkipList) (key : Bytes) (trancId : TrancId) : Except Fault (Option Entry) := do
  match ← s.get key trancId with
  | none => return none
  | some r => do
      let n ← s.node r
      return some n.entry

/-! ### Replacing a value -/

/-- Replacing the value of a node changes the value in its entry, and leaves the heights, the
links and the other entries as they are. -/
theorem replaceValue_eq {s : SkipList} {r : Ref} {n : SkipListNode} (hn : s.nodes[r]? = some n)
    (value : Bytes) :
  (s.replaceValue r n value).entryAt r = ⟨n.key, value, n.trancId⟩ ∧
    (∀ q, q ≠ r → (s.replaceValue r n value).entryAt q = s.entryAt q) ∧
    (∀ q, (s.replaceValue r n value).heightAt q = s.heightAt q) ∧
    (s.replaceValue r n value).forwardAt = s.forwardAt ∧
    (s.replaceValue r n value).backwardAt = s.backwardAt
  := by
  have hlt : r < s.nodes.length := (List.getElem?_eq_some_iff.mp hn).1
  refine ⟨?_, ?_, ?_, ?_, ?_⟩
  · simp only [entryAt, replaceValue, List.getElem?_set_self hlt, SkipListNode.entry]
  · intro q hq
    simp only [entryAt, replaceValue, List.getElem?_set_ne (Ne.symm hq)]
  · intro q
    by_cases hq : r = q
    · subst hq
      simp only [heightAt, replaceValue, List.getElem?_set_self hlt, hn]
    · simp only [heightAt, replaceValue, List.getElem?_set_ne hq]
  · funext level q
    by_cases hq : r = q
    · subst hq
      simp only [forwardAt, replaceValue, List.getElem?_set_self hlt, hn]
    · simp only [forwardAt, replaceValue, List.getElem?_set_ne hq]
  · funext level q
    by_cases hq : r = q
    · subst hq
      simp only [backwardAt, replaceValue, List.getElem?_set_self hlt, hn]
    · simp only [backwardAt, replaceValue, List.getElem?_set_ne hq]

/-! ### Putting -/

/-- The first version of the key is that of the first node whose key is not less, if that is
the key. -/
theorem Split.topVersion_eq {s : SkipList} {key : Bytes} {xs ys : List Ref}
    (h : s.Split key xs ys) :
  topVersion key (s.versions (xs ++ ys)) =
    (ys.head?.map s.entryAt).filter (fun e => decide (e.key = key))
  := by
  have hxs : (s.versions xs).find? (fun e => decide (e.key = key)) = none := by
    apply List.find?_eq_none.mpr
    intro e he
    obtain ⟨r, hr, rfl⟩ := List.mem_map.mp he
    rw [decide_eq_true_iff]
    exact (h.less r hr).ne
  rw [topVersion, versions, List.map_append, List.find?_append, ← versions, hxs,
    Option.none_or]
  cases ys with
  | nil => rfl
  | cons r ys =>
      rw [List.map_cons, List.find?_cons, List.head?_cons, Option.map_some, Option.filter_some]
      by_cases hkey : (s.entryAt r).key = key
      · rw [if_pos (decide_eq_true hkey), decide_eq_true hkey]
      · rw [if_neg (by simpa using hkey), decide_eq_false hkey]
        apply List.find?_eq_none.mpr
        intro e he
        obtain ⟨r', hr', rfl⟩ := List.mem_map.mp he
        have hle := (List.pairwise_cons.mp (List.pairwise_append.mp h.chained.sorted).2.1).1 r' hr'
        have hlt := lt_of_le_of_ne (le_of_not_gt (h.not_less r List.mem_cons_self)) (Ne.symm hkey)
        rw [decide_eq_true_iff]
        exact (hlt.trans_le hle).ne'

/-- A version of the key is put in after the versions of smaller keys. -/
theorem Split.insertVersion_eq {s : SkipList} {key : Bytes} {xs ys : List Ref}
    (h : s.Split key xs ys) (value : Bytes) (trancId : TrancId) :
  insertVersion ⟨key, value, trancId⟩ (s.versions (xs ++ ys)) =
    s.versions xs ++ insertVersion ⟨key, value, trancId⟩ (s.versions ys)
  := by
  rw [versions, List.map_append]
  apply insertVersion_append
  intro e he
  obtain ⟨r, hr, rfl⟩ := List.mem_map.mp he
  apply h.less r hr

/-- Replacing the value of the first node with the key puts the version into the versions. -/
theorem Split.chained_replaceValue {s : SkipList} {key : Bytes} {xs ys : List Ref} {r : Ref}
    (h : s.Split key xs (r :: ys)) {n : SkipListNode} (hn : s.nodes[r]? = some n)
    (value : Bytes) :
  (s.replaceValue r n value).Chained (xs ++ r :: ys) ∧
    (s.replaceValue r n value).versions (xs ++ r :: ys) =
      s.versions xs ++ ⟨n.key, value, n.trancId⟩ :: s.versions ys
  := by
  obtain ⟨hself, hother, hheight, hforward, hbackward⟩ := replaceValue_eq hn value
  have hentry : s.entryAt r = n.entry := by rw [entryAt, hn]
  have hnodup := List.nodup_middle.mp (List.nodup_cons.mp h.chained.nodup).2
  have hnotMem := (List.nodup_cons.mp hnodup).1
  constructor
  · apply h.chained.congr (s.replaceValue r n value) rfl rfl (le_refl _) h.chained.level_le
      (fun q _ => hheight q)
      (fun level q _ => congrFun (congrFun hforward level) q)
      (fun level q _ => congrFun (congrFun hbackward level) q)
    intro q _
    by_cases hq : q = r
    · rw [hq, hself, hentry]
      rfl
    · rw [hother q hq]
  · rw [versions, List.map_append, List.map_cons, hself]
    congr 1
    · apply List.map_congr_left
      intro q hq
      apply hother
      rintro rfl
      apply hnotMem (List.mem_append_left ys hq)
    · congr 1
      apply List.map_congr_left
      intro q hq
      apply hother
      rintro rfl
      apply hnotMem (List.mem_append_right xs hq)

/-- The update of a descent starts with the last node before the key. -/
theorem Split.descend_cons {s : SkipList} {key : Bytes} {xs ys : List Ref}
    (h : s.Split key xs ys) :
  ∃ update, (List.range s.currentLevel).map (fun l => s.before l xs) =
    s.before 0 xs :: update
  := by
  obtain ⟨level, hlevel⟩ := Nat.exists_eq_add_one.mpr h.chained.level_pos
  rw [hlevel, List.range_succ_eq_map, List.map_cons]
  exact ⟨_, rfl⟩

/-- Placing a version keeps a list chained, puts the version into its versions and counts it. -/
theorem Split.place_eq {s : SkipList} {key : Bytes} {xs ys : List Ref} (h : s.Split key xs ys)
    {newLevel : ℕ} (hpos : 0 < newLevel) (hle : newLevel ≤ s.currentLevel) (value : Bytes)
    (trancId : TrancId) :
  ∃ s' chain', s.place newLevel key value trancId = .ok s' ∧ s'.Chained chain' ∧
    s'.versions chain' = insertVersion ⟨key, value, trancId⟩ (s.versions (xs ++ ys)) ∧
    s'.sizeBytes = insertedSize ⟨key, value, trancId⟩ s.sizeBytes (s.versions (xs ++ ys))
  := by
  obtain ⟨update, hupdate⟩ := h.descend_cons
  obtain ⟨inserted, hinsert, hchained, hnew, hsame, hsize⟩ :=
    h.insertNode_eq value trancId hpos hle
  have hxs : inserted.versions xs = s.versions xs := List.map_congr_left (fun r hr =>
    hsame r (List.mem_append_left ys hr))
  have hys : inserted.versions ys = s.versions ys := List.map_congr_left (fun r hr =>
    hsame r (List.mem_append_right xs hr))
  have hinserted : inserted.versions (xs ++ s.nodes.length :: ys) =
      s.versions xs ++ ⟨key, value, trancId⟩ :: s.versions ys := by
    rw [versions, List.map_append, List.map_cons, hnew, ← hxs, ← hys]
    rfl
  have hnext := h.forwardAt_before (h.chained.level_pos.trans_le h.chained.level_le)
  rw [h.reaching_zero] at hnext
  rw [place, Except.bind_eq_of_ok _ h.descend_head, hupdate]
  dsimp only
  rw [Except.bind_eq_of_ok _ hnext, ← hupdate, h.insertVersion_eq, insertedSize,
    replacedVersion, h.topVersion_eq]
  cases ys with
  | nil => exact ⟨inserted, _, hinsert, hchained, hinserted, hsize⟩
  | cons r ys =>
      have hheight := h.chained.height_pos r (List.mem_append_right xs List.mem_cons_self)
      obtain ⟨n, hn, hnode, -, hentry⟩ := exists_node_of_height hheight
      have hless := h.not_less r List.mem_cons_self
      have hversions : s.versions (r :: ys) = n.entry :: s.versions ys := by
        rw [versions, List.map_cons, ← hentry]
        rfl
      rw [← hentry] at hless
      rw [hversions] at hinserted ⊢
      rw [List.head?_cons, insertVersion, if_neg hless, Option.map_some, Option.filter_some,
        ← hentry]
      dsimp only
      rw [Except.bind_eq_of_ok _ hnode, SkipListNode.entry]
      by_cases hmatch : n.key = key ∧ n.trancId = trancId
      · obtain ⟨hkey, hid⟩ := hmatch
        obtain ⟨hchained', hreplaced⟩ := h.chained_replaceValue hn value
        rw [if_pos ⟨hkey, hid⟩, if_pos ⟨hkey, hid⟩, if_pos (decide_eq_true hkey),
          Option.filter_some, if_pos (decide_eq_true hid)]
        refine ⟨_, _, rfl, hchained', hreplaced.trans ?_, rfl⟩
        rw [hkey, hid]
      · rw [if_neg hmatch, if_neg hmatch]
        refine ⟨inserted, _, hinsert, hchained, hinserted, hsize.trans ?_⟩
        by_cases hkey : n.key = key
        · have hid : n.trancId ≠ trancId := fun hid => hmatch ⟨hkey, hid⟩
          rw [if_pos (decide_eq_true hkey), Option.filter_some, if_neg (by simpa using hid)]
          rfl
        · rw [if_neg (by simpa using hkey)]
          rfl

/-- `put` keeps a list chained, puts a version into its versions and counts it. -/
theorem Chained.put_eq {s : SkipList} {chain : List Ref} (h : s.Chained chain)
    (flips : List Bool) (key value : Bytes) (trancId : TrancId) :
  ∃ s' chain', s.put flips key value trancId = .ok s' ∧ s'.Chained chain' ∧
    s'.versions chain' = insertVersion ⟨key, value, trancId⟩ (s.versions chain) ∧
    s'.sizeBytes = insertedSize ⟨key, value, trancId⟩ s.sizeBytes (s.versions chain)
  := by
  obtain ⟨hpos, hle⟩ := randomLevel_bounds (h.level_pos.trans_le h.level_le) flips
  have hraised : (s.raise (randomLevel s.maxLevel flips)).Chained chain :=
    h.congr _ rfl rfl (le_max_left _ _) (max_le h.level_le hle) (fun _ _ => rfl)
      (fun _ _ _ => rfl) (fun _ _ _ => rfl) (fun _ _ => rfl)
  obtain ⟨xs, ys, rfl, hsplit⟩ := hraised.exists_split key
  apply hsplit.place_eq hpos (le_max_right _ _) value trancId

/-! ### Getting -/

/-- `get` finds the first version of a key, if it is visible. -/
theorem Chained.lookup_eq {s : SkipList} {chain : List Ref} (h : s.Chained chain)
    (key : Bytes) (trancId : TrancId) :
  s.lookup key trancId = .ok ((topVersion key (s.versions chain)).filter
    (fun e => decide (trancId = 0 ∨ e.trancId ≤ trancId)))
  := by
  obtain ⟨xs, ys, rfl, hsplit⟩ := h.exists_split key
  rw [lookup, Except.bind_eq_of_ok _ (hsplit.get_eq trancId), hsplit.topVersion_eq]
  cases ys with
  | nil => rfl
  | cons r ys =>
      have hheight := h.height_pos r (List.mem_append_right xs List.mem_cons_self)
      obtain ⟨n, hn, hnode, -, hentry⟩ := exists_node_of_height hheight
      rw [List.head?_cons, Option.filter_some, Option.map_some, Option.filter_some]
      by_cases hkey : (s.entryAt r).key = key
      · rw [if_pos (decide_eq_true hkey), Option.filter_some]
        by_cases hid : trancId = 0 ∨ (s.entryAt r).trancId ≤ trancId
        · rw [if_pos (decide_eq_true ⟨hkey, hid⟩), if_pos (decide_eq_true hid)]
          dsimp only
          rw [Except.bind_eq_of_ok _ hnode, hentry]
          rfl
        · rw [if_neg (by simpa [hkey] using hid), if_neg (by simpa using hid)]
          rfl
      · rw [if_neg (by simp [hkey]), if_neg (by simpa using hkey)]
        rfl

/-- Without a transaction, `get` finds the first version of a key. -/
theorem Chained.lookup_zero {s : SkipList} {chain : List Ref} (h : s.Chained chain)
    (key : Bytes) :
  s.lookup key 0 = .ok (topVersion key (s.versions chain))
  := by
  rw [h.lookup_eq]
  cases topVersion key (s.versions chain) <;> rfl

end SkipList

end TinyLsm
