import TinyLsm.SkipList.Relinking
import TinyLsm.Library.Links
import Mathlib.Data.List.Nodup
import Mathlib.Data.List.Perm.Subperm
import Mathlib.Data.List.TakeWhile

/-!
# The structure of a skip list

A skip list is chained by the nodes `chain` when, on each level, the links forward from the
head visit the nodes of `chain` that reach the level, the links backward lead back, and the
keys along `chain` do not decrease.  Searching for a key then reaches, on each level, the
last node with a smaller key.
-/

namespace TinyLsm

namespace SkipList

/-- The nodes of `chain` that reach a level. -/
def reaching (s : SkipList) (level : ℕ) (chain : List Ref) : List Ref :=
  chain.filter (fun r => decide (level < s.heightAt r))

/-- The nodes `chain` are linked on their levels, by keys that do not decrease. -/
structure Chained (s : SkipList) (chain : List Ref) : Prop where
  level_pos : 0 < s.currentLevel
  level_le : s.currentLevel ≤ s.maxLevel
  nodup : (s.head :: chain).Nodup
  height_head : s.heightAt s.head = s.maxLevel
  height_pos : ∀ r ∈ chain, 0 < s.heightAt r
  height_le : ∀ r ∈ chain, s.heightAt r ≤ s.currentLevel
  forward : ∀ level < s.maxLevel,
    List.Links (s.forwardAt level) s.head (s.reaching level chain)
  backward : ∀ level < s.maxLevel,
    List.BackLinks (s.backwardAt level) s.head (s.reaching level chain)
  sorted : chain.Pairwise (fun r r' => (s.entryAt r).key ≤ (s.entryAt r').key)

theorem mem_reaching {s : SkipList} {level : ℕ} {chain : List Ref} {r : Ref} :
  r ∈ s.reaching level chain ↔ r ∈ chain ∧ level < s.heightAt r
  := by
  rw [reaching, List.mem_filter, decide_eq_true_iff]

theorem reaching_append (s : SkipList) (level : ℕ) (xs ys : List Ref) :
  s.reaching level (xs ++ ys) = s.reaching level xs ++ s.reaching level ys
  := List.filter_append ..

theorem reaching_cons (s : SkipList) (level : ℕ) (r : Ref) (rs : List Ref) :
  s.reaching level (r :: rs) =
    if level < s.heightAt r then r :: s.reaching level rs else s.reaching level rs
  := by
  rw [reaching, List.filter_cons, ← reaching]
  simp only [decide_eq_true_iff]

theorem reaching_congr {s s' : SkipList} {chain : List Ref}
    (h : ∀ r ∈ chain, s'.heightAt r = s.heightAt r) (level : ℕ) :
  s'.reaching level chain = s.reaching level chain
  := by
  apply List.filter_congr
  intro r hr
  rw [h r hr]

/-- The head and the nodes of the chain have levels. -/
theorem Chained.height_pos' {s : SkipList} {chain : List Ref} (h : s.Chained chain) :
  ∀ r ∈ s.head :: chain, 0 < s.heightAt r
  := by
  intro r hr
  rcases List.mem_cons.mp hr with rfl | hr
  · rw [h.height_head]
    apply h.level_pos.trans_le h.level_le
  · apply h.height_pos r hr

theorem Chained.lt_length {s : SkipList} {chain : List Ref} (h : s.Chained chain) :
  ∀ r ∈ s.head :: chain, r < s.nodes.length
  := fun r hr => lt_length_of_height (h.height_pos' r hr)

/-- The chain is shorter than the heap. -/
theorem Chained.length_lt {s : SkipList} {chain : List Ref} (h : s.Chained chain) :
  chain.length < s.nodes.length
  := by
  have hsub : s.head :: chain ⊆ List.range s.nodes.length := by
    intro r hr
    apply List.mem_range.mpr (h.lt_length r hr)
  have hle := (List.subperm_of_subset h.nodup hsub).length_le
  rwa [List.length_range, List.length_cons] at hle

/-- A chained list stays chained when its nodes keep their heights, links and keys. -/
theorem Chained.congr {s : SkipList} {chain : List Ref} (h : s.Chained chain) (s' : SkipList)
    (hhead : s'.head = s.head) (hmax : s'.maxLevel = s.maxLevel)
    (hcur : s.currentLevel ≤ s'.currentLevel) (hcur' : s'.currentLevel ≤ s.maxLevel)
    (hheight : ∀ r ∈ s.head :: chain, s'.heightAt r = s.heightAt r)
    (hforward : ∀ level, ∀ r ∈ s.head :: chain, s'.forwardAt level r = s.forwardAt level r)
    (hbackward : ∀ level, ∀ r ∈ chain, s'.backwardAt level r = s.backwardAt level r)
    (hkey : ∀ r ∈ chain, (s'.entryAt r).key = (s.entryAt r).key) :
  s'.Chained chain
  := by
  have hchain : ∀ r ∈ chain, s'.heightAt r = s.heightAt r :=
    fun r hr => hheight r (List.mem_cons_of_mem _ hr)
  have hreaching := reaching_congr hchain
  constructor
  · apply h.level_pos.trans_le hcur
  · rw [hmax]
    apply hcur'
  · rw [hhead]
    apply h.nodup
  · rw [hhead, hmax, hheight s.head List.mem_cons_self, h.height_head]
  · intro r hr
    rw [hchain r hr]
    apply h.height_pos r hr
  · intro r hr
    rw [hchain r hr]
    exact (h.height_le r hr).trans hcur
  · intro level hlevel
    rw [hmax] at hlevel
    rw [hhead, hreaching]
    apply (h.forward level hlevel).congr
    intro r hr
    apply hforward
    rcases List.mem_cons.mp hr with rfl | hr
    · apply List.mem_cons_self
    · apply List.mem_cons_of_mem _ (mem_reaching.mp hr).1
  · intro level hlevel
    rw [hmax] at hlevel
    rw [hhead, hreaching]
    apply (h.backward level hlevel).congr
    intro r hr
    apply hbackward level r (mem_reaching.mp hr).1
  · apply h.sorted.imp_of_mem
    intro r r' hr hr' hle
    rw [hkey r hr, hkey r' hr']
    apply hle

/-- The constructor builds an empty chain. -/
theorem chained_empty {maxLvl : ℕ} (h : 0 < maxLvl) : (empty maxLvl).Chained []
  := by
  constructor
  · apply Nat.one_pos
  · apply h
  · apply List.nodup_singleton _
  · rfl
  · rintro r ⟨⟩
  · rintro r ⟨⟩
  · intro level hlevel
    change level < maxLvl at hlevel
    change (empty maxLvl).forwardAt level 0 = .ok none
    simp [forwardAt, empty, SkipListNode.unlinked, hlevel]
  · intro level _
    trivial
  · exact .nil

/-! ### Searching -/

/-- Advancing from a node along `xs`, whose keys are less than `key`, up to `ys`, whose first
key is not, reaches the last node of `xs`. -/
theorem advance_eq {s : SkipList} {key : Bytes} {level : ℕ} {ys : List Ref} :
  ∀ {xs : List Ref} {current : Ref} {fuel : ℕ},
    List.Links (s.forwardAt level) current (xs ++ ys) →
    (∀ r ∈ xs ++ ys, level < s.heightAt r) → (∀ r ∈ xs, (s.entryAt r).key < key) →
    (∀ r ∈ ys, ¬ (s.entryAt r).key < key) → xs.length < fuel →
    s.advance key level fuel current = .ok (xs.getLastD current)
  | [], current, fuel + 1, hlinks, hheight, _, hys, _ => by
      cases ys with
      | nil =>
          rw [advance, Except.bind_eq_of_ok _ hlinks]
          rfl
      | cons r ys =>
          obtain ⟨n, -, hnode, -, hentry⟩ := exists_node_of_height (hheight r List.mem_cons_self)
          have hkey : ¬ n.key < key := by
            have := hys r List.mem_cons_self
            rwa [← hentry] at this
          rw [advance, Except.bind_eq_of_ok _ hlinks.1]
          dsimp only
          rw [Except.bind_eq_of_ok _ hnode, if_neg hkey]
          rfl
  | x :: xs, current, fuel + 1, hlinks, hheight, hxs, hys, hfuel => by
      obtain ⟨n, -, hnode, -, hentry⟩ := exists_node_of_height (hheight x List.mem_cons_self)
      have hkey : n.key < key := by
        have := hxs x List.mem_cons_self
        rwa [← hentry] at this
      rw [advance, Except.bind_eq_of_ok _ hlinks.1]
      dsimp only
      rw [Except.bind_eq_of_ok _ hnode, if_pos hkey, List.getLastD_cons]
      apply advance_eq hlinks.2
      · exact fun r hr => hheight r (List.mem_cons_of_mem x hr)
      · exact fun r hr => hxs r (List.mem_cons_of_mem x hr)
      · apply hys
      · apply Nat.lt_of_succ_lt_succ hfuel

/-- The last node of `xs` that reaches a level, the head when there is none. -/
def before (s : SkipList) (level : ℕ) (xs : List Ref) : Ref :=
  (s.reaching level xs).getLastD s.head

/-- The list is chained by the nodes `xs`, whose keys are less than `key`, and the nodes
`ys`, whose keys are not. -/
structure Split (s : SkipList) (key : Bytes) (xs ys : List Ref) : Prop where
  chained : s.Chained (xs ++ ys)
  less : ∀ r ∈ xs, (s.entryAt r).key < key
  not_less : ∀ r ∈ ys, ¬ (s.entryAt r).key < key

theorem before_mem (s : SkipList) (level : ℕ) (xs : List Ref) :
  s.before level xs = s.head ∨ (s.before level xs ∈ xs ∧ level < s.heightAt (s.before level xs))
  := by
  rcases List.mem_cons.mp (List.getLastD_mem_cons (l := s.reaching level xs) (a := s.head))
    with h | h
  · exact .inl h
  · exact .inr (mem_reaching.mp h)

/-- Advancing along a level, from the head or a node of `xs` that reaches the level, reaches
the last such node. -/
theorem Split.advance_eq {s : SkipList} {key : Bytes} {xs ys : List Ref} (h : s.Split key xs ys)
    {level : ℕ} (hlevel : level < s.maxLevel) {current : Ref}
    (hcurrent : current = s.head ∨ (current ∈ xs ∧ level < s.heightAt current)) :
  s.advance key level s.nodes.length current = .ok (s.before level xs)
  := by
  have hlinks := h.chained.forward level hlevel
  rw [reaching_append] at hlinks
  have hmem : current ∈ s.head :: s.reaching level xs := by
    rcases hcurrent with rfl | hcurrent
    · apply List.mem_cons_self
    · apply List.mem_cons_of_mem _ (mem_reaching.mpr hcurrent)
  obtain ⟨pre, suf, hsplit⟩ := List.append_of_mem hmem
  have hlast : s.before level xs = suf.getLastD current := by
    rw [before, ← List.getLastD_cons (a := s.head), hsplit, List.getLastD_append_cons]
  have hcells : s.head :: (s.reaching level xs ++ s.reaching level ys) =
      pre ++ current :: (suf ++ s.reaching level ys) := by
    rw [← List.cons_append, hsplit, List.append_assoc, List.cons_append]
  have hlinks' : List.Links (s.forwardAt level) current (suf ++ s.reaching level ys) :=
    hlinks.from_mem hcells
  have hsub : ∀ r ∈ suf, r ∈ s.reaching level xs := by
    intro r hr
    cases pre with
    | nil =>
        rw [(List.cons.inj hsplit).2]
        apply hr
    | cons p pre =>
        rw [(List.cons.inj hsplit).2]
        apply List.mem_append_right pre (List.mem_cons_of_mem current hr)
  have hlength : suf.length < s.nodes.length := by
    have hle := congrArg List.length hsplit
    have hfilter : (s.reaching level xs).length ≤ xs.length := List.length_filter_le ..
    have hlt := h.chained.length_lt
    simp only [List.length_append, List.length_cons] at hle hlt
    omega
  rw [hlast]
  apply SkipList.advance_eq hlinks'
  · intro r hr
    rcases List.mem_append.mp hr with hr | hr
    · exact (mem_reaching.mp (hsub r hr)).2
    · exact (mem_reaching.mp hr).2
  · intro r hr
    apply h.less r (mem_reaching.mp (hsub r hr)).1
  · intro r hr
    apply h.not_less r (mem_reaching.mp hr).1
  · apply hlength

/-- Descending from a level reaches the last node of `xs`, and on each level the last node of
`xs` that reaches it. -/
theorem Split.descend_eq {s : SkipList} {key : Bytes} {xs ys : List Ref} (h : s.Split key xs ys) :
  ∀ {level : ℕ} {current : Ref} (update : List Ref), level < s.maxLevel →
    (current = s.head ∨ (current ∈ xs ∧ level < s.heightAt current)) →
    s.descend key (level + 1) current update =
      .ok (s.before 0 xs, (List.range (level + 1)).map (fun l => s.before l xs) ++ update)
  | 0, current, update, hlevel, hcurrent => by
      rw [descend, Except.bind_eq_of_ok _ (h.advance_eq hlevel hcurrent)]
      rfl
  | level + 1, current, update, hlevel, hcurrent => by
      have hbelow : s.before (level + 1) xs = s.head ∨
          (s.before (level + 1) xs ∈ xs ∧ level < s.heightAt (s.before (level + 1) xs)) :=
        (before_mem s (level + 1) xs).imp_right (And.imp_right Nat.lt_of_succ_lt)
      rw [descend, Except.bind_eq_of_ok _ (h.advance_eq hlevel hcurrent),
        h.descend_eq _ (Nat.lt_of_succ_lt hlevel) hbelow, List.range_succ (n := level + 1),
        List.map_append, List.append_assoc]
      rfl

/-- The chain splits at any key, before the first node whose key is not less. -/
theorem Chained.split {s : SkipList} {chain : List Ref} (h : s.Chained chain) (key : Bytes) :
  s.Split key (chain.takeWhile (fun r => decide ((s.entryAt r).key < key)))
    (chain.dropWhile (fun r => decide ((s.entryAt r).key < key)))
  where
  chained := by
    rw [List.takeWhile_append_dropWhile]
    apply h
  less r hr := by
    have hless := List.mem_takeWhile_imp hr
    exact of_decide_eq_true hless
  not_less := by
    have hsorted := h.sorted.sublist
      (List.dropWhile_sublist (fun r => decide ((s.entryAt r).key < key)))
    intro r hr
    cases hdrop : chain.dropWhile (fun r => decide ((s.entryAt r).key < key)) with
    | nil =>
        rw [hdrop] at hr
        cases hr
    | cons r' rest =>
        have hhead := List.head?_dropWhile_not
          (fun r => decide ((s.entryAt r).key < key)) chain
        rw [hdrop] at hhead
        have hhead := of_decide_eq_false hhead
        rw [hdrop] at hr hsorted
        rcases List.mem_cons.mp hr with rfl | hr
        · apply hhead
        · intro hlt
          apply hhead (((List.pairwise_cons.mp hsorted).1 r hr).trans_lt hlt)

theorem Chained.exists_split {s : SkipList} {chain : List Ref} (h : s.Chained chain)
    (key : Bytes) :
  ∃ xs ys, chain = xs ++ ys ∧ s.Split key xs ys
  := ⟨_, _, List.takeWhile_append_dropWhile.symm, h.split key⟩

/-- The node after the last of `xs` is the first of `ys`. -/
theorem Split.forwardAt_before {s : SkipList} {key : Bytes} {xs ys : List Ref}
    (h : s.Split key xs ys) {level : ℕ} (hlevel : level < s.maxLevel) :
  s.forwardAt level (s.before level xs) = .ok (s.reaching level ys).head?
  := by
  have hlinks := h.chained.forward level hlevel
  rw [reaching_append] at hlinks
  apply hlinks.next_last

/-- Every node of the chain reaches the lowest level. -/
theorem Split.reaching_zero {s : SkipList} {key : Bytes} {xs ys : List Ref}
    (h : s.Split key xs ys) :
  s.reaching 0 ys = ys
  := by
  apply List.filter_eq_self.mpr
  intro r hr
  apply decide_eq_true (h.chained.height_pos r (List.mem_append_right xs hr))

/-- Descending from the head on all levels. -/
theorem Split.descend_head {s : SkipList} {key : Bytes} {xs ys : List Ref}
    (h : s.Split key xs ys) :
  s.descend key s.currentLevel s.head [] =
    .ok (s.before 0 xs, (List.range s.currentLevel).map (fun l => s.before l xs))
  := by
  have hle := h.chained.level_le
  obtain ⟨level, hlevel⟩ := Nat.exists_eq_add_one.mpr h.chained.level_pos
  rw [hlevel] at hle ⊢
  rw [h.descend_eq [] hle (.inl rfl), List.append_nil]

/-- The iterator `get` answers for a split list is at the first node of `ys`, if its key is
the right one and its version visible. -/
theorem Split.get_eq {s : SkipList} {key : Bytes} {xs ys : List Ref} (h : s.Split key xs ys)
    (trancId : TrancId) :
  s.get key trancId = .ok (ys.head?.filter (fun r =>
    (s.entryAt r).key = key ∧ (trancId = 0 ∨ (s.entryAt r).trancId ≤ trancId)))
  := by
  have hnext := h.forwardAt_before (h.chained.level_pos.trans_le h.chained.level_le)
  rw [h.reaching_zero] at hnext
  rw [get, Except.bind_eq_of_ok _ h.descend_head]
  dsimp only
  rw [Except.bind_eq_of_ok _ hnext]
  cases ys with
  | nil => rfl
  | cons r ys =>
      have hpos := h.chained.height_pos r (List.mem_append_right xs List.mem_cons_self)
      obtain ⟨n, -, hnode, -, hentry⟩ := exists_node_of_height hpos
      rw [List.head?_cons, Option.filter_some, ← hentry]
      dsimp only
      rw [Except.bind_eq_of_ok _ hnode]
      rw [SkipListNode.entry]
      by_cases hmatch : n.key = key ∧ (trancId = 0 ∨ n.trancId ≤ trancId)
      · rw [if_pos hmatch, if_pos (decide_eq_true hmatch)]
      · rw [if_neg hmatch, if_neg (by simpa using hmatch)]

end SkipList

end TinyLsm
