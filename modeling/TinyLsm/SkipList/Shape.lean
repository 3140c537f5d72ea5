import TinyLsm.SkipList.Accounting

/-!
# The shape of a skip list

What calls make of the links.  On each level the links forward from the head visit the nodes that
are higher than the level, in the order in which those of the lowest level visit them; the link
backward of a node leads to the node before it.  The nodes are at most as high as the current
level, which does not exceed the greatest one, and the greatest one stays what it is.
-/

namespace TinyLsm

namespace SkipList

/-- The nodes from a link on, along the links forward of a level. -/
def levelFrom (s : SkipList) (level : ℕ) : ℕ → Option Ref → Except Fault (List Ref)
  | _, none => .ok []
  | 0, some _ => .error .outOfFuel
  | fuel + 1, some r => do
      let next ← s.forwardAt level r
      let rest ← levelFrom s level fuel next
      return r :: rest

/-- The nodes after the head, along the links forward of a level. -/
def levelNodes (s : SkipList) (level : ℕ) : Except Fault (List Ref) := do
  let first ← s.forwardAt level s.head
  s.levelFrom level s.nodes.length first

/-- The nodes `chain` of the lowest level and the links on all levels are as they should be. -/
structure Shaped (s : SkipList) (chain : List Ref) : Prop where
  lowest : s.levelNodes 0 = .ok chain
  level_le : s.currentLevel ≤ s.maxLevel
  height_pos : ∀ r ∈ chain, 1 ≤ s.heightAt r
  height_le : ∀ r ∈ chain, s.heightAt r ≤ s.currentLevel
  levels : ∀ level < s.maxLevel,
    s.levelNodes level = .ok (chain.filter (fun r => decide (level < s.heightAt r)))
  sorted : ∀ level < s.maxLevel,
    (chain.filter (fun r => decide (level < s.heightAt r))).Pairwise
      (fun r r' => (s.entryAt r).key ≤ (s.entryAt r').key)
  backward : ∀ level < s.maxLevel, ∀ (i : ℕ) (r : Ref),
    (chain.filter (fun r => decide (level < s.heightAt r)))[i]? = some r →
      s.backwardAt level r =
        .ok (s.head :: chain.filter (fun r => decide (level < s.heightAt r)))[i]?

/-! ### Visiting a level -/

theorem levelFrom_eq {s : SkipList} {level : ℕ} :
  ∀ {p : Ref} {rs : List Ref} {fuel : ℕ}, List.Links (s.forwardAt level) p rs →
    rs.length ≤ fuel → s.levelFrom level fuel rs.head? = .ok rs
  | _, [], 0, _, _ => rfl
  | _, [], _ + 1, _, _ => rfl
  | _, r :: rs, fuel + 1, h, hfuel => by
      have ih := levelFrom_eq h.2 (Nat.le_of_succ_le_succ hfuel)
      rw [List.head?_cons, levelFrom, Except.bind_eq_of_ok _ h.2.next_head,
        Except.bind_eq_of_ok _ ih]
      rfl

theorem Chained.levelNodes_eq {s : SkipList} {chain : List Ref} (h : s.Chained chain) {level : ℕ}
    (hlevel : level < s.maxLevel) :
  s.levelNodes level = .ok (s.reaching level chain)
  := by
  have hlinks := h.forward level hlevel
  have hlength : (s.reaching level chain).length ≤ s.nodes.length :=
    (List.length_filter_le _ chain).trans h.length_lt.le
  rw [levelNodes, Except.bind_eq_of_ok _ hlinks.next_head, levelFrom_eq hlinks hlength]

theorem Chained.shaped {s : SkipList} {chain : List Ref} (h : s.Chained chain) : s.Shaped chain
  where
  lowest := by
    have hall : s.reaching 0 chain = chain := List.filter_eq_self.mpr (fun r hr =>
      decide_eq_true (h.height_pos r hr))
    rw [h.levelNodes_eq (h.level_pos.trans_le h.level_le), hall]
  level_le := h.level_le
  height_pos := h.height_pos
  height_le := h.height_le
  levels level hlevel := h.levelNodes_eq hlevel
  sorted level _ := h.sorted.sublist List.filter_sublist
  backward level hlevel i r hr := (h.backward level hlevel).getElem? hr

/-! ### The greatest level -/

theorem maxLevel_setForward {s s' : SkipList} {level : ℕ} {r : Ref} {link : Option Ref}
    (h : s.setForward level r link = .ok s') :
  s'.maxLevel = s.maxLevel
  := by
  rw [setForward] at h
  split at h
  next =>
    split at h
    next => exact Except.ok.inj h ▸ rfl
    next => cases h
  next => cases h

theorem maxLevel_setBackward {s s' : SkipList} {level : ℕ} {r link : Ref}
    (h : s.setBackward level r link = .ok s') :
  s'.maxLevel = s.maxLevel
  := by
  rw [setBackward] at h
  split at h
  next =>
    split at h
    next => exact Except.ok.inj h ▸ rfl
    next => cases h
  next => cases h

theorem maxLevel_linkAt {s s' : SkipList} {new : Ref} {level : ℕ} {prev : Ref}
    (h : s.linkAt new level prev = .ok s') :
  s'.maxLevel = s.maxLevel
  := by
  rw [linkAt] at h
  obtain ⟨next, -, h⟩ := Except.exists_of_bind_eq_ok h
  obtain ⟨s₁, h₁, h⟩ := Except.exists_of_bind_eq_ok h
  obtain ⟨s₂, h₂, h⟩ := Except.exists_of_bind_eq_ok h
  obtain ⟨s₃, h₃, h⟩ := Except.exists_of_bind_eq_ok h
  have hlinked : s₃.maxLevel = s.maxLevel :=
    (maxLevel_setBackward h₃).trans ((maxLevel_setForward h₂).trans (maxLevel_setForward h₁))
  cases next with
  | none => exact Except.ok.inj h ▸ hlinked
  | some r => exact (maxLevel_setBackward h).trans hlinked

theorem maxLevel_unlinkAt {s s' : SkipList} {target : Ref} {level : ℕ} {prev : Ref}
    (h : s.unlinkAt target level prev = .ok s') :
  s'.maxLevel = s.maxLevel
  := by
  rw [unlinkAt] at h
  obtain ⟨next, -, h⟩ := Except.exists_of_bind_eq_ok h
  obtain ⟨s₁, h₁, h⟩ := Except.exists_of_bind_eq_ok h
  cases next with
  | none => exact Except.ok.inj h ▸ maxLevel_setForward h₁
  | some r => exact (maxLevel_setBackward h).trans (maxLevel_setForward h₁)

theorem maxLevel_linkLevels {new : Ref} :
  ∀ {count level : ℕ} {update : List Ref} {s s' : SkipList},
    linkLevels new count level update s = .ok s' → s'.maxLevel = s.maxLevel
  | 0, _, _, _, _, h => Except.ok.inj h ▸ rfl
  | _ + 1, _, [], _, _, h => nomatch h
  | count + 1, level, prev :: update, s, s', h => by
      rw [linkLevels] at h
      obtain ⟨s₁, hlink, h⟩ := Except.exists_of_bind_eq_ok h
      exact (maxLevel_linkLevels h).trans (maxLevel_linkAt hlink)

theorem maxLevel_unlinkLevels {target : Ref} :
  ∀ {count level : ℕ} {update : List Ref} {s s' : SkipList},
    unlinkLevels target count level update s = .ok s' → s'.maxLevel = s.maxLevel
  | 0, _, _, _, _, h => Except.ok.inj h ▸ rfl
  | _ + 1, _, [], _, _, h => nomatch h
  | count + 1, level, prev :: update, s, s', h => by
      rw [unlinkLevels] at h
      obtain ⟨s₁, hunlink, h⟩ := Except.exists_of_bind_eq_ok h
      exact (maxLevel_unlinkLevels h).trans (maxLevel_unlinkAt hunlink)

theorem maxLevel_insertNode {s s' : SkipList} {update : List Ref} {newLevel : ℕ}
    {key value : Bytes} {trancId : TrancId}
    (h : s.insertNode update newLevel key value trancId = .ok s') :
  s'.maxLevel = s.maxLevel
  := by
  rw [insertNode] at h
  obtain ⟨linked, hlink, h⟩ := Except.exists_of_bind_eq_ok h
  obtain rfl := Except.ok.inj h
  apply maxLevel_linkLevels hlink

theorem maxLevel_place {s s' : SkipList} {newLevel : ℕ} {key value : Bytes} {trancId : TrancId}
    (h : s.place newLevel key value trancId = .ok s') :
  s'.maxLevel = s.maxLevel
  := by
  rw [place] at h
  obtain ⟨⟨_, update⟩, -, h⟩ := Except.exists_of_bind_eq_ok h
  cases update with
  | nil => cases h
  | cons prev update =>
      obtain ⟨next, -, h⟩ := Except.exists_of_bind_eq_ok h
      cases next with
      | none => exact maxLevel_insertNode h
      | some r =>
          obtain ⟨n, -, h⟩ := Except.exists_of_bind_eq_ok h
          split at h
          next => exact Except.ok.inj h ▸ rfl
          next => exact maxLevel_insertNode h

theorem maxLevel_put {s s' : SkipList} {flips : List Bool} {key value : Bytes} {trancId : TrancId}
    (h : s.put flips key value trancId = .ok s') :
  s'.maxLevel = s.maxLevel
  := maxLevel_place (s := s.raise _) h

theorem maxLevel_remove {s s' : SkipList} {key : Bytes} (h : s.remove key = .ok s') :
  s'.maxLevel = s.maxLevel
  := by
  rw [remove] at h
  obtain ⟨⟨_, update⟩, -, h⟩ := Except.exists_of_bind_eq_ok h
  cases update with
  | nil => cases h
  | cons prev update =>
      obtain ⟨next, -, h⟩ := Except.exists_of_bind_eq_ok h
      cases next with
      | none => exact Except.ok.inj h ▸ rfl
      | some target =>
          obtain ⟨n, -, h⟩ := Except.exists_of_bind_eq_ok h
          split at h
          next =>
            rw [removeNode] at h
            obtain ⟨unlinked, hunlink, h⟩ := Except.exists_of_bind_eq_ok h
            obtain rfl := Except.ok.inj h
            apply maxLevel_unlinkLevels hunlink
          next => exact Except.ok.inj h ▸ rfl

theorem maxLevel_perform {s s' : SkipList} {flips : List Bool} {c : SkipListCall}
    (h : s.perform flips c = .ok s') :
  s'.maxLevel = s.maxLevel
  := by
  cases c with
  | put key value trancId => exact maxLevel_put h
  | remove key => exact maxLevel_remove h
  | clear => exact Except.ok.inj h ▸ rfl

theorem maxLevel_performAll :
  ∀ {cs : List SkipListCall} {flips : ℕ → List Bool} {s s' : SkipList},
    s.performAll flips cs = .ok s' → s'.maxLevel = s.maxLevel
  | [], _, _, _, h => Except.ok.inj h ▸ rfl
  | c :: cs, flips, s, s', h => by
      rw [performAll] at h
      obtain ⟨s₁, hperform, h⟩ := Except.exists_of_bind_eq_ok h
      exact (maxLevel_performAll h).trans (maxLevel_perform hperform)

/-! ### Runs -/

/-- Whatever the calls on the empty list and the coin flips, the resulting list has its shape. -/
theorem shaped_performAll {maxLvl : ℕ} (hmax : 1 ≤ maxLvl) (flips : ℕ → List Bool)
    (cs : List SkipListCall) :
  ∃ s chain, (empty maxLvl).performAll flips cs = .ok s ∧ s.maxLevel = maxLvl ∧ s.Shaped chain
  := by
  obtain ⟨s, chain, hperform, hchained⟩ := chained_performAll hmax flips cs
  exact ⟨s, chain, hperform, maxLevel_performAll hperform, hchained.shaped⟩

/-- Three nodes, the second of them with two levels, of which the first one is removed. -/
theorem shaped_performAll_remove :
  ∃ s chain, (empty 2).performAll (fun i => [i == 1])
      [.put [1] [7] 1, .put [2] [8] 2, .put [1] [9] 3, .remove [1]] = .ok s ∧
    s.maxLevel = 2 ∧ s.Shaped chain
  := shaped_performAll (by decide) _ _

end SkipList

end TinyLsm
