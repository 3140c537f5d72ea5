import TinyLsm.SkipList.Refinement

/-!
# Removing from a skip list

Removing keeps a skip list chained: the first node with the key is linked out on the levels
it reaches, and its version is taken out of the versions.
-/

namespace TinyLsm

namespace SkipList

/-! ### Linking a node out -/

/-- `s'` has the node `target` linked out after `prev` on a level, and the other links of the
level as in `s`. -/
structure LinkedOut (s s' : SkipList) (level : ℕ) (prev target : Ref) (next : Option Ref) : Prop
    where
  next_eq : s.forwardAt level target = .ok next
  forward_prev : s'.forwardAt level prev = .ok next
  forward_same : ∀ q, q ≠ prev → s'.forwardAt level q = s.forwardAt level q
  backward_next : ∀ q ∈ next, s'.backwardAt level q = .ok (some prev)
  backward_same : ∀ q, q ∉ next → s'.backwardAt level q = s.backwardAt level q

/-- A node can be linked out after another one when that reaches the level, and so does the
node that follows. -/
structure Unlinkable (s : SkipList) (level : ℕ) (prev target : Ref) (next : Option Ref) : Prop
    where
  next_eq : s.forwardAt level target = .ok next
  height_prev : level < s.heightAt prev
  height_next : ∀ q ∈ next, level < s.heightAt q

theorem unlinkAt_eq {s : SkipList} {level : ℕ} {prev target : Ref} {next : Option Ref}
    (h : Unlinkable s level prev target next) :
  ∃ s', s.unlinkAt target level prev = .ok s' ∧ Relinked s s' ∧
    LinkedOut s s' level prev target next ∧
    ∀ l, l ≠ level → s'.forwardAt l = s.forwardAt l ∧ s'.backwardAt l = s.backwardAt l
  := by
  obtain ⟨s₁, hset₁, hre₁, hprev₁, hsame₁, hback₁⟩ := setForward_eq h.height_prev next
  have hforward : ∀ l q, l ≠ level ∨ q ≠ prev → s₁.forwardAt l q = s.forwardAt l q := hsame₁
  rw [unlinkAt, Except.bind_eq_of_ok _ h.next_eq, Except.bind_eq_of_ok _ hset₁]
  cases next with
  | none =>
      refine ⟨s₁, rfl, hre₁, ?_, ?_⟩
      · exact
          { next_eq := h.next_eq
            forward_prev := hprev₁
            forward_same := fun q hq => hforward level q (.inr hq)
            backward_next := by rintro q ⟨⟩
            backward_same := fun q _ => by rw [hback₁] }
      · intro l hl
        exact ⟨funext (fun q => hforward l q (.inl hl)), by rw [hback₁]⟩
  | some r =>
      have hr : level < s₁.heightAt r := by
        rw [hre₁.heightAt_eq]
        apply h.height_next r rfl
      obtain ⟨s₂, hset₂, hre₂, hnext₂, hsame₂, hfor₂⟩ := setBackward_eq hr prev
      refine ⟨s₂, hset₂, hre₁.trans hre₂, ?_, ?_⟩
      · exact
          { next_eq := h.next_eq
            forward_prev := by rw [hfor₂, hprev₁]
            forward_same := fun q hq => by rw [hfor₂, hforward level q (.inr hq)]
            backward_next := by
              intro q hq
              obtain rfl := Option.some.inj hq
              apply hnext₂
            backward_same := by
              intro q hq
              have hqr : q ≠ r := fun heq => hq (congrArg some heq.symm)
              rw [hsame₂ level q (.inr hqr), hback₁] }
      · intro l hl
        constructor
        · rw [hfor₂]
          apply funext (fun q => hforward l q (.inl hl))
        · funext q
          rw [hsame₂ l q (.inl hl), hback₁]

/-- Whether a node is linked out on a level depends on the links of that level only. -/
theorem LinkedOut.congr {s s' t t' : SkipList} {level : ℕ} {prev target : Ref}
    {next : Option Ref} (h : LinkedOut s s' level prev target next)
    (hs : s.forwardAt level = t.forwardAt level ∧ s.backwardAt level = t.backwardAt level)
    (hs' : t'.forwardAt level = s'.forwardAt level ∧
      t'.backwardAt level = s'.backwardAt level) :
  LinkedOut t t' level prev target next
  := by
  obtain ⟨hf, hb⟩ := hs
  obtain ⟨hf', hb'⟩ := hs'
  exact
    { next_eq := by rw [← hf]; exact h.next_eq
      forward_prev := by rw [hf']; exact h.forward_prev
      forward_same := by rw [← hf, hf']; exact h.forward_same
      backward_next := by rw [hb']; exact h.backward_next
      backward_same := by rw [← hb, hb']; exact h.backward_same }

/-- Linking a node out on consecutive levels links it out on each of them, and leaves the
other levels as they are. -/
theorem unlinkLevels_eq {target : Ref} (prevs : ℕ → Ref) (nexts : ℕ → Option Ref) :
  ∀ {count level : ℕ} {update : List Ref} {s : SkipList},
    (∀ i < count, update[i]? = some (prevs (level + i)) ∧
      Unlinkable s (level + i) (prevs (level + i)) target (nexts (level + i))) →
    ∃ s', unlinkLevels target count level update s = .ok s' ∧ Relinked s s' ∧
      (∀ l, level ≤ l → l < level + count →
        LinkedOut s s' l (prevs l) target (nexts l)) ∧
      ∀ l, l < level ∨ level + count ≤ l →
        s'.forwardAt l = s.forwardAt l ∧ s'.backwardAt l = s.backwardAt l
  | 0, level, _, s, _ =>
      ⟨s, rfl, Relinked.refl s, fun l hl hl' => absurd hl' (Nat.not_lt.mpr hl),
        fun _ _ => ⟨rfl, rfl⟩⟩
  | count + 1, level, [], _, h => by
      obtain ⟨hnil, -⟩ := h 0 (Nat.zero_lt_succ count)
      cases hnil
  | count + 1, level, prev :: update, s, h => by
      obtain ⟨hprev, hunlinkable⟩ := h 0 (Nat.zero_lt_succ count)
      rw [Nat.add_zero] at hprev hunlinkable
      obtain rfl : prev = prevs level := Option.some.inj hprev
      obtain ⟨s₁, hunlink, hre, hout, hother⟩ := unlinkAt_eq hunlinkable
      have hrest : ∀ i < count, update[i]? = some (prevs (level + 1 + i)) ∧
          Unlinkable s₁ (level + 1 + i) (prevs (level + 1 + i)) target
            (nexts (level + 1 + i)) := by
        intro i hi
        have hstep : level + (i + 1) = level + 1 + i := by omega
        obtain ⟨hget, hu⟩ := h (i + 1) (Nat.succ_lt_succ hi)
        rw [hstep] at hget hu
        have hne : level + 1 + i ≠ level := by omega
        refine ⟨hget, ?_⟩
        exact
          { next_eq := by rw [(hother _ hne).1, hu.next_eq]
            height_prev := by rw [hre.heightAt_eq]; exact hu.height_prev
            height_next := fun q hq => by rw [hre.heightAt_eq]; exact hu.height_next q hq }
      obtain ⟨s', hlevels, hre', hout', hother'⟩ := unlinkLevels_eq prevs nexts hrest
      refine ⟨s', ?_, hre.trans hre', ?_, ?_⟩
      · rw [unlinkLevels, Except.bind_eq_of_ok _ hunlink]
        apply hlevels
      · intro l hl hl'
        by_cases hlevel : l = level
        · subst hlevel
          apply hout.congr ⟨rfl, rfl⟩ (hother' l (.inl (Nat.lt_succ_self l)))
        · apply (hout' l (by omega) (by omega)).congr (hother l hlevel) ⟨rfl, rfl⟩
      · intro l hl
        obtain ⟨hf, hb⟩ := hother l (by omega)
        obtain ⟨hf', hb'⟩ := hother' l (by omega)
        exact ⟨hf'.trans hf, hb'.trans hb⟩

/-! ### Removing a node -/

section

variable {s : SkipList} {key : Bytes} {xs ys : List Ref} {target : Ref}
  (h : s.Split key xs (target :: ys))

include h

/-- The node after those with smaller keys can be linked out on the levels it reaches. -/
theorem Split.unlinkable {level : ℕ} (hlevel : level < s.heightAt target) :
  Unlinkable s level (s.before level xs) target (s.reaching level ys).head?
  := by
  have htarget := h.chained.height_le target (List.mem_append_right xs List.mem_cons_self)
  have hmax := (hlevel.trans_le htarget).trans_le h.chained.level_le
  have hlinks := h.chained.forward level hmax
  rw [reaching_append, reaching_cons, if_pos hlevel] at hlinks
  constructor
  · have hfrom := hlinks.from_last.2
    rw [← List.nil_append (s.reaching level ys)] at hfrom
    apply hfrom.next_last
  · rcases before_mem s level xs with heq | ⟨-, hheight⟩
    · rw [heq, h.chained.height_head]
      apply hmax
    · apply hheight
  · intro q hq
    exact (mem_reaching.mp (List.mem_of_mem_head? hq)).2

/-- A list that differs by the first node of `ys` linked out, on the levels it reaches, is
chained by the others. -/
theorem Split.chained_remove {s' : SkipList} (hre : Relinked s s')
    (hout : ∀ level < s.heightAt target,
      LinkedOut s s' level (s.before level xs) target (s.reaching level ys).head?)
    (hother : ∀ level, s.heightAt target ≤ level →
      s'.forwardAt level = s.forwardAt level ∧ s'.backwardAt level = s.backwardAt level) :
  s'.Chained (xs ++ ys)
  := by
  have hsub : (xs ++ ys).Sublist (xs ++ target :: ys) :=
    (List.sublist_cons_self target ys).append_left xs
  have hreach : ∀ level, s'.reaching level (xs ++ ys) =
      s.reaching level xs ++ s.reaching level ys := by
    intro level
    rw [reaching_congr (fun r _ => hre.heightAt_eq r), reaching_append]
  have hreachAll : ∀ level, s.reaching level (xs ++ target :: ys) = s.reaching level xs ++
      if level < s.heightAt target then target :: s.reaching level ys
      else s.reaching level ys := by
    intro level
    rw [reaching_append, reaching_cons]
  have hnodup : ∀ level, (s.head :: s.reaching level (xs ++ target :: ys)).Nodup := fun level =>
    h.chained.nodup.sublist (List.Sublist.cons_cons _ List.filter_sublist)
  constructor
  · rw [hre.currentLevel_eq]
    apply h.chained.level_pos
  · rw [hre.currentLevel_eq, hre.maxLevel_eq]
    apply h.chained.level_le
  · rw [hre.head_eq]
    apply h.chained.nodup.sublist (hsub.cons_cons _)
  · rw [hre.head_eq, hre.maxLevel_eq, hre.heightAt_eq, h.chained.height_head]
  · intro r hr
    rw [hre.heightAt_eq]
    apply h.chained.height_pos r (hsub.mem hr)
  · intro r hr
    rw [hre.heightAt_eq, hre.currentLevel_eq]
    apply h.chained.height_le r (hsub.mem hr)
  · intro level hlevel
    rw [hre.maxLevel_eq] at hlevel
    have hforward := h.chained.forward level hlevel
    have hnodup' := hnodup level
    rw [hreachAll] at hforward hnodup'
    rw [hre.head_eq, hreach]
    split at hforward
    next hlt =>
      rw [if_pos hlt] at hnodup'
      have hlinked := hout level hlt
      apply hforward.remove hnodup' (hlinked.forward_prev.trans hlinked.next_eq.symm)
      intro r _ hne
      apply hlinked.forward_same r hne
    next hge =>
      rw [(hother level (Nat.le_of_not_lt hge)).1]
      apply hforward
  · intro level hlevel
    rw [hre.maxLevel_eq] at hlevel
    have hbackward := h.chained.backward level hlevel
    have hnodup' := hnodup level
    rw [hreachAll] at hbackward hnodup'
    rw [hre.head_eq, hreach]
    split at hbackward
    next hlt =>
      rw [if_pos hlt] at hnodup'
      have hlinked := hout level hlt
      apply hbackward.remove (List.nodup_cons.mp hnodup').2 hlinked.backward_next
      intro r _ hne
      apply hlinked.backward_same r hne
    next hge =>
      rw [(hother level (Nat.le_of_not_lt hge)).2]
      apply hbackward
  · apply (h.chained.sorted.sublist hsub).imp
    intro r r' hle
    rw [hre.entryAt_eq, hre.entryAt_eq]
    apply hle

/-- Removing the node takes it out of the chain, and its size off that of the list. -/
theorem Split.removeNode_eq {n : SkipListNode} (hn : n.height = s.heightAt target) :
  ∃ s', s.removeNode ((List.range s.currentLevel).map (fun l => s.before l xs)) target n = .ok s' ∧
    s'.Chained (xs ++ ys) ∧
    (∀ r, s'.entryAt r = s.entryAt r) ∧
    s'.sizeBytes = s.sizeBytes - UInt64.ofNat (n.key.length + n.value.length + 8)
  := by
  have hle := h.chained.height_le target (List.mem_append_right xs List.mem_cons_self)
  have hunlinkable : ∀ i < n.height,
      ((List.range s.currentLevel).map (fun l => s.before l xs))[i]? =
          some (s.before (0 + i) xs) ∧
        Unlinkable s (0 + i) (s.before (0 + i) xs) target (s.reaching (0 + i) ys).head? := by
    intro i hi
    rw [hn] at hi
    rw [Nat.zero_add]
    refine ⟨?_, h.unlinkable hi⟩
    rw [List.getElem?_map, List.getElem?_range (hi.trans_le hle)]
    rfl
  obtain ⟨unlinked, hunlink, hre, hout, hother⟩ :=
    unlinkLevels_eq (fun l => s.before l xs) (fun l => (s.reaching l ys).head?) hunlinkable
  rw [hn] at hout hother
  have hchained := h.chained_remove hre
    (fun level hlevel => hout level (Nat.zero_le level) (by omega))
    (fun level hlevel => hother level (.inr (by omega)))
  let s' : SkipList :=
    { unlinked with
      sizeBytes := unlinked.sizeBytes - UInt64.ofNat (n.key.length + n.value.length + 8) }
  refine ⟨s', ?_, ?_, hre.entryAt_eq, ?_⟩
  · rw [removeNode, Except.bind_eq_of_ok _ hunlink]
    rfl
  · apply hchained.congr s' rfl rfl le_rfl hchained.level_le (fun _ _ => rfl) (fun _ _ _ => rfl)
      (fun _ _ _ => rfl) (fun _ _ => rfl)
  · change unlinked.sizeBytes - _ = _
    rw [hre.sizeBytes_eq]

end

/-- `remove` keeps a list chained, takes the first version of the key out of its versions and
what this takes up off the counter. -/
theorem Chained.remove_eq {s : SkipList} {chain : List Ref} (h : s.Chained chain) (key : Bytes) :
  ∃ s' chain', s.remove key = .ok s' ∧ s'.Chained chain' ∧
    s'.versions chain' = removeVersion key (s.versions chain) ∧
    s'.sizeBytes = removedSize key s.sizeBytes (s.versions chain)
  := by
  obtain ⟨xs, ys, rfl, hsplit⟩ := h.exists_split key
  obtain ⟨update, hupdate⟩ := hsplit.descend_cons
  have hnext := hsplit.forwardAt_before (h.level_pos.trans_le h.level_le)
  rw [hsplit.reaching_zero] at hnext
  have hversions : removeVersion key (s.versions (xs ++ ys)) =
      s.versions xs ++ removeVersion key (s.versions ys) := by
    rw [versions, List.map_append]
    apply removeVersion_append
    intro e he
    obtain ⟨r, hr, rfl⟩ := List.mem_map.mp he
    apply hsplit.less r hr
  rw [remove, Except.bind_eq_of_ok _ hsplit.descend_head, hupdate]
  dsimp only
  rw [Except.bind_eq_of_ok _ hnext, ← hupdate, hversions, removedSize, hsplit.topVersion_eq]
  cases ys with
  | nil =>
      refine ⟨s, xs ++ [], rfl, h, ?_, rfl⟩
      rw [versions, List.map_append]
      rfl
  | cons target ys =>
      have hheight := h.height_pos target (List.mem_append_right xs List.mem_cons_self)
      obtain ⟨n, hn, hnode, hnheight, hentry⟩ := exists_node_of_height hheight
      have hkey : n.key = (s.entryAt target).key := congrArg Entry.key hentry
      rw [List.head?_cons, Option.map_some, Option.filter_some]
      dsimp only
      rw [Except.bind_eq_of_ok _ hnode, hkey]
      split
      next heq =>
        obtain ⟨s', hremove, hchained, hsame, hsize⟩ := hsplit.removeNode_eq hnheight
        rw [if_pos (decide_eq_true heq), ← hentry]
        refine ⟨s', xs ++ ys, hremove, hchained, ?_, hsize⟩
        have hcons : removeVersion key (s.versions (target :: ys)) = s.versions ys := by
          rw [versions, List.map_cons, removeVersion_cons, if_pos heq]
          rfl
        rw [hcons, versions, List.map_append, funext hsame]
        rfl
      next hne =>
        rw [if_neg (by simpa using hne)]
        refine ⟨s, xs ++ target :: ys, rfl, h, ?_, rfl⟩
        -- the first key that is not less is greater, and the keys do not decrease
        have hgreater : ∀ e ∈ s.versions (target :: ys), key < e.key := by
          have hfirst := lt_of_le_of_ne
            (le_of_not_gt (hsplit.not_less target List.mem_cons_self)) (Ne.symm hne)
          have hsorted := (List.pairwise_append.mp h.sorted).2.1
          intro e he
          obtain ⟨r, hr, rfl⟩ := List.mem_map.mp he
          rcases List.mem_cons.mp hr with rfl | hr
          · apply hfirst
          · apply hfirst.trans_le ((List.pairwise_cons.mp hsorted).1 r hr)
        rw [removeVersion_of_lt hgreater, versions, List.map_append]
        rfl

/-- `clear` leaves an empty chain. -/
theorem Chained.clear {s : SkipList} {chain : List Ref} (h : s.Chained chain) :
  s.clear.Chained []
  := by
  have hnode : s.clear.nodes[s.nodes.length]? =
      some (SkipListNode.unlinked [] [] s.maxLevel 0) := List.getElem?_concat_length
  constructor
  · apply h.level_pos
  · apply h.level_le
  · apply List.nodup_singleton _
  · change s.clear.heightAt s.nodes.length = s.maxLevel
    rw [heightAt, hnode]
    rfl
  · rintro r ⟨⟩
  · rintro r ⟨⟩
  · intro level hlevel
    change level < s.maxLevel at hlevel
    change s.clear.forwardAt level s.nodes.length = .ok none
    simp [forwardAt, hnode, SkipListNode.unlinked, hlevel]
  · intro level _
    trivial
  · exact .nil

end SkipList

end TinyLsm
