import TinyLsm.SkipList.Structure

/-!
# Inserting into a skip list

Inserting keeps a skip list chained: a new node comes between the nodes with smaller keys
and the others, on the levels it reaches, and replacing a value changes no link.
-/

namespace TinyLsm

namespace SkipList

/-! ### The random level -/

theorem climb_bounds {maxLevel : ℕ} :
  ∀ {level : ℕ} {flips : List Bool}, level ≤ maxLevel →
    level ≤ climb maxLevel level flips ∧ climb maxLevel level flips ≤ maxLevel
  | level, [], h => ⟨le_refl level, h⟩
  | level, flip :: flips, h => by
      rw [climb]
      split
      next hup =>
        have hlt : level < maxLevel := of_decide_eq_true (Bool.and_eq_true_iff.mp hup).2
        have hbounds : level + 1 ≤ climb maxLevel (level + 1) flips ∧
            climb maxLevel (level + 1) flips ≤ maxLevel := climb_bounds (Nat.succ_le_of_lt hlt)
        exact ⟨Nat.le_of_succ_le hbounds.1, hbounds.2⟩
      next => exact ⟨le_refl level, h⟩

/-- The random level lies between one and the greatest level. -/
theorem randomLevel_bounds {maxLevel : ℕ} (h : 0 < maxLevel) (flips : List Bool) :
  0 < randomLevel maxLevel flips ∧ randomLevel maxLevel flips ≤ maxLevel
  := climb_bounds h

/-! ### Allocating -/

section

variable {s : SkipList} {n : SkipListNode}

theorem heightAt_allocate {r : Ref} (h : r < s.nodes.length) :
  (s.allocate n).heightAt r = s.heightAt r
  := by
  simp only [heightAt, allocate, List.getElem?_append_left h]

theorem entryAt_allocate {r : Ref} (h : r < s.nodes.length) :
  (s.allocate n).entryAt r = s.entryAt r
  := by
  simp only [entryAt, allocate, List.getElem?_append_left h]

theorem forwardAt_allocate {r : Ref} (h : r < s.nodes.length) (level : ℕ) :
  (s.allocate n).forwardAt level r = s.forwardAt level r
  := by
  simp only [forwardAt, allocate, List.getElem?_append_left h]

theorem backwardAt_allocate {r : Ref} (h : r < s.nodes.length) (level : ℕ) :
  (s.allocate n).backwardAt level r = s.backwardAt level r
  := by
  simp only [backwardAt, allocate, List.getElem?_append_left h]

theorem heightAt_allocated : (s.allocate n).heightAt s.nodes.length = n.height
  := by
  simp only [heightAt, allocate, List.getElem?_concat_length]

theorem entryAt_allocated : (s.allocate n).entryAt s.nodes.length = n.entry
  := by
  simp only [entryAt, allocate, List.getElem?_concat_length]

end

/-! ### Inserting a node -/

section

variable {s : SkipList} {key : Bytes} {xs ys : List Ref} (h : s.Split key xs ys)

include h

/-- On the levels it reaches, a node allocated for the key can be linked in after the nodes
with smaller keys. -/
theorem Split.linkable {value : Bytes} {newLevel : ℕ} {trancId : TrancId} {level : ℕ}
    (hlevel : level < newLevel) (hmax : newLevel ≤ s.maxLevel) :
  Linkable (s.allocate (SkipListNode.unlinked key value newLevel trancId)) level
    (s.before level xs) s.nodes.length (s.reaching level ys).head?
  := by
  have hbefore : s.before level xs ∈ s.head :: (xs ++ ys) := by
    rcases before_mem s level xs with heq | ⟨hmem, -⟩
    · rw [heq]
      apply List.mem_cons_self
    · apply List.mem_cons_of_mem _ (List.mem_append_left ys hmem)
  have hlt := h.chained.lt_length _ hbefore
  have hnext : ∀ q ∈ (s.reaching level ys).head?, q ∈ ys ∧ level < s.heightAt q :=
    fun q hq => mem_reaching.mp (List.mem_of_mem_head? hq)
  have hltNext : ∀ q ∈ ys, q < s.nodes.length :=
    fun q hq => h.chained.lt_length q (List.mem_cons_of_mem _ (List.mem_append_right xs hq))
  constructor
  · rw [forwardAt_allocate hlt]
    apply h.forwardAt_before (hlevel.trans_le hmax)
  · apply hlt.ne
  · intro hmem
    exact (hltNext _ (hnext _ hmem).1).false
  · rw [heightAt_allocate hlt]
    rcases before_mem s level xs with heq | ⟨-, hheight⟩
    · rw [heq, h.chained.height_head]
      apply hlevel.trans_le hmax
    · apply hheight
  · rw [heightAt_allocated]
    apply hlevel
  · intro q hq
    rw [heightAt_allocate (hltNext q (hnext q hq).1)]
    exact (hnext q hq).2

/-- A node linked in on a level comes between the nodes with smaller keys and the others that
reach the level. -/
theorem Split.linked_in {value : Bytes} {newLevel : ℕ} {trancId : TrancId} {level : ℕ}
    (hlevel : level < newLevel) (hmax : newLevel ≤ s.maxLevel) {s' : SkipList}
    (hin : LinkedIn (s.allocate (SkipListNode.unlinked key value newLevel trancId)) s' level
      (s.before level xs) s.nodes.length (s.reaching level ys).head?) :
  List.Links (s'.forwardAt level) s.head
      (s.reaching level xs ++ s.nodes.length :: s.reaching level ys) ∧
    List.BackLinks (s'.backwardAt level) s.head
      (s.reaching level xs ++ s.nodes.length :: s.reaching level ys)
  := by
  have hlevel' := hlevel.trans_le hmax
  have hsub : ∀ r ∈ s.reaching level xs ++ s.reaching level ys, r ∈ xs ++ ys := by
    intro r hr
    rw [← reaching_append] at hr
    exact (mem_reaching.mp hr).1
  have hlt : ∀ r ∈ s.head :: (s.reaching level xs ++ s.reaching level ys),
      r < s.nodes.length := by
    intro r hr
    apply h.chained.lt_length r
    rcases List.mem_cons.mp hr with rfl | hr
    · apply List.mem_cons_self
    · apply List.mem_cons_of_mem _ (hsub r hr)
  have hnodup : (s.head :: (s.reaching level xs ++ s.reaching level ys)).Nodup := by
    rw [← reaching_append]
    apply h.chained.nodup.sublist (List.Sublist.cons_cons _ List.filter_sublist)
  have hforward := h.chained.forward level hlevel'
  have hbackward := h.chained.backward level hlevel'
  rw [reaching_append] at hforward hbackward
  constructor
  · apply hforward.insert hnodup hin.forward_prev
    · rw [hin.forward_new]
      exact (h.forwardAt_before hlevel').symm
    · intro r hr hne
      rw [hin.forward_same r hne (hlt r hr).ne, forwardAt_allocate (hlt r hr)]
  · apply hbackward.insert (List.nodup_cons.mp hnodup).2 hin.backward_new hin.backward_next
    intro r hr hnext
    have hr' := hlt r (List.mem_cons_of_mem _ hr)
    rw [hin.backward_same r hr'.ne hnext, backwardAt_allocate hr']

/-- A list that differs by a node linked in for the key, on the levels the node reaches, is
chained with the node between those with smaller keys and the others. -/
theorem Split.chained_insert (s' : SkipList) {new newLevel : ℕ} (hpos : 0 < newLevel)
    (hle : newLevel ≤ s.currentLevel) (hfresh : new ∉ s.head :: (xs ++ ys))
    (hhead : s'.head = s.head) (hmax : s'.maxLevel = s.maxLevel)
    (hcur : s'.currentLevel = s.currentLevel) (hnew : s'.heightAt new = newLevel)
    (hkey : (s'.entryAt new).key = key)
    (hheight : ∀ r ∈ s.head :: (xs ++ ys), s'.heightAt r = s.heightAt r)
    (hentry : ∀ r ∈ xs ++ ys, s'.entryAt r = s.entryAt r)
    (hin : ∀ level < newLevel,
      List.Links (s'.forwardAt level) s.head (s.reaching level xs ++ new :: s.reaching level ys) ∧
      List.BackLinks (s'.backwardAt level) s.head
        (s.reaching level xs ++ new :: s.reaching level ys))
    (hother : ∀ level, newLevel ≤ level → ∀ r ∈ s.head :: (xs ++ ys),
      s'.forwardAt level r = s.forwardAt level r ∧ s'.backwardAt level r = s.backwardAt level r) :
  s'.Chained (xs ++ new :: ys)
  := by
  have hmem : ∀ r ∈ xs ++ new :: ys, r = new ∨ r ∈ xs ++ ys := by
    intro r hr
    rcases List.mem_append.mp hr with hr | hr
    · exact .inr (List.mem_append_left ys hr)
    · exact (List.mem_cons.mp hr).imp_right (List.mem_append_right xs)
  have hreach : ∀ level, s'.reaching level (xs ++ new :: ys) =
      s.reaching level xs ++
        if level < newLevel then new :: s.reaching level ys else s.reaching level ys := by
    intro level
    have hxs : s'.reaching level xs = s.reaching level xs := reaching_congr (fun r hr =>
      hheight r (List.mem_cons_of_mem _ (List.mem_append_left ys hr))) level
    have hys : s'.reaching level ys = s.reaching level ys := reaching_congr (fun r hr =>
      hheight r (List.mem_cons_of_mem _ (List.mem_append_right xs hr))) level
    rw [reaching_append, hxs]
    rw [reaching_cons, hys, hnew]
  constructor
  · rw [hcur]
    apply h.chained.level_pos
  · rw [hcur, hmax]
    apply h.chained.level_le
  · rw [hhead]
    have hperm : (s.head :: (xs ++ new :: ys)).Perm (new :: s.head :: (xs ++ ys)) :=
      (List.perm_middle.cons _).trans (List.Perm.swap ..)
    apply hperm.nodup_iff.mpr (List.nodup_cons.mpr ⟨hfresh, h.chained.nodup⟩)
  · rw [hhead, hmax, hheight s.head List.mem_cons_self, h.chained.height_head]
  · intro r hr
    rcases hmem r hr with rfl | hr
    · rw [hnew]
      apply hpos
    · rw [hheight r (List.mem_cons_of_mem _ hr)]
      apply h.chained.height_pos r hr
  · intro r hr
    rw [hcur]
    rcases hmem r hr with rfl | hr
    · rw [hnew]
      apply hle
    · rw [hheight r (List.mem_cons_of_mem _ hr)]
      apply h.chained.height_le r hr
  · intro level hlevel
    rw [hmax] at hlevel
    rw [hhead, hreach]
    split
    next hlt => exact (hin level hlt).1
    next hge =>
      rw [← reaching_append]
      apply (h.chained.forward level hlevel).congr
      intro r hr
      apply (hother level (Nat.le_of_not_lt hge) r _).1
      rcases List.mem_cons.mp hr with rfl | hr
      · apply List.mem_cons_self
      · apply List.mem_cons_of_mem _ (mem_reaching.mp hr).1
  · intro level hlevel
    rw [hmax] at hlevel
    rw [hhead, hreach]
    split
    next hlt => exact (hin level hlt).2
    next hge =>
      rw [← reaching_append]
      apply (h.chained.backward level hlevel).congr
      intro r hr
      apply (hother level (Nat.le_of_not_lt hge) r _).2
      apply List.mem_cons_of_mem _ (mem_reaching.mp hr).1
  · have hsorted : (xs ++ ys).Pairwise (fun r r' => (s'.entryAt r).key ≤ (s'.entryAt r').key) := by
      apply h.chained.sorted.imp_of_mem
      intro r r' hr hr' hrr'
      rw [hentry r hr, hentry r' hr']
      apply hrr'
    obtain ⟨hxs, hys, hxy⟩ := List.pairwise_append.mp hsorted
    apply List.pairwise_append.mpr
    refine ⟨hxs, List.pairwise_cons.mpr ⟨?_, hys⟩, ?_⟩
    · intro r hr
      rw [hkey, hentry r (List.mem_append_right xs hr)]
      apply le_of_not_gt (h.not_less r hr)
    · intro r hr r' hr'
      rcases List.mem_cons.mp hr' with rfl | hr'
      · rw [hkey, hentry r (List.mem_append_left ys hr)]
        apply le_of_lt (h.less r hr)
      · apply hxy r hr r' hr'

/-- Inserting a node puts it between the nodes with smaller keys and the others. -/
theorem Split.insertNode_eq (value : Bytes) {newLevel : ℕ} (trancId : TrancId)
    (hpos : 0 < newLevel) (hle : newLevel ≤ s.currentLevel) :
  ∃ s', s.insertNode ((List.range s.currentLevel).map (fun l => s.before l xs)) newLevel key
        value trancId = .ok s' ∧
    s'.Chained (xs ++ s.nodes.length :: ys) ∧
    s'.entryAt s.nodes.length = ⟨key, value, trancId⟩ ∧
    (∀ r ∈ xs ++ ys, s'.entryAt r = s.entryAt r) ∧
    s'.sizeBytes = s.sizeBytes + UInt64.ofNat (key.length + value.length + 8)
  := by
  have hmax := hle.trans h.chained.level_le
  have hlt := h.chained.lt_length
  have hlinkable : ∀ i < newLevel,
      ((List.range s.currentLevel).map (fun l => s.before l xs))[i]? =
          some (s.before (0 + i) xs) ∧
        Linkable (s.allocate (SkipListNode.unlinked key value newLevel trancId)) (0 + i)
          (s.before (0 + i) xs) s.nodes.length (s.reaching (0 + i) ys).head? := by
    intro i hi
    rw [Nat.zero_add]
    refine ⟨?_, h.linkable hi hmax⟩
    rw [List.getElem?_map, List.getElem?_range (hi.trans_le hle)]
    rfl
  obtain ⟨linked, hlink, hre, hin, hother⟩ :=
    linkLevels_eq (fun l => s.before l xs) (fun l => (s.reaching l ys).head?) hlinkable
  let s' : SkipList :=
    { linked with
      sizeBytes := linked.sizeBytes + UInt64.ofNat (key.length + value.length + 8) }
  have hheight : ∀ r ∈ s.head :: (xs ++ ys), s'.heightAt r = s.heightAt r := fun r hr =>
    (hre.heightAt_eq r).trans (heightAt_allocate (hlt r hr))
  have hentry : ∀ r ∈ xs ++ ys, s'.entryAt r = s.entryAt r := fun r hr =>
    (hre.entryAt_eq r).trans (entryAt_allocate (hlt r (List.mem_cons_of_mem _ hr)))
  have hnew : s'.entryAt s.nodes.length = ⟨key, value, trancId⟩ :=
    (hre.entryAt_eq _).trans entryAt_allocated
  refine ⟨s', ?_, ?_, hnew, hentry, ?_⟩
  · rw [insertNode, Except.bind_eq_of_ok _ hlink]
    rfl
  · refine h.chained_insert s' hpos hle ?_ hre.head_eq hre.maxLevel_eq hre.currentLevel_eq
      ((hre.heightAt_eq _).trans heightAt_allocated) (congrArg Entry.key hnew) hheight hentry
      ?_ ?_
    · intro hmem
      exact (hlt _ hmem).false
    · intro level hlevel
      have hin' := hin level (Nat.zero_le level) (by omega)
      have hlinked := h.linked_in hlevel hmax hin'
      apply hlinked
    · intro level hlevel r hr
      obtain ⟨hf, hb⟩ := hother level (.inr (by omega))
      exact ⟨(congrFun hf r).trans (forwardAt_allocate (hlt r hr) level),
        (congrFun hb r).trans (backwardAt_allocate (hlt r hr) level)⟩
  · change linked.sizeBytes + _ = _
    rw [hre.sizeBytes_eq]
    rfl

end

end SkipList

end TinyLsm
