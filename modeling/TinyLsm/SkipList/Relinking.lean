import TinyLsm.SkipList.SkipList
import TinyLsm.Library.Cursor

/-!
# Links of a skip list

Setting a link of a node leaves the heights and the entries of the nodes as they are, and
all links but the one that is set.  Linking a node in on some levels sets the links around
it on these levels.
-/

namespace TinyLsm

namespace SkipList

/-! ### Heights and entries -/

/-- The number of levels of a node, `0` when there is no such node. -/
def heightAt (s : SkipList) (r : Ref) : ℕ :=
  match s.nodes[r]? with
  | some n => n.height
  | none => 0

/-- The entry of a node, empty when there is no such node. -/
def entryAt (s : SkipList) (r : Ref) : Entry :=
  match s.nodes[r]? with
  | some n => n.entry
  | none => ⟨[], [], 0⟩

/-- A node with levels exists, and holds its entry. -/
theorem exists_node_of_height {s : SkipList} {r : Ref} {level : ℕ} (h : level < s.heightAt r) :
  ∃ n, s.nodes[r]? = some n ∧ s.node r = .ok n ∧ n.height = s.heightAt r ∧
    n.entry = s.entryAt r
  := by
  rw [heightAt] at h
  cases hn : s.nodes[r]? with
  | none =>
      rw [hn] at h
      cases h
  | some n => exact ⟨n, rfl, by rw [node, hn], by rw [heightAt, hn], by rw [entryAt, hn]⟩

theorem lt_length_of_height {s : SkipList} {r : Ref} {level : ℕ} (h : level < s.heightAt r) :
  r < s.nodes.length
  := by
  obtain ⟨n, hn, -⟩ := exists_node_of_height h
  exact (List.getElem?_eq_some_iff.mp hn).1

/-- `s'` differs from `s` in links only. -/
structure Relinked (s s' : SkipList) : Prop where
  head_eq : s'.head = s.head
  maxLevel_eq : s'.maxLevel = s.maxLevel
  currentLevel_eq : s'.currentLevel = s.currentLevel
  sizeBytes_eq : s'.sizeBytes = s.sizeBytes
  length_eq : s'.nodes.length = s.nodes.length
  heightAt_eq : ∀ r, s'.heightAt r = s.heightAt r
  entryAt_eq : ∀ r, s'.entryAt r = s.entryAt r

theorem Relinked.refl (s : SkipList) : Relinked s s
  := ⟨rfl, rfl, rfl, rfl, rfl, fun _ => rfl, fun _ => rfl⟩

theorem Relinked.trans {s s' s'' : SkipList} (h : Relinked s s') (h' : Relinked s' s'') :
  Relinked s s''
  where
  head_eq := h'.head_eq.trans h.head_eq
  maxLevel_eq := h'.maxLevel_eq.trans h.maxLevel_eq
  currentLevel_eq := h'.currentLevel_eq.trans h.currentLevel_eq
  sizeBytes_eq := h'.sizeBytes_eq.trans h.sizeBytes_eq
  length_eq := h'.length_eq.trans h.length_eq
  heightAt_eq r := (h'.heightAt_eq r).trans (h.heightAt_eq r)
  entryAt_eq r := (h'.entryAt_eq r).trans (h.entryAt_eq r)

/-- Replacing a node by one with the same height and entry changes links only. -/
theorem relinked_set {s : SkipList} {r : Ref} {n n' : SkipListNode} (hn : s.nodes[r]? = some n)
    (hheight : n'.height = n.height) (hentry : n'.entry = n.entry) :
  Relinked s { s with nodes := s.nodes.set r n' }
  := by
  have hlt : r < s.nodes.length := (List.getElem?_eq_some_iff.mp hn).1
  refine ⟨rfl, rfl, rfl, rfl, List.length_set, ?_, ?_⟩
  · intro q
    by_cases hq : r = q
    · subst hq
      simp only [heightAt, List.getElem?_set_self hlt, hn, hheight]
    · simp only [heightAt, List.getElem?_set_ne hq]
  · intro q
    by_cases hq : r = q
    · subst hq
      simp only [entryAt, List.getElem?_set_self hlt, hn, hentry]
    · simp only [entryAt, List.getElem?_set_ne hq]

/-! ### Setting links -/

theorem setForward_eq {s : SkipList} {level : ℕ} {r : Ref} (h : level < s.heightAt r)
    (link : Option Ref) :
  ∃ s', s.setForward level r link = .ok s' ∧ Relinked s s' ∧
    s'.forwardAt level r = .ok link ∧
    (∀ l q, l ≠ level ∨ q ≠ r → s'.forwardAt l q = s.forwardAt l q) ∧
    s'.backwardAt = s.backwardAt
  := by
  obtain ⟨n, hn, -, hheight, -⟩ := exists_node_of_height h
  rw [← hheight] at h
  have hlt : r < s.nodes.length := (List.getElem?_eq_some_iff.mp hn).1
  rw [setForward, hn]
  dsimp only
  rw [dif_pos h]
  refine ⟨_, rfl, relinked_set hn rfl rfl, ?_, ?_, ?_⟩
  · simp only [forwardAt, List.getElem?_set_self hlt, dif_pos h, Vector.getElem_set_self]
  · intro l q hne
    by_cases hq : r = q
    · subst hq
      have hl : level ≠ l := by
        rcases hne with hne | hne
        · apply hne.symm
        · exact absurd rfl hne
      simp only [forwardAt, List.getElem?_set_self hlt, hn, Vector.getElem_set_ne _ _ hl]
    · simp only [forwardAt, List.getElem?_set_ne hq]
  · funext l q
    by_cases hq : r = q
    · subst hq
      simp only [backwardAt, List.getElem?_set_self hlt, hn]
    · simp only [backwardAt, List.getElem?_set_ne hq]

theorem setBackward_eq {s : SkipList} {level : ℕ} {r : Ref} (h : level < s.heightAt r)
    (link : Ref) :
  ∃ s', s.setBackward level r link = .ok s' ∧ Relinked s s' ∧
    s'.backwardAt level r = .ok (some link) ∧
    (∀ l q, l ≠ level ∨ q ≠ r → s'.backwardAt l q = s.backwardAt l q) ∧
    s'.forwardAt = s.forwardAt
  := by
  obtain ⟨n, hn, -, hheight, -⟩ := exists_node_of_height h
  rw [← hheight] at h
  have hlt : r < s.nodes.length := (List.getElem?_eq_some_iff.mp hn).1
  rw [setBackward, hn]
  dsimp only
  rw [dif_pos h]
  refine ⟨_, rfl, relinked_set hn rfl rfl, ?_, ?_, ?_⟩
  · simp only [backwardAt, List.getElem?_set_self hlt, dif_pos h, Vector.getElem_set_self]
  · intro l q hne
    by_cases hq : r = q
    · subst hq
      have hl : level ≠ l := by
        rcases hne with hne | hne
        · apply hne.symm
        · exact absurd rfl hne
      simp only [backwardAt, List.getElem?_set_self hlt, hn, Vector.getElem_set_ne _ _ hl]
    · simp only [backwardAt, List.getElem?_set_ne hq]
  · funext l q
    by_cases hq : r = q
    · subst hq
      simp only [forwardAt, List.getElem?_set_self hlt, hn]
    · simp only [forwardAt, List.getElem?_set_ne hq]

/-! ### Linking a node in -/

/-- `s'` has the node `new` linked in after `prev` on a level, and the other links of the
level as in `s`. -/
structure LinkedIn (s s' : SkipList) (level : ℕ) (prev new : Ref) (next : Option Ref) : Prop
    where
  next_eq : s.forwardAt level prev = .ok next
  forward_prev : s'.forwardAt level prev = .ok (some new)
  forward_new : s'.forwardAt level new = .ok next
  forward_same : ∀ q, q ≠ prev → q ≠ new → s'.forwardAt level q = s.forwardAt level q
  backward_new : s'.backwardAt level new = .ok (some prev)
  backward_next : ∀ q ∈ next, s'.backwardAt level q = .ok (some new)
  backward_same : ∀ q, q ≠ new → q ∉ next → s'.backwardAt level q = s.backwardAt level q

/-- A node can be linked in after another when both reach the level, and so does the node
that follows. -/
structure Linkable (s : SkipList) (level : ℕ) (prev new : Ref) (next : Option Ref) : Prop where
  next_eq : s.forwardAt level prev = .ok next
  prev_ne : prev ≠ new
  next_ne : new ∉ next
  height_prev : level < s.heightAt prev
  height_new : level < s.heightAt new
  height_next : ∀ q ∈ next, level < s.heightAt q

theorem linkAt_eq {s : SkipList} {level : ℕ} {prev new : Ref} {next : Option Ref}
    (h : Linkable s level prev new next) :
  ∃ s', s.linkAt new level prev = .ok s' ∧ Relinked s s' ∧ LinkedIn s s' level prev new next ∧
    ∀ l, l ≠ level → s'.forwardAt l = s.forwardAt l ∧ s'.backwardAt l = s.backwardAt l
  := by
  obtain ⟨s₁, hset₁, hre₁, hnew₁, hsame₁, hback₁⟩ := setForward_eq h.height_new next
  have hprev : level < s₁.heightAt prev := by
    rw [hre₁.heightAt_eq]
    apply h.height_prev
  obtain ⟨s₂, hset₂, hre₂, hprev₂, hsame₂, hback₂⟩ := setForward_eq hprev (some new)
  have hnew : level < s₂.heightAt new := by
    rw [hre₂.heightAt_eq, hre₁.heightAt_eq]
    apply h.height_new
  obtain ⟨s₃, hset₃, hre₃, hnew₃, hsame₃, hfor₃⟩ := setBackward_eq hnew prev
  have hforward_new : s₃.forwardAt level new = .ok next := by
    rw [hfor₃, hsame₂ level new (.inr h.prev_ne.symm), hnew₁]
  have hforward_prev : s₃.forwardAt level prev = .ok (some new) := by
    rw [hfor₃, hprev₂]
  have hforward : ∀ l q, l ≠ level ∨ (q ≠ prev ∧ q ≠ new) →
      s₃.forwardAt l q = s.forwardAt l q := by
    intro l q hne
    rw [hfor₃, hsame₂ l q (hne.imp id And.left), hsame₁ l q (hne.imp id And.right)]
  have hbackward : ∀ l q, l ≠ level ∨ q ≠ new → s₃.backwardAt l q = s.backwardAt l q := by
    intro l q hne
    rw [hsame₃ l q hne, hback₂, hback₁]
  have hre : Relinked s s₃ := (hre₁.trans hre₂).trans hre₃
  rw [linkAt, Except.bind_eq_of_ok _ h.next_eq, Except.bind_eq_of_ok _ hset₁,
    Except.bind_eq_of_ok _ hset₂, Except.bind_eq_of_ok _ hset₃]
  cases next with
  | none =>
      refine ⟨s₃, rfl, hre, ?_, ?_⟩
      · exact
          { next_eq := h.next_eq
            forward_prev := hforward_prev
            forward_new := hforward_new
            forward_same := fun q hp hn => hforward level q (.inr ⟨hp, hn⟩)
            backward_new := hnew₃
            backward_next := by rintro q ⟨⟩
            backward_same := fun q hn _ => hbackward level q (.inr hn) }
      · intro l hl
        exact ⟨funext (fun q => hforward l q (.inl hl)), funext (fun q => hbackward l q (.inl hl))⟩
  | some r =>
      have hr : level < s₃.heightAt r := by
        rw [hre.heightAt_eq]
        apply h.height_next r rfl
      have hne : new ≠ r := fun heq => h.next_ne (congrArg some heq.symm)
      obtain ⟨s₄, hset₄, hre₄, hnext₄, hsame₄, hfor₄⟩ := setBackward_eq hr new
      refine ⟨s₄, hset₄, hre.trans hre₄, ?_, ?_⟩
      · exact
          { next_eq := h.next_eq
            forward_prev := by rw [hfor₄, hforward_prev]
            forward_new := by rw [hfor₄, hforward_new]
            forward_same := fun q hp hn => by rw [hfor₄, hforward level q (.inr ⟨hp, hn⟩)]
            backward_new := by rw [hsame₄ level new (.inr hne), hnew₃]
            backward_next := by
              intro q hq
              obtain rfl := Option.some.inj hq
              apply hnext₄
            backward_same := by
              intro q hn hq
              have hqr : q ≠ r := fun heq => hq (congrArg some heq.symm)
              rw [hsame₄ level q (.inr hqr), hbackward level q (.inr hn)] }
      · intro l hl
        constructor
        · rw [hfor₄]
          apply funext (fun q => hforward l q (.inl hl))
        · funext q
          rw [hsame₄ l q (.inl hl), hbackward l q (.inl hl)]

/-- Whether a node is linked in on a level depends on the links of that level only. -/
theorem LinkedIn.congr {s s' t t' : SkipList} {level : ℕ} {prev new : Ref} {next : Option Ref}
    (h : LinkedIn s s' level prev new next)
    (hs : s.forwardAt level = t.forwardAt level ∧ s.backwardAt level = t.backwardAt level)
    (hs' : t'.forwardAt level = s'.forwardAt level ∧
      t'.backwardAt level = s'.backwardAt level) :
  LinkedIn t t' level prev new next
  := by
  obtain ⟨hf, hb⟩ := hs
  obtain ⟨hf', hb'⟩ := hs'
  exact
    { next_eq := by rw [← hf]; exact h.next_eq
      forward_prev := by rw [hf']; exact h.forward_prev
      forward_new := by rw [hf']; exact h.forward_new
      forward_same := by rw [← hf, hf']; exact h.forward_same
      backward_new := by rw [hb']; exact h.backward_new
      backward_next := by rw [hb']; exact h.backward_next
      backward_same := by rw [← hb, hb']; exact h.backward_same }

/-- Relinking other levels leaves what can be linked in on a level. -/
theorem Linkable.relinked {s s' : SkipList} {level : ℕ} {prev new : Ref} {next : Option Ref}
    (h : Linkable s level prev new next) (hre : Relinked s s')
    (hforward : s'.forwardAt level = s.forwardAt level) :
  Linkable s' level prev new next
  := by
  exact
    { next_eq := by rw [hforward, h.next_eq]
      prev_ne := h.prev_ne
      next_ne := h.next_ne
      height_prev := by rw [hre.heightAt_eq]; exact h.height_prev
      height_new := by rw [hre.heightAt_eq]; exact h.height_new
      height_next := fun q hq => by rw [hre.heightAt_eq]; exact h.height_next q hq }

/-- Linking a node in on consecutive levels links it in on each of them, and leaves the
other levels as they are. -/
theorem linkLevels_eq {new : Ref} (prevs : ℕ → Ref) (nexts : ℕ → Option Ref) :
  ∀ {count level : ℕ} {update : List Ref} {s : SkipList},
    (∀ i < count, update[i]? = some (prevs (level + i)) ∧
      Linkable s (level + i) (prevs (level + i)) new (nexts (level + i))) →
    ∃ s', linkLevels new count level update s = .ok s' ∧ Relinked s s' ∧
      (∀ l, level ≤ l → l < level + count → LinkedIn s s' l (prevs l) new (nexts l)) ∧
      ∀ l, l < level ∨ level + count ≤ l →
        s'.forwardAt l = s.forwardAt l ∧ s'.backwardAt l = s.backwardAt l
  | 0, level, _, s, _ =>
      ⟨s, rfl, Relinked.refl s, fun l hl hl' => absurd hl' (Nat.not_lt.mpr hl),
        fun _ _ => ⟨rfl, rfl⟩⟩
  | count + 1, level, [], _, h => by
      obtain ⟨hnil, -⟩ := h 0 (Nat.zero_lt_succ count)
      cases hnil
  | count + 1, level, prev :: update, s, h => by
      obtain ⟨hprev, hlinkable⟩ := h 0 (Nat.zero_lt_succ count)
      rw [Nat.add_zero] at hprev hlinkable
      obtain rfl : prev = prevs level := Option.some.inj hprev
      obtain ⟨s₁, hlink, hre, hin, hother⟩ := linkAt_eq hlinkable
      have hrest : ∀ i < count, update[i]? = some (prevs (level + 1 + i)) ∧
          Linkable s₁ (level + 1 + i) (prevs (level + 1 + i)) new (nexts (level + 1 + i)) := by
        intro i hi
        have hstep : level + (i + 1) = level + 1 + i := by omega
        obtain ⟨hget, hl⟩ := h (i + 1) (Nat.succ_lt_succ hi)
        rw [hstep] at hget hl
        have hne : level + 1 + i ≠ level := by omega
        exact ⟨hget, hl.relinked hre (hother _ hne).1⟩
      obtain ⟨s', hlinks, hre', hin', hother'⟩ := linkLevels_eq prevs nexts hrest
      refine ⟨s', ?_, hre.trans hre', ?_, ?_⟩
      · rw [linkLevels, Except.bind_eq_of_ok _ hlink]
        apply hlinks
      · intro l hl hl'
        by_cases hlevel : l = level
        · subst hlevel
          apply hin.congr ⟨rfl, rfl⟩ (hother' l (.inl (Nat.lt_succ_self l)))
        · apply (hin' l (by omega) (by omega)).congr (hother l hlevel) ⟨rfl, rfl⟩
      · intro l hl
        obtain ⟨hf, hb⟩ := hother l (by omega)
        obtain ⟨hf', hb'⟩ := hother' l (by omega)
        exact ⟨hf'.trans hf, hb'.trans hb⟩

end SkipList

end TinyLsm
