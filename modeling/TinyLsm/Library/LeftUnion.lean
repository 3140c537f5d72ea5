import TinyLsm.Library.Firsts
import TinyLsm.Library.Merge

/-!
# The left-biased union of ascending lists

The union of two lists with ascending keys has the elements of the left list, and those of the
right list whose keys are not in the left one.  It is found by comparing the heads, and dropping the
right one if its key is that of the left one.
-/

namespace Keyed

variable {α κ : Type} [LinearOrder κ] {key : α → κ}

/-- The elements of the left list, and those of the right one with other keys, by their keys. -/
def leftUnion (key : α → κ) (xs ys : List α) : List α :=
  xs.merge (ys.filter (fun b => decide (∀ a ∈ xs, key a ≠ key b)))
    (fun a b => decide (key a < key b))

theorem mem_leftUnion {xs ys : List α} {a : α} :
  a ∈ leftUnion key xs ys ↔ a ∈ xs ∨ a ∈ ys ∧ ∀ b ∈ xs, key b ≠ key a
  := by
  rw [leftUnion, List.mem_merge, List.mem_filter, decide_eq_true_iff]

theorem length_leftUnion_le (xs ys : List α) :
  (leftUnion key xs ys).length ≤ xs.length + ys.length
  := by
  rw [leftUnion, List.length_merge]
  apply Nat.add_le_add_left
  apply List.length_filter_le

theorem leftUnion_eq_nil {xs ys : List α} (h : leftUnion key xs ys = []) :
  xs = [] ∧ ys = []
  := by
  have hnone : ∀ a, ¬ (a ∈ xs ∨ a ∈ ys ∧ ∀ b ∈ xs, key b ≠ key a) := by
    intro a ha
    have hmem := mem_leftUnion.mpr ha
    rw [h] at hmem
    cases hmem
  have hxs : xs = [] := List.eq_nil_iff_forall_not_mem.mpr (fun a ha => hnone a (.inl ha))
  subst hxs
  exact ⟨rfl, List.eq_nil_iff_forall_not_mem.mpr (fun a ha => hnone a (.inr ⟨ha, nofun⟩))⟩

theorem Ascending.leftUnion {xs ys : List α} (hxs : Ascending key xs) (hys : Ascending key ys) :
  Ascending key (leftUnion key xs ys)
  := by
  apply List.pairwise_merge_of_choice _ _ _ hxs (hys.sublist List.filter_sublist)
  · intro a b c
    apply lt_trans
  · intro a _ b _ hchoose
    exact of_decide_eq_true hchoose
  · intro a ha b hb hchoose
    have hne := of_decide_eq_true (List.mem_filter.mp hb).2 a ha
    exact lt_of_le_of_ne (le_of_not_gt (of_decide_eq_false hchoose)) hne.symm

theorem leftUnion_nil_left (ys : List α) : leftUnion key [] ys = ys
  := by
  rw [leftUnion, List.nil_merge, List.filter_eq_self]
  intro b _
  apply decide_eq_true
  intro a ha
  cases ha

theorem leftUnion_nil_right (xs : List α) : leftUnion key xs [] = xs
  := List.merge_right xs

/-- A smaller left head comes first. -/
theorem leftUnion_cons_of_lt {a b : α} {xs ys : List α} (hlt : key a < key b)
    (hys : Ascending key (b :: ys)) :
  leftUnion key (a :: xs) (b :: ys) = a :: leftUnion key xs (b :: ys)
  := by
  have hall : ∀ c ∈ b :: ys, key a < key c := by
    intro c hc
    rcases List.mem_cons.mp hc with rfl | hc
    · exact hlt
    · exact hlt.trans ((List.pairwise_cons.mp hys).1 c hc)
  have hfilter : (b :: ys).filter (fun c => decide (∀ a' ∈ a :: xs, key a' ≠ key c)) =
      (b :: ys).filter (fun c => decide (∀ a' ∈ xs, key a' ≠ key c)) := by
    apply List.filter_congr
    intro c hc
    rw [decide_eq_decide, List.forall_mem_cons]
    exact and_iff_right (hall c hc).ne
  rw [leftUnion, hfilter, leftUnion]
  cases hleft : (b :: ys).filter (fun c => decide (∀ a' ∈ xs, key a' ≠ key c)) with
  | nil => rw [List.merge_right, List.merge_right]
  | cons c cs =>
      have hc : c ∈ (b :: ys).filter (fun c => decide (∀ a' ∈ xs, key a' ≠ key c)) := by
        rw [hleft]
        apply List.mem_cons_self
      apply List.cons_merge_cons_pos
      exact decide_eq_true (hall c (List.mem_filter.mp hc).1)

/-- A smaller right head comes first. -/
theorem leftUnion_cons_of_gt {a b : α} {xs ys : List α} (hlt : key b < key a)
    (hxs : Ascending key (a :: xs)) :
  leftUnion key (a :: xs) (b :: ys) = b :: leftUnion key (a :: xs) ys
  := by
  have hall : ∀ a' ∈ a :: xs, key a' ≠ key b := by
    intro a' ha'
    rcases List.mem_cons.mp ha' with rfl | ha'
    · exact hlt.ne'
    · exact (hlt.trans ((List.pairwise_cons.mp hxs).1 a' ha')).ne'
  have hkeep : (b :: ys).filter (fun c => decide (∀ a' ∈ a :: xs, key a' ≠ key c)) =
      b :: ys.filter (fun c => decide (∀ a' ∈ a :: xs, key a' ≠ key c)) :=
    List.filter_cons_of_pos (decide_eq_true hall)
  rw [leftUnion, hkeep, leftUnion]
  apply List.cons_merge_cons_neg
  exact fun h => absurd (of_decide_eq_true h) hlt.not_gt

/-- A right head with the key of the left one is dropped. -/
theorem leftUnion_cons_of_eq {a b : α} {xs ys : List α} (heq : key a = key b) :
  leftUnion key (a :: xs) (b :: ys) = leftUnion key (a :: xs) ys
  := by
  have hnot : ¬ ∀ a' ∈ a :: xs, key a' ≠ key b := fun h => h a List.mem_cons_self heq
  have hdrop : (b :: ys).filter (fun c => decide (∀ a' ∈ a :: xs, key a' ≠ key c)) =
      ys.filter (fun c => decide (∀ a' ∈ a :: xs, key a' ≠ key c)) :=
    List.filter_cons_of_neg (fun h => hnot (of_decide_eq_true h))
  rw [leftUnion, hdrop, leftUnion]

end Keyed
