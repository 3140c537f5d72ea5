import Mathlib.Data.List.Basic

/-!
# Merging sorted lists

`List.merge` chooses between the heads of two lists by a boolean test.  The test need not be
an order: if it decides between elements of the lists in agreement with a transitive relation, then
merging two lists sorted for the relation gives a list sorted for it.
-/

namespace List

variable {α : Type*}

/-- The merge of two lists sorted for the transitive relation `r` is sorted for `r`, when, for
elements of the lists, `r a b` holds if the test chooses `a` over `b` and `r b a` holds if it does
not. -/
theorem pairwise_merge_of_choice
    {r : α → α → Prop} (trans : ∀ a b c, r a b → r b c → r a c) {choose : α → α → Bool} :
  ∀ {xs ys : List α}, (∀ a ∈ xs, ∀ b ∈ ys, choose a b = true → r a b) →
    (∀ a ∈ xs, ∀ b ∈ ys, choose a b = false → r b a) → xs.Pairwise r → ys.Pairwise r →
    (xs.merge ys choose).Pairwise r
  | [], _, _, _, _, hys => by
      rw [nil_merge]
      apply hys
  | x :: xs, [], _, _, hxs, _ => by
      rw [merge_right]
      apply hxs
  | x :: xs, y :: ys, hleft, hright, hxs, hys => by
      obtain ⟨hx, hxs'⟩ := pairwise_cons.mp hxs
      obtain ⟨hy, hys'⟩ := pairwise_cons.mp hys
      cases hc : choose x y with
      | true =>
          have hxy := hleft x mem_cons_self y mem_cons_self hc
          rw [cons_merge_cons_pos _ _ _ hc]
          apply Pairwise.cons _ (pairwise_merge_of_choice trans
            (fun a ha => hleft a (mem_cons_of_mem x ha))
            (fun a ha => hright a (mem_cons_of_mem x ha)) hxs' hys)
          intro z hz
          rcases mem_merge.mp hz with hz | hz
          · apply hx z hz
          · rcases mem_cons.mp hz with rfl | hz
            · apply hxy
            · apply trans _ _ _ hxy (hy z hz)
      | false =>
          have hyx := hright x mem_cons_self y mem_cons_self hc
          have hc' : ¬ choose x y = true := by simp [hc]
          rw [cons_merge_cons_neg _ _ _ hc']
          apply Pairwise.cons _ (pairwise_merge_of_choice trans
            (fun a ha b hb => hleft a ha b (mem_cons_of_mem y hb))
            (fun a ha b hb => hright a ha b (mem_cons_of_mem y hb)) hxs hys')
          intro z hz
          rcases mem_merge.mp hz with hz | hz
          · rcases mem_cons.mp hz with rfl | hz
            · apply hyx
            · apply trans _ _ _ hyx (hx z hz)
          · apply hy z hz

end List
