import Mathlib.Data.List.Induction
import TinyLsm.Library.Lookup

/-!
# Grouping

The elements of a list are grouped under their keys in an ordered map.  Under a key are the
elements that have it, in the order of the list; no group is empty.  The groups one after the
other list the elements in the order of their keys, and those of one key in the order of the
list.
-/

namespace OrderedMap

variable {α β : Type} [LinearOrder α]

/-- Add an element to the group of its key. -/
def addToGroup (f : β → α) (m : OrderedMap α (List β)) (b : β) : OrderedMap α (List β) :=
  m.assign (f b) ((m.lookup (f b)).getD [] ++ [b])

def group (f : β → α) (bs : List β) : OrderedMap α (List β) := bs.foldl (addToGroup f) empty

/-- The elements one group after the other. -/
def members (m : OrderedMap α (List β)) : List β := m.pairs.flatMap Prod.snd

/-- Looking for the first pair of a key is looking the key up. -/
theorem map_find?_pairs (m : OrderedMap α β) (a : α) :
  (m.pairs.find? (fun p => decide (p.1 = a))).map Prod.snd = m.lookup a
  := by
  change _ = m.pairs.lookup a
  induction m.pairs with
  | nil => rfl
  | cons p ps ih =>
      obtain ⟨c, d⟩ := p
      rw [List.find?_cons, List.lookup_cons]
      by_cases heq : c = a
      · subst heq
        rw [decide_eq_true rfl, beq_self_eq_true]
        rfl
      · rw [decide_eq_false heq, beq_false_of_ne (Ne.symm heq)]
        apply ih

theorem lookup_group (f : β → α) (bs : List β) (a : α) :
  ((group f bs).lookup a).getD [] = bs.filter (fun b => decide (f b = a)) ∧
    (group f bs).lookup a ≠ some []
  := by
  induction bs using List.reverseRecOn with
  | nil => exact ⟨rfl, nofun⟩
  | append_singleton bs b ih =>
      have hgroup : (group f (bs ++ [b])).lookup a =
          if a = f b then some (((group f bs).lookup (f b)).getD [] ++ [b])
          else (group f bs).lookup a := by
        rw [group, List.foldl_append, ← group]
        apply lookup_assign
      rw [hgroup, List.filter_append]
      by_cases heq : a = f b
      · subst heq
        rw [if_pos rfl, ← ih.1, List.filter_singleton, decide_eq_true rfl]
        refine ⟨rfl, fun h => ?_⟩
        exact List.append_ne_nil_of_right_ne_nil _ (List.cons_ne_nil b []) (Option.some.inj h)
      · rw [if_neg heq, ih.1, List.filter_singleton, decide_eq_false (Ne.symm heq)]
        exact ⟨(List.append_nil _).symm, ih.2⟩

/-- A group has the elements of its key, and at least one. -/
theorem mem_pairs_group {f : β → α} {bs : List β} {a : α} {bs' : List β} :
  (a, bs') ∈ (group f bs).pairs ↔
    bs' = bs.filter (fun b => decide (f b = a)) ∧ bs' ≠ []
  := by
  obtain ⟨helems, hne⟩ := lookup_group f bs a
  rw [← lookup_eq_some_iff, ← helems]
  cases hlookup : (group f bs).lookup a with
  | none =>
      refine ⟨nofun, ?_⟩
      rintro ⟨rfl, h⟩
      exact absurd rfl h
  | some bs'' =>
      rw [hlookup] at hne
      constructor
      · intro heq
        obtain rfl := Option.some.inj heq
        exact ⟨rfl, fun hnil => hne (congrArg some hnil)⟩
      · rintro ⟨rfl, -⟩
        rfl

theorem key_of_mem_group {f : β → α} {bs : List β} {p : α × List β}
    (hp : p ∈ (group f bs).pairs) {b : β} (hb : b ∈ p.2) :
  f b = p.1
  := by
  rw [(mem_pairs_group.mp hp).1] at hb
  exact of_decide_eq_true (List.mem_filter.mp hb).2

/-- The elements of a key among those of all groups. -/
theorem filter_members_group (f : β → α) (bs : List β) (a : α) :
  (group f bs).members.filter (fun b => decide (f b = a)) =
    bs.filter (fun b => decide (f b = a))
  := by
  rw [← (lookup_group f bs a).1]
  have hkeys : ∀ p ∈ (group f bs).pairs, ∀ b ∈ p.2, f b = p.1 :=
    fun p hp b hb => key_of_mem_group hp hb
  have hascending := (group f bs).ascending
  change ((group f bs).pairs.flatMap Prod.snd).filter _ = ((group f bs).pairs.lookup a).getD []
  revert hkeys hascending
  induction (group f bs).pairs with
  | nil => exact fun _ _ => rfl
  | cons p ps ih =>
      intro hkeys hascending
      obtain ⟨c, cs⟩ := p
      obtain ⟨hp, hps⟩ := List.pairwise_cons.mp hascending
      obtain ⟨hc, hrest⟩ := List.forall_mem_cons.mp hkeys
      rw [List.flatMap_cons, List.filter_append, List.lookup_cons]
      by_cases heq : a = c
      · subst heq
        have hnone : (ps.flatMap Prod.snd).filter (fun b => decide (f b = a)) = [] := by
          apply List.filter_eq_nil_iff.mpr
          intro b hb
          obtain ⟨q, hq, hb⟩ := List.mem_flatMap.mp hb
          rw [decide_eq_true_iff, hrest q hq b hb]
          exact (hp q hq).ne'
        have hall : cs.filter (fun b => decide (f b = a)) = cs :=
          List.filter_eq_self.mpr (fun b hb => decide_eq_true (hc b hb))
        rw [hnone, hall, List.append_nil, beq_self_eq_true]
        rfl
      · have hnone : cs.filter (fun b => decide (f b = a)) = [] := by
          apply List.filter_eq_nil_iff.mpr
          intro b hb
          rw [decide_eq_true_iff, hc b hb]
          apply Ne.symm heq
        rw [hnone, List.nil_append, beq_false_of_ne heq]
        apply ih hrest hps

/-- The groups come in the order of their keys. -/
theorem pairwise_members_group (f : β → α) (bs : List β) :
  (group f bs).members.Pairwise (fun b b' => f b ≤ f b')
  := by
  rw [members, List.pairwise_flatMap]
  constructor
  · intro p hp
    apply List.pairwise_of_forall_mem_list
    intro b hb b' hb'
    rw [key_of_mem_group hp hb, key_of_mem_group hp hb']
  · apply (group f bs).ascending.imp_of_mem
    intro p q hp hq hlt b hb b' hb'
    rw [key_of_mem_group hp hb, key_of_mem_group hq hb']
    apply hlt.le

end OrderedMap
