import Mathlib.Data.Prod.Lex
import TinyLsm.Iterator.SnapshotView

/-!
# The order of search items

The two comparisons of search items answer as soon as the id or the level of the first item is on
the right side of that of the second one, and do not answer when it is on the wrong side.  So they
do not compare lexicographically: of two items each may be greater than the other.  The levels are
moreover compared the same way in both.

The comparisons do order items by their keys, then by their ids, the greatest one first, and then by
their indices, if those of one key are of one level, and none with a greater id has a greater index:
`orderedOn_iff`.
-/

namespace TinyLsm

namespace SearchItem

/-- `operator<` on search items. -/
def lt (a b : SearchItem) : Bool :=
  if a.key ≠ b.key then
    a.key < b.key
  else if b.trancId < a.trancId then
    true
  else if a.level < b.level then
    true
  else
    a.idx < b.idx

/-- The priority queue may order items by `operator>`: it is a strict weak order on them, of which
`operator<` is the converse.  It compares the keys first, and of those of a key puts the one with
the greater id first. -/
structure OrderedOn (items : Set SearchItem) : Prop where
  strictWeak : IsStrictWeakOrder items (fun a b => (a : SearchItem).gt b = true)
  asymm : ∀ a ∈ items, ∀ b ∈ items, a.gt b = true → b.gt a = false
  converse : ∀ a ∈ items, ∀ b ∈ items, a.gt b = true ↔ b.lt a = true
  key_first : ∀ a ∈ items, ∀ b ∈ items, a.key ≠ b.key → (a.gt b = true ↔ b.key < a.key)
  newer_first : ∀ a ∈ items, ∀ b ∈ items, a.key = b.key → b.trancId < a.trancId →
    b.gt a = true ∧ a.gt b = false

/-- Items of one key are of one level, and none of them with a greater id has a greater index. -/
def Agree (items : Set SearchItem) : Prop :=
  ∀ a ∈ items, ∀ b ∈ items, a.key = b.key →
    a.level = b.level ∧ (b.trancId < a.trancId → a.idx ≤ b.idx)

/-! ### The lexicographic order -/

/-- What items are ordered by. -/
def rank (a : SearchItem) : Bytes ×ₗ ℕᵒᵈ ×ₗ ℤ :=
  toLex (a.key, toLex (OrderDual.toDual a.trancId, a.idx))

theorem rank_lt_rank_iff {a b : SearchItem} :
  a.rank < b.rank ↔
    a.key < b.key ∨ a.key = b.key ∧
      (b.trancId < a.trancId ∨ a.trancId = b.trancId ∧ a.idx < b.idx)
  := by
  rw [rank, rank, Prod.Lex.toLex_lt_toLex, Prod.Lex.toLex_lt_toLex, OrderDual.toDual_lt_toDual,
    OrderDual.toDual_inj]

/-- Two answers that are given early, and a last one. -/
theorem answered_iff {p q r : Prop} [Decidable p] [Decidable q] [Decidable r] :
  (if p then true else if q then true else decide r) = true ↔ p ∨ q ∨ r
  := by
  split
  next hp => exact ⟨fun _ => .inl hp, fun _ => rfl⟩
  next hp =>
    split
    next hq => exact ⟨fun _ => .inr (.inl hq), fun _ => rfl⟩
    next hq => rw [decide_eq_true_iff, or_iff_right hp, or_iff_right hq]

theorem gt_of_key_ne {a b : SearchItem} (h : a.key ≠ b.key) : a.gt b = true ↔ b.key < a.key
  := by
  rw [gt, if_pos h, decide_eq_true_iff]

theorem gt_of_key_eq {a b : SearchItem} (h : a.key = b.key) :
  a.gt b = true ↔ a.trancId < b.trancId ∨ a.level < b.level ∨ b.idx < a.idx
  := by
  rw [gt, if_neg (not_not.mpr h), answered_iff]

theorem lt_of_key_ne {a b : SearchItem} (h : a.key ≠ b.key) : a.lt b = true ↔ a.key < b.key
  := by
  rw [lt, if_pos h, decide_eq_true_iff]

theorem lt_of_key_eq {a b : SearchItem} (h : a.key = b.key) :
  a.lt b = true ↔ b.trancId < a.trancId ∨ a.level < b.level ∨ a.idx < b.idx
  := by
  rw [lt, if_neg (not_not.mpr h), answered_iff]

namespace Agree

variable {items : Set SearchItem} (h : Agree items) {a b : SearchItem}

include h

/-- The comparison is by the rank. -/
theorem gt_iff_rank (ha : a ∈ items) (hb : b ∈ items) : a.gt b = true ↔ b.rank < a.rank
  := by
  rw [rank_lt_rank_iff]
  by_cases hkey : a.key = b.key
  · obtain ⟨hlevel, hidx⟩ := h a ha b hb hkey
    obtain ⟨-, hidx'⟩ := h b hb a ha hkey.symm
    rw [gt_of_key_eq hkey, hkey, or_iff_right (lt_irrefl b.key), and_iff_right rfl]
    unfold TrancId at *
    omega
  · rw [gt_of_key_ne hkey]
    exact ⟨.inl, fun hlt => hlt.resolve_right (fun heq => hkey heq.1.symm)⟩

/-- On items of one level the two comparisons are converse. -/
theorem gt_iff_lt (ha : a ∈ items) (hb : b ∈ items) : a.gt b = true ↔ b.lt a = true
  := by
  by_cases hkey : a.key = b.key
  · rw [gt_of_key_eq hkey, lt_of_key_eq hkey.symm, (h a ha b hb hkey).1]
  · rw [gt_of_key_ne hkey, lt_of_key_ne (Ne.symm hkey)]

theorem orderedOn : OrderedOn items
  where
  strictWeak := by
    have hrank : (fun a b : items => (a : SearchItem).gt b = true) =
        Function.onFun (· > ·) (fun a : items => (a : SearchItem).rank) := by
      funext a b
      exact propext (h.gt_iff_rank a.2 b.2)
    have : IsStrictWeakOrder (Bytes ×ₗ ℕᵒᵈ ×ₗ ℤ) (· > ·) := isStrictWeakOrder_of_isOrderConnected
    rw [hrank]
    infer_instance
  asymm a ha b hb hgt := by
    have hlt := (h.gt_iff_rank ha hb).mp hgt
    exact Bool.eq_false_iff.mpr (fun hgt' => hlt.asymm ((h.gt_iff_rank hb ha).mp hgt'))
  converse _ ha _ hb := h.gt_iff_lt ha hb
  key_first _ _ _ _ := gt_of_key_ne
  newer_first a ha b hb hkey hid := by
    have hrank : a.rank < b.rank := rank_lt_rank_iff.mpr (.inr ⟨hkey, .inl hid⟩)
    refine ⟨(h.gt_iff_rank hb ha).mpr hrank, ?_⟩
    exact Bool.eq_false_iff.mpr (fun hgt => hrank.asymm ((h.gt_iff_rank ha hb).mp hgt))

end Agree

/-- Items that are ordered agree: what the comparisons answer too early would otherwise be seen. -/
theorem OrderedOn.agree {items : Set SearchItem} (h : OrderedOn items) : Agree items
  := by
  intro a ha b hb hkey
  have hgt := h.asymm a ha b hb
  have hconverse := h.converse a ha b hb
  have hconverse' := h.converse b hb a ha
  rw [gt_of_key_eq hkey, Bool.eq_false_iff, Ne, gt_of_key_eq hkey.symm] at hgt
  rw [gt_of_key_eq hkey, lt_of_key_eq hkey.symm] at hconverse
  rw [gt_of_key_eq hkey.symm, lt_of_key_eq hkey] at hconverse'
  unfold TrancId at *
  omega

/-- The comparisons order items exactly if they agree. -/
theorem orderedOn_iff (items : Set SearchItem) : OrderedOn items ↔ Agree items
  := ⟨OrderedOn.agree, Agree.orderedOn⟩

/-- Two versions of a key, the newer one in the older of two tables: each is greater than the
other. -/
theorem not_orderedOn : ¬ OrderedOn {⟨[1], [7], -1, 0, 5⟩, ⟨[1], [8], -2, 0, 3⟩}
  := by
  intro h
  have hgt := h.asymm ⟨[1], [7], -1, 0, 5⟩ (.inl rfl) ⟨[1], [8], -2, 0, 3⟩ (.inr rfl) (by decide)
  exact absurd hgt (by decide)

end SearchItem

/-- Items of one level are ordered, if the newer tables have the newer versions of their keys. -/
theorem OneLevel.orderedOn {items : List SearchItem} (h : OneLevel items) :
  SearchItem.OrderedOn {a | a ∈ items}
  := SearchItem.Agree.orderedOn (fun a ha b hb hkey => ⟨h.level a ha b hb, h.idx a ha b hb hkey⟩)

end TinyLsm
