import Mathlib.Data.List.Sort
import TinyLsm.Library.OrderedSet

/-!
# Looking up in an ordered map

An ordered map is determined by what its keys are mapped to.
-/

namespace OrderedMap

variable {α β : Type} [LinearOrder α]

def lookup (m : OrderedMap α β) (a : α) : Option β := m.pairs.lookup a

@[simp]
theorem lookup_empty (a : α) : (empty : OrderedMap α β).lookup a = none
  := rfl

theorem lookup_eq_some_iff {m : OrderedMap α β} {a : α} {b : β} :
  m.lookup a = some b ↔ (a, b) ∈ m.pairs
  := by
  obtain ⟨ps, hps⟩ := m
  change ps.lookup a = some b ↔ (a, b) ∈ ps
  induction ps with
  | nil => exact ⟨nofun, nofun⟩
  | cons p ps ih =>
      obtain ⟨c, d⟩ := p
      obtain ⟨hp, hps⟩ := List.pairwise_cons.mp hps
      by_cases heq : a = c
      · subst heq
        rw [List.lookup_cons_self, List.mem_cons, Option.some.injEq, Prod.mk.injEq]
        constructor
        · rintro rfl
          exact .inl ⟨rfl, rfl⟩
        · rintro (⟨-, rfl⟩ | hmem)
          · rfl
          · exact absurd (hp (a, b) hmem) (lt_irrefl a)
      · rw [List.lookup_cons, beq_false_of_ne heq, List.mem_cons, Prod.mk.injEq, ih hps]
        exact ⟨.inr, fun h => h.resolve_left (fun h => heq h.1)⟩

theorem lookup_assign (m : OrderedMap α β) (a c : α) (b : β) :
  (m.assign a b).lookup c = if c = a then some b else m.lookup c
  := by
  change (assignPair a b m.pairs).lookup c = if c = a then some b else m.pairs.lookup c
  induction m.pairs with
  | nil =>
      rw [assignPair, List.lookup_cons, List.lookup_nil]
      split
      next heq => rw [if_pos (beq_iff_eq.mp heq)]
      next hne => rw [if_neg (fun heq => by rw [beq_iff_eq.mpr heq] at hne; cases hne)]
  | cons p ps ih =>
      obtain ⟨d, e⟩ := p
      rw [assignPair]
      by_cases heq : c = a
      · subst heq
        rw [if_pos rfl]
        rw [if_pos rfl] at ih
        split
        · apply List.lookup_cons_self
        · split
          · apply List.lookup_cons_self
          next hne => rw [List.lookup_cons, beq_false_of_ne hne, ih]
      · rw [if_neg heq]
        rw [if_neg heq] at ih
        split
        · rw [List.lookup_cons, beq_false_of_ne heq]
        · split
          next had =>
            have hcd : c ≠ d := fun hcd => heq (hcd.trans had.symm)
            rw [List.lookup_cons, beq_false_of_ne heq, List.lookup_cons, beq_false_of_ne hcd]
          next => rw [List.lookup_cons, List.lookup_cons, ih]

theorem lookup_erase (m : OrderedMap α β) (a c : α) :
  (m.erase a).lookup c = if c = a then none else m.lookup c
  := by
  apply Option.ext
  intro b
  rw [lookup_eq_some_iff, mem_erase]
  split
  next heq => exact ⟨fun h => absurd heq h.2, nofun⟩
  next hne => rw [lookup_eq_some_iff, and_iff_left hne]

theorem ext_lookup {m m' : OrderedMap α β} (h : ∀ a, m.lookup a = m'.lookup a) :
  m = m'
  := by
  have hmem : ∀ p, p ∈ m.pairs ↔ p ∈ m'.pairs := by
    rintro ⟨a, b⟩
    rw [← lookup_eq_some_iff, h, lookup_eq_some_iff]
  have hpairs : m.pairs = m'.pairs := by
    apply m.ascending.eq_of_mem_iff m'.ascending hmem
  obtain ⟨ps, _⟩ := m
  obtain ⟨ps', _⟩ := m'
  cases hpairs
  rfl

/-- The pairs of two maps that agree where a condition holds, so far as they meet it. -/
theorem filter_pairs_congr {m m' : OrderedMap α β} {p : α → Bool}
    (h : ∀ a, p a → m.lookup a = m'.lookup a) :
  m.pairs.filter (fun q => p q.1) = m'.pairs.filter (fun q => p q.1)
  := by
  apply (m.ascending.filter _).eq_of_mem_iff (m'.ascending.filter _)
  rintro ⟨a, b⟩
  rw [List.mem_filter, List.mem_filter, ← lookup_eq_some_iff, ← lookup_eq_some_iff]
  constructor
  · rintro ⟨hlookup, ha⟩
    exact ⟨(h a ha).symm.trans hlookup, ha⟩
  · rintro ⟨hlookup, ha⟩
    exact ⟨(h a ha).trans hlookup, ha⟩

end OrderedMap
