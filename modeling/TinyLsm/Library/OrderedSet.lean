import Mathlib.Data.List.Sort
import Mathlib.Order.Lattice
import Mathlib.Order.Fin.Basic

/-!
# Ordered sets and maps

A finite set is given by its elements in ascending order, and a finite map by its pairs in
the ascending order of their keys, as the ordered containers of a standard library list
them.  That the lists ascend is part of the data.
-/

/-- A finite set as the ascending list of its elements. -/
structure OrderedSet (α : Type) [LinearOrder α] where
  elems : List α
  ascending : elems.Pairwise (· < ·)
deriving DecidableEq, Repr

namespace OrderedSet

variable {α : Type} [LinearOrder α]

instance : Membership α (OrderedSet α) := ⟨fun s a => a ∈ s.elems⟩

theorem mem_def {s : OrderedSet α} {a : α} : a ∈ s ↔ a ∈ s.elems
  := Iff.rfl

def empty : OrderedSet α := ⟨[], .nil⟩

def singleton (a : α) : OrderedSet α := ⟨[a], List.pairwise_singleton _ a⟩

/-- Insert into an ascending list an element it may contain already. -/
def insertElem (a : α) : List α → List α
  | [] => [a]
  | b :: bs => if a < b then a :: b :: bs else if a = b then b :: bs else b :: insertElem a bs

theorem mem_insertElem {a c : α} :
  ∀ {bs : List α}, c ∈ insertElem a bs ↔ c = a ∨ c ∈ bs
  | [] => List.mem_cons
  | b :: bs => by
      rw [insertElem]
      split
      · apply List.mem_cons
      · split
        next heq =>
          rw [heq, List.mem_cons, ← or_assoc, or_self]
        · rw [List.mem_cons, mem_insertElem, List.mem_cons, or_left_comm]

theorem ascending_insertElem {a : α} :
  ∀ {bs : List α}, bs.Pairwise (· < ·) → (insertElem a bs).Pairwise (· < ·)
  | [], _ => List.pairwise_singleton _ a
  | b :: bs, h => by
      obtain ⟨hb, hbs⟩ := List.pairwise_cons.mp h
      rw [insertElem]
      split
      next hlt =>
        apply List.pairwise_cons.mpr ⟨_, h⟩
        intro c hc
        rcases List.mem_cons.mp hc with rfl | hc
        · apply hlt
        · apply hlt.trans (hb c hc)
      next hge =>
        split
        · apply h
        next hne =>
          apply List.pairwise_cons.mpr ⟨_, ascending_insertElem hbs⟩
          intro c hc
          rcases mem_insertElem.mp hc with rfl | hc
          · apply lt_of_le_of_ne (le_of_not_gt hge) (Ne.symm hne)
          · apply hb c hc

def insert (s : OrderedSet α) (a : α) : OrderedSet α :=
  ⟨insertElem a s.elems, ascending_insertElem s.ascending⟩

theorem mem_insert {s : OrderedSet α} {a c : α} : c ∈ s.insert a ↔ c = a ∨ c ∈ s
  := mem_insertElem

/-- The greatest element, if there is one. -/
def max? (s : OrderedSet α) : Option α := s.elems.getLast?

theorem max?_mem {s : OrderedSet α} {m : α} (h : s.max? = some m) : m ∈ s
  := List.mem_of_getLast? h

/-- Every element is at most the greatest one. -/
theorem le_max? {s : OrderedSet α} {a m : α} (ha : a ∈ s) (h : s.max? = some m) : a ≤ m
  := by
  obtain ⟨front, hsplit⟩ := List.getLast?_eq_some_iff.mp h
  have hascending := s.ascending
  rw [mem_def, hsplit] at ha
  rw [hsplit] at hascending
  rcases List.mem_append.mp ha with ha | ha
  · apply le_of_lt ((List.pairwise_append.mp hascending).2.2 a ha m List.mem_cons_self)
  · apply le_of_eq (List.mem_singleton.mp ha)

/-- There is an element from a bound on exactly if the greatest one is. -/
theorem exists_ge_iff {s : OrderedSet α} {a : α} :
  (∃ b ∈ s, a ≤ b) ↔ ∃ m, s.max? = some m ∧ a ≤ m
  := by
  constructor
  · rintro ⟨b, hb, hle⟩
    cases h : s.max? with
    | none =>
        have hnil := List.getLast?_eq_none_iff.mp h
        rw [mem_def, hnil] at hb
        cases hb
    | some m => exact ⟨m, rfl, hle.trans (le_max? hb h)⟩
  · rintro ⟨m, hm, hle⟩
    exact ⟨m, max?_mem hm, hle⟩

theorem mem_foldl_insert {c : α} :
  ∀ {as : List α} {s : OrderedSet α}, c ∈ as.foldl insert s ↔ c ∈ as ∨ c ∈ s
  | [], s => ⟨.inr, fun h => h.resolve_left List.not_mem_nil⟩
  | a :: as, s => by
      rw [List.foldl_cons, mem_foldl_insert, mem_insert, List.mem_cons, or_assoc, or_left_comm]

/-- Sets with the same elements are the same. -/
theorem eq_of_mem_iff {s t : OrderedSet α} (h : ∀ a, a ∈ s ↔ a ∈ t) : s = t
  := by
  obtain ⟨elems, ascending⟩ := s
  obtain ⟨elems', ascending'⟩ := t
  obtain rfl := ascending.eq_of_mem_iff ascending' @h
  rfl

/-- A set is built by inserting its elements. -/
theorem foldl_insert_elems (s : OrderedSet α) : s.elems.foldl insert empty = s
  := by
  apply eq_of_mem_iff
  intro a
  rw [mem_foldl_insert]
  exact or_iff_left List.not_mem_nil

/-- The least element, if there is one. -/
def min? (s : OrderedSet α) : Option α := s.elems.head?

theorem min?_mem {s : OrderedSet α} {m : α} (h : s.min? = some m) : m ∈ s
  := List.mem_of_head? h

/-- Every element is at least the least one. -/
theorem min?_le {s : OrderedSet α} {a m : α} (h : s.min? = some m) (ha : a ∈ s) : m ≤ a
  := by
  obtain ⟨rest, hsplit⟩ := List.head?_eq_some_iff.mp h
  have hascending := s.ascending
  rw [mem_def, hsplit] at ha
  rw [hsplit] at hascending
  rcases List.mem_cons.mp ha with rfl | ha
  · apply le_refl
  · apply le_of_lt ((List.pairwise_cons.mp hascending).1 a ha)

/-- Inserting what is not less than the least element keeps that. -/
theorem min?_insert {s : OrderedSet α} {a m : α} (h : s.min? = some m) (hle : m ≤ a) :
  (s.insert a).min? = some m
  := by
  obtain ⟨rest, hsplit⟩ := List.head?_eq_some_iff.mp h
  change (insertElem a s.elems).head? = some m
  rw [hsplit, insertElem, if_neg (not_lt_of_ge hle)]
  split <;> rfl

/-- A set covers what is at most its least element, and its elements. -/
def Covers (s : OrderedSet α) (a : α) : Prop := (∃ m, s.min? = some m ∧ a ≤ m) ∨ a ∈ s

instance (s : OrderedSet α) (a : α) : Decidable (s.Covers a) :=
  decidable_of_iff ((∃ m ∈ s.min?, a ≤ m) ∨ a ∈ s.elems) Iff.rfl

theorem Covers.nonempty {s : OrderedSet α} {a : α} (h : s.Covers a) : ∃ m, s.min? = some m
  := by
  rcases h with ⟨m, hm, -⟩ | ha
  · exact ⟨m, hm⟩
  · cases helems : s.elems with
    | nil =>
        rw [mem_def, helems] at ha
        nomatch ha
    | cons m rest =>
        use m
        rw [min?, helems]
        rfl

/-- Inserting what is not less than the least element covers that in addition. -/
theorem covers_insert {s : OrderedSet α} {a c m : α} (h : s.min? = some m) (hle : m ≤ a) :
  (s.insert a).Covers c ↔ c = a ∨ s.Covers c
  := by
  rw [Covers, min?_insert h hle, mem_insert, Covers, h, or_left_comm]

theorem covers_foldl_insert {m : α} {c : α} :
  ∀ {as : List α} {s : OrderedSet α}, s.min? = some m → (∀ a ∈ as, m ≤ a) →
    ((as.foldl insert s).Covers c ↔ c ∈ as ∨ s.Covers c)
  | [], s, _, _ => ⟨.inr, fun h => h.resolve_left List.not_mem_nil⟩
  | a :: as, s, h, hle => by
      have ha := hle a List.mem_cons_self
      have has := fun b hb => hle b (List.mem_cons_of_mem a hb)
      rw [List.foldl_cons, covers_foldl_insert (min?_insert h ha) has, covers_insert h ha,
        List.mem_cons, or_assoc, or_left_comm]

/-- A nonempty set covers what is at most each of its elements. -/
theorem covers_of_le {s : OrderedSet α} {a b : α} (hb : b ∈ s) (hle : ∀ c ∈ s, a ≤ c) :
  s.Covers a
  := by
  obtain ⟨m, hm⟩ := (show s.Covers b from .inr hb).nonempty
  exact .inl ⟨m, hm, hle m (min?_mem hm)⟩

/-- Inserting elements uncovers nothing, unless one of them is below the least element and
leaves out what is in between. -/
theorem Covers.foldl_insert {as : List α} {s : OrderedSet α} {c : α} (h : s.Covers c)
    (hbetween : ∀ a ∈ as, ∀ m, s.min? = some m → a < c → c < m → c ∈ as) :
  (as.foldl insert s).Covers c
  := by
  by_cases hmem : c ∈ as ∨ c ∈ s
  · exact .inr (mem_foldl_insert.mpr hmem)
  · rcases h with ⟨m, hm, hle⟩ | hc
    · have hne : c ≠ m := fun heq => hmem (.inr (heq ▸ min?_mem hm))
      have hbelow : ∀ a ∈ as, c ≤ a := fun a ha => le_of_not_gt
        (fun hlt => hmem (.inl (hbetween a ha m hm hlt (lt_of_le_of_ne hle hne))))
      apply covers_of_le (mem_foldl_insert.mpr (.inr (min?_mem hm)))
      intro a ha
      rcases mem_foldl_insert.mp ha with ha | ha
      · apply hbelow a ha
      · apply hle.trans (min?_le hm ha)
    · exact absurd (.inr hc) hmem

end OrderedSet

/-- A finite map as the list of its pairs, their keys ascending. -/
structure OrderedMap (α β : Type) [LinearOrder α] where
  pairs : List (α × β)
  ascending : pairs.Pairwise (fun p q => p.1 < q.1)

namespace OrderedMap

variable {α β : Type} [LinearOrder α]

def empty : OrderedMap α β := ⟨[], .nil⟩

/-- Assign a value to a key in a list of pairs, adding the key if it is new. -/
def assignPair (a : α) (b : β) : List (α × β) → List (α × β)
  | [] => [(a, b)]
  | p :: ps =>
      if a < p.1 then (a, b) :: p :: ps else if a = p.1 then (a, b) :: ps
      else p :: assignPair a b ps

theorem mem_assignPair {a : α} {b : β} {q : α × β} :
  ∀ {ps : List (α × β)}, q ∈ assignPair a b ps → q = (a, b) ∨ q ∈ ps
  | [], h => List.mem_cons.mp h
  | p :: ps, h => by
      rw [assignPair] at h
      split at h
      · apply List.mem_cons.mp h
      · split at h
        · exact (List.mem_cons.mp h).imp_right (List.mem_cons_of_mem p)
        · rcases List.mem_cons.mp h with rfl | h
          · exact .inr List.mem_cons_self
          · exact (mem_assignPair h).imp_right (List.mem_cons_of_mem p)

theorem ascending_assignPair {a : α} {b : β} :
  ∀ {ps : List (α × β)}, ps.Pairwise (fun p q => p.1 < q.1) →
    (assignPair a b ps).Pairwise (fun p q => p.1 < q.1)
  | [], _ => List.pairwise_singleton _ _
  | p :: ps, h => by
      obtain ⟨hp, hps⟩ := List.pairwise_cons.mp h
      rw [assignPair]
      split
      next hlt =>
        apply List.pairwise_cons.mpr ⟨_, h⟩
        intro q hq
        rcases List.mem_cons.mp hq with rfl | hq
        · apply hlt
        · apply hlt.trans (hp q hq)
      next hge =>
        split
        next heq =>
          apply List.pairwise_cons.mpr ⟨_, hps⟩
          intro q hq
          rw [heq]
          apply hp q hq
        next hne =>
          apply List.pairwise_cons.mpr ⟨_, ascending_assignPair hps⟩
          intro q hq
          rcases mem_assignPair hq with rfl | hq
          · apply lt_of_le_of_ne (le_of_not_gt hge) (Ne.symm hne)
          · apply hp q hq

def assign (m : OrderedMap α β) (a : α) (b : β) : OrderedMap α β :=
  ⟨assignPair a b m.pairs, ascending_assignPair m.ascending⟩

/-- The keys are those there were, and the key assigned to. -/
theorem exists_mem_assignPair {a c : α} {b : β} :
  ∀ {ps : List (α × β)},
    (∃ d, (c, d) ∈ assignPair a b ps) ↔ c = a ∨ ∃ d, (c, d) ∈ ps
  | [] => by
      simp only [assignPair, List.mem_singleton, Prod.mk.injEq, exists_and_left, exists_eq,
        and_true, List.not_mem_nil, exists_false, or_false]
  | p :: ps => by
      have ih : (∃ d, (c, d) ∈ assignPair a b ps) ↔ c = a ∨ ∃ d, (c, d) ∈ ps :=
        exists_mem_assignPair
      rw [assignPair]
      split
      · simp only [List.mem_cons, Prod.mk.injEq, exists_or, exists_and_left, exists_eq, and_true]
      · split
        next heq =>
          simp only [List.mem_cons, Prod.ext_iff, exists_or, exists_and_left, exists_eq, and_true,
            heq, ← or_assoc, or_self]
        next =>
          simp only [List.mem_cons, exists_or, ih]
          rw [or_left_comm]

/-- Assigning to another key keeps a pair. -/
theorem mem_assign_of_ne {m : OrderedMap α β} {a : α} {b : β} {p : α × β} (hp : p ∈ m.pairs)
    (hne : p.1 ≠ a) :
  p ∈ (m.assign a b).pairs
  := by
  change p ∈ assignPair a b m.pairs
  revert hp
  induction m.pairs with
  | nil => exact nofun
  | cons q ps ih =>
      intro hp
      rw [assignPair]
      split
      · apply List.mem_cons_of_mem _ hp
      · split
        next heq =>
          apply List.mem_cons_of_mem
          exact (List.mem_cons.mp hp).resolve_left (fun h => hne (h ▸ heq.symm))
        next =>
          rcases List.mem_cons.mp hp with rfl | hp
          · apply List.mem_cons_self
          · apply List.mem_cons_of_mem _ (ih hp)

/-- Change the value of a key, if the key is there. -/
def modify (m : OrderedMap α β) (a : α) (f : β → β) : OrderedMap α β :=
  ⟨m.pairs.map (fun p => if p.1 = a then (p.1, f p.2) else p), by
    apply List.pairwise_map.mpr
    apply m.ascending.imp
    intro p q hlt
    split <;> split <;> exact hlt⟩

theorem mem_modify {m : OrderedMap α β} {a : α} {f : β → β} {q : α × β} :
  q ∈ (m.modify a f).pairs ↔ ∃ p ∈ m.pairs, (if p.1 = a then (p.1, f p.2) else p) = q
  := List.mem_map

def erase (m : OrderedMap α β) (a : α) : OrderedMap α β :=
  ⟨m.pairs.filter (fun p => decide (p.1 ≠ a)), m.ascending.filter _⟩

theorem mem_erase {m : OrderedMap α β} {a : α} {p : α × β} :
  p ∈ (m.erase a).pairs ↔ p ∈ m.pairs ∧ p.1 ≠ a
  := by
  rw [erase, List.mem_filter, decide_eq_true_iff]

theorem mem_foldl_erase {p : α × β} :
  ∀ {as : List α} {m : OrderedMap α β},
    p ∈ (as.foldl erase m).pairs ↔ p ∈ m.pairs ∧ p.1 ∉ as
  | [], m => (and_iff_left List.not_mem_nil).symm
  | a :: as, m => by
      rw [List.foldl_cons, mem_foldl_erase, mem_erase, List.mem_cons, not_or, and_assoc]

end OrderedMap
