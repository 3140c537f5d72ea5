import Mathlib.Data.Finset.Sort
import Mathlib.Data.List.Destutter
import Mathlib.Data.List.TakeWhile

/-!
# The first elements of the keys

Elements have keys in a linear order.  `firstOf key k xs` is the first element of `xs` with
the key `k`, and `firsts key xs` has the first element of every run of one key; it is the list
of the first elements of the keys when the keys do not decrease.

A selection from `xs` has the first elements of the keys that are live, in the order of their
keys.  When `xs` is made of lists that are each sorted, a selection is found by taking the
first of the least heads of the lists and dropping its key from all of them, again and again:
`Selects.of_least_live` and `Selects.of_least_dead`.
-/

namespace Keyed

variable {α κ : Type} [DecidableEq κ]

/-- The first element with a key. -/
def firstOf (key : α → κ) (k : κ) (xs : List α) : Option α :=
  xs.find? (fun a => decide (key a = k))

/-- The first elements of the runs of one key. -/
def firsts (key : α → κ) (xs : List α) : List α := xs.destutter (fun a b => key a ≠ key b)

/-- What is left when the elements with a key are dropped from the front. -/
def dropKey (key : α → κ) (k : κ) (xs : List α) : List α :=
  xs.dropWhile (fun a => decide (key a = k))

variable {key : α → κ}

theorem dropKey_cons_of_eq {k : κ} {a : α} {xs : List α} (h : key a = k) :
  dropKey key k (a :: xs) = dropKey key k xs
  := List.dropWhile_cons_of_pos (decide_eq_true h)

theorem dropKey_cons_of_ne {k : κ} {a : α} {xs : List α} (h : key a ≠ k) :
  dropKey key k (a :: xs) = a :: xs
  := List.dropWhile_cons_of_neg (fun h' => h (of_decide_eq_true h'))

theorem dropKey_sublist (key : α → κ) (k : κ) (xs : List α) : (dropKey key k xs).Sublist xs
  := List.dropWhile_sublist _

/-- Dropping a key that later elements do not have leaves these. -/
theorem dropKey_append {k : κ} {xs ys : List α} (h : ∀ b ∈ ys, key b ≠ k) :
  dropKey key k (xs ++ ys) = dropKey key k xs ++ ys
  := by
  induction xs with
  | nil =>
      cases ys with
      | nil => rfl
      | cons b ys => apply dropKey_cons_of_ne (h b List.mem_cons_self)
  | cons a xs ih =>
      by_cases hkey : key a = k
      · rw [List.cons_append, dropKey_cons_of_eq hkey, dropKey_cons_of_eq hkey, ih]
      · rw [List.cons_append, dropKey_cons_of_ne hkey, dropKey_cons_of_ne hkey,
          List.cons_append]

theorem firstOf_cons (k : κ) (a : α) (xs : List α) :
  firstOf key k (a :: xs) = if key a = k then some a else firstOf key k xs
  := by
  rw [firstOf, List.find?_cons]
  by_cases h : key a = k
  · rw [if_pos h, decide_eq_true h]
  · rw [if_neg h, decide_eq_false h]
    rfl

theorem firstOf_append (k : κ) (xs ys : List α) :
  firstOf key k (xs ++ ys) = (firstOf key k xs).or (firstOf key k ys)
  := List.find?_append

/-- An element found is one of the elements and has the key. -/
theorem firstOf_eq_some {k : κ} {xs : List α} {a : α} (h : firstOf key k xs = some a) :
  a ∈ xs ∧ key a = k
  := ⟨List.mem_of_find?_eq_some h, of_decide_eq_true (List.find?_some h :)⟩

theorem firstOf_eq_none {k : κ} {xs : List α} :
  firstOf key k xs = none ↔ ∀ a ∈ xs, key a ≠ k
  := by
  rw [firstOf, List.find?_eq_none]
  simp only [decide_eq_true_eq, ne_eq]

/-- The first element of its key in a list that starts with it. -/
theorem firstOf_self (a : α) (xs : List α) : firstOf key (key a) (a :: xs) = some a
  := by
  rw [firstOf_cons, if_pos rfl]

/-- Dropping another key leaves the first element of a key. -/
theorem firstOf_dropKey {k k' : κ} (h : k ≠ k') :
  ∀ xs : List α, firstOf key k (dropKey key k' xs) = firstOf key k xs
  | [] => rfl
  | a :: xs => by
      by_cases ha : key a = k'
      · rw [dropKey_cons_of_eq ha, firstOf_dropKey h xs, firstOf_cons,
          if_neg (fun h' => h (h'.symm.trans ha))]
      · rw [dropKey_cons_of_ne ha]

/-- The first elements of flattened lists that have the same first elements are the same. -/
theorem firstOf_flatMap {β : Type} (k : κ) {f g : β → List α}
    (h : ∀ b, firstOf key k (f b) = firstOf key k (g b)) :
  ∀ bs : List β, firstOf key k (bs.flatMap f) = firstOf key k (bs.flatMap g)
  | [] => rfl
  | b :: bs => by
      rw [List.flatMap_cons, List.flatMap_cons, firstOf_append, firstOf_append, h b,
        firstOf_flatMap k h bs]

/-- The first element of a key under a map that keeps the keys. -/
theorem firstOf_map {β : Type} {key' : β → κ} {f : α → β} (h : ∀ a, key' (f a) = key a) (k : κ)
    (xs : List α) :
  firstOf key' k (xs.map f) = (firstOf key k xs).map f
  := by
  rw [firstOf, List.find?_map, firstOf]
  congr 2
  funext a
  simp only [Function.comp_apply, h]

/-- In a list in which a key determines the position, its first element is related to all the
others of the key. -/
theorem firstOf_related {r : α → α → Prop} {k : κ} :
  ∀ {xs : List α} {a : α}, xs.Pairwise (fun b c => key b = key c → r b c) →
    firstOf key k xs = some a → ∀ b ∈ xs, key b = k → b = a ∨ r a b
  | c :: xs, a, hpairwise, hfirst, b, hb, hkey => by
      obtain ⟨hc, hxs⟩ := List.pairwise_cons.mp hpairwise
      rw [firstOf_cons] at hfirst
      split at hfirst
      next hck =>
        obtain rfl := Option.some.inj hfirst
        rcases List.mem_cons.mp hb with rfl | hb
        · exact .inl rfl
        · exact .inr (hc b hb (hck.trans hkey.symm))
      next hck =>
        rcases List.mem_cons.mp hb with rfl | hb
        · exact absurd hkey hck
        · apply firstOf_related hxs hfirst b hb hkey

/-! ### Runs -/

/-- The first elements of the runs are the first element, and those of what is left when the
key of the first element is dropped. -/
theorem firsts_cons (a : α) :
  ∀ xs : List α, firsts key (a :: xs) = a :: firsts key (dropKey key (key a) xs)
  | [] => rfl
  | b :: xs => by
      by_cases h : key b = key a
      · rw [dropKey_cons_of_eq h, ← firsts_cons a xs, firsts, List.destutter_cons',
          List.destutter'_cons_neg _ (fun h' => h' h.symm)]
        rfl
      · rw [dropKey_cons_of_ne h, firsts, List.destutter_cons',
          List.destutter'_cons_pos _ (fun h' => h h'.symm)]
        rfl

/-- The first elements of the runs are among the elements, in their order. -/
theorem firsts_sublist (xs : List α) : (firsts key xs).Sublist xs
  := List.destutter_sublist _ xs

theorem firsts_eq_nil {xs : List α} : firsts key xs = [] ↔ xs = []
  := List.destutter_eq_nil _

/-- The first elements of the runs of lists without a common key. -/
theorem firsts_append {xs ys : List α} (h : ∀ a ∈ xs, ∀ b ∈ ys, key b ≠ key a) :
  firsts key (xs ++ ys) = firsts key xs ++ firsts key ys
  := by
  induction hn : xs.length using Nat.strongRecOn generalizing xs with
  | ind n ih =>
      cases xs with
      | nil => rfl
      | cons a xs =>
          have hsub := dropKey_sublist key (key a) xs
          have hlt : (dropKey key (key a) xs).length < n := by
            have hle := hsub.length_le
            rw [← hn, List.length_cons]
            omega
          have hrest : ∀ a' ∈ dropKey key (key a) xs, ∀ b ∈ ys, key b ≠ key a' :=
            fun a' ha' => h a' (List.mem_cons_of_mem a (hsub.subset ha'))
          rw [List.cons_append, firsts_cons, firsts_cons,
            dropKey_append (h a List.mem_cons_self), ih _ hlt hrest rfl, List.cons_append]

/-- The first element of a key is the first of a run. -/
theorem firstOf_firsts (k : κ) (xs : List α) :
  firstOf key k (firsts key xs) = firstOf key k xs
  := by
  induction hn : xs.length using Nat.strongRecOn generalizing xs with
  | ind n ih =>
      cases xs with
      | nil => rfl
      | cons a xs =>
          rw [firsts_cons, firstOf_cons, firstOf_cons]
          split
          · rfl
          next hne =>
            have hlt : (dropKey key (key a) xs).length < n := by
              have hle := (dropKey_sublist key (key a) xs).length_le
              rw [← hn, List.length_cons]
              omega
            rw [ih _ hlt _ rfl, firstOf_dropKey (fun h => hne h.symm)]

/-! ### Sorted lists -/

section

variable [PartialOrder κ]

/-- The keys do not decrease. -/
def Sorted (key : α → κ) (xs : List α) : Prop := xs.Pairwise (fun a b => key a ≤ key b)

/-- The keys increase. -/
def Ascending (key : α → κ) (xs : List α) : Prop := xs.Pairwise (fun a b => key a < key b)

omit [DecidableEq κ] in
theorem Ascending.sorted {xs : List α} (h : Ascending key xs) : Sorted key xs
  := h.imp le_of_lt

theorem Sorted.dropKey {xs : List α} (h : Sorted key xs) (k : κ) : Sorted key (dropKey key k xs)
  := h.sublist (dropKey_sublist key k xs)

/-- When the least key is dropped from a sorted list, the keys left are greater. -/
theorem Sorted.lt_of_mem_dropKey {k : κ} :
  ∀ {xs : List α}, Sorted key xs → (∀ a ∈ xs, k ≤ key a) → ∀ b ∈ Keyed.dropKey key k xs, k < key b
  | a :: xs, hsorted, hle, b, hb => by
      obtain ⟨ha, hxs⟩ := List.pairwise_cons.mp hsorted
      by_cases h : key a = k
      · rw [dropKey_cons_of_eq h] at hb
        apply lt_of_mem_dropKey hxs (fun c hc => hle c (List.mem_cons_of_mem a hc)) b hb
      · rw [dropKey_cons_of_ne h] at hb
        have hlt : k < key a := lt_of_le_of_ne (hle a List.mem_cons_self) (fun h' => h h'.symm)
        rcases List.mem_cons.mp hb with rfl | hb
        · apply hlt
        · apply lt_of_lt_of_le hlt (ha b hb)

/-- Dropping the least key of a sorted list commutes with filtering. -/
theorem Sorted.filter_dropKey {a : α} (p : α → Bool) :
  ∀ {xs : List α}, Sorted key (a :: xs) →
    (Keyed.dropKey key (key a) xs).filter p = Keyed.dropKey key (key a) (xs.filter p)
  | [], _ => rfl
  | b :: xs, h => by
      obtain ⟨ha, hxs⟩ := List.pairwise_cons.mp h
      by_cases hkey : key b = key a
      · have ih := filter_dropKey p
          (List.pairwise_cons.mpr ⟨fun c hc => ha c (List.mem_cons_of_mem b hc), hxs.tail⟩)
        rw [dropKey_cons_of_eq hkey, ih, List.filter_cons]
        split
        · rw [dropKey_cons_of_eq hkey]
        · rfl
      · -- the keys from here on are greater, so that nothing is dropped
        have hlt := Sorted.lt_of_mem_dropKey hxs ha
        rw [dropKey_cons_of_ne hkey] at hlt ⊢
        symm
        apply List.dropWhile_eq_self_iff.mpr
        intro hlength heq
        have hmem := (List.mem_filter.mp (List.getElem_mem hlength)).1
        exact (hlt _ hmem).ne' (of_decide_eq_true heq)

/-- The first elements of the runs of a sorted list are the one of the least key, if it has one,
and those of what is left when this key is dropped. -/
theorem Sorted.firsts_eq_append {k : κ} :
  ∀ {xs : List α}, Sorted key xs → (∀ a ∈ xs, k ≤ key a) →
    Keyed.firsts key xs =
      (firstOf key k xs).toList ++ Keyed.firsts key (Keyed.dropKey key k xs)
  | [], _, _ => rfl
  | a :: xs, h, hle => by
      by_cases hkey : key a = k
      · subst hkey
        rw [firsts_cons, firstOf_self, dropKey_cons_of_eq rfl]
        rfl
      · have hlt := Sorted.lt_of_mem_dropKey h hle
        rw [dropKey_cons_of_ne hkey] at hlt ⊢
        rw [firstOf_eq_none.mpr (fun b hb => (hlt b hb).ne')]
        rfl

/-- The first elements of the runs of a sorted list have increasing keys. -/
theorem Sorted.firsts {xs : List α} (h : Sorted key xs) : Ascending key (firsts key xs)
  := by
  induction hn : xs.length using Nat.strongRecOn generalizing xs with
  | ind n ih =>
      cases xs with
      | nil => apply List.Pairwise.nil
      | cons a xs =>
          obtain ⟨ha, hxs⟩ := List.pairwise_cons.mp h
          rw [firsts_cons]
          apply List.Pairwise.cons
          · intro b hb
            apply Sorted.lt_of_mem_dropKey hxs ha b ((firsts_sublist _).subset hb)
          · apply ih _ _ (Sorted.dropKey hxs (key a)) rfl
            have hle := (dropKey_sublist key (key a) xs).length_le
            rw [← hn, List.length_cons]
            omega

/-- In a list with increasing keys, every element is the first of its key. -/
theorem Ascending.mem_iff :
  ∀ {xs : List α}, Ascending key xs → ∀ a : α, a ∈ xs ↔ firstOf key (key a) xs = some a
  | [], _, a => by simp [firstOf]
  | b :: xs, h, a => by
      obtain ⟨hb, hxs⟩ := List.pairwise_cons.mp h
      rw [firstOf_cons, List.mem_cons, Ascending.mem_iff hxs a]
      split
      next heq =>
        rw [Option.some.injEq, or_iff_left]
        · apply eq_comm
        · intro hfirst
          exact absurd heq (hb a (firstOf_eq_some hfirst).1).ne
      next hne =>
        rw [or_iff_right]
        rintro rfl
        apply hne rfl

/-- Filtering a list with increasing keys keeps the first element of a key if it passes. -/
theorem Ascending.firstOf_filter {xs : List α} (h : Ascending key xs) (p : α → Bool) (k : κ) :
  firstOf key k (xs.filter p) = (firstOf key k xs).filter p
  := by
  induction xs with
  | nil => rfl
  | cons a xs ih =>
      obtain ⟨ha, hxs⟩ := List.pairwise_cons.mp h
      rw [List.filter_cons, firstOf_cons]
      by_cases hk : key a = k
      · rw [if_pos hk, Option.filter_some]
        split
        · rw [firstOf_cons, if_pos hk]
        · rw [ih hxs, firstOf_eq_none.mpr, Option.filter_none]
          intro b hb
          rw [← hk]
          exact (ha b hb).ne'
      · rw [if_neg hk, ← ih hxs]
        split
        · rw [firstOf_cons, if_neg hk]
        · rfl

/-! ### Selections -/

/-- The elements of `out` are the first elements of the keys of `xs` that are live, in the order
of their keys. -/
structure Selects (key : α → κ) (live : α → Prop) (xs out : List α) : Prop where
  ascending : Ascending key out
  mem_iff : ∀ a, a ∈ out ↔ live a ∧ firstOf key (key a) xs = some a

/-- Selections with the same live first elements are the same. -/
theorem Selects.congr {live : α → Prop} {xs ys out : List α} (h : Selects key live xs out)
    (hsame : ∀ a, live a → (firstOf key (key a) xs = some a ↔ firstOf key (key a) ys = some a)) :
  Selects key live ys out
  where
  ascending := h.ascending
  mem_iff a := (h.mem_iff a).trans (and_congr_right (hsame a))

/-- The list `ys` at `m` starts with the first of the least heads of the lists. -/
structure Least (key : α → κ) (xss : List (List α)) (m : ℕ) (a : α) : Prop where
  at_eq : ∃ xs, xss[m]? = some (a :: xs)
  le : ∀ ys ∈ xss, ∀ b ∈ ys.head?, key a ≤ key b
  before : ∀ i < m, ∀ ys ∈ xss[i]?, ∀ b ∈ ys.head?, key a < key b

omit [DecidableEq κ] in
/-- The least of the heads stays so when a list is added whose head is not less. -/
theorem Least.concat {xss : List (List α)} {m : ℕ} {a : α} (h : Least key xss m a) {ys : List α}
    (hys : ∀ b ∈ ys.head?, key a ≤ key b) :
  Least key (xss ++ [ys]) m a
  := by
  obtain ⟨xs, hat⟩ := h.at_eq
  obtain ⟨hm, -⟩ := List.getElem?_eq_some_iff.mp hat
  constructor
  · exact ⟨xs, by rwa [List.getElem?_append_left hm]⟩
  · intro zs hzs
    rcases List.mem_append.mp hzs with hzs | hzs
    · apply h.le zs hzs
    · rwa [List.mem_singleton.mp hzs]
  · intro i hi
    rw [List.getElem?_append_left (lt_trans hi hm)]
    apply h.before i hi

omit [DecidableEq κ] in
/-- The head of a list added is the least of the heads when the others are greater. -/
theorem Least.of_concat {xss : List (List α)} {a : α} (xs : List α)
    (hlt : ∀ ys ∈ xss, ∀ b ∈ ys.head?, key a < key b) :
  Least key (xss ++ [a :: xs]) xss.length a
  where
  at_eq := ⟨xs, List.getElem?_concat_length⟩
  le := by
    intro ys hys b hb
    rcases List.mem_append.mp hys with hys | hys
    · apply le_of_lt (hlt ys hys b hb)
    · rw [List.mem_singleton.mp hys] at hb
      rw [Option.some.inj hb]
  before := by
    intro i hi ys hys
    rw [List.getElem?_append_left hi] at hys
    apply hlt ys (List.mem_of_getElem? hys)

omit [DecidableEq κ] in
/-- The head of a sorted list is at or before all of its elements. -/
theorem Sorted.exists_head_le {b : α} :
  ∀ {xs : List α}, Sorted key xs → b ∈ xs → ∃ a ∈ xs.head?, key a ≤ key b
  | a :: xs, hsorted, hb => by
      refine ⟨a, rfl, ?_⟩
      rcases List.mem_cons.mp hb with rfl | hb
      · apply le_refl
      · apply (List.pairwise_cons.mp hsorted).1 b hb

omit [DecidableEq κ] in
/-- The least of the heads of sorted lists is at or before all elements. -/
theorem Least.key_le {xss : List (List α)} {m : ℕ} {a : α} (h : Least key xss m a)
    (hsorted : ∀ xs ∈ xss, Sorted key xs) {xs : List α} (hxs : xs ∈ xss) {b : α} (hb : b ∈ xs) :
  key a ≤ key b
  := by
  obtain ⟨c, hc, hle⟩ := (hsorted xs hxs).exists_head_le hb
  apply le_trans (h.le xs hxs c hc) hle

/-- The first of the least heads of sorted lists is the first element of its key. -/
theorem Least.firstOf_flatten {xss : List (List α)} {m : ℕ} {a : α} (h : Least key xss m a)
    (hsorted : ∀ xs ∈ xss, Sorted key xs) :
  firstOf key (key a) xss.flatten = some a
  := by
  obtain ⟨xs, hat⟩ := h.at_eq
  obtain ⟨hm, hget⟩ := List.getElem?_eq_some_iff.mp hat
  have hsplit : xss = xss.take m ++ (a :: xs) :: xss.drop (m + 1) := by
    rw [← hget, ← List.drop_eq_getElem_cons hm, List.take_append_drop]
  have hnone : firstOf key (key a) (xss.take m).flatten = none := by
    apply firstOf_eq_none.mpr
    intro b hb
    obtain ⟨ys, hys, hb⟩ := List.mem_flatten.mp hb
    obtain ⟨i, hi, hget'⟩ := List.mem_take_iff_getElem.mp hys
    have hys' : xss[i]? = some ys := by rw [← hget', List.getElem?_eq_getElem]
    obtain ⟨c, hc, hle⟩ := (hsorted ys (List.mem_of_getElem? hys')).exists_head_le hb
    exact (lt_of_lt_of_le (h.before i (by omega) ys hys' c hc) hle).ne'
  rw [hsplit, List.flatten_append, firstOf_append, hnone, List.flatten_cons, List.cons_append,
    firstOf_self]
  rfl

/-- What is left of sorted lists when their least key is dropped has greater keys. -/
theorem Least.lt_of_mem_dropKey {xss : List (List α)} {m : ℕ} {a : α} (h : Least key xss m a)
    (hsorted : ∀ xs ∈ xss, Sorted key xs) :
  ∀ b ∈ (xss.map (dropKey key (key a))).flatten, key a < key b
  := by
  intro b hb
  obtain ⟨ys, hys, hb⟩ := List.mem_flatten.mp hb
  obtain ⟨xs, hxs, rfl⟩ := List.mem_map.mp hys
  apply (hsorted xs hxs).lt_of_mem_dropKey (fun c hc => h.key_le hsorted hxs hc) b hb

omit [PartialOrder κ] in
/-- Dropping a key from lists leaves the first elements of the other keys. -/
theorem firstOf_flatten_dropKey {k k' : κ} (h : k ≠ k') (xss : List (List α)) :
  firstOf key k (xss.map (dropKey key k')).flatten = firstOf key k xss.flatten
  := by
  have hmap := firstOf_flatMap k (f := dropKey key k') (g := id) (firstOf_dropKey h) xss
  rwa [List.flatMap_id, List.flatMap_def] at hmap

omit [PartialOrder κ] in
theorem flatten_dropKey_sublist (key : α → κ) (k : κ) :
  ∀ xss : List (List α), (xss.map (dropKey key k)).flatten.Sublist xss.flatten
  | [] => List.Sublist.refl _
  | xs :: xss => (dropKey_sublist key k xs).append (flatten_dropKey_sublist key k xss)

/-- Dropping the key of the least head takes elements away. -/
theorem Least.length_dropKey {xss : List (List α)} {m : ℕ} {a : α} (h : Least key xss m a)
    (hsorted : ∀ xs ∈ xss, Sorted key xs) :
  (xss.map (dropKey key (key a))).flatten.length < xss.flatten.length
  := by
  have hsub := flatten_dropKey_sublist key (key a) xss
  apply lt_of_le_of_ne hsub.length_le
  intro heq
  have hmem := (firstOf_eq_some (h.firstOf_flatten hsorted)).1
  rw [← hsub.eq_of_length heq] at hmem
  apply lt_irrefl _ (h.lt_of_mem_dropKey hsorted a hmem)

section

variable {live : α → Prop} {xss : List (List α)} {m : ℕ} {a : α} {out : List α}
  (hsel : Selects key live xss.flatten out) (h : Least key xss m a)
  (hsorted : ∀ xs ∈ xss, Sorted key xs)

include hsel h hsorted

/-- A selection from sorted lists whose least head is live starts with it, and goes on with a
selection from what is left of the lists when its key is dropped. -/
theorem Selects.of_least_live (hlive : live a) :
  ∃ out', out = a :: out' ∧ Selects key live (xss.map (dropKey key (key a))).flatten out'
  := by
  have hfirst := h.firstOf_flatten hsorted
  have hmem : a ∈ out := (hsel.mem_iff a).mpr ⟨hlive, hfirst⟩
  cases out with
  | nil => cases hmem
  | cons b out =>
      obtain ⟨hb, hout⟩ := List.pairwise_cons.mp hsel.ascending
      have hba : b = a := by
        rcases List.mem_cons.mp hmem with rfl | hmem
        · rfl
        · have hbfirst := ((hsel.mem_iff b).mp List.mem_cons_self).2
          obtain ⟨xs, hxs, hbxs⟩ := List.mem_flatten.mp (firstOf_eq_some hbfirst).1
          have hle := h.key_le hsorted hxs hbxs
          exact absurd (hb a hmem) (not_lt_of_ge hle)
      subst hba
      refine ⟨out, rfl, hout, ?_⟩
      intro c
      constructor
      · intro hc
        have hne : key c ≠ key b := (hb c hc).ne'
        rw [firstOf_flatten_dropKey hne]
        apply (hsel.mem_iff c).mp (List.mem_cons_of_mem b hc)
      · rintro ⟨hclive, hcfirst⟩
        have hlt := h.lt_of_mem_dropKey hsorted c (firstOf_eq_some hcfirst).1
        rw [firstOf_flatten_dropKey hlt.ne'] at hcfirst
        rcases List.mem_cons.mp ((hsel.mem_iff c).mpr ⟨hclive, hcfirst⟩) with rfl | hc
        · exact absurd rfl hlt.ne
        · apply hc

/-- A selection from sorted lists whose least head is not live is one from what is left of the
lists when its key is dropped. -/
theorem Selects.of_least_dead (hdead : ¬ live a) :
  Selects key live (xss.map (dropKey key (key a))).flatten out
  := by
  have hfirst := h.firstOf_flatten hsorted
  apply hsel.congr
  intro c hclive
  by_cases hne : key c = key a
  · constructor
    · intro hcfirst
      rw [hne, hfirst] at hcfirst
      obtain rfl := Option.some.inj hcfirst
      exact absurd hclive hdead
    · intro hcfirst
      have hlt := h.lt_of_mem_dropKey hsorted c (firstOf_eq_some hcfirst).1
      exact absurd hne hlt.ne'
  · rw [firstOf_flatten_dropKey hne]

end

/-- Nothing is selected from nothing. -/
theorem Selects.eq_nil {live : α → Prop} {xss : List (List α)} {out : List α}
    (h : Selects key live xss.flatten out) (hnil : ∀ xs ∈ xss, xs = []) :
  out = []
  := by
  cases out with
  | nil => rfl
  | cons a out =>
      obtain ⟨-, hfirst⟩ := (h.mem_iff a).mp List.mem_cons_self
      obtain ⟨xs, hxs, ha⟩ := List.mem_flatten.mp (firstOf_eq_some hfirst).1
      rw [hnil xs hxs] at ha
      cases ha

end

/-- There is a selection from every list. -/
theorem exists_selects {κ : Type} [LinearOrder κ] [DecidableEq κ] (key : α → κ) (live : α → Prop)
    [DecidablePred live] (xs : List α) :
  ∃ out, Selects key live xs out
  := by
  let pick (k : κ) : Option α := (firstOf key k xs).filter (fun a => decide (live a))
  have hpick : ∀ k a, pick k = some a ↔ key a = k ∧ live a ∧ firstOf key k xs = some a := by
    intro k a
    rw [Option.filter_eq_some_iff, decide_eq_true_iff]
    constructor
    · rintro ⟨hfirst, hlive⟩
      exact ⟨(firstOf_eq_some hfirst).2, hlive, hfirst⟩
    · rintro ⟨-, hlive, hfirst⟩
      exact ⟨hfirst, hlive⟩
  use ((xs.map key).toFinset.sort (· ≤ ·)).filterMap pick
  constructor
  · apply List.Pairwise.filterMap pick _ (Finset.sortedLT_sort _).pairwise
    intro k k' hlt a ha a' ha'
    rw [((hpick k a).mp ha).1, ((hpick k' a').mp ha').1]
    apply hlt
  · intro a
    rw [List.mem_filterMap]
    constructor
    · rintro ⟨k, -, ha⟩
      obtain ⟨rfl, hlive, hfirst⟩ := (hpick k a).mp ha
      exact ⟨hlive, hfirst⟩
    · rintro ⟨hlive, hfirst⟩
      refine ⟨key a, ?_, (hpick _ a).mpr ⟨rfl, hlive, hfirst⟩⟩
      rw [Finset.mem_sort, List.mem_toFinset]
      apply List.mem_map_of_mem (firstOf_eq_some hfirst).1

end Keyed
