import Mathlib.Data.List.Basic
import Mathlib.Logic.Equiv.Basic
import Mathlib.Order.Defs.Unbundled
import Mathlib.Tactic.Common

/-!
# Binary heaps

A priority queue kept as a binary heap in an array, as `std::priority_queue` keeps it: the
children of position `i` are at `2 * i + 1` and `2 * i + 2`, the top is at position `0`, and
`comp a b` says that `a` is to come after `b`.  To push is to append and sift up.  To pop is
to move the last element to the top, sink it to a leaf along the children that are to come
first, and sift it up from there.

The operations permute the elements whatever `comp` is.  The top is least for any preorder
`r` that `comp` does not contradict: `comp a b` implies `r b a`, and its failure implies
`r a b`.  So a test that is not an order still gives a heap for a coarser order it respects.
-/

namespace BinaryHeap

variable {α : Type}

/-- Swap the element at `i` with its parent as long as the parent is to come after it. -/
def siftUp (comp : α → α → Bool) : ℕ → Array α → ℕ → Array α
  | 0, a, _ => a
  | fuel + 1, a, i =>
      if h : 0 < i ∧ i < a.size then
        if comp a[(i - 1) / 2] a[i] then
          siftUp comp fuel (a.swap ((i - 1) / 2) i (by omega) h.2) ((i - 1) / 2)
        else a
      else a

/-- Swap the element at `i` with the child that is to come first until it has no children,
and answer the position it reaches. -/
def sink (comp : α → α → Bool) : ℕ → Array α → ℕ → Array α × ℕ
  | 0, a, i => (a, i)
  | fuel + 1, a, i =>
      if hr : 2 * i + 2 < a.size then
        if comp a[2 * i + 2] a[2 * i + 1] then
          sink comp fuel (a.swap i (2 * i + 1) (by omega) (by omega)) (2 * i + 1)
        else
          sink comp fuel (a.swap i (2 * i + 2) (by omega) hr) (2 * i + 2)
      else if hl : 2 * i + 1 < a.size then
        (a.swap i (2 * i + 1) (by omega) hl, 2 * i + 1)
      else (a, i)

/-- The element to come first. -/
def top? (a : Array α) : Option α := a[0]?

def push (comp : α → α → Bool) (a : Array α) (x : α) : Array α :=
  siftUp comp a.size (a.push x) a.size

def pop (comp : α → α → Bool) (a : Array α) : Array α :=
  if h : 0 < a.size then
    let b := (a.swap 0 (a.size - 1) h (by omega)).pop
    let c := sink comp b.size b 0
    siftUp comp c.2 c.1 c.2
  else a

/-- Pop as long as the top satisfies `p`. -/
def popWhile (comp : α → α → Bool) (p : α → Bool) : ℕ → Array α → Array α
  | 0, a => a
  | fuel + 1, a =>
      match top? a with
      | some x => if p x then popWhile comp p fuel (pop comp a) else a
      | none => a

/-- `Delivers comp a xs`: popping `a` until it is empty takes the elements `xs` off it, in
this order. -/
def Delivers (comp : α → α → Bool) : Array α → List α → Prop
  | a, [] => top? a = none
  | a, x :: xs => top? a = some x ∧ Delivers comp (pop comp a) xs

/-! ### The elements -/

theorem siftUp_perm (comp : α → α → Bool) :
  ∀ (fuel : ℕ) (a : Array α) (i : ℕ), (siftUp comp fuel a i).Perm a
  | 0, _, _ => Array.Perm.refl _
  | fuel + 1, a, i => by
      rw [siftUp]
      split
      · split
        · apply (siftUp_perm comp fuel _ _).trans (Array.swap_perm _ _)
        · apply Array.Perm.refl
      · apply Array.Perm.refl

theorem sink_perm (comp : α → α → Bool) :
  ∀ (fuel : ℕ) (a : Array α) (i : ℕ), (sink comp fuel a i).1.Perm a
  | 0, _, _ => Array.Perm.refl _
  | fuel + 1, a, i => by
      rw [sink]
      split
      · split
        · apply (sink_perm comp fuel _ _).trans (Array.swap_perm _ _)
        · apply (sink_perm comp fuel _ _).trans (Array.swap_perm _ _)
      · split
        · apply Array.swap_perm
        · apply Array.Perm.refl

/-- A push adds the element pushed. -/
theorem push_perm (comp : α → α → Bool) (a : Array α) (x : α) :
  (push comp a x).toList.Perm (x :: a.toList)
  := by
  have h := (siftUp_perm comp a.size (a.push x) a.size).toList
  rw [Array.toList_push] at h
  apply h.trans (List.perm_append_singleton _ _)

/-- A pop removes the top. -/
theorem pop_perm (comp : α → α → Bool) {a : Array α} {x : α} (h : top? a = some x) :
  a.toList.Perm (x :: (pop comp a).toList)
  := by
  obtain ⟨hpos, hx⟩ := Array.getElem?_eq_some_iff.mp h
  let b := a.swap 0 (a.size - 1) hpos (by omega)
  have hne : b.toList ≠ [] := by
    rw [ne_eq, ← List.length_eq_zero_iff, Array.length_toList, Array.size_swap]
    omega
  have hlast : b.toList.getLast hne = x := by
    simp only [b, List.getLast_eq_getElem, Array.length_toList, Array.size_swap,
      Array.getElem_toList, Array.getElem_swap_right, hx]
  have hb : b.toList = b.pop.toList ++ [x] := by
    rw [Array.toList_pop, ← hlast, List.dropLast_append_getLast]
  have hpop : (pop comp a).toList.Perm b.pop.toList := by
    rw [pop, dif_pos hpos]
    apply ((siftUp_perm comp _ _ _).trans (sink_perm comp _ _ _)).toList
  apply (Array.swap_perm hpos (by omega : a.size - 1 < a.size)).toList.symm.trans
  change b.toList.Perm _
  rw [hb]
  apply (List.perm_append_singleton _ _).trans (hpop.symm.cons x)

theorem size_sink (comp : α → α → Bool) (fuel : ℕ) (a : Array α) (i : ℕ) :
  (sink comp fuel a i).1.size = a.size
  := (sink_perm comp fuel a i).size_eq

theorem size_push (comp : α → α → Bool) (a : Array α) (x : α) :
  (push comp a x).size = a.size + 1
  := by
  have h := (push_perm comp a x).length_eq
  simpa only [Array.length_toList, List.length_cons] using h

theorem size_pop (comp : α → α → Bool) {a : Array α} {x : α} (h : top? a = some x) :
  a.size = (pop comp a).size + 1
  := by
  have h' := (pop_perm comp h).length_eq
  simpa only [Array.length_toList, List.length_cons] using h'

/-! ### The order -/

/-- The elements at `j` and at `k`, if they exist, are related by `r`. -/
def Related (r : α → α → Prop) (a : Array α) (j k : ℕ) : Prop :=
  ∀ x ∈ a[j]?, ∀ y ∈ a[k]?, r x y

theorem Related.trans
    {r : α → α → Prop} [IsTrans α r] {a : Array α} {j k l : ℕ} (hk : k < a.size)
    (hjk : Related r a j k) (hkl : Related r a k l) :
  Related r a j l
  := by
  intro x hx y hy
  have hz : a[k] ∈ a[k]? := Array.getElem?_eq_getElem hk
  apply IsTrans.trans x a[k] y (hjk x hx _ hz) (hkl _ hz y hy)

theorem related_swap
    {r : α → α → Prop} {a : Array α} {i j : ℕ} (hi : i < a.size) (hj : j < a.size) {k l : ℕ} :
  Related r (a.swap i j hi hj) k l ↔ Related r a (Equiv.swap i j k) (Equiv.swap i j l)
  := by
  have h : ∀ m, (a.swap i j hi hj)[m]? = a[Equiv.swap i j m]? := by
    intro m
    rw [Array.getElem?_swap]
    by_cases hjm : j = m
    · rw [if_pos hjm, ← hjm, Equiv.swap_apply_right, Array.getElem?_eq_getElem hi]
    · rw [if_neg hjm]
      by_cases him : i = m
      · rw [if_pos him, ← him, Equiv.swap_apply_left, Array.getElem?_eq_getElem hj]
      · rw [if_neg him, Equiv.swap_apply_of_ne_of_ne (Ne.symm him) (Ne.symm hjm)]
  simp only [Related, h]

/-- Every element is at or after its parent. -/
def Ordered (r : α → α → Prop) (a : Array α) : Prop :=
  ∀ i, 0 < i → Related r a ((i - 1) / 2) i

/-- The elements are at or after their parents, except that the children of `i` are
compared with the parent of `i`. -/
structure OrderedOff (r : α → α → Prop) (a : Array α) (i : ℕ) : Prop where
  off : ∀ j, 0 < j → j ≠ i → (j - 1) / 2 ≠ i → Related r a ((j - 1) / 2) j
  across : ∀ j, 0 < j → 0 < i → (j - 1) / 2 = i → Related r a ((i - 1) / 2) j

/-- The element at `i` is at or before its children. -/
def Below (r : α → α → Prop) (a : Array α) (i : ℕ) : Prop :=
  ∀ j, 0 < j → (j - 1) / 2 = i → Related r a i j

theorem OrderedOff.ordered
    {r : α → α → Prop} {a : Array α} {i : ℕ} (h : OrderedOff r a i) (hbelow : Below r a i)
    (habove : 0 < i → Related r a ((i - 1) / 2) i) :
  Ordered r a
  := by
  intro j hj
  by_cases hji : j = i
  · subst hji
    apply habove hj
  · by_cases hp : (j - 1) / 2 = i
    · rw [hp]
      apply hbelow j hj hp
    · apply h.off j hj hji hp

theorem ordered_empty {r : α → α → Prop} : Ordered r #[]
  := by
  intro i _ x hx
  cases hx

section

variable {r : α → α → Prop} [IsTrans α r] {a : Array α} {i : ℕ}

/-- Swapping the element at `i` with its parent, which it is at or before, moves the
position the heap is ordered off to the parent. -/
theorem OrderedOff.swap_parent
    (h : OrderedOff r a i) (hpos : 0 < i) (hi : i < a.size)
    (hle : Related r a i ((i - 1) / 2)) :
  OrderedOff r (a.swap ((i - 1) / 2) i (by omega) hi) ((i - 1) / 2)
    ∧ Below r (a.swap ((i - 1) / 2) i (by omega) hi) ((i - 1) / 2)
  := by
  obtain ⟨p, hp⟩ : ∃ p, p = (i - 1) / 2 := ⟨_, rfl⟩
  simp only [← hp] at hle ⊢
  have hpi : p < i := by omega
  refine ⟨⟨?_, ?_⟩, ?_⟩
  · intro j hj hjp hparent
    rw [related_swap, Equiv.swap_apply_of_ne_of_ne (x := j) hjp (by omega)]
    by_cases hji : (j - 1) / 2 = i
    · rw [hji, Equiv.swap_apply_right, hp]
      apply h.across j hj hpos hji
    · rw [Equiv.swap_apply_of_ne_of_ne hparent hji]
      apply h.off j hj (by omega) hji
  · intro j hj hp0 hparent
    have hpp : Related r a ((p - 1) / 2) p := h.off p hp0 (by omega) (by omega)
    rw [related_swap, Equiv.swap_apply_of_ne_of_ne (x := (p - 1) / 2) (by omega) (by omega)]
    by_cases hji : j = i
    · rw [hji, Equiv.swap_apply_right]
      apply hpp
    · rw [Equiv.swap_apply_of_ne_of_ne (by omega) hji]
      apply Related.trans (by omega) hpp
      rw [← hparent]
      apply h.off j hj hji (by omega)
  · intro j hj hparent
    rw [related_swap, Equiv.swap_apply_left]
    by_cases hji : j = i
    · rw [hji, Equiv.swap_apply_right]
      apply hle
    · rw [Equiv.swap_apply_of_ne_of_ne (by omega) hji]
      apply Related.trans (by omega) hle
      rw [← hparent]
      apply h.off j hj hji (by omega)

omit [IsTrans α r] in
/-- Swapping the element at `i` with a child `c` that is at or before the others moves the
position the heap is ordered off to the child. -/
theorem OrderedOff.swap_child
    (h : OrderedOff r a i) {c : ℕ} (hi : i < a.size) (hc : c < a.size) (hpos : 0 < c)
    (hparent : (c - 1) / 2 = i)
    (hle : ∀ j, 0 < j → j ≠ c → (j - 1) / 2 = i → Related r a c j) :
  OrderedOff r (a.swap i c hi hc) c
  := by
  constructor
  · intro j hj hjc hparent'
    rw [related_swap]
    by_cases hji : j = i
    · subst hji
      rw [Equiv.swap_apply_left, Equiv.swap_apply_of_ne_of_ne (by omega) hparent']
      apply h.across c hpos hj hparent
    · rw [Equiv.swap_apply_of_ne_of_ne hji hjc]
      by_cases hp : (j - 1) / 2 = i
      · rw [hp, Equiv.swap_apply_left]
        apply hle j hj hjc hp
      · rw [Equiv.swap_apply_of_ne_of_ne hp hparent']
        apply h.off j hj hji hp
  · intro j hj _ hp
    rw [related_swap, hparent, Equiv.swap_apply_left,
      Equiv.swap_apply_of_ne_of_ne (by omega) (by omega), ← hp]
    apply h.off j hj (by omega) (by omega)

end

section

variable {comp : α → α → Bool} {r : α → α → Prop}
  (hcomp : ∀ x y, comp x y = true → r y x) (hcomp' : ∀ x y, comp x y = false → r x y)

include hcomp in
theorem related_of_comp
    {a : Array α} {j k : ℕ} (hj : j < a.size) (hk : k < a.size) (h : comp a[j] a[k] = true) :
  Related r a k j
  := by
  intro y hy x hx
  obtain rfl := Option.some.inj ((Array.getElem?_eq_getElem hk).symm.trans hy)
  obtain rfl := Option.some.inj ((Array.getElem?_eq_getElem hj).symm.trans hx)
  apply hcomp _ _ h

include hcomp' in
theorem related_of_not_comp
    {a : Array α} {j k : ℕ} (hj : j < a.size) (hk : k < a.size) (h : comp a[j] a[k] = false) :
  Related r a j k
  := by
  intro x hx y hy
  obtain rfl := Option.some.inj ((Array.getElem?_eq_getElem hj).symm.trans hx)
  obtain rfl := Option.some.inj ((Array.getElem?_eq_getElem hk).symm.trans hy)
  apply hcomp' _ _ h

include hcomp hcomp'

/-- Sifting up from `i` orders a heap that is ordered off `i` and at or before its children
there. -/
theorem siftUp_ordered [IsTrans α r] :
  ∀ (fuel : ℕ) (a : Array α) (i : ℕ), i < a.size → i ≤ fuel → OrderedOff r a i → Below r a i →
    Ordered r (siftUp comp fuel a i)
  | 0, a, i, _, hfuel, h, hbelow => by
      apply h.ordered hbelow
      omega
  | fuel + 1, a, i, hi, hfuel, h, hbelow => by
      by_cases hpos : 0 < i
      · rw [siftUp, dif_pos ⟨hpos, hi⟩]
        have hp : (i - 1) / 2 < a.size := by omega
        cases hc : comp a[(i - 1) / 2] a[i] with
        | true =>
            obtain ⟨h', hbelow'⟩ := h.swap_parent hpos hi (related_of_comp hcomp _ hi hc)
            rw [if_pos rfl]
            apply siftUp_ordered fuel _ _ _ (by omega) h' hbelow'
            rw [Array.size_swap]
            omega
        | false =>
            rw [if_neg Bool.false_ne_true]
            apply h.ordered hbelow
            intro _
            apply related_of_not_comp hcomp' _ hi hc
      · rw [siftUp, dif_neg (by omega)]
        apply h.ordered hbelow
        omega

/-- Sinking from `i` ends at a position without children, with the heap ordered off it. -/
theorem sink_orderedOff :
  ∀ (fuel : ℕ) (a : Array α) (i : ℕ), i < a.size → a.size ≤ fuel + i → OrderedOff r a i →
    OrderedOff r (sink comp fuel a i).1 (sink comp fuel a i).2
      ∧ (sink comp fuel a i).2 < a.size ∧ a.size ≤ 2 * (sink comp fuel a i).2 + 1
  | 0, a, i, hi, hfuel, _ => by omega
  | fuel + 1, a, i, hi, hfuel, h => by
      have hchild : ∀ j, 0 < j → (j - 1) / 2 = i → j = 2 * i + 1 ∨ j = 2 * i + 2 := by omega
      rw [sink]
      split
      next hr =>
        cases hc : comp a[2 * i + 2] a[2 * i + 1] with
        | true =>
            have h' := h.swap_child (c := 2 * i + 1) hi (by omega) (by omega) (by omega) (by
              intro j hj hne hp
              obtain rfl := (hchild j hj hp).resolve_left hne
              apply related_of_comp hcomp hr (by omega) hc)
            have hsink := sink_orderedOff fuel _ (2 * i + 1)
              (by rw [Array.size_swap]; omega) (by rw [Array.size_swap]; omega) h'
            rw [Array.size_swap] at hsink
            apply hsink
        | false =>
            have h' := h.swap_child (c := 2 * i + 2) hi hr (by omega) (by omega) (by
              intro j hj hne hp
              obtain rfl := (hchild j hj hp).resolve_right hne
              apply related_of_not_comp hcomp' hr (by omega) hc)
            have hsink := sink_orderedOff fuel _ (2 * i + 2)
              (by rw [Array.size_swap]; omega) (by rw [Array.size_swap]; omega) h'
            rw [Array.size_swap] at hsink
            apply hsink
      next hr =>
        split
        next hl =>
          constructor
          · apply h.swap_child hi hl (by omega) (by omega)
            intro j hj hne hp x _ y hy
            obtain ⟨hjs, -⟩ := Array.getElem?_eq_some_iff.mp hy
            omega
          · exact ⟨hl, by omega⟩
        next hl => exact ⟨h, hi, by omega⟩

variable [IsTrans α r]

/-- A push keeps a heap ordered. -/
theorem push_ordered {a : Array α} (h : Ordered r a) (x : α) :
  Ordered r (push comp a x)
  := by
  have hge : ∀ j y, y ∈ (a.push x)[j]? → j ≤ a.size := by
    intro j y hy
    obtain ⟨hj, -⟩ := Array.getElem?_eq_some_iff.mp hy
    rw [Array.size_push] at hj
    omega
  apply siftUp_ordered hcomp hcomp'
  · rw [Array.size_push]
    omega
  · omega
  · constructor
    · intro j hj hne _ y hy z hz
      have hjs := hge j z hz
      rw [Array.getElem?_push, if_neg (by omega)] at hy hz
      apply h j hj y hy z hz
    · intro j hj hpos hp y _ z hz
      have := hge j z hz
      omega
  · intro j hj hp y _ z hz
    have := hge j z hz
    omega

/-- A pop keeps a heap ordered. -/
theorem pop_ordered {a : Array α} (h : Ordered r a) :
  Ordered r (pop comp a)
  := by
  rw [pop]
  split
  next hpos =>
    let b := (a.swap 0 (a.size - 1) hpos (by omega)).pop
    have hsize : b.size = a.size - 1 := by
      rw [Array.size_pop, Array.size_swap]
    have hsame : ∀ j, 0 < j → ∀ y ∈ b[j]?, y ∈ a[j]? := by
      intro j hj y hy
      obtain ⟨hjs, -⟩ := Array.getElem?_eq_some_iff.mp hy
      rw [Array.getElem?_pop, Array.size_swap, if_pos (by omega), Array.getElem?_swap,
        if_neg (by omega), if_neg (by omega)] at hy
      apply hy
    have hoff : OrderedOff r b 0 := by
      constructor
      · intro j hj _ hp x hx y hy
        apply h j hj x (hsame _ (by omega) x hx) y (hsame _ hj y hy)
      · omega
    change Ordered r (siftUp comp (sink comp b.size b 0).2 (sink comp b.size b 0).1
      (sink comp b.size b 0).2)
    by_cases hb : 0 < b.size
    · obtain ⟨hleaf, hlt, hge⟩ :=
        sink_orderedOff hcomp hcomp' b.size b 0 hb (by omega) hoff
      apply siftUp_ordered hcomp hcomp'
      · rw [size_sink]
        apply hlt
      · omega
      · apply hleaf
      · intro j hj hp x _ y hy
        obtain ⟨hjs, -⟩ := Array.getElem?_eq_some_iff.mp hy
        rw [size_sink] at hjs
        omega
    · obtain hb := Array.eq_empty_of_size_eq_zero (Nat.eq_zero_of_not_pos hb)
      rw [hb]
      intro j _ x _ y hy
      cases hy
  next => apply h

end

/-- The top of an ordered heap is at or before every element. -/
theorem Ordered.top_le
    {r : α → α → Prop} [Std.Refl r] [IsTrans α r] {a : Array α} (h : Ordered r a) {x : α}
    (hx : top? a = some x) {y : α} (hy : y ∈ a.toList) :
  r x y
  := by
  have hrel : ∀ i, i < a.size → Related r a 0 i := by
    intro i
    induction i using Nat.strongRecOn with
    | ind i ih =>
        intro hi
        rcases Nat.eq_zero_or_pos i with rfl | hpos
        · intro x hx y hy
          obtain rfl := Option.some.inj (hx.symm.trans hy)
          apply Std.Refl.refl
        · apply Related.trans (k := (i - 1) / 2) (by omega) _ (h i hpos)
          apply ih
          · omega
          · omega
  obtain ⟨i, hi, rfl⟩ := List.getElem_of_mem hy
  rw [Array.length_toList] at hi
  apply hrel i hi x hx
  rw [Array.getElem_toList]
  apply Array.getElem?_eq_getElem

/-! ### What a heap delivers -/

theorem exists_delivers (comp : α → α → Bool) :
  ∀ (n : ℕ) (a : Array α), a.size = n → ∃ xs, Delivers comp a xs
  | n, a, hn => by
      cases htop : top? a with
      | none =>
          use []
          apply htop
      | some x =>
          have hsize := size_pop comp htop
          obtain ⟨m, rfl⟩ := Nat.exists_eq_add_one_of_ne_zero (by omega : n ≠ 0)
          obtain ⟨xs, hxs⟩ := exists_delivers comp m (pop comp a) (by omega)
          use x :: xs, htop

/-- A heap delivers its elements. -/
theorem Delivers.perm {comp : α → α → Bool} :
  ∀ {xs : List α} {a : Array α}, Delivers comp a xs → xs.Perm a.toList
  | [], a, h => by
      have hsize : a.size = 0 := by
        have := Array.getElem?_eq_none_iff.mp h
        omega
      obtain rfl := Array.eq_empty_of_size_eq_zero hsize
      apply List.Perm.refl
  | x :: xs, a, ⟨htop, h⟩ => by
      apply (h.perm.cons x).trans
      apply (pop_perm comp htop).symm

/-- An ordered heap delivers its elements in order. -/
theorem Delivers.pairwise
    {comp : α → α → Bool} {r : α → α → Prop} [Std.Refl r] [IsTrans α r]
    (hcomp : ∀ x y, comp x y = true → r y x) (hcomp' : ∀ x y, comp x y = false → r x y) :
  ∀ {xs : List α} {a : Array α}, Delivers comp a xs → Ordered r a → xs.Pairwise r
  | [], _, _, _ => List.Pairwise.nil
  | x :: xs, a, ⟨htop, h⟩, ha => by
      have hpop := pop_ordered hcomp hcomp' ha
      apply List.Pairwise.cons _ (h.pairwise hcomp hcomp' hpop)
      intro y hy
      apply ha.top_le htop
      apply (pop_perm comp htop).mem_iff.mpr
      apply List.mem_cons_of_mem
      apply h.perm.mem_iff.mp hy

/-- Popping while the top satisfies `p` drops the elements that satisfy `p` off the front of what
the heap delivers. -/
theorem Delivers.popWhile {comp : α → α → Bool} (p : α → Bool) :
  ∀ {xs : List α} {a : Array α} {fuel : ℕ}, Delivers comp a xs → xs.length ≤ fuel →
    Delivers comp (popWhile comp p fuel a) (xs.dropWhile p)
  | [], a, fuel, h, _ => by
      have htop : top? a = none := h
      cases fuel with
      | zero => apply h
      | succ n =>
          rw [BinaryHeap.popWhile, htop]
          apply h
  | x :: xs, a, fuel + 1, h, hfuel => by
      rw [BinaryHeap.popWhile, h.1]
      dsimp only
      split
      next hp =>
        rw [List.dropWhile_cons_of_pos hp]
        apply h.2.popWhile p (Nat.le_of_succ_le_succ hfuel)
      next hp =>
        rw [List.dropWhile_cons_of_neg hp]
        apply h

/-! ### Comparisons that agree -/

section

variable {comp comp' : α → α → Bool} {p : α → Prop}
  (hsame : ∀ x y, p x → p y → comp x y = comp' x y)

include hsame

/-- Sifting up compares elements only. -/
theorem siftUp_congr :
  ∀ (fuel : ℕ) (a : Array α) (i : ℕ), (∀ x ∈ a, p x) →
    siftUp comp fuel a i = siftUp comp' fuel a i
  | 0, _, _, _ => rfl
  | fuel + 1, a, i, ha => by
      rw [siftUp, siftUp]
      split
      next h =>
        rw [hsame _ _ (ha _ (Array.getElem_mem _)) (ha _ (Array.getElem_mem _)),
          siftUp_congr fuel]
        intro x hx
        apply ha x ((Array.swap_perm _ _).mem_iff.mp hx)
      · rfl

/-- Sinking compares elements only. -/
theorem sink_congr :
  ∀ (fuel : ℕ) (a : Array α) (i : ℕ), (∀ x ∈ a, p x) →
    sink comp fuel a i = sink comp' fuel a i
  | 0, _, _, _ => rfl
  | fuel + 1, a, i, ha => by
      rw [sink, sink]
      split
      next h =>
        rw [hsame _ _ (ha _ (Array.getElem_mem _)) (ha _ (Array.getElem_mem _)),
          sink_congr fuel, sink_congr fuel]
        · intro x hx
          apply ha x ((Array.swap_perm _ _).mem_iff.mp hx)
        · intro x hx
          apply ha x ((Array.swap_perm _ _).mem_iff.mp hx)
      · rfl

theorem push_congr {a : Array α} {x : α} (ha : ∀ y ∈ a, p y) (hx : p x) :
  push comp a x = push comp' a x
  := by
  apply siftUp_congr hsame
  intro y hy
  rcases Array.mem_push.mp hy with hy | rfl
  · apply ha y hy
  · apply hx

theorem pop_congr {a : Array α} (ha : ∀ y ∈ a, p y) :
  pop comp a = pop comp' a
  := by
  rw [pop, pop]
  split
  next h =>
    have hb : ∀ y ∈ (a.swap 0 (a.size - 1) h (by omega)).pop, p y := by
      intro y hy
      apply ha y
      apply (Array.swap_perm h (by omega : a.size - 1 < a.size)).mem_iff.mp
      rw [Array.mem_def, Array.toList_pop] at hy
      apply Array.mem_def.mpr (List.dropLast_subset _ hy)
    dsimp only
    rw [sink_congr hsame _ _ _ hb, siftUp_congr hsame]
    intro y hy
    apply hb y ((sink_perm comp' _ _ _).mem_iff.mp hy)
  · rfl

/-- Comparisons that agree on the elements of a heap deliver them alike. -/
theorem Delivers.congr :
  ∀ {xs : List α} {a : Array α}, (∀ y ∈ a, p y) → Delivers comp a xs → Delivers comp' a xs
  | [], _, _, h => h
  | x :: xs, a, ha, h => by
      refine ⟨h.1, ?_⟩
      rw [← pop_congr hsame ha]
      apply Delivers.congr _ h.2
      intro y hy
      apply ha y
      apply Array.mem_def.mpr
      apply (pop_perm comp h.1).mem_iff.mpr
      apply List.mem_cons_of_mem x (Array.mem_def.mp hy)

end

/-! ### Heaps that are built -/

/-- Elements pushed to a heap are in it. -/
theorem foldl_push_perm (comp : α → α → Bool) :
  ∀ (xs : List α) (a : Array α), (xs.foldl (push comp) a).toList.Perm (a.toList ++ xs)
  | [], a => by
      rw [List.append_nil]
      exact List.Perm.refl _
  | x :: xs, a => by
      apply (foldl_push_perm comp xs (push comp a x)).trans
      apply ((push_perm comp a x).append_right xs).trans
      exact List.perm_middle.symm

/-- A heap built by pushes delivers its elements in the order of a comparison that agrees with
its own on them. -/
theorem exists_delivers_foldl_push {comp comp' : α → α → Bool} {r : α → α → Prop} [Std.Refl r]
    [IsTrans α r] (hcomp : ∀ x y, comp' x y = true → r y x)
    (hcomp' : ∀ x y, comp' x y = false → r x y) {xs : List α}
    (hsame : ∀ x y, x ∈ xs → y ∈ xs → comp x y = comp' x y) :
  ∃ ys, Delivers comp (xs.foldl (push comp) #[]) ys ∧ ys.Perm xs ∧ ys.Pairwise r
  := by
  have hordered : ∀ (zs : List α) (a : Array α), (∀ y ∈ a, y ∈ xs) → (∀ z ∈ zs, z ∈ xs) →
      Ordered r a → Ordered r (zs.foldl (push comp) a) := by
    intro zs
    induction zs with
    | nil => exact fun a _ _ h => h
    | cons z zs ih =>
        intro a ha hzs h
        have hz := hzs z List.mem_cons_self
        apply ih _ _ (fun y hy => hzs y (List.mem_cons_of_mem z hy))
        · rw [push_congr hsame ha hz]
          exact push_ordered hcomp hcomp' h z
        · intro y hy
          rcases List.mem_cons.mp ((push_perm comp a z).mem_iff.mp (Array.mem_def.mp hy))
            with rfl | hy
          · apply hz
          · apply ha y (Array.mem_def.mpr hy)
  have hperm : (xs.foldl (push comp) #[]).toList.Perm xs := foldl_push_perm comp xs #[]
  obtain ⟨ys, hdel⟩ := exists_delivers comp _ (xs.foldl (push comp) #[]) rfl
  refine ⟨ys, hdel, hdel.perm.trans hperm, ?_⟩
  have hdel' := hdel.congr hsame (fun y hy => hperm.mem_iff.mp (Array.mem_def.mp hy))
  apply hdel'.pairwise hcomp hcomp'
  exact hordered xs #[] (fun y hy => nomatch hy) (fun y hy => hy) ordered_empty

end BinaryHeap
