import Mathlib.Data.List.Sort
import Mathlib.Tactic.Ring

/-!
# Numerals in lexicographic order

Digits over an ordered alphabet, from the most significant one on.  Numerals of one length are
ordered lexicographically as their values are; numerals of different lengths are after they have
been padded with zeros.

A sign below the digits, after the padding, puts a numeral before the ones whose digits start no
later.
-/

/-- The digits of an alphabet. -/
structure Digits (α : Type*) [LinearOrder α] where
  base : ℕ
  IsDigit : α → Prop
  value : α → ℕ
  zero : α
  value_lt : ∀ {a}, IsDigit a → value a < base
  lt_iff : ∀ {a b}, IsDigit a → IsDigit b → (a < b ↔ value a < value b)
  isDigit_zero : IsDigit zero
  value_zero : value zero = 0

namespace Digits

variable {α : Type*} [LinearOrder α] (d : Digits α) {a b : α} {xs ys : List α}

/-- The number that a numeral stands for. -/
def number (xs : List α) : ℕ := xs.foldl (fun n a => d.base * n + d.value a) 0

theorem foldl_eq (n : ℕ) (xs : List α) :
  xs.foldl (fun n a => d.base * n + d.value a) n = d.base ^ xs.length * n + d.number xs
  := by
  rw [number]
  induction xs generalizing n with
  | nil => rw [List.foldl_nil, List.foldl_nil, List.length_nil, pow_zero, one_mul, add_zero]
  | cons a xs ih =>
      rw [List.foldl_cons, List.foldl_cons, ih, ih (d.base * 0 + d.value a), List.length_cons]
      ring

theorem number_cons (a : α) (xs : List α) :
  d.number (a :: xs) = d.base ^ xs.length * d.value a + d.number xs
  := by
  rw [number, List.foldl_cons, foldl_eq, Nat.mul_zero, Nat.zero_add]

theorem number_lt (h : ∀ a ∈ xs, d.IsDigit a) : d.number xs < d.base ^ xs.length
  := by
  induction xs with
  | nil => exact Nat.one_pos
  | cons a xs ih =>
      obtain ⟨ha, hxs⟩ := List.forall_mem_cons.mp h
      rw [number_cons, List.length_cons, pow_succ]
      calc
        d.base ^ xs.length * d.value a + d.number xs
          < d.base ^ xs.length * d.value a + d.base ^ xs.length := Nat.add_lt_add_left (ih hxs) _
        _ = d.base ^ xs.length * (d.value a + 1) := (Nat.mul_succ _ _).symm
        _ ≤ d.base ^ xs.length * d.base := Nat.mul_le_mul_left _ (d.value_lt ha)

/-- Digits of the same value are the same. -/
theorem eq_of_value_eq (ha : d.IsDigit a) (hb : d.IsDigit b) (h : d.value a = d.value b) : a = b
  := by
  apply le_antisymm
  · rw [← not_lt, d.lt_iff hb ha, h]
    exact lt_irrefl _
  · rw [← not_lt, d.lt_iff ha hb, h]
    exact lt_irrefl _

/-- Numerals of one length are ordered as the numbers. -/
theorem lt_iff_number_lt :
  ∀ {xs ys : List α}, xs.length = ys.length → (∀ a ∈ xs, d.IsDigit a) → (∀ a ∈ ys, d.IsDigit a) →
    (xs < ys ↔ d.number xs < d.number ys)
  | [], [], _, _, _ => iff_of_false (List.not_lt_nil _) (lt_irrefl _)
  | [], _ :: _, hlength, _, _ => nomatch hlength
  | _ :: _, [], hlength, _, _ => nomatch hlength
  | a :: xs, b :: ys, hlength, hxs, hys => by
      have hlength := Nat.succ.inj hlength
      obtain ⟨ha, hxs⟩ := List.forall_mem_cons.mp hxs
      obtain ⟨hb, hys⟩ := List.forall_mem_cons.mp hys
      have hltx := d.number_lt hxs
      have hlty := d.number_lt hys
      rw [List.cons_lt_cons_iff, number_cons, number_cons, lt_iff_number_lt hlength hxs hys]
      rw [hlength] at hltx ⊢
      have hstep : ∀ {m n : ℕ}, m < n →
          d.base ^ ys.length * m + d.base ^ ys.length ≤ d.base ^ ys.length * n :=
        fun h => Nat.mul_le_mul_left _ h
      rcases lt_trichotomy (d.value a) (d.value b) with hlt | heq | hgt
      · have hle := hstep hlt
        exact iff_of_true (.inl ((d.lt_iff ha hb).mpr hlt)) (by omega)
      · obtain rfl := d.eq_of_value_eq ha hb heq
        rw [or_iff_right (lt_irrefl a), and_iff_right rfl, Nat.add_lt_add_iff_left]
      · have hle := hstep hgt
        refine iff_of_false ?_ (by omega)
        rintro (hab | ⟨rfl, -⟩)
        · exact absurd ((d.lt_iff ha hb).mp hab) (not_lt_of_gt hgt)
        · exact lt_irrefl _ hgt

/-! ### Padding -/

theorem isDigit_of_mem_leftpad {n : ℕ} (h : ∀ a ∈ xs, d.IsDigit a) :
  ∀ a ∈ xs.leftpad n d.zero, d.IsDigit a
  := by
  intro a ha
  rcases List.mem_append.mp ha with ha | ha
  · rw [List.eq_of_mem_replicate ha]
    apply d.isDigit_zero
  · apply h a ha

theorem number_leftpad (n : ℕ) (xs : List α) : d.number (xs.leftpad n d.zero) = d.number xs
  := by
  rw [List.leftpad]
  induction n - xs.length with
  | zero => rfl
  | succ k ih => rw [List.replicate_succ, List.cons_append, number_cons, d.value_zero, ih,
      Nat.mul_zero, Nat.zero_add]

/-- Numerals that have been padded to one length are ordered as the numbers. -/
theorem leftpad_lt_leftpad_iff {n : ℕ} (hxs : ∀ a ∈ xs, d.IsDigit a) (hys : ∀ a ∈ ys, d.IsDigit a)
    (hxn : xs.length ≤ n) (hyn : ys.length ≤ n) :
  xs.leftpad n d.zero < ys.leftpad n d.zero ↔ d.number xs < d.number ys
  := by
  have hlength : (xs.leftpad n d.zero).length = (ys.leftpad n d.zero).length := by
    rw [List.length_leftpad, List.length_leftpad, max_eq_left hxn, max_eq_left hyn]
  rw [d.lt_iff_number_lt hlength (d.isDigit_of_mem_leftpad hxs) (d.isDigit_of_mem_leftpad hys),
    number_leftpad, number_leftpad]

/-- Zeros and a sign are before digits that go on at least to the place of the sign. -/
theorem replicate_append_sign_lt {sign : α} (hsign : ∀ a, d.IsDigit a → sign < a) :
  ∀ {k : ℕ} {ys : List α}, ys.length = k + 1 → (∀ a ∈ ys, d.IsDigit a) → ∀ xs zs,
    List.replicate k d.zero ++ sign :: xs < ys ++ zs
  | 0, a :: _, _, hys, _, _ => List.cons_lt_cons_iff.mpr (.inl (hsign a (hys a List.mem_cons_self)))
  | k + 1, a :: ys, hlength, hys, xs, zs => by
      obtain ⟨ha, hys⟩ := List.forall_mem_cons.mp hys
      rw [List.replicate_succ, List.cons_append, List.cons_append, List.cons_lt_cons_iff]
      rcases Nat.eq_zero_or_pos (d.value a) with hzero | hpos
      · have heq := d.eq_of_value_eq d.isDigit_zero ha (by rw [d.value_zero, hzero])
        exact .inr ⟨heq, replicate_append_sign_lt hsign (Nat.succ.inj hlength) hys xs zs⟩
      · exact .inl ((d.lt_iff d.isDigit_zero ha).mpr (by rw [d.value_zero]; exact hpos))

end Digits
