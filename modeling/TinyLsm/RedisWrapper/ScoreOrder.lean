import TinyLsm.Library.Numerals
import TinyLsm.RedisWrapper.RangeIndices
import TinyLsm.RedisWrapper.ZsetIndex

/-!
# The order of the scores

ZRANGE lists the members of a sorted set by the texts of their scores, which have been padded
with zeros on the left.  The texts are ordered as the scores are, except for two negative scores
with equally many digits: after the sign, their digits are compared as if they were positive.
-/

namespace TinyLsm

/-- The decimal digits. -/
def decimalDigits : Digits Byte where
  base := 10
  IsDigit := IsDigit
  value b := b.val - 48
  zero := byteOfChar '0'
  value_lt h := by
    have := Fin.le_def.mp h.2
    change _ ≤ 57 at this
    omega
  lt_iff ha hb := by
    have hle := Fin.le_def.mp ha.1
    have hle' := Fin.le_def.mp hb.1
    change 48 ≤ _ at hle
    change 48 ≤ _ at hle'
    rw [Fin.lt_def]
    omega
  isDigit_zero := by decide
  value_zero := by decide

/-- The number of digits. -/
def width (n : ℤ) : ℕ := (natDecimal n.natAbs).length

theorem width_pos (n : ℤ) : 0 < width n
  := List.length_pos_iff.mpr (natDecimal_ne_nil _)

theorem width_le_iff {n : ℤ} {k : ℕ} (hk : 0 < k) : width n ≤ k ↔ n.natAbs < 10 ^ k
  := by
  rw [width, natDecimal, List.length_map]
  exact Nat.length_toDigits_le_iff (by decide) hk

theorem width_mono {m n : ℤ} (h : m.natAbs ≤ n.natAbs) : width m ≤ width n
  := (width_le_iff (width_pos n)).mpr (lt_of_le_of_lt h ((width_le_iff (width_pos n)).mp le_rfl))

theorem number_natDecimal (n : ℕ) : decimalDigits.number (natDecimal n) = n
  := digitsValue_natDecimal n

theorem isDigit_natDecimal (n : ℕ) : ∀ b ∈ natDecimal n, decimalDigits.IsDigit b
  := fun _ => isDigit_of_mem_natDecimal

theorem decimal_of_neg {n : ℤ} (h : n < 0) : decimal n = byteOfChar '-' :: natDecimal n.natAbs
  := by
  rw [decimal, if_pos h]
  rfl

theorem decimal_of_nonneg {n : ℤ} (h : 0 ≤ n) : decimal n = natDecimal n.natAbs
  := if_neg (not_lt.mpr h)

namespace RedisWrapper

open TomlConfig

/-! ### The padded texts -/

/-- Negative numbers with equally many digits. -/
def SameWidth (m n : ℤ) : Prop := m < 0 ∧ n < 0 ∧ width m = width n

instance (m n : ℤ) : Decidable (SameWidth m n) := inferInstanceAs (Decidable (_ ∧ _ ∧ _))

theorem SameWidth.symm {m n : ℤ} (h : SameWidth m n) : SameWidth n m
  := ⟨h.2.1, h.1, h.2.2.symm⟩

/-- Up to thirty-one digits leave room for a sign. -/
def FitsScore (n : ℤ) : Prop := width n ≤ 31

variable {m n : ℤ}

theorem fitsScore_of_lt (h : n.natAbs < 10 ^ 18) : FitsScore n
  := ((width_le_iff (by decide)).mpr h).trans (by decide)

theorem formattedScore_of_neg (h : n < 0) :
  formattedScore (decimal n) = List.replicate (31 - width n) (byteOfChar '0') ++
    byteOfChar '-' :: natDecimal n.natAbs
  := by
  have hlen : getInstance.redisSortedSetScoreLen - (natDecimal n.natAbs).length.succ =
      31 - width n := Nat.succ_sub_succ 31 _
  rw [formattedScore, decimal_of_neg h, List.leftpad, List.length_cons, hlen]

theorem isDigit_formattedScore (h : 0 ≤ n) :
  ∀ b ∈ formattedScore (decimal n), decimalDigits.IsDigit b
  := by
  rw [decimal_of_nonneg h]
  exact decimalDigits.isDigit_of_mem_leftpad (isDigit_natDecimal _)

theorem length_formattedScore (hn : 0 ≤ n) (h : FitsScore n) :
  (formattedScore (decimal n)).length = 32
  := by
  rw [formattedScore, decimal_of_nonneg hn, List.length_leftpad]
  exact max_eq_left (h.trans (by decide))

/-- A sign comes before digits. -/
theorem minus_lt : ∀ b, decimalDigits.IsDigit b → byteOfChar '-' < b
  := fun _ h => lt_of_lt_of_le (by decide) h.1

/-- Padded negative numbers with equally many digits are in the reverse order. -/
theorem formattedScore_lt_of_sameWidth (h : SameWidth m n) (hlt : n < m) :
  formattedScore (decimal m) < formattedScore (decimal n)
  := by
  obtain ⟨hm, hn, hwidth⟩ := h
  rw [formattedScore_of_neg hm, formattedScore_of_neg hn, hwidth]
  apply List.append_left_lt
  apply List.cons_lt_cons_iff.mpr
  refine .inr ⟨rfl, ?_⟩
  rw [decimalDigits.lt_iff_number_lt hwidth (isDigit_natDecimal _) (isDigit_natDecimal _),
    number_natDecimal, number_natDecimal]
  omega

/-- All other padded numbers are in their order. -/
theorem formattedScore_lt_of_lt (hfits : FitsScore m) (hfits' : FitsScore n)
    (h : ¬ SameWidth m n) (hlt : m < n) :
  formattedScore (decimal m) < formattedScore (decimal n)
  := by
  rcases lt_or_ge m 0 with hm | hm
  · rw [formattedScore_of_neg hm]
    rcases lt_or_ge n 0 with hn | hn
    · -- the longer one has its sign where the shorter one still has zeros
      have hle : width n ≤ width m := width_mono (by omega)
      have hne : width m ≠ width n := fun heq => h ⟨hm, hn, heq⟩
      have hzeros : 31 - width n = (31 - width m + 1) + (width m - width n - 1) := by
        rw [FitsScore] at hfits
        omega
      rw [formattedScore_of_neg hn, hzeros, List.replicate_add, List.append_assoc]
      apply decimalDigits.replicate_append_sign_lt minus_lt List.length_replicate
      intro b hb
      rw [List.eq_of_mem_replicate hb]
      apply decimalDigits.isDigit_zero
    · have hpos := width_pos m
      rw [← List.take_append_drop (31 - width m + 1) (formattedScore (decimal n))]
      apply decimalDigits.replicate_append_sign_lt minus_lt
      · rw [List.length_take, length_formattedScore hn hfits']
        omega
      · exact fun b hb => isDigit_formattedScore hn b (List.mem_of_mem_take hb)
  · have hn : 0 ≤ n := hm.trans (le_of_lt hlt)
    rw [decimal_of_nonneg hm, decimal_of_nonneg hn, formattedScore, formattedScore]
    apply (decimalDigits.leftpad_lt_leftpad_iff (isDigit_natDecimal _) (isDigit_natDecimal _)
      (hfits.trans (by decide)) (hfits'.trans (by decide))).mpr
    rw [number_natDecimal, number_natDecimal]
    omega

theorem formattedScore_lt_iff (hfits : FitsScore m) (hfits' : FitsScore n) :
  formattedScore (decimal m) < formattedScore (decimal n) ↔
    if SameWidth m n then n < m else m < n
  := by
  split
  next h =>
    refine ⟨?_, formattedScore_lt_of_sameWidth h⟩
    intro hlt
    rcases lt_trichotomy m n with hmn | rfl | hnm
    · exact absurd (formattedScore_lt_of_sameWidth h.symm hmn) (lt_asymm hlt)
    · exact absurd hlt (lt_irrefl _)
    · exact hnm
  next h =>
    refine ⟨?_, formattedScore_lt_of_lt hfits hfits' h⟩
    intro hlt
    rcases lt_trichotomy m n with hmn | rfl | hnm
    · exact hmn
    · exact absurd hlt (lt_irrefl _)
    · exact absurd (formattedScore_lt_of_lt hfits' hfits (fun h' => h h'.symm) hnm) (lt_asymm hlt)

/-- Different scores have different texts, also after the padding. -/
theorem formattedScore_ne (hfits : FitsScore m) (hfits' : FitsScore n) (hne : m ≠ n) :
  formattedScore (decimal m) ≠ formattedScore (decimal n)
  := by
  intro heq
  have hlt := formattedScore_lt_iff hfits hfits'
  have hgt := formattedScore_lt_iff hfits' hfits
  rw [heq, iff_false_left (lt_irrefl _)] at hlt hgt
  by_cases h : SameWidth m n
  · rw [if_pos h] at hlt
    rw [if_pos h.symm] at hgt
    omega
  · rw [if_neg h] at hlt
    rw [if_neg (fun h' => h h'.symm)] at hgt
    omega

end RedisWrapper

end TinyLsm
