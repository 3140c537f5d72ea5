import Mathlib.Data.List.TakeWhile
import TinyLsm.Basic

/-!
# Texts and numbers

The bytes of a text, the decimal text of a number as `std::to_string` writes it, and the number
a text starts with as `std::stoi` and its relatives read it.
-/

namespace TinyLsm

def byteOfChar (c : Char) : Byte := Fin.ofNat 256 c.toNat

/-- The bytes of a text of one-byte characters. -/
def bytes (text : String) : Bytes := text.toList.map byteOfChar

/-! ### Writing numbers -/

def natDecimal (n : ℕ) : Bytes := (Nat.toDigits 10 n).map byteOfChar

/-- `std::to_string`. -/
def decimal (n : ℤ) : Bytes :=
  if n < 0 then bytes "-" ++ natDecimal n.natAbs else natDecimal n.natAbs

@[simp]
theorem decimal_natCast (n : ℕ) : decimal (n : ℤ) = natDecimal n
  := by
  rw [decimal, if_neg (not_lt_of_ge (Int.natCast_nonneg n)), Int.natAbs_natCast]

/-! ### Reading numbers -/

def IsSpace (b : Byte) : Prop := b = 32 ∨ 9 ≤ b ∧ b ≤ 13

instance (b : Byte) : Decidable (IsSpace b) :=
  inferInstanceAs (Decidable (b = 32 ∨ 9 ≤ b ∧ b ≤ 13))

def IsDigit (b : Byte) : Prop := 48 ≤ b ∧ b ≤ 57

instance (b : Byte) : Decidable (IsDigit b) := inferInstanceAs (Decidable (48 ≤ b ∧ b ≤ 57))

def digitsValue (digits : Bytes) : ℕ := digits.foldl (fun n b => 10 * n + (b.val - 48)) 0

/-- The digits a text starts with as a number; there is none if there are no digits. -/
def readDigits (text : Bytes) : Option ℕ :=
  match text.takeWhile (fun b => decide (IsDigit b)) with
  | [] => none
  | b :: digits => some (digitsValue (b :: digits))

/-- The number a text starts with, after blanks and with a sign or not. -/
def readInteger (text : Bytes) : Option ℤ :=
  match text.dropWhile (fun b => decide (IsSpace b)) with
  | [] => none
  | b :: rest =>
      if b = 45 then (readDigits rest).map (fun n : ℕ => -(n : ℤ))
      else if b = 43 then (readDigits rest).map (fun n : ℕ => (n : ℤ))
      else (readDigits (b :: rest)).map (fun n : ℕ => (n : ℤ))

/-- Whether a number fits a signed type of so many bits. -/
def FitsSigned (bits : ℕ) (n : ℤ) : Prop := -2 ^ (bits - 1) ≤ n ∧ n < 2 ^ (bits - 1)

instance (bits : ℕ) (n : ℤ) : Decidable (FitsSigned bits n) :=
  inferInstanceAs (Decidable (-2 ^ (bits - 1) ≤ n ∧ n < 2 ^ (bits - 1)))

/-- Read a number of a signed type: not a number is one exception, a number that does not fit
is another one. -/
def readSigned (function : String) (bits : ℕ) (text : Bytes) : Except Fault ℤ :=
  match readInteger text with
  | none => .error (.invalidArgument function)
  | some n => if FitsSigned bits n then .ok n else .error (.outOfRange function)

def stoi (text : Bytes) : Except Fault ℤ := readSigned "stoi" 32 text

def stol (text : Bytes) : Except Fault ℤ := readSigned "stol" 64 text

def stoll (text : Bytes) : Except Fault ℤ := readSigned "stoll" 64 text

/-- Read a number of sixty-four bits without a sign.  A minus negates it modulo `2 ^ 64`. -/
def stoull (text : Bytes) : Except Fault ℕ :=
  match readInteger text with
  | none => .error (.invalidArgument "stoull")
  | some n => if n.natAbs < 2 ^ 64 then .ok (n % 2 ^ 64).toNat else .error (.outOfRange "stoull")

theorem fits_of_readSigned {function : String} {bits : ℕ} {text : Bytes} {n : ℤ}
    (h : readSigned function bits text = .ok n) :
  FitsSigned bits n
  := by
  rw [readSigned] at h
  split at h
  next => cases h
  next m _ =>
    split at h
    next hfits => exact Except.ok.inj h ▸ hfits
    next => cases h

/-! ### Reading what has been written -/

theorem exists_of_mem_natDecimal {n : ℕ} {b : Byte} (h : b ∈ natDecimal n) :
  ∃ c ∈ Nat.toDigits 10 n, byteOfChar c = b ∧ IsDigit b ∧ b.val = c.toNat
  := by
  obtain ⟨c, hc, rfl⟩ := List.mem_map.mp h
  have hdigit := Nat.isDigit_of_mem_toDigits (by decide) (by decide) hc
  obtain ⟨hle, hge⟩ := Char.isDigit_iff_toNat.mp hdigit
  have hle : 48 ≤ c.toNat := hle
  have hge : c.toNat ≤ 57 := hge
  have hval : (byteOfChar c).val = c.toNat := Nat.mod_eq_of_lt (by omega)
  refine ⟨c, hc, rfl, ⟨?_, ?_⟩, hval⟩
  · apply Fin.le_def.mpr
    rw [hval]
    apply hle
  · apply Fin.le_def.mpr
    rw [hval]
    apply hge

theorem isDigit_of_mem_natDecimal {n : ℕ} {b : Byte} (h : b ∈ natDecimal n) :
  IsDigit b
  := by
  obtain ⟨c, -, -, hdigit, -⟩ := exists_of_mem_natDecimal h
  apply hdigit

theorem natDecimal_ne_nil (n : ℕ) : natDecimal n ≠ []
  := by
  rw [natDecimal, Nat.toDigits_eq_if (by decide)]
  split
  · exact List.cons_ne_nil _ _
  · rw [List.map_append]
    exact List.append_ne_nil_of_right_ne_nil _ (List.cons_ne_nil _ _)

theorem decimal_ne_nil (n : ℤ) : decimal n ≠ []
  := by
  rw [decimal]
  split
  · exact List.append_ne_nil_of_right_ne_nil _ (natDecimal_ne_nil _)
  · apply natDecimal_ne_nil

theorem digitsValue_natDecimal (n : ℕ) : digitsValue (natDecimal n) = n
  := by
  have hvalue : ∀ (cs : List Char) (m : ℕ), (∀ c ∈ cs, (byteOfChar c).val = c.toNat) →
      (cs.map byteOfChar).foldl (fun n b => 10 * n + (b.val - 48)) m =
        Nat.ofDigitChars 10 cs m := by
    intro cs
    induction cs with
    | nil =>
        intro m _
        rw [List.map_nil, List.foldl_nil, Nat.ofDigitChars_nil]
    | cons c cs ih =>
        intro m h
        rw [List.map_cons, List.foldl_cons, Nat.ofDigitChars_cons, h c List.mem_cons_self,
          ih _ (fun c' hc' => h c' (List.mem_cons_of_mem c hc'))]
        rfl
  rw [digitsValue, natDecimal, hvalue]
  · apply Nat.ofDigitChars_ten_toDigits
  · intro c hc
    obtain ⟨hle, hge⟩ := Char.isDigit_iff_toNat.mp
      (Nat.isDigit_of_mem_toDigits (by decide) (by decide) hc)
    have hge : c.toNat ≤ 57 := hge
    apply Nat.mod_eq_of_lt (by omega)

theorem natDecimal_injective : Function.Injective natDecimal
  := by
  intro m n h
  rw [← digitsValue_natDecimal m, h, digitsValue_natDecimal]

/-- The digits of a text are read up to what is not a digit. -/
theorem readDigits_append {text rest : Bytes} (h : ∀ b ∈ text, IsDigit b) (hne : text ≠ [])
    (hrest : ∀ b ∈ rest.head?, ¬ IsDigit b) :
  readDigits (text ++ rest) = some (digitsValue text)
  := by
  have htake : (text ++ rest).takeWhile (fun b => decide (IsDigit b)) = text := by
    rw [List.takeWhile_append_of_pos (fun b hb => decide_eq_true (h b hb))]
    cases rest with
    | nil => rw [List.takeWhile_nil, List.append_nil]
    | cons b rest =>
        rw [List.takeWhile_cons_of_neg (by rw [decide_eq_true_iff]; exact hrest b rfl),
          List.append_nil]
  rw [readDigits, htake]
  cases text with
  | nil => exact absurd rfl hne
  | cons b digits => rfl

/-- A number reads back from what it has been written as, whatever comes after it. -/
theorem readInteger_natDecimal_append (n : ℕ) {rest : Bytes}
    (hrest : ∀ b ∈ rest.head?, ¬ IsDigit b) :
  readInteger (natDecimal n ++ rest) = some (n : ℤ)
  := by
  have hdigits := readDigits_append (fun b => isDigit_of_mem_natDecimal) (natDecimal_ne_nil n) hrest
  rw [digitsValue_natDecimal] at hdigits
  cases htext : natDecimal n with
  | nil => exact absurd htext (natDecimal_ne_nil _)
  | cons b digits =>
      have hdigit : IsDigit b :=
        isDigit_of_mem_natDecimal (n := n) (by rw [htext]; exact List.mem_cons_self)
      have hspace : ¬ IsSpace b := by
        rintro (rfl | ⟨-, hle⟩)
        · exact absurd hdigit (by decide)
        · exact absurd (hdigit.1.trans hle) (by decide)
      have hminus : b ≠ 45 := by
        rintro rfl
        exact absurd hdigit (by decide)
      have hplus : b ≠ 43 := by
        rintro rfl
        exact absurd hdigit (by decide)
      rw [htext] at hdigits
      rw [List.cons_append] at hdigits ⊢
      rw [readInteger, List.dropWhile_cons_of_neg (by rw [decide_eq_true_iff]; exact hspace)]
      dsimp only
      rw [if_neg hminus, if_neg hplus, hdigits, Option.map_some]

theorem stoull_natDecimal {n : ℕ} (h : n < 2 ^ 64) : stoull (natDecimal n) = .ok n
  := by
  have hread := @readInteger_natDecimal_append n [] (fun _ h => nomatch h)
  rw [List.append_nil] at hread
  rw [stoull, hread]
  dsimp only
  rw [Int.natAbs_natCast, if_pos h]
  congr 1
  omega

/-- A number reads back from what it has been written as. -/
theorem readInteger_decimal (n : ℤ) : readInteger (decimal n) = some n
  := by
  have hnil : ∀ b ∈ ([] : Bytes).head?, ¬ IsDigit b := fun _ h => nomatch h
  rw [decimal]
  split
  next hneg =>
    have hdigits := readDigits_append (fun b => isDigit_of_mem_natDecimal)
      (natDecimal_ne_nil n.natAbs) hnil
    rw [digitsValue_natDecimal, List.append_nil] at hdigits
    change (readDigits (natDecimal n.natAbs)).map (fun n : ℕ => -(n : ℤ)) = some n
    rw [hdigits, Option.map_some, Int.ofNat_natAbs_of_nonpos (le_of_lt hneg), Int.neg_neg]
  next hnonneg =>
    have hread := readInteger_natDecimal_append n.natAbs hnil
    rwa [List.append_nil, Int.natAbs_of_nonneg (not_lt.mp hnonneg)] at hread

theorem readSigned_decimal {bits : ℕ} {n : ℤ} (h : FitsSigned bits n) (function : String) :
  readSigned function bits (decimal n) = .ok n
  := by
  rw [readSigned, readInteger_decimal]
  dsimp only
  rw [if_pos h]

theorem decimal_injective : Function.Injective decimal
  := by
  intro m n h
  apply Option.some.inj
  rw [← readInteger_decimal m, h, readInteger_decimal]

end TinyLsm
