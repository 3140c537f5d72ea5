import TinyLsm.Library.Cursor
import TinyLsm.RedisWrapper.ZsetIndex

/-!
# Increments of scores

ZINCRBY adds an increment to a score by way of a floating point number and of `uint64_t`.  Floating
point numbers are exact for whole numbers up to `2 ^ 53`; a sum that is negative has no conversion
to `uint64_t`, and whatever the conversion gives is written without a sign.
-/

namespace TinyLsm

/-- Floating point numbers of 53 bits: up to `2 ^ 53`, whole numbers are read, converted and added
exactly. -/
class Doubles.Exact [Doubles] : Prop where
  stod_decimal : ∀ {n : ℤ}, n.natAbs ≤ 2 ^ 53 → Doubles.stod (decimal n) = .ok (Doubles.ofLong n)
  add_ofLong : ∀ {m n : ℤ}, m.natAbs ≤ 2 ^ 53 → n.natAbs ≤ 2 ^ 53 → (m + n).natAbs ≤ 2 ^ 53 →
    Doubles.add (Doubles.ofLong m) (Doubles.ofLong n) = Doubles.ofLong (m + n)
  toUInt64_ofLong : ∀ {n : ℕ}, n ≤ 2 ^ 53 →
    Doubles.toUInt64 (Doubles.ofLong n) = .ok (UInt64.ofNat n)

theorem Doubles.exact_whole : letI := Doubles.whole; Doubles.Exact
  := by
  let _ := Doubles.whole
  constructor
  · intro n _
    simp only [Doubles.stod, readInteger_decimal]
    rfl
  · exact fun _ _ _ => rfl
  · intro n h
    have hfits : (n : ℤ) < 2 ^ 64 := by omega
    exact if_pos ⟨Int.natCast_nonneg n, hfits⟩

namespace RedisWrapper

/-- The score of a member, `0` if it has none; of an expired set nothing is left. -/
inductive HasScore (key elem : Bytes) (w : World) : ℤ → Prop
  | stored {score : ℤ} (h : Unexpired key w)
      (hget : w.lsm.get (getZsetKeyElem key elem) = some (decimal score)) :
      HasScore key elem w score
  | absent (h : Unexpired key w) (hget : w.lsm.get (getZsetKeyElem key elem) = none) :
      HasScore key elem w 0
  | expired (h : Lapsed key w) : HasScore key elem w 0

/-- ZINCRBY answers a score, and then ZSCORE does. -/
def IncrementsTo [Doubles] (key increment elem : Bytes) (lsm : LSM) (now now' : ℤ) (score : ℤ) :
    Prop :=
  let outcome := (Command.zincrby key increment elem).exec now lsm
  outcome.1 = .ok (integerReply score) ∧
    ((Command.zscore key elem).exec now' outcome.2).1 = .ok (bulkReply (decimal score))

section

variable [Doubles] {key elem : Bytes} {lsm : LSM} {now now' : ℤ} {old change : ℤ}

/-! ### The sum -/

section

variable [Doubles.Exact] (hold : old.natAbs ≤ 2 ^ 53) (hchange : change.natAbs ≤ 2 ^ 53)
  (hsum : (old + change).natAbs ≤ 2 ^ 53)

include hold hchange hsum

theorem incrementedScore_eq {original : Option Bytes}
    (h : original = some (decimal old) ∨ original = none ∧ old = 0) :
  incrementedScore original (decimal change) = (do
    let newScore ← Doubles.toUInt64 (Doubles.ofLong (old + change))
    return natDecimal newScore.toNat)
  := by
  have hread := Doubles.Exact.stod_decimal hchange
  have hscore : scoreSum original (decimal change) = .ok (Doubles.ofLong (old + change)) := by
    rcases h with rfl | ⟨rfl, rfl⟩
    · have hstol : stol (decimal old) = .ok old := readSigned_decimal (by constructor <;> omega) _
      rw [scoreSum, Except.bind_eq_of_ok _ hstol, Except.bind_eq_of_ok _ hread,
        Doubles.Exact.add_ofLong hold hchange hsum]
      rfl
    · rw [scoreSum, hread, Int.zero_add]
  rw [incrementedScore, Except.bind_eq_of_ok _ hscore]

/-- A sum that is not negative is the new score. -/
theorem incrementedScore_of_nonneg {original : Option Bytes}
    (h : original = some (decimal old) ∨ original = none ∧ old = 0) (hnonneg : 0 ≤ old + change) :
  incrementedScore original (decimal change) = .ok (decimal (old + change))
  := by
  obtain ⟨n, hn⟩ := Int.eq_ofNat_of_zero_le hnonneg
  have hfits : n ≤ 2 ^ 53 := by omega
  have hsize : n < 2 ^ 64 := lt_of_le_of_lt hfits (by decide)
  rw [incrementedScore_eq hold hchange hsum h, hn,
    Except.bind_eq_of_ok _ (Doubles.Exact.toUInt64_ofLong hfits), UInt64.toNat_ofNat_of_lt' hsize,
    decimal_natCast]
  rfl

end

/-- No new score is negative. -/
theorem nonneg_of_incrementedScore {original : Option Bytes} {increment : Bytes} {score : ℤ}
    (h : incrementedScore original increment = .ok (decimal score)) :
  0 ≤ score
  := by
  rw [incrementedScore] at h
  obtain ⟨sum, -, h⟩ := Except.exists_of_bind_eq_ok h
  obtain ⟨newScore, -, h⟩ := Except.exists_of_bind_eq_ok h
  have heq : decimal newScore.toNat = decimal score :=
    (decimal_natCast _).trans (Except.ok.inj h)
  rw [← decimal_injective heq]
  apply Int.natCast_nonneg

/-! ### The commands -/

/-- What ZINCRBY does on a key that is not expired. -/
theorem incrementsTo_of_unexpired (h : Unexpired key ⟨lsm, now⟩) {increment : Bytes} {score : ℤ}
    (hlater : Unexpired key ⟨((Command.zincrby key increment elem).exec now lsm).2, now'⟩) :
  IncrementsTo key increment elem lsm now now' score ↔
    incrementedScore (lsm.get (getZsetKeyElem key elem)) increment = .ok (decimal score)
  := by
  rw [IncrementsTo]
  rw [Command.exec, Command.program] at hlater ⊢
  cases hnew : incrementedScore (lsm.get (getZsetKeyElem key elem)) increment with
  | error e =>
      rw [run_redisZincrby_of_error h hnew]
      apply iff_of_false
      · rintro ⟨⟨⟩, -⟩
      · rintro ⟨⟩
  | ok newScore =>
      have hne := incrementedScore_ne_nil hnew
      rw [run_redisZincrby h hnew] at hlater ⊢
      dsimp only at hlater ⊢
      rw [Command.exec, Command.program, run_redisZscore hlater,
        LSM.get_put_of_ne _ (getZsetKeySocre_ne_getZsetKeyElem key newScore elem).symm,
        LSM.get_put_self, LSM.stored_of_ne_nil hne, integerReply]
      constructor
      · rintro ⟨hreply, -⟩
        have heq := Except.ok.inj hreply
        rw [List.append_assoc, List.append_assoc, List.append_cancel_left_eq,
          List.append_cancel_right_eq] at heq
        rw [heq]
      · intro heq
        rw [Except.ok.inj heq]
        exact ⟨rfl, rfl⟩

/-- On an expired key ZINCRBY does what it does after the cleaning. -/
theorem exists_exec_zincrby_of_lapsed (h : Lapsed key ⟨lsm, now⟩) (increment elem : Bytes) :
  ∃ cleaned : LSM, Unexpired key ⟨cleaned, now⟩ ∧ cleaned.get (getZsetKeyElem key elem) = none ∧
    (Command.zincrby key increment elem).exec now lsm =
      (Command.zincrby key increment elem).exec now cleaned
  := by
  obtain ⟨cleaned, hclean, hget⟩ := run_cleanPreffix (getZsetKeyPreffix key) key ⟨lsm, now⟩
  rw [← cleanZset] at hclean
  have hunexpired : Unexpired key ⟨cleaned, now⟩ :=
    .inl ((hget _).trans (if_pos (.inr (.inl rfl))))
  refine ⟨cleaned, hunexpired, ?_, ?_⟩
  · exact (hget _).trans (if_pos (.inr (.inr (under_getZsetKeyElem key elem))))
  · rw [Command.exec, Command.exec, Command.program, redisZincrby, Redis.run_lock, Redis.run_lock,
      expireZsetClean, Redis.run_bind_of_ok (run_expireClean_of_lapsed h hclean),
      Redis.run_bind_of_ok (run_expireClean_of_unexpired hunexpired _)]
    rfl

/-- For a score, an increment and a sum up to `2 ^ 53`, ZINCRBY answers the sum, and afterwards
ZSCORE does, if and only if the sum is not negative. -/
theorem incrementsTo_iff [Doubles.Exact] (hscore : HasScore key elem ⟨lsm, now⟩ old)
    (hold : old.natAbs ≤ 2 ^ 53) (hchange : change.natAbs ≤ 2 ^ 53)
    (hsum : (old + change).natAbs ≤ 2 ^ 53)
    (hlater :
      Unexpired key ⟨((Command.zincrby key (decimal change) elem).exec now lsm).2, now'⟩) :
  IncrementsTo key (decimal change) elem lsm now now' (old + change) ↔ 0 ≤ old + change
  := by
  have hexact : ∀ {lsm : LSM}, Unexpired key ⟨lsm, now⟩ →
      (lsm.get (getZsetKeyElem key elem) = some (decimal old) ∨
        lsm.get (getZsetKeyElem key elem) = none ∧ old = 0) →
      Unexpired key ⟨((Command.zincrby key (decimal change) elem).exec now lsm).2, now'⟩ →
      (IncrementsTo key (decimal change) elem lsm now now' (old + change) ↔ 0 ≤ old + change) := by
    intro lsm hunexpired horiginal hlater
    rw [incrementsTo_of_unexpired hunexpired hlater]
    exact ⟨nonneg_of_incrementedScore, incrementedScore_of_nonneg hold hchange hsum horiginal⟩
  cases hscore with
  | stored hunexpired hget => exact hexact hunexpired (.inl hget) hlater
  | absent hunexpired hget => exact hexact hunexpired (.inr ⟨hget, rfl⟩) hlater
  | expired hlapsed =>
      obtain ⟨cleaned, hunexpired, hget, hexec⟩ :=
        exists_exec_zincrby_of_lapsed hlapsed (decimal change) elem
      rw [hexec] at hlater
      rw [IncrementsTo, hexec, ← IncrementsTo]
      exact hexact hunexpired (.inr ⟨hget, rfl⟩) hlater

end

theorem incrementsTo_iff_absent :
  letI := Doubles.whole
  IncrementsTo (bytes "k") (decimal 5) (bytes "a") .empty 0 1 5 ↔ 0 ≤ (0 : ℤ) + 5
  := by
  let _ := Doubles.whole
  have := Doubles.exact_whole
  exact incrementsTo_iff (.absent (.inl rfl) rfl) (by decide) (by decide) (by decide) (.inl rfl)

/-- A member with the score `3` is not given the score `-2`. -/
theorem not_incrementsTo_negative :
  letI := Doubles.whole
  let lsm := ((Command.zadd (bytes "k") [(decimal 3, bytes "a")]).exec 0 .empty).2
  ((Command.zscore (bytes "k") (bytes "a")).exec 1 lsm).1 = .ok (bulkReply (decimal 3)) ∧
    ¬ IncrementsTo (bytes "k") (decimal (-5)) (bytes "a") lsm 1 2 (-2)
  := by
  let _ := Doubles.whole
  refine ⟨by decide +kernel, ?_⟩
  rintro ⟨hreply, -⟩
  revert hreply
  decide +kernel

end RedisWrapper

end TinyLsm
