import TinyLsm.Basic

/-!
# Numbers as bytes

The integers of fixed width that files and logs hold, the least significant byte first.  A
number is written by as many of its digits to the base `256` as there is room for, and reads
back if these are all of them.
-/

namespace TinyLsm

/-- The number stored in a byte string, the least significant byte first. -/
def littleEndian : Bytes → ℕ
  | [] => 0
  | b :: bs => b.val + 256 * littleEndian bs

/-- The given number of bytes of a number, the least significant byte first. -/
def toLittleEndian : ℕ → ℕ → Bytes
  | 0, _ => []
  | count + 1, n => Fin.ofNat 256 n :: toLittleEndian count (n / 256)

@[simp]
theorem length_toLittleEndian :
  ∀ count n : ℕ, (toLittleEndian count n).length = count
  | 0, _ => rfl
  | count + 1, n => congrArg Nat.succ (length_toLittleEndian count (n / 256))

/-- As much of a number as there is room for reads back. -/
theorem littleEndian_toLittleEndian_mod :
  ∀ count n : ℕ, littleEndian (toLittleEndian count n) = n % 256 ^ count
  | 0, n => (Nat.mod_one n).symm
  | count + 1, n => by
      rw [toLittleEndian, littleEndian, littleEndian_toLittleEndian_mod count (n / 256),
        Nat.pow_succ, Nat.mul_comm (256 ^ count), Nat.mod_mul]
      rfl

/-- A number that fits reads back. -/
theorem littleEndian_toLittleEndian {count n : ℕ} (h : n < 256 ^ count) :
  littleEndian (toLittleEndian count n) = n
  := by
  rw [littleEndian_toLittleEndian_mod, Nat.mod_eq_of_lt h]

/-- Bytes are those of the number they store. -/
@[simp]
theorem toLittleEndian_littleEndian :
  ∀ bytes : Bytes, toLittleEndian bytes.length (littleEndian bytes) = bytes
  | [] => rfl
  | b :: bs => by
      have hb := b.isLt
      have hhead : Fin.ofNat 256 (b.val + 256 * littleEndian bs) = b := by
        apply Fin.ext
        rw [Fin.val_ofNat, Nat.add_mul_mod_self_left, Nat.mod_eq_of_lt hb]
      have htail : (b.val + 256 * littleEndian bs) / 256 = littleEndian bs := by omega
      rw [littleEndian, List.length_cons, toLittleEndian, hhead, htail,
        toLittleEndian_littleEndian bs]

/-- The bytes that there is room for are those of what fits. -/
theorem toLittleEndian_mod (count n : ℕ) :
  toLittleEndian count (n % 256 ^ count) = toLittleEndian count n
  := by
  have hbytes := toLittleEndian_littleEndian (toLittleEndian count n)
  rwa [length_toLittleEndian, littleEndian_toLittleEndian_mod] at hbytes

theorem littleEndian_lt : ∀ bytes : Bytes, littleEndian bytes < 256 ^ bytes.length
  | [] => Nat.one_pos
  | b :: bs => by
      have hb := b.isLt
      have hbs := littleEndian_lt bs
      rw [littleEndian, List.length_cons, Nat.pow_succ]
      omega

end TinyLsm
