import TinyLsm.Library.Delimited
import TinyLsm.RedisWrapper.Keys

/-!
# Replies, stored lists and machine integers

The forms of the replies; the lists that are stored as one value, the elements of a list and
the fields of a hash; and what the source's conversions between `int` and `size_t` do.
-/

namespace TinyLsm

namespace RedisWrapper

open TomlConfig

/-! ### Replies -/

def crlf : Bytes := bytes "\r\n"

def okReply : Bytes := bytes "+OK\r\n"

def nilReply : Bytes := bytes "$-1\r\n"

def integerReply (n : ℤ) : Bytes := bytes ":" ++ decimal n ++ crlf

def bulkReply (value : Bytes) : Bytes :=
  bytes "$" ++ decimal value.length ++ crlf ++ value ++ crlf

/-- An array that announces a number of elements. -/
def announcedReply (n : ℤ) (values : List Bytes) : Bytes :=
  bytes "*" ++ decimal n ++ crlf ++ values.flatMap bulkReply

def arrayReply (values : List Bytes) : Bytes := announcedReply values.length values

def wrongNumberReply (command : Bytes) : Bytes :=
  bytes "-ERR wrong number of arguments for '" ++ command ++ bytes "' command\r\n"

/-- A number is read off up to the end of its line. -/
theorem takeWhile_natDecimal_crlf (n : ℕ) (rest : Bytes) :
  (natDecimal n ++ (crlf ++ rest)).takeWhile (fun b => decide (IsDigit b)) = natDecimal n
  := by
  have hdigits : ∀ b ∈ natDecimal n, decide (IsDigit b) = true :=
    fun b hb => decide_eq_true (isDigit_of_mem_natDecimal hb)
  have hend : (crlf ++ rest).takeWhile (fun b => decide (IsDigit b)) = [] := rfl
  rw [List.takeWhile_append_of_pos hdigits, hend, List.append_nil]

/-- An array announces its length. -/
theorem length_eq_of_arrayReply_eq {values values' : List Bytes}
    (h : arrayReply values = arrayReply values') :
  values.length = values'.length
  := by
  simp only [arrayReply, announcedReply, decimal_natCast, List.append_assoc] at h
  have hannounced := congrArg (List.takeWhile (fun b => decide (IsDigit b)))
    (List.append_cancel_left h)
  rw [takeWhile_natDecimal_crlf, takeWhile_natDecimal_crlf] at hannounced
  exact natDecimal_injective hannounced

/-- Values are told apart by the replies they make up, as each announces its length. -/
theorem eq_of_flatMap_bulkReply_eq :
  ∀ {values values' : List Bytes}, values.length = values'.length →
    values.flatMap bulkReply = values'.flatMap bulkReply → values = values'
  | [], values', hlength, _ => (List.eq_nil_of_length_eq_zero hlength.symm).symm
  | _ :: _, [], hlength, _ => nomatch hlength
  | value :: values, value' :: values', hlength, h => by
      simp only [List.flatMap_cons, bulkReply, decimal_natCast, List.append_assoc] at h
      have h := List.append_cancel_left h
      have hannounced := congrArg (List.takeWhile (fun b => decide (IsDigit b))) h
      rw [takeWhile_natDecimal_crlf, takeWhile_natDecimal_crlf] at hannounced
      rw [hannounced] at h
      have h := List.append_cancel_left (List.append_cancel_left h)
      obtain ⟨rfl, hrest⟩ := List.append_inj h (natDecimal_injective hannounced)
      rw [eq_of_flatMap_bulkReply_eq (Nat.succ.inj hlength) (List.append_cancel_left hrest)]

theorem arrayReply_injective : Function.Injective arrayReply
  := by
  intro values values' h
  have hlength := length_eq_of_arrayReply_eq h
  rw [arrayReply, arrayReply, announcedReply, announcedReply, hlength] at h
  exact eq_of_flatMap_bulkReply_eq hlength (List.append_cancel_left h)

theorem integerReply_injective : Function.Injective integerReply
  := by
  intro m n h
  apply decimal_injective
  rw [integerReply, integerReply] at h
  exact List.append_cancel_left (List.append_cancel_right h)

theorem bulkReply_ne_nilReply (value : Bytes) : bulkReply value ≠ nilReply
  := by
  intro h
  simp only [bulkReply, decimal_natCast, List.append_assoc] at h
  have hannounced :=
    congrArg (fun reply => (reply.drop 1).takeWhile (fun b => decide (IsDigit b))) h
  have hdrop : ∀ rest, (bytes "$" ++ rest).drop 1 = rest := fun _ => rfl
  have hnil : (nilReply.drop 1).takeWhile (fun b => decide (IsDigit b)) = [] := by decide
  rw [hdrop, takeWhile_natDecimal_crlf, hnil] at hannounced
  exact natDecimal_ne_nil _ hannounced

/-! ### Lists in a value -/

def split (text : Bytes) (delimiter : Byte) : List Bytes := Delimited.split delimiter text

def join (elements : List Bytes) (delimiter : Byte) : Bytes := [delimiter].intercalate elements

/-- `std::string::substr` up to the end. -/
def substr (text : Bytes) (pos : ℕ) : Except Fault Bytes :=
  if text.length < pos then .error (.outOfRange "basic_string::substr") else .ok (text.drop pos)

def getFiledsFromHashValue (fieldListOpt : Option Bytes) : Except Fault (List Bytes) := do
  let fieldList := fieldListOpt.getD []
  let fieldList ← if fieldList = [] then .ok []
    else substr fieldList getInstance.redisHashValuePreffix.length
  return split fieldList getInstance.redisFieldSeparator

def getHashValueFromFields (fields : List Bytes) : Bytes :=
  getInstance.redisHashValuePreffix ++ join fields getInstance.redisFieldSeparator

def isValueHash (value : Bytes) : Bool := getInstance.redisHashValuePreffix.isPrefixOf value

theorem getHashValueFromFields_ne_nil (fields : List Bytes) : getHashValueFromFields fields ≠ []
  := List.append_ne_nil_of_left_ne_nil (by decide) _

@[simp]
theorem getFiledsFromHashValue_none : getFiledsFromHashValue none = .ok []
  := rfl

/-- A value that starts as a hash does is split after that. -/
theorem getFiledsFromHashValue_preffix (rest : Bytes) :
  getFiledsFromHashValue (some (getInstance.redisHashValuePreffix ++ rest)) =
    .ok (split rest getInstance.redisFieldSeparator)
  := by
  have hne : getInstance.redisHashValuePreffix ++ rest ≠ [] :=
    List.append_ne_nil_of_left_ne_nil (by decide) _
  rw [getFiledsFromHashValue, Option.getD_some, if_neg hne, substr,
    if_neg (by rw [List.length_append]; omega), List.drop_left]
  rfl

/-- Fields that are not empty and do not contain the separator are read back. -/
theorem getFiledsFromHashValue_getHashValueFromFields {fields : List Bytes}
    (h : ∀ field ∈ fields, field ≠ [] ∧ getInstance.redisFieldSeparator ∉ field) :
  getFiledsFromHashValue (some (getHashValueFromFields fields)) = .ok fields
  := by
  rw [getHashValueFromFields, getFiledsFromHashValue_preffix, split, join,
    Delimited.split_intercalate_of_ne_nil h]

/-! ### Machine integers -/

/-- The conversion of a number to `int`. -/
def toInt (n : ℤ) : ℤ := Int.bmod n (2 ^ 32)

/-- The conversion of an `int` to `size_t`. -/
def toSizeT (n : ℤ) : ℕ := (n % 2 ^ 64).toNat

/-- The result of arithmetic in a signed type, where it must fit. -/
def checkedSigned (bits : ℕ) (n : ℤ) : Except Fault ℤ :=
  if FitsSigned bits n then .ok n else .error .undefinedBehavior

theorem eq_of_checkedSigned {bits : ℕ} {m n : ℤ} (h : checkedSigned bits n = .ok m) : m = n
  := by
  rw [checkedSigned] at h
  split at h
  next => exact (Except.ok.inj h).symm
  next => cases h

theorem toInt_of_fits {n : ℤ} (h : FitsSigned 32 n) : toInt n = n
  := by
  obtain ⟨hle, hlt⟩ := h
  apply Int.bmod_eq_of_le
  · omega
  · omega

theorem toInt_le {n : ℤ} (h : 0 ≤ toInt n) (hn : -1 ≤ n) : toInt n ≤ n
  := by
  rw [toInt, Int.bmod_def] at h ⊢
  split at h <;> omega

theorem le_toInt (n : ℤ) : -2 ^ 31 ≤ toInt n
  := by
  rw [toInt, Int.bmod_def]
  split <;> omega

theorem toInt_lt (n : ℤ) : toInt n < 2 ^ 31
  := by
  rw [toInt, Int.bmod_def]
  split <;> omega

theorem toSizeT_of_nonneg {n : ℤ} (h : 0 ≤ n) (hlt : n < 2 ^ 64) : toSizeT n = n.toNat
  := by
  rw [toSizeT, Int.emod_eq_of_lt h hlt]

end RedisWrapper

end TinyLsm
