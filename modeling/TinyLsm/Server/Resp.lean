import TinyLsm.RedisWrapper.Replies

/-!
# Values of the protocol

A value is a line, a number on a line, a string after a line with its length, or an array of values
after a line with their number.
-/

namespace TinyLsm

namespace Resp

open RedisWrapper

/-- A text without the characters that end a line. -/
def OneLine (text : Bytes) : Prop := byteOfChar '\r' ∉ text ∧ byteOfChar '\n' ∉ text

instance : DecidablePred OneLine := fun text =>
  inferInstanceAs (Decidable (byteOfChar '\r' ∉ text ∧ byteOfChar '\n' ∉ text))

def withoutSign (text : Bytes) : Bytes :=
  if text.head? = some (byteOfChar '-') ∨ text.head? = some (byteOfChar '+') then text.tail else text

/-- A number may have a sign, and has digits. -/
def IsNumber (text : Bytes) : Prop := withoutSign text ≠ [] ∧ ∀ b ∈ withoutSign text, IsDigit b

instance : DecidablePred IsNumber := fun text =>
  @instDecidableAnd _ _ inferInstance (List.decidableBAll IsDigit (withoutSign text))

inductive IsValue : Bytes → Prop
  | simpleString {text : Bytes} (h : OneLine text) : IsValue (bytes "+" ++ text ++ crlf)
  | error {text : Bytes} (h : OneLine text) : IsValue (bytes "-" ++ text ++ crlf)
  | integer {text : Bytes} (h : IsNumber text) : IsValue (bytes ":" ++ text ++ crlf)
  | bulkString (value : Bytes) : IsValue (bulkReply value)
  | nil : IsValue nilReply
  | array {values : List Bytes} (h : ∀ value ∈ values, IsValue value) :
      IsValue (bytes "*" ++ natDecimal values.length ++ crlf ++ values.flatten)

theorem OneLine.append {x y : Bytes} (hx : OneLine x) (hy : OneLine y) : OneLine (x ++ y)
  := ⟨fun h => (List.mem_append.mp h).elim hx.1 hy.1, fun h => (List.mem_append.mp h).elim hx.2 hy.2⟩

theorem OneLine.of_append_left {x y : Bytes} (h : OneLine (x ++ y)) : OneLine x
  := ⟨fun hx => h.1 (List.mem_append_left y hx), fun hx => h.2 (List.mem_append_left y hx)⟩

theorem OneLine.of_append_right {x y : Bytes} (h : OneLine (x ++ y)) : OneLine y
  := ⟨fun hy => h.1 (List.mem_append_right x hy), fun hy => h.2 (List.mem_append_right x hy)⟩

/-! ### The first character of a value -/

/-- An error is on one line. -/
theorem isValue_error_iff {text : Bytes} :
  IsValue (bytes "-" ++ text ++ crlf) ↔ OneLine text
  := by
  constructor
  · intro h
    generalize hreply : bytes "-" ++ text ++ crlf = reply at h
    cases h with
    | error h =>
        have heq := List.append_cancel_left (List.append_cancel_right hreply)
        exact heq ▸ h
    | _ => cases hreply
  · exact .error

/-- A number is all that is on its line. -/
theorem isValue_integer_iff {text : Bytes} :
  IsValue (bytes ":" ++ text ++ crlf) ↔ IsNumber text
  := by
  constructor
  · intro h
    generalize hreply : bytes ":" ++ text ++ crlf = reply at h
    cases h with
    | integer h =>
        have heq := List.append_cancel_left (List.append_cancel_right hreply)
        exact heq ▸ h
    | _ => cases hreply
  · exact .integer

/-! ### The forms of the replies -/

theorem isValue_okReply : IsValue okReply
  := .simpleString (by decide : OneLine (bytes "OK"))

theorem isNumber_natDecimal (n : ℕ) : IsNumber (natDecimal n)
  := by
  have hsame : withoutSign (natDecimal n) = natDecimal n := by
    rw [withoutSign, if_neg]
    rintro (h | h)
    · exact absurd (isDigit_of_mem_natDecimal (List.mem_of_mem_head? h)) (by decide)
    · exact absurd (isDigit_of_mem_natDecimal (List.mem_of_mem_head? h)) (by decide)
  rw [IsNumber, hsame]
  exact ⟨natDecimal_ne_nil n, fun _ => isDigit_of_mem_natDecimal⟩

theorem isNumber_decimal (n : ℤ) : IsNumber (decimal n)
  := by
  rw [decimal]
  split
  · exact ⟨natDecimal_ne_nil _, fun _ => isDigit_of_mem_natDecimal⟩
  · apply isNumber_natDecimal

theorem isValue_integerReply (n : ℤ) : IsValue (integerReply n)
  := .integer (isNumber_decimal n)

theorem isValue_arrayReply (values : List Bytes) : IsValue (arrayReply values)
  := by
  have harray : IsValue (bytes "*" ++ natDecimal (values.map bulkReply).length ++ crlf ++
      (values.map bulkReply).flatten) := by
    apply IsValue.array
    intro value hmem
    obtain ⟨text, -, rfl⟩ := List.mem_map.mp hmem
    apply IsValue.bulkString
  rwa [List.length_map, ← List.flatMap_def, ← decimal_natCast] at harray

theorem isValue_wrongNumberReply {command : Bytes} (h : OneLine command) :
  IsValue (wrongNumberReply command)
  := by
  have hline : OneLine (bytes "ERR wrong number of arguments for '" ++ command ++
      bytes "' command") := ((by decide : OneLine _).append h).append (by decide)
  have hreply : wrongNumberReply command = bytes "-" ++
      (bytes "ERR wrong number of arguments for '" ++ command ++ bytes "' command") ++ crlf := by
    rw [wrongNumberReply, List.append_assoc _ _ crlf, List.append_assoc _ _ crlf,
      ← List.append_assoc (bytes "-"), ← List.append_assoc (bytes "-")]
    rfl
  rw [hreply]
  exact .error hline

end Resp

end TinyLsm
