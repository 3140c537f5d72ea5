import Mathlib.Algebra.Order.Ring.Int
import Mathlib.Data.List.Lex
import Mathlib.Order.Fin.Basic

/-!
# Bytes, entries and faults

Keys and values are byte strings, ordered bytewise from the left with a proper prefix
before its extensions, as `std::string` orders them.  An entry is a version of a key: the
key, the value and the id of the transaction that wrote it; an empty value is a deletion
mark.  A fault is an exception the source throws, or a point at which the behaviour of the
source is undefined.
-/

namespace TinyLsm

abbrev Byte := Fin 256

abbrev Bytes := List Byte

/- Named, so that every byte literal and every membership test of byte strings uses the same
instance, whichever modules are imported. -/

instance (priority := 10000) Byte.neZero : NeZero 256 := ⟨by decide⟩

instance (priority := 10000) Bytes.lawfulBEq : LawfulBEq Bytes := inferInstance

/-- Transaction ids.  The id `0` passed to a query stands for "no transaction". -/
abbrev TrancId := ℕ

/-- A version of a key. -/
structure Entry where
  key : Bytes
  value : Bytes
  trancId : TrancId
deriving DecidableEq, Repr

/-- The key and the value of an entry, what the iterators dereference to. -/
def Entry.pair (e : Entry) : Bytes × Bytes := (e.key, e.value)

/-- A version is visible to a query without a transaction, and to one with an id from its
own on. -/
def Entry.Visible (trancId : TrancId) (e : Entry) : Prop := trancId = 0 ∨ e.trancId ≤ trancId

instance (trancId : TrancId) (e : Entry) : Decidable (e.Visible trancId) :=
  inferInstanceAs (Decidable (_ ∨ _))

/-- How a call fails to return: by an exception, by reaching undefined behaviour, or, for
the loops that are given a bound on their number of rounds, by exceeding the bound. -/
inductive Fault where
  | runtimeError (what : String)
  | invalidArgument (what : String)
  | outOfRange (what : String)
  | undefinedBehavior
  | outOfFuel
deriving DecidableEq, Repr

end TinyLsm
