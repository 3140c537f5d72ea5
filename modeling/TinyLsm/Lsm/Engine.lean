import TinyLsm.Basic

/-!
# The engine of a transaction

What a transaction uses of `LSMEngine` and of its memtable.  The engine is a parameter: its
states form a type `ε`, on which these operations act.

A lawful engine answers the last write of a key to a query without a transaction.  A written
empty value it either answers as such or hides, as it hides a removed key.
-/

namespace TinyLsm

/-- The operations of an engine: `get`, `put`, `remove`, `sst_get_`, and `put_` and `get_` of
its memtable.  The memtable answers a query with the version an iterator is at. -/
class LSMEngine (ε : Type) where
  get : ε → Bytes → TrancId → Option (Bytes × TrancId)
  put : ε → Bytes → Bytes → TrancId → ε
  remove : ε → Bytes → TrancId → ε
  sstGet_ : ε → Bytes → TrancId → Option (Bytes × TrancId)
  memtablePut_ : ε → Bytes → Bytes → TrancId → ε
  memtableGet_ : ε → Bytes → TrancId → Option Entry

/-- An engine that answers last writes, hiding empty values if `hidesEmpty` holds. -/
class LawfulEngine (ε : Type) extends LSMEngine ε where
  hidesEmpty : Bool
  get_put : ∀ (e : ε) (key value : Bytes) (trancId : TrancId),
    get (put e key value trancId) key 0 =
      if hidesEmpty && value.isEmpty then none else some (value, trancId)
  get_put_ne : ∀ (e : ε) (key value : Bytes) (trancId : TrancId) (key' : Bytes), key' ≠ key →
    get (put e key value trancId) key' 0 = get e key' 0
  get_remove : ∀ (e : ε) (key : Bytes) (trancId : TrancId),
    get (remove e key trancId) key 0 = none
  get_remove_ne : ∀ (e : ε) (key : Bytes) (trancId : TrancId) (key' : Bytes), key' ≠ key →
    get (remove e key trancId) key' 0 = get e key' 0
  get_ne : ∀ (e : ε) (key value : Bytes) (trancId : TrancId),
    get e key 0 = some (value, trancId) → (hidesEmpty && value.isEmpty) = false

end TinyLsm
