import TinyLsm.Lsm.Tables
import TinyLsm.Lsm.TranContext
import TinyLsm.Wal.Codec

/-!
# The records of a transaction

`put` and `remove` of a transaction make a record of each operation, whatever the sizes of the
key and the value are.  A record has sixteen bits for its length.  The record is written and
read back as it was made if and only if its length fits.
-/

namespace TinyLsm

namespace Record

/-- The length of a record is that of its encoding, the lengths of its key and its value fit
sixteen bits, and what it is encoded as decodes to a record of the same key and value. -/
structure Writable (record : Record) : Prop where
  recordLen_eq : record.recordLen.toNat = headerSize + record.body.length
  key_lt : record.key.length < 2 ^ 16
  value_lt : record.value.length < 2 ^ 16
  reads : ∃ piece read, record.encode = .ok piece ∧ decode piece = .ok [read] ∧
    read.key = record.key ∧ read.value = record.value

/-- Of a transaction id a record stores what fits sixty-four bits. -/
theorem encode_trancId_mod (record : Record) :
  encode { record with trancId := record.trancId % 2 ^ 64 } = record.encode
  := by
  have hid : toLittleEndian 8 (record.trancId % 2 ^ 64) = toLittleEndian 8 record.trancId :=
    toLittleEndian_mod 8 record.trancId
  simp only [encode, hid]

/-- A record that a constructor builds, as far as its transaction id fits, is writable if its key
and its value fit. -/
theorem writable_of_built {record : Record}
    (h : Built { record with trancId := record.trancId % 2 ^ 64 })
    (hkey : record.key.length < 2 ^ 16) (hvalue : record.value.length < 2 ^ 16) :
  record.Writable
  := by
  have hencode := h.fits.encode_eq
  have hdecode := decode_encode (List.forall_mem_singleton.mpr h)
  rw [List.mapM_cons, Except.bind_eq_of_ok _ hencode] at hdecode
  rw [encode_trancId_mod] at hencode
  refine ⟨h.fits.recordLen_eq, hkey, hvalue, _, { record with trancId := record.trancId % 2 ^ 64 },
    hencode, ?_, rfl, rfl⟩
  simpa [pure, Except.pure, bind, Except.bind] using hdecode

/-- A record with the key and the value in its encoding, of which a constructor builds the right
length if it fits, is writable if and only if the length of its encoding fits. -/
theorem writable_iff {record : Record} {length : ℕ}
    (hlength : headerSize + record.body.length = length)
    (hkey : record.key.length ≤ record.body.length)
    (hvalue : record.value.length ≤ record.body.length)
    (hbuilt : length < 2 ^ 16 → Built { record with trancId := record.trancId % 2 ^ 64 }) :
  record.Writable ↔ length < 2 ^ 16
  := by
  constructor
  · intro h
    have hlen := h.recordLen_eq
    have hlt := record.recordLen.toNat_lt
    omega
  · intro h
    apply writable_of_built (hbuilt h)
    · omega
    · omega

theorem writable_putRecord_iff (trancId : TrancId) (key value : Bytes) :
  (putRecord trancId key value).Writable ↔
    headerSize + 2 + key.length + 2 + value.length < 2 ^ 16
  := by
  have hbody : (putRecord trancId key value).body.length =
      2 + key.length + (2 + value.length) := by
    simp only [body, putRecord, List.length_append, length_toLittleEndian]
  apply writable_iff
  · omega
  · change key.length ≤ _
    omega
  · change value.length ≤ _
    omega
  · intro h
    exact .put (Nat.mod_lt _ (by decide)) h

theorem writable_deleteRecord_iff (trancId : TrancId) (key : Bytes) :
  (deleteRecord trancId key).Writable ↔ headerSize + 2 + key.length < 2 ^ 16
  := by
  have hbody : (deleteRecord trancId key).body.length = 2 + key.length := by
    simp only [body, deleteRecord, List.length_append, length_toLittleEndian]
  apply writable_iff
  · omega
  · change key.length ≤ _
    omega
  · exact Nat.zero_le _
  · intro h
    exact .delete (Nat.mod_lt _ (by decide)) h

end Record

namespace TranContext

variable {ε : Type} [LSMEngine ε]

/-- The operation a call adds to a context has the key and the value, and is writable. -/
def Adds (c c' : TranContext) (key value : Bytes) : Prop :=
  ∃ record, c'.operations = c.operations ++ [record] ∧ record.key = key ∧ record.value = value ∧
    record.Writable

theorem operations_put (c : TranContext) (e : ε) (key value : Bytes) :
  (c.put e key value).1.operations = c.operations ++ [Record.putRecord c.trancId key value]
  := by
  rw [put, prepare]
  split <;> rfl

theorem operations_remove (c : TranContext) (e : ε) (key : Bytes) :
  (c.remove e key).1.operations = c.operations ++ [Record.deleteRecord c.trancId key]
  := by
  rw [remove, prepare]
  split <;> rfl

theorem adds_iff_writable {c c' : TranContext} {record : Record} {key value : Bytes}
    (h : c'.operations = c.operations ++ [record]) (hkey : record.key = key)
    (hvalue : record.value = value) :
  c.Adds c' key value ↔ record.Writable
  := by
  constructor
  · rintro ⟨record', h', -, -, hwritable⟩
    rw [h, List.append_cancel_left_eq, List.singleton_inj] at h'
    rwa [h']
  · intro hwritable
    exact ⟨record, h, hkey, hvalue, hwritable⟩

/-- The record of a put is writable if and only if its length fits sixteen bits, and so is that of
a removal. -/
theorem adds_iff (c : TranContext) (e : ε) (key value : Bytes) :
  (c.Adds (c.put e key value).1 key value ↔
    Record.headerSize + 2 + key.length + 2 + value.length < 2 ^ 16) ∧
  (c.Adds (c.remove e key).1 key [] ↔ Record.headerSize + 2 + key.length < 2 ^ 16)
  := by
  rw [← Record.writable_putRecord_iff c.trancId, ← Record.writable_deleteRecord_iff c.trancId]
  constructor
  · apply c.adds_iff_writable (c.operations_put e key value) rfl rfl
  · apply c.adds_iff_writable (c.operations_remove e key) rfl rfl

/-- A put of `65521` bytes under the empty key makes a record of the length `0`. -/
theorem not_adds_long :
  ¬ (new 7 .readOpCommitted).Adds
    ((new 7 .readOpCommitted).put ({} : Tables) [] (List.replicate 65521 0)).1
    [] (List.replicate 65521 0)
  := by
  intro hadds
  have hwritable := (adds_iff_writable (operations_put _ _ _ _) rfl rfl).mp hadds
  have hlen := (Record.writable_putRecord_iff _ _ _).mp hwritable
  rw [List.length_replicate] at hlen
  exact absurd hlen (by decide)

end TranContext

end TinyLsm
