import TinyLsm.Utils.Buffer
import TinyLsm.Wal.Record

/-!
# The encoding of records

A record is encoded into a buffer of the length it reports: the length, the transaction id and
the type of the operation, then, for a put, the key and the value, and, for a removal, the
key, each after its length.  Nothing separates one record from the next, so that decoding
follows the lengths it reads.

The cursor of the decoder is given by the bytes of the data that are left at it.
-/

namespace TinyLsm

namespace OperationType

def toByte : OperationType → Byte
  | opCreate => 0
  | opCommit => 1
  | opRollback => 2
  | opPut => 3
  | opDelete => 4
  | unnamed byte _ => byte

def named : List OperationType := [opCreate, opCommit, opRollback, opPut, opDelete]

def ofByte (byte : Byte) : OperationType :=
  if h : byte.val < 5 then named.get ⟨byte.val, h⟩ else unnamed byte (le_of_not_gt h)

@[simp]
theorem ofByte_toByte : ∀ t : OperationType, ofByte t.toByte = t
  | opCreate | opCommit | opRollback | opPut | opDelete => rfl
  | unnamed _ h => dif_neg (not_lt_of_ge h)

end OperationType

namespace Record

def encode (record : Record) : Except Fault Bytes := do
  let keyOffset := headerSize
  let buffer := List.replicate record.recordLen.toNat 0
  let buffer ← memcpy buffer 0 (toLittleEndian 2 record.recordLen.toNat)
  let buffer ← memcpy buffer 2 (toLittleEndian 8 record.trancId)
  let buffer ← memcpy buffer (2 + 8) [record.operationType.toByte]
  if record.operationType = .opPut then
    let buffer ← memcpy buffer keyOffset (toLittleEndian 2 record.key.length)
    let buffer ← memcpy buffer (keyOffset + 2) record.key
    let valueOffset := keyOffset + 2 + record.key.length
    let buffer ← memcpy buffer valueOffset (toLittleEndian 2 record.value.length)
    memcpy buffer (valueOffset + 2) record.value
  else if record.operationType = .opDelete then
    let buffer ← memcpy buffer keyOffset (toLittleEndian 2 record.key.length)
    memcpy buffer (keyOffset + 2) record.key
  else
    return buffer

/-- One round of decoding, for data of the given size: the record at the cursor, and what is
left after it.  The length of the record is compared with the size of all of the data. -/
def decodeNext (size : ℕ) (rest : Bytes) : Except Fault (Record × Bytes) := do
  let (recordLen, rest) ← readNumber 2 rest
  if size < recordLen then
    throw (.runtimeError "Data length does not match record length")
  let (trancId, rest) ← readNumber 8 rest
  let (opType, rest) ← readByte rest
  let operationType := OperationType.ofByte opType
  let record : Record := { trancId, operationType, recordLen := UInt16.ofNat recordLen }
  if operationType = .opPut then
    let (keyLen, rest) ← readNumber 2 rest
    let (key, rest) ← readBytes keyLen rest
    let (valueLen, rest) ← readNumber 2 rest
    let (value, rest) ← readBytes valueLen rest
    return ({ record with key, value }, rest)
  else if operationType = .opDelete then
    let (keyLen, rest) ← readNumber 2 rest
    let (key, rest) ← readBytes keyLen rest
    return ({ record with key }, rest)
  else
    return (record, rest)

/-- Decode the records that are left, in at most the given number of rounds. -/
def decodeFrom (size : ℕ) : ℕ → Bytes → Except Fault (List Record)
  | _, [] => .ok []
  | 0, _ :: _ => .error .outOfFuel
  | fuel + 1, b :: bs => do
      let (record, rest) ← decodeNext size (b :: bs)
      let records ← decodeFrom size fuel rest
      return record :: records

/-- A round takes eleven bytes at least, so that there are no more rounds than bytes. -/
def decode (data : Bytes) : Except Fault (List Record) :=
  if data.length < headerSize then .ok [] else decodeFrom data.length data.length data

/-! ### The layout of an encoded record -/

/-- What every encoded record starts with. -/
def header (record : Record) : Bytes :=
  toLittleEndian 2 record.recordLen.toNat ++ toLittleEndian 8 record.trancId ++
    [record.operationType.toByte]

/-- What follows the header: the key and the value of a put, and the key of a removal. -/
def body (record : Record) : Bytes :=
  match record.operationType with
  | .opPut =>
      toLittleEndian 2 record.key.length ++ record.key ++
        (toLittleEndian 2 record.value.length ++ record.value)
  | .opDelete => toLittleEndian 2 record.key.length ++ record.key
  | _ => []

theorem body_eq_nil
    {record : Record} (hput : record.operationType ≠ .opPut)
    (hdelete : record.operationType ≠ .opDelete) :
  record.body = []
  := by
  rw [body]
  split
  next h => exact absurd h hput
  next h => exact absurd h hdelete
  next => rfl

@[simp]
theorem length_header (record : Record) : record.header.length = headerSize
  := by
  simp only [header, List.length_append, length_toLittleEndian, List.length_singleton, headerSize]

/-- A record whose fields fit the widths they are encoded with, and which has a key and a
value only where its operation does. -/
structure Fits (record : Record) : Prop where
  trancId_lt : record.trancId < 2 ^ 64
  recordLen_eq : record.recordLen.toNat = headerSize + record.body.length
  key_nil : record.operationType ≠ .opPut → record.operationType ≠ .opDelete → record.key = []
  value_nil : record.operationType ≠ .opPut → record.value = []

instance (record : Record) : Decidable record.Fits :=
  decidable_of_iff (_ ∧ _ ∧ _ ∧ _)
    ⟨fun ⟨hid, hlen, hkey, hvalue⟩ => ⟨hid, hlen, hkey, hvalue⟩,
      fun h => ⟨h.trancId_lt, h.recordLen_eq, h.key_nil, h.value_nil⟩⟩

/-- The records that the constructors build, as far as the length of the encoding is at most
what sixteen bits hold. -/
inductive Built : Record → Prop
  | create {trancId : TrancId} (hid : trancId < 2 ^ 64) : Built (createRecord trancId)
  | commit {trancId : TrancId} (hid : trancId < 2 ^ 64) : Built (commitRecord trancId)
  | rollback {trancId : TrancId} (hid : trancId < 2 ^ 64) : Built (rollbackRecord trancId)
  | put {trancId : TrancId} {key value : Bytes} (hid : trancId < 2 ^ 64)
      (hlen : headerSize + 2 + key.length + 2 + value.length < 2 ^ 16) :
      Built (putRecord trancId key value)
  | delete {trancId : TrancId} {key : Bytes} (hid : trancId < 2 ^ 64)
      (hlen : headerSize + 2 + key.length < 2 ^ 16) : Built (deleteRecord trancId key)

theorem Built.fits {record : Record} (h : record.Built) : record.Fits
  := by
  cases h with
  | create hid => exact ⟨hid, rfl, fun _ _ => rfl, fun _ => rfl⟩
  | commit hid => exact ⟨hid, rfl, fun _ _ => rfl, fun _ => rfl⟩
  | rollback hid => exact ⟨hid, rfl, fun _ _ => rfl, fun _ => rfl⟩
  | @put trancId key value hid hlen =>
      refine ⟨hid, ?_, fun h => absurd rfl h, fun h => absurd rfl h⟩
      change (UInt16.ofNat (headerSize + 2 + key.length + 2 + value.length)).toNat = _
      rw [UInt16.toNat_ofNat_of_lt' hlen]
      simp only [body, putRecord, List.length_append, length_toLittleEndian]
      omega
  | @delete trancId key hid hlen =>
      refine ⟨hid, ?_, fun _ h => absurd rfl h, fun _ => rfl⟩
      change (UInt16.ofNat (headerSize + 2 + key.length)).toNat = _
      rw [UInt16.toNat_ofNat_of_lt' hlen]
      simp only [body, deleteRecord, List.length_append, length_toLittleEndian]
      omega

/-! ### Encoding writes the layout -/

/-- Filling the zeros of a buffer from their beginning on. -/
theorem memcpy_fill
    {done bytes : Bytes} {offset n : ℕ} (m : ℕ) (hoffset : offset = done.length)
    (hn : n = bytes.length + m) :
  memcpy (done ++ List.replicate n 0) offset bytes
    = .ok ((done ++ bytes) ++ List.replicate m 0)
  := by
  subst hoffset hn
  rw [memcpy_append (by rw [List.length_replicate]; omega), List.drop_replicate,
    Nat.add_sub_cancel_left]

/-- A record that fits is encoded as its header and its body. -/
theorem Fits.encode_eq {record : Record} (h : record.Fits) :
  record.encode = .ok (record.header ++ record.body)
  := by
  have hlen : memcpy (List.replicate record.recordLen.toNat 0) 0
        (toLittleEndian 2 record.recordLen.toNat)
      = .ok (toLittleEndian 2 record.recordLen.toNat ++
          List.replicate (8 + (1 + record.body.length)) 0) := by
    apply @memcpy_fill [] _ _ _ (8 + (1 + record.body.length)) rfl
    rw [h.recordLen_eq, headerSize, length_toLittleEndian]
    omega
  have hid : memcpy (toLittleEndian 2 record.recordLen.toNat ++
        List.replicate (8 + (1 + record.body.length)) 0) 2 (toLittleEndian 8 record.trancId)
      = .ok ((toLittleEndian 2 record.recordLen.toNat ++ toLittleEndian 8 record.trancId) ++
          List.replicate (1 + record.body.length) 0) := by
    apply memcpy_fill _ (length_toLittleEndian _ _).symm
    rw [length_toLittleEndian]
  have htype : memcpy ((toLittleEndian 2 record.recordLen.toNat ++
        toLittleEndian 8 record.trancId) ++ List.replicate (1 + record.body.length) 0) (2 + 8)
        [record.operationType.toByte]
      = .ok (record.header ++ List.replicate record.body.length 0) := by
    apply memcpy_fill _ _ rfl
    rw [List.length_append, length_toLittleEndian, length_toLittleEndian]
  rw [encode, Except.bind_eq_of_ok _ hlen, Except.bind_eq_of_ok _ hid,
    Except.bind_eq_of_ok _ htype]
  have hkeyLen {m : ℕ} : memcpy (record.header ++ List.replicate (2 + m) 0) headerSize
        (toLittleEndian 2 record.key.length)
      = .ok ((record.header ++ toLittleEndian 2 record.key.length) ++ List.replicate m 0) := by
    apply memcpy_fill _ record.length_header.symm
    rw [length_toLittleEndian]
  have hkey {m : ℕ} : memcpy ((record.header ++ toLittleEndian 2 record.key.length) ++
        List.replicate (record.key.length + m) 0) (headerSize + 2) record.key
      = .ok (((record.header ++ toLittleEndian 2 record.key.length) ++ record.key) ++
          List.replicate m 0) := by
    apply memcpy_fill _ _ rfl
    rw [List.length_append, length_header, length_toLittleEndian]
  split
  next hput =>
    have hvalueLen : memcpy (((record.header ++ toLittleEndian 2 record.key.length) ++
          record.key) ++ List.replicate (2 + (record.value.length + 0)) 0)
          (headerSize + 2 + record.key.length) (toLittleEndian 2 record.value.length)
        = .ok ((((record.header ++ toLittleEndian 2 record.key.length) ++ record.key) ++
            toLittleEndian 2 record.value.length) ++
            List.replicate (record.value.length + 0) 0) := by
      apply memcpy_fill
      · simp only [List.length_append, length_header, length_toLittleEndian]
      · rw [length_toLittleEndian]
    have hvalue : memcpy ((((record.header ++ toLittleEndian 2 record.key.length) ++
          record.key) ++ toLittleEndian 2 record.value.length) ++
          List.replicate (record.value.length + 0) 0)
          (headerSize + 2 + record.key.length + 2) record.value
        = .ok (((((record.header ++ toLittleEndian 2 record.key.length) ++ record.key) ++
            toLittleEndian 2 record.value.length) ++ record.value) ++ List.replicate 0 0) := by
      apply memcpy_fill _ _ rfl
      simp only [List.length_append, length_header, length_toLittleEndian]
    have hbody : record.body = toLittleEndian 2 record.key.length ++ record.key ++
        (toLittleEndian 2 record.value.length ++ record.value) := by
      rw [body, hput]
    have hn : record.body.length
        = 2 + (record.key.length + (2 + (record.value.length + 0))) := by
      simp only [hbody, List.length_append, length_toLittleEndian]
      omega
    rw [hn, Except.bind_eq_of_ok _ hkeyLen, Except.bind_eq_of_ok _ hkey,
      Except.bind_eq_of_ok _ hvalueLen, hvalue, hbody]
    simp only [List.replicate_zero, List.append_nil, List.append_assoc]
  next hput =>
    split
    next hdelete =>
      have hbody : record.body = toLittleEndian 2 record.key.length ++ record.key := by
        rw [body, hdelete]
      have hn : record.body.length = 2 + (record.key.length + 0) := by
        rw [hbody, List.length_append, length_toLittleEndian, Nat.add_zero]
      rw [hn, Except.bind_eq_of_ok _ hkeyLen, hkey, hbody]
      rw [List.replicate_zero, List.append_nil, List.append_assoc]
    next hdelete =>
      rw [body_eq_nil hput hdelete]
      rfl

/-! ### Decoding reads the layout back -/

/-- What a round of decoding does after it has read the header of a record. -/
def decodeBody (record : Record) (rest : Bytes) : Except Fault (Record × Bytes) := do
  if record.operationType = .opPut then
    let (keyLen, rest) ← readNumber 2 rest
    let (key, rest) ← readBytes keyLen rest
    let (valueLen, rest) ← readNumber 2 rest
    let (value, rest) ← readBytes valueLen rest
    return ({ record with key, value }, rest)
  else if record.operationType = .opDelete then
    let (keyLen, rest) ← readNumber 2 rest
    let (key, rest) ← readBytes keyLen rest
    return ({ record with key }, rest)
  else
    return (record, rest)

/-- A round of decoding goes on after a header, unless this reports a length greater than the
size of all of the data. -/
theorem decodeNext_header
    {recordLen trancId : Bytes} (hrecordLen : recordLen.length = 2) (htrancId : trancId.length = 8)
    {size : ℕ} (hsize : littleEndian recordLen ≤ size) (byte : Byte) (rest : Bytes) :
  decodeNext size (recordLen ++ (trancId ++ byte :: rest))
    = decodeBody ⟨littleEndian trancId, OperationType.ofByte byte, [], [],
        UInt16.ofNat (littleEndian recordLen)⟩ rest
  := by
  rw [decodeNext, Except.bind_eq_of_ok _ (readNumber_of_length hrecordLen _)]
  dsimp only
  rw [if_neg (not_lt_of_ge hsize), Except.bind_eq_of_ok _ (readNumber_of_length htrancId _)]
  dsimp only
  rw [readByte, Except.bind_eq_of_ok _ rfl]
  rfl

/-- A round of decoding takes a record that fits off the front of the data, if the data are
as long as the record at least. -/
theorem Fits.decodeNext_eq
    {record : Record} (h : record.Fits) {size : ℕ} (hsize : record.recordLen.toNat ≤ size)
    (rest : Bytes) :
  decodeNext size (record.header ++ record.body ++ rest) = .ok (record, rest)
  := by
  have hlen : record.recordLen.toNat < 256 ^ 2 := record.recordLen.toNat_lt
  have hid : record.trancId < 256 ^ 8 := h.trancId_lt
  have hlittle := littleEndian_toLittleEndian hlen
  simp only [header, List.append_assoc, List.cons_append, List.nil_append]
  rw [decodeNext_header (length_toLittleEndian 2 _) (length_toLittleEndian 8 _)
    (hlittle.trans_le hsize), hlittle, littleEndian_toLittleEndian hid,
    OperationType.ofByte_toByte, UInt16.ofNat_toNat, decodeBody]
  dsimp only
  have hfit := h.recordLen_eq ▸ hlen
  split
  next hput =>
    have hbody : record.body = toLittleEndian 2 record.key.length ++ record.key ++
        (toLittleEndian 2 record.value.length ++ record.value) := by
      rw [body, hput]
    simp only [hbody, List.length_append, headerSize] at hfit
    have hkeyLen : record.key.length < 256 ^ 2 := by omega
    have hvalueLen : record.value.length < 256 ^ 2 := by omega
    simp only [hbody, List.append_assoc]
    rw [Except.bind_eq_of_ok _ (readNumber_append hkeyLen _)]
    dsimp only
    rw [Except.bind_eq_of_ok _ (readBytes_append _ _)]
    dsimp only
    rw [Except.bind_eq_of_ok _ (readNumber_append hvalueLen _)]
    dsimp only
    rw [Except.bind_eq_of_ok _ (readBytes_append _ _)]
    rfl
  next hput =>
    have hvalue := h.value_nil hput
    split
    next hdelete =>
      have hbody : record.body = toLittleEndian 2 record.key.length ++ record.key := by
        rw [body, hdelete]
      simp only [hbody, List.length_append, headerSize] at hfit
      have hkeyLen : record.key.length < 256 ^ 2 := by omega
      simp only [hbody, List.append_assoc]
      rw [Except.bind_eq_of_ok _ (readNumber_append hkeyLen _)]
      dsimp only
      rw [Except.bind_eq_of_ok _ (readBytes_append _ _)]
      dsimp only
      rw [← hvalue]
      rfl
    next hdelete =>
      rw [body_eq_nil hput hdelete]
      have hkey := h.key_nil hput hdelete
      obtain ⟨trancId, operationType, key, value, recordLen⟩ := record
      subst hkey hvalue
      rfl

/-- The encoding of a record that fits is as long as the record says. -/
theorem Fits.length_encode {record : Record} (h : record.Fits) :
  (record.header ++ record.body).length = record.recordLen.toNat
  := by
  rw [List.length_append, length_header, h.recordLen_eq]

theorem decodeFrom_nil (size : ℕ) :
  ∀ fuel : ℕ, decodeFrom size fuel [] = .ok []
  | 0 => rfl
  | _ + 1 => rfl

theorem decodeFrom_succ
    {size fuel : ℕ} {rest : Bytes} (h : rest ≠ []) :
  decodeFrom size (fuel + 1) rest = (do
      let (record, rest) ← decodeNext size rest
      let records ← decodeFrom size fuel rest
      return record :: records)
  := by
  cases rest with
  | nil => exact absurd rfl h
  | cons b bs => rfl

/-- What records that fit are encoded as, one after the other. -/
def layout (records : List Record) : Bytes :=
  records.flatMap (fun record => record.header ++ record.body)

theorem layout_cons (record : Record) (records : List Record) :
  layout (record :: records) = record.header ++ record.body ++ layout records
  := List.flatMap_cons

/-- In as many rounds as there are records that fit, decoding gives them back and goes on
with what follows them. -/
theorem decodeFrom_layout
    {size : ℕ} (fuel : ℕ) (rest : Bytes) :
  ∀ {records : List Record},
    (∀ record ∈ records, record.Fits ∧ record.recordLen.toNat ≤ size) →
    decodeFrom size (records.length + fuel) (layout records ++ rest)
      = (decodeFrom size fuel rest).map (records ++ ·)
  | [], _ => by
      rw [layout, List.flatMap_nil, List.nil_append, List.length_nil, Nat.zero_add]
      cases decodeFrom size fuel rest <;> rfl
  | record :: records, h => by
      obtain ⟨hfits, hsize⟩ := h record List.mem_cons_self
      have ih := decodeFrom_layout fuel rest (fun r hr => h r (List.mem_cons_of_mem record hr))
      have hne : record.header ++ record.body ++ (layout records ++ rest) ≠ [] := by
        intro hnil
        have hlen := congrArg List.length hnil
        rw [List.length_append, hfits.length_encode, hfits.recordLen_eq, headerSize,
          List.length_nil] at hlen
        omega
      rw [layout_cons, List.append_assoc, List.length_cons, Nat.add_right_comm,
        decodeFrom_succ hne, Except.bind_eq_of_ok _ (hfits.decodeNext_eq hsize _)]
      dsimp only
      rw [ih]
      cases decodeFrom size fuel rest <;> rfl

/-- There are at most as many records as bytes they are encoded as. -/
theorem length_le_length_layout :
  ∀ {records : List Record}, (∀ record ∈ records, record.Fits) →
    records.length ≤ (layout records).length
  | [], _ => Nat.zero_le _
  | record :: records, h => by
      have ih := length_le_length_layout (fun r hr => h r (List.mem_cons_of_mem record hr))
      have hrecord := (h record List.mem_cons_self).length_encode
      rw [(h record List.mem_cons_self).recordLen_eq, headerSize] at hrecord
      rw [layout_cons, List.length_append, hrecord, List.length_cons]
      omega

/-- A record that fits is no longer than all of them together. -/
theorem recordLen_le_length_layout
    {record : Record} (h : record.Fits) {records : List Record} (hmem : record ∈ records) :
  record.recordLen.toNat ≤ (layout records).length
  := by
  have hpiece := List.mem_map_of_mem (f := fun record => record.header ++ record.body) hmem
  rw [← h.length_encode, layout, List.flatMap_def]
  apply (List.sublist_flatten_of_mem hpiece).length_le

theorem mapM_encode :
  ∀ {records : List Record}, (∀ record ∈ records, record.Fits) →
    records.mapM encode = .ok (records.map (fun record => record.header ++ record.body))
  | [], _ => rfl
  | record :: records, h => by
      have ih := mapM_encode (fun r hr => h r (List.mem_cons_of_mem record hr))
      rw [List.mapM_cons, Except.bind_eq_of_ok _ (h record List.mem_cons_self).encode_eq,
        Except.bind_eq_of_ok _ ih]
      rfl

/-- Decoding what records were encoded as, one after the other, gives them back. -/
theorem decode_encode
    {records : List Record} (h : ∀ record ∈ records, record.Built) :
  (do
    let pieces ← records.mapM encode
    decode pieces.flatten) = .ok records
  := by
  have hfits : ∀ record ∈ records, record.Fits := fun record hrecord => (h record hrecord).fits
  rw [Except.bind_eq_of_ok _ (mapM_encode hfits), ← List.flatMap_def]
  change decode (layout records) = _
  rw [decode]
  split
  next hshort =>
    cases records with
    | nil => rfl
    | cons record records =>
        have hfit := hfits record List.mem_cons_self
        have hmem : record ∈ record :: records := List.mem_cons_self
        have hlen := recordLen_le_length_layout hfit hmem
        rw [hfit.recordLen_eq] at hlen
        omega
  next hlong =>
    obtain ⟨fuel, hfuel⟩ := Nat.exists_eq_add_of_le (length_le_length_layout hfits)
    have hall := decodeFrom_layout fuel [] (fun record hrecord =>
      ⟨hfits record hrecord, recordLen_le_length_layout (hfits record hrecord) hrecord⟩)
    rw [← hfuel, List.append_nil, decodeFrom_nil] at hall
    rw [hall]
    exact congrArg Except.ok (List.append_nil records)

/-- A record of each operation, with an empty key and an empty value among them. -/
theorem decode_encode_each :
  (do
    let pieces ← [createRecord 7, putRecord 7 [1, 2] [], deleteRecord 7 [], rollbackRecord 7,
      commitRecord 7].mapM encode
    decode pieces.flatten)
    = .ok [createRecord 7, putRecord 7 [1, 2] [], deleteRecord 7 [], rollbackRecord 7,
        commitRecord 7]
  := by
  apply decode_encode
  intro record hrecord
  simp only [List.mem_cons, List.not_mem_nil, or_false] at hrecord
  rcases hrecord with rfl | rfl | rfl | rfl | rfl
  · exact .create (by decide)
  · exact .put (by decide) (by decide)
  · exact .delete (by decide) (by decide)
  · exact .rollback (by decide)
  · exact .commit (by decide)

end Record

end TinyLsm
