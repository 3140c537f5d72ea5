import TinyLsm.Wal.Codec

/-!
# Decoding a torn log

The decoder compares the length that a record reports with the size of all of the data, and
not with what is left of them, and it does not compare the lengths of the key and the value
with anything.  On data that end within a record it reads past the end, unless the record
reports to be longer than all of the data.

Decoding stays within the data exactly if these are too short for a record, or are whole
records one after the other, with nothing after them or the beginning of a record that reports
a length greater than the size of the data.
-/

namespace TinyLsm

/-- A call returns, or throws an exception. -/
def Answers {α : Type} (result : Except Fault α) : Prop :=
  (∃ a, result = .ok a) ∨ ∃ what, result = .error (.runtimeError what)

/-! ### Reading -/

theorem eq_append_of_readBytes
    {count : ℕ} {rest bytes rest' : Bytes} (h : readBytes count rest = .ok (bytes, rest')) :
  rest = bytes ++ rest' ∧ bytes.length = count
  := by
  rw [readBytes] at h
  split at h
  next hle =>
    cases h
    exact ⟨(List.take_append_drop count rest).symm, List.length_take_of_le hle⟩
  next => cases h

theorem exists_of_readNumber
    {count n : ℕ} {rest rest' : Bytes} (h : readNumber count rest = .ok (n, rest')) :
  ∃ bytes, rest = bytes ++ rest' ∧ bytes.length = count ∧ n = littleEndian bytes
  := by
  obtain ⟨⟨bytes, rest₁⟩, hread, hpure⟩ := Except.exists_of_bind_eq_ok h
  obtain ⟨hsplit, hlen⟩ := eq_append_of_readBytes hread
  cases hpure
  exact ⟨bytes, hsplit, hlen, rfl⟩

theorem eq_cons_of_readByte
    {rest rest' : Bytes} {byte : Byte} (h : readByte rest = .ok (byte, rest')) :
  rest = byte :: rest'
  := by
  cases rest with
  | nil => cases h
  | cons b bs =>
      cases h
      rfl

/-- A read fails by reaching past the end of the data only. -/
theorem readBytes_error
    {count : ℕ} {rest : Bytes} {e : Fault} (h : readBytes count rest = .error e) :
  e = .undefinedBehavior
  := by
  rw [readBytes] at h
  split at h
  next => cases h
  next => exact (Except.error.inj h).symm

theorem readNumber_error
    {count : ℕ} {rest : Bytes} {e : Fault} (h : readNumber count rest = .error e) :
  e = .undefinedBehavior
  := by
  rcases Except.of_bind_eq_error h with h | ⟨_, _, h⟩
  · apply readBytes_error h
  · cases h

theorem readByte_error
    {rest : Bytes} {e : Fault} (h : readByte rest = .error e) :
  e = .undefinedBehavior
  := by
  cases rest with
  | nil => exact (Except.error.inj h).symm
  | cons b bs => cases h

namespace Record

/-! ### Frames -/

/-- The bytes of one record, as the decoder takes them apart. -/
inductive Frame : Bytes → Record → Prop
  | put {recordLen trancId keyLen key valueLen value : Bytes} {byte : Byte}
      (hrecordLen : recordLen.length = 2) (htrancId : trancId.length = 8)
      (htype : OperationType.ofByte byte = .opPut)
      (hkeyLen : keyLen.length = 2) (hkey : key.length = littleEndian keyLen)
      (hvalueLen : valueLen.length = 2) (hvalue : value.length = littleEndian valueLen) :
      Frame (recordLen ++ (trancId ++ byte :: (keyLen ++ (key ++ (valueLen ++ value)))))
        ⟨littleEndian trancId, OperationType.ofByte byte, key, value,
          UInt16.ofNat (littleEndian recordLen)⟩
  | delete {recordLen trancId keyLen key : Bytes} {byte : Byte}
      (hrecordLen : recordLen.length = 2) (htrancId : trancId.length = 8)
      (htype : OperationType.ofByte byte = .opDelete)
      (hkeyLen : keyLen.length = 2) (hkey : key.length = littleEndian keyLen) :
      Frame (recordLen ++ (trancId ++ byte :: (keyLen ++ key)))
        ⟨littleEndian trancId, OperationType.ofByte byte, key, [],
          UInt16.ofNat (littleEndian recordLen)⟩
  | bare {recordLen trancId : Bytes} {byte : Byte}
      (hrecordLen : recordLen.length = 2) (htrancId : trancId.length = 8)
      (hput : OperationType.ofByte byte ≠ .opPut)
      (hdelete : OperationType.ofByte byte ≠ .opDelete) :
      Frame (recordLen ++ (trancId ++ [byte]))
        ⟨littleEndian trancId, OperationType.ofByte byte, [], [],
          UInt16.ofNat (littleEndian recordLen)⟩

/-- The data at the cursor report a length greater than the size of all of the data. -/
def TooLong (size : ℕ) (rest : Bytes) : Prop :=
  2 ≤ rest.length ∧ size < littleEndian (rest.take 2)

/-- Whole records, none of them longer than all of the data, and after them nothing, or the
beginning of a record that reports to be longer. -/
inductive Framed (size : ℕ) : Bytes → Prop
  | nil : Framed size []
  | tooLong {rest : Bytes} (h : TooLong size rest) : Framed size rest
  | frame {frame rest : Bytes} {record : Record} (h : Frame frame record)
      (hsize : record.recordLen.toNat ≤ size) (hrest : Framed size rest) :
      Framed size (frame ++ rest)

/-- A round of decoding that returns takes a frame off the front of what is left. -/
theorem frame_of_decodeNext
    {size : ℕ} {rest rest' : Bytes} {record : Record}
    (h : decodeNext size rest = .ok (record, rest')) :
  ∃ frame, rest = frame ++ rest' ∧ Frame frame record ∧ record.recordLen.toNat ≤ size
  := by
  rw [decodeNext] at h
  obtain ⟨⟨_, rest₁⟩, hread₁, h₁⟩ := Except.exists_of_bind_eq_ok h
  obtain ⟨recordLen, rfl, hrecordLen, rfl⟩ := exists_of_readNumber hread₁
  dsimp only at h₁
  split at h₁
  next => cases h₁
  next hsize =>
    obtain ⟨⟨_, rest₂⟩, hread₂, h₂⟩ := Except.exists_of_bind_eq_ok h₁
    obtain ⟨trancId, rfl, htrancId, rfl⟩ := exists_of_readNumber hread₂
    obtain ⟨⟨byte, rest₃⟩, hread₃, h₃⟩ := Except.exists_of_bind_eq_ok h₂
    obtain rfl := eq_cons_of_readByte hread₃
    have hle : (UInt16.ofNat (littleEndian recordLen)).toNat ≤ size := by
      have hlt := littleEndian_lt recordLen
      rw [hrecordLen] at hlt
      rw [UInt16.toNat_ofNat_of_lt' hlt]
      apply le_of_not_gt hsize
    dsimp only at h₃
    split at h₃
    next htype =>
      obtain ⟨⟨_, rest₄⟩, hread₄, h₄⟩ := Except.exists_of_bind_eq_ok h₃
      obtain ⟨keyLen, rfl, hkeyLen, rfl⟩ := exists_of_readNumber hread₄
      obtain ⟨⟨key, rest₅⟩, hread₅, h₅⟩ := Except.exists_of_bind_eq_ok h₄
      obtain ⟨rfl, hkey⟩ := eq_append_of_readBytes hread₅
      obtain ⟨⟨_, rest₆⟩, hread₆, h₆⟩ := Except.exists_of_bind_eq_ok h₅
      obtain ⟨valueLen, rfl, hvalueLen, rfl⟩ := exists_of_readNumber hread₆
      obtain ⟨⟨value, rest₇⟩, hread₇, h₇⟩ := Except.exists_of_bind_eq_ok h₆
      obtain ⟨rfl, hvalue⟩ := eq_append_of_readBytes hread₇
      cases h₇
      refine ⟨_, ?_, .put hrecordLen htrancId htype hkeyLen hkey hvalueLen hvalue, hle⟩
      simp only [List.append_assoc, List.cons_append]
    next hput =>
      split at h₃
      next htype =>
        obtain ⟨⟨_, rest₄⟩, hread₄, h₄⟩ := Except.exists_of_bind_eq_ok h₃
        obtain ⟨keyLen, rfl, hkeyLen, rfl⟩ := exists_of_readNumber hread₄
        obtain ⟨⟨key, rest₅⟩, hread₅, h₅⟩ := Except.exists_of_bind_eq_ok h₄
        obtain ⟨rfl, hkey⟩ := eq_append_of_readBytes hread₅
        cases h₅
        refine ⟨_, ?_, .delete hrecordLen htrancId htype hkeyLen hkey, hle⟩
        simp only [List.append_assoc, List.cons_append]
      next hdelete =>
        cases h₃
        refine ⟨_, ?_, .bare hrecordLen htrancId hput hdelete, hle⟩
        simp only [List.append_assoc, List.cons_append, List.nil_append]

/-- A round of decoding takes a frame off the front of the data, unless the record it is of
reports to be longer than all of them. -/
theorem Frame.decodeNext_eq
    {frame : Bytes} {record : Record} (h : Frame frame record) {size : ℕ}
    (hsize : record.recordLen.toNat ≤ size) (rest : Bytes) :
  decodeNext size (frame ++ rest) = .ok (record, rest)
  := by
  have hle {recordLen : Bytes} (hlen : recordLen.length = 2)
      (hsize : (UInt16.ofNat (littleEndian recordLen)).toNat ≤ size) :
      littleEndian recordLen ≤ size := by
    have hlt := littleEndian_lt recordLen
    rw [hlen] at hlt
    rwa [UInt16.toNat_ofNat_of_lt' hlt] at hsize
  cases h with
  | put hrecordLen htrancId htype hkeyLen hkey hvalueLen hvalue =>
      simp only [List.append_assoc, List.cons_append]
      rw [decodeNext_header hrecordLen htrancId (hle hrecordLen hsize), decodeBody, if_pos htype,
        Except.bind_eq_of_ok _ (readNumber_of_length hkeyLen _)]
      dsimp only
      rw [← hkey, Except.bind_eq_of_ok _ (readBytes_append _ _)]
      dsimp only
      rw [Except.bind_eq_of_ok _ (readNumber_of_length hvalueLen _)]
      dsimp only
      rw [← hvalue, Except.bind_eq_of_ok _ (readBytes_append _ _)]
      rfl
  | delete hrecordLen htrancId htype hkeyLen hkey =>
      simp only [List.append_assoc, List.cons_append]
      rw [decodeNext_header hrecordLen htrancId (hle hrecordLen hsize), decodeBody,
        if_neg (by rw [htype]; rintro ⟨⟩), if_pos htype,
        Except.bind_eq_of_ok _ (readNumber_of_length hkeyLen _)]
      dsimp only
      rw [← hkey, Except.bind_eq_of_ok _ (readBytes_append _ _)]
      rfl
  | bare hrecordLen htrancId hput hdelete =>
      simp only [List.append_assoc, List.cons_append, List.nil_append]
      rw [decodeNext_header hrecordLen htrancId (hle hrecordLen hsize), decodeBody,
        if_neg hput, if_neg hdelete]
      rfl

theorem Frame.headerSize_le
    {frame : Bytes} {record : Record} (h : Frame frame record) :
  headerSize ≤ frame.length
  := by
  cases h with
  | put hrecordLen htrancId =>
      simp only [List.length_append, List.length_cons, hrecordLen, htrancId, headerSize]
      omega
  | delete hrecordLen htrancId =>
      simp only [List.length_append, List.length_cons, hrecordLen, htrancId, headerSize]
      omega
  | bare hrecordLen htrancId =>
      simp only [List.length_append, List.length_cons, List.length_nil, hrecordLen, htrancId,
        headerSize]
      omega

/-- A round of decoding fails by reaching past the end of the data, or it throws since the
record reports to be longer than all of them. -/
theorem decodeNext_error
    {size : ℕ} {rest : Bytes} {e : Fault} (h : decodeNext size rest = .error e) :
  e = .undefinedBehavior ∨ TooLong size rest ∧ ∃ what, e = .runtimeError what
  := by
  rw [decodeNext] at h
  rcases Except.of_bind_eq_error h with h₁ | ⟨⟨_, rest₁⟩, hread₁, h₁⟩
  · exact .inl (readNumber_error h₁)
  obtain ⟨recordLen, rfl, hrecordLen, rfl⟩ := exists_of_readNumber hread₁
  dsimp only at h₁
  split at h₁
  next hlong =>
    refine .inr ⟨⟨?_, ?_⟩, _, (Except.error.inj h₁).symm⟩
    · rw [List.length_append, hrecordLen]
      apply Nat.le_add_right
    · rwa [← hrecordLen, List.take_left]
  next =>
    refine .inl ?_
    rcases Except.of_bind_eq_error h₁ with h₂ | ⟨⟨trancId, rest₂⟩, -, h₂⟩
    · apply readNumber_error h₂
    rcases Except.of_bind_eq_error h₂ with h₃ | ⟨⟨byte, rest₃⟩, -, h₃⟩
    · apply readByte_error h₃
    dsimp only at h₃
    split at h₃
    · rcases Except.of_bind_eq_error h₃ with h₄ | ⟨_, -, h₄⟩
      · apply readNumber_error h₄
      rcases Except.of_bind_eq_error h₄ with h₅ | ⟨_, -, h₅⟩
      · apply readBytes_error h₅
      rcases Except.of_bind_eq_error h₅ with h₆ | ⟨_, -, h₆⟩
      · apply readNumber_error h₆
      rcases Except.of_bind_eq_error h₆ with h₇ | ⟨_, -, h₇⟩
      · apply readBytes_error h₇
      · cases h₇
    · split at h₃
      · rcases Except.of_bind_eq_error h₃ with h₄ | ⟨_, -, h₄⟩
        · apply readNumber_error h₄
        rcases Except.of_bind_eq_error h₄ with h₅ | ⟨_, -, h₅⟩
        · apply readBytes_error h₅
        · cases h₅
      · cases h₃

/-- A record that reports to be longer than all of the data makes the decoder throw. -/
theorem TooLong.decodeNext_eq
    {size : ℕ} {rest : Bytes} (h : TooLong size rest) :
  decodeNext size rest
    = .error (.runtimeError "Data length does not match record length")
  := by
  have hread := readNumber_of_length (List.length_take_of_le h.1) (rest.drop 2)
  rw [List.take_append_drop] at hread
  rw [decodeNext, Except.bind_eq_of_ok _ hread]
  dsimp only
  rw [if_pos h.2]
  rfl

/-! ### Decoding answers on framed data -/

/-- Framed data that are not used up can be decoded for another round, which leaves framed
data, or else report to be longer than all of the data. -/
theorem Framed.decodeNext_eq
    {size : ℕ} {rest : Bytes} (h : Framed size rest) (hne : rest ≠ []) :
  TooLong size rest ∨
    ∃ record rest', decodeNext size rest = .ok (record, rest') ∧ Framed size rest'
  := by
  cases h with
  | nil => exact absurd rfl hne
  | tooLong h => exact .inl h
  | frame h hsize hrest => exact .inr ⟨_, _, h.decodeNext_eq hsize _, hrest⟩

theorem answers_error_iff {α : Type} {e : Fault} :
  Answers (.error e : Except Fault α) ↔ ∃ what, e = .runtimeError what
  := by
  constructor
  · rintro (⟨_, h⟩ | ⟨what, h⟩)
    · cases h
    · exact ⟨what, Except.error.inj h⟩
  · rintro ⟨what, rfl⟩
    exact .inr ⟨what, rfl⟩

theorem answers_map_iff {α β : Type} {f : α → β} {result : Except Fault α} :
  Answers (result.map f) ↔ Answers result
  := by
  cases result with
  | error e =>
      change Answers (.error e : Except Fault β) ↔ _
      rw [answers_error_iff, answers_error_iff]
  | ok a => exact ⟨fun _ => .inl ⟨a, rfl⟩, fun _ => .inl ⟨f a, rfl⟩⟩

/-- Decoding stays within the data exactly if these are framed. -/
theorem answers_decodeFrom_iff
    {size : ℕ} :
  ∀ {fuel : ℕ} {rest : Bytes}, rest.length ≤ fuel →
    (Answers (decodeFrom size fuel rest) ↔ Framed size rest)
  | fuel, [], _ => by
      rw [decodeFrom_nil]
      exact ⟨fun _ => .nil, fun _ => .inl ⟨[], rfl⟩⟩
  | fuel + 1, b :: bs, hfuel => by
      have hne := List.cons_ne_nil b bs
      rw [decodeFrom_succ hne]
      cases hnext : decodeNext size (b :: bs) with
      | error e =>
          change Answers (.error e : Except Fault (List Record)) ↔ _
          rw [answers_error_iff]
          constructor
          · rintro ⟨what, rfl⟩
            rcases decodeNext_error hnext with h | ⟨h, -⟩
            · cases h
            · exact .tooLong h
          · intro h
            rcases h.decodeNext_eq hne with h | ⟨_, _, h, -⟩
            · rw [h.decodeNext_eq] at hnext
              exact ⟨_, (Except.error.inj hnext).symm⟩
            · rw [h] at hnext
              cases hnext
      | ok result =>
          obtain ⟨record, rest⟩ := result
          obtain ⟨frame, hsplit, hframe, hsize⟩ := frame_of_decodeNext hnext
          have hshorter : rest.length ≤ fuel := by
            have hlen := congrArg List.length hsplit
            have hpos := hframe.headerSize_le
            rw [List.length_append] at hlen
            rw [headerSize] at hpos
            omega
          change Answers ((decodeFrom size fuel rest).map (record :: ·)) ↔ _
          rw [answers_map_iff, answers_decodeFrom_iff hshorter]
          constructor
          · intro h
            rw [hsplit]
            exact .frame hframe hsize h
          · intro h
            rcases h.decodeNext_eq hne with h | ⟨_, _, h, hrest⟩
            · rw [h.decodeNext_eq] at hnext
              cases hnext
            · rw [h] at hnext
              cases hnext
              apply hrest

/-! ### The front of a log -/

/-- The records whose encodings lie within a number of bytes as a whole. -/
def contained : ℕ → List Record → List Record
  | _, [] => []
  | k, record :: records =>
      if record.recordLen.toNat ≤ k then
        record :: contained (k - record.recordLen.toNat) records
      else
        []

theorem mem_of_mem_contained
    {r : Record} :
  ∀ {k : ℕ} {records : List Record}, r ∈ contained k records → r ∈ records
  | _, [], h => h
  | k, record :: records, h => by
      rw [contained] at h
      split at h
      · rcases List.mem_cons.mp h with rfl | h
        · apply List.mem_cons_self
        · apply List.mem_cons_of_mem _ (mem_of_mem_contained h)
      · cases h

/-- The beginning of an encoded record that fits, which the rest of it has been torn off. -/
def IsTorn (torn : Bytes) : Prop :=
  ∃ record : Record, record.Fits ∧ ∃ more ≠ [], record.header ++ record.body = torn ++ more

/-- The front of a log has the records that it contains, and after them nothing, or a torn
record. -/
theorem take_layout :
  ∀ {records : List Record} {k : ℕ}, (∀ record ∈ records, record.Fits) →
    ∃ torn, (layout records).take k = layout (contained k records) ++ torn ∧
      (torn = [] ∨ IsTorn torn)
  | [], k, _ => ⟨[], List.take_nil, .inl rfl⟩
  | record :: records, k, h => by
      have hfits := h record List.mem_cons_self
      have hlen := hfits.length_encode
      rw [layout_cons, contained]
      split
      next hle =>
        obtain ⟨torn, htake, htorn⟩ := take_layout (k := k - record.recordLen.toNat)
          (fun r hr => h r (List.mem_cons_of_mem record hr))
        use torn
        refine ⟨?_, htorn⟩
        rw [List.take_append, List.take_of_length_le (hlen.trans_le hle), hlen, htake,
          layout_cons, List.append_assoc _ _ torn]
      next hgt =>
        have hlt : k < (record.header ++ record.body).length := by
          rw [hlen]
          omega
        use (record.header ++ record.body).take k
        refine ⟨?_, .inr ⟨record, hfits, (record.header ++ record.body).drop k, ?_, ?_⟩⟩
        · rw [List.take_append_of_le_length (le_of_lt hlt)]
          rfl
        · intro hnil
          apply absurd (List.drop_eq_nil_iff.mp hnil) (not_le_of_gt hlt)
        · rw [List.take_append_drop]

/-- No round of decoding returns on a torn record. -/
theorem IsTorn.decodeNext_ne
    {torn : Bytes} (h : IsTorn torn) (size : ℕ) (result : Record × Bytes) :
  decodeNext size torn ≠ .ok result
  := by
  obtain ⟨record, hfits, more, hmore, hsplit⟩ := h
  intro hnext
  obtain ⟨r, rest⟩ := result
  obtain ⟨frame, rfl, hframe, hsize⟩ := frame_of_decodeNext hnext
  have hwhole := hframe.decodeNext_eq hsize (rest ++ more)
  rw [← List.append_assoc, ← hsplit] at hwhole
  by_cases hlen : record.recordLen.toNat ≤ size
  · have hexact := hfits.decodeNext_eq hlen []
    rw [List.append_nil, hwhole] at hexact
    have hnil : rest ++ more = [] := congrArg Prod.snd (Except.ok.inj hexact)
    apply hmore (List.append_eq_nil_iff.mp hnil).2
  · have hlong : TooLong size (record.header ++ record.body) := by
      have htake : (record.header ++ record.body).take 2
          = toLittleEndian 2 record.recordLen.toNat := by
        simp only [header, List.append_assoc]
        apply List.take_left' (length_toLittleEndian 2 _)
      refine ⟨?_, ?_⟩
      · rw [List.length_append, length_header, headerSize]
        omega
      · rw [htake, littleEndian_toLittleEndian record.recordLen.toNat_lt]
        apply lt_of_not_ge hlen
    rw [hlong.decodeNext_eq] at hwhole
    cases hwhole

/-- Decoding returns on a torn record only if nothing of it is there. -/
theorem IsTorn.eq_nil
    {torn : Bytes} (h : IsTorn torn) {size fuel : ℕ} {records : List Record}
    (hdecode : decodeFrom size fuel torn = .ok records) :
  torn = []
  := by
  cases torn with
  | nil => rfl
  | cons b bs =>
      cases fuel with
      | zero => cases hdecode
      | succ fuel =>
          rw [decodeFrom_succ (List.cons_ne_nil b bs)] at hdecode
          obtain ⟨result, hnext, -⟩ := Except.exists_of_bind_eq_ok hdecode
          exact absurd hnext (h.decodeNext_ne size result)

/-- Where decoding the front of a log answers, it returns the records that are there as a
whole, or throws. -/
theorem decode_take_layout
    {records : List Record} {k : ℕ} (h : ∀ record ∈ records, record.Fits)
    (hanswers : Answers (decode ((layout records).take k))) :
  decode ((layout records).take k) = .ok (contained k records) ∨
    ∃ what, decode ((layout records).take k) = .error (.runtimeError what)
  := by
  rcases hanswers with ⟨decoded, hdecoded⟩ | hthrows
  swap
  · exact .inr hthrows
  refine .inl ?_
  obtain ⟨torn, htake, htorn⟩ := take_layout (k := k) h
  have hcontained : ∀ record ∈ contained k records, record.Fits :=
    fun record hrecord => h record (mem_of_mem_contained hrecord)
  rw [htake] at hdecoded ⊢
  rw [decode] at hdecoded ⊢
  split at hdecoded
  next hshort =>
    rw [if_pos hshort]
    cases hrecords : contained k records with
    | nil => rfl
    | cons record rest =>
        have hfit := hcontained record (hrecords ▸ List.mem_cons_self)
        have hlen := hfit.length_encode
        rw [hfit.recordLen_eq] at hlen
        rw [hrecords, layout_cons, List.length_append, List.length_append, hlen] at hshort
        omega
  next hlong =>
    rw [if_neg hlong]
    have hsize : ∀ record ∈ contained k records, record.Fits ∧
        record.recordLen.toNat ≤ (layout (contained k records) ++ torn).length := by
      intro record hrecord
      have hlen := recordLen_le_length_layout (hcontained record hrecord) hrecord
      rw [List.length_append]
      exact ⟨hcontained record hrecord, hlen.trans (Nat.le_add_right _ _)⟩
    have hcount : (contained k records).length
        ≤ (layout (contained k records) ++ torn).length := by
      rw [List.length_append]
      apply (length_le_length_layout hcontained).trans (Nat.le_add_right _ _)
    obtain ⟨fuel, hfuel⟩ := Nat.exists_eq_add_of_le hcount
    have hwhole := decodeFrom_layout fuel torn hsize
    rw [← hfuel] at hwhole
    rw [hwhole] at hdecoded ⊢
    have hnil : torn = [] := by
      rcases htorn with h | h
      · apply h
      · cases hrest : decodeFrom (layout (contained k records) ++ torn).length fuel torn with
        | error e =>
            rw [hrest] at hdecoded
            cases hdecoded
        | ok rest => apply h.eq_nil hrest
    rw [hnil, decodeFrom_nil]
    apply congrArg Except.ok (List.append_nil _)

/-- The decoder answers, and what it returns on the front of a log are the records that are
there as a whole. -/
def DecodesSafely (data : Bytes) : Prop :=
  Answers (decode data) ∧
    ∀ (records : List Record) (pieces : List Bytes) (k : ℕ), (∀ record ∈ records, record.Built) →
      records.mapM encode = .ok pieces → data = pieces.flatten.take k →
      decode data = .ok (contained k records) ∨
        ∃ what, decode data = .error (.runtimeError what)

/-- The decoder is safe exactly on the data that are too short for a record and on those that
are framed. -/
theorem decodesSafely_iff (data : Bytes) :
  DecodesSafely data ↔ data.length < headerSize ∨ Framed data.length data
  := by
  have hanswers : Answers (decode data) ↔ data.length < headerSize ∨ Framed data.length data := by
    rw [decode]
    split
    next hshort => exact ⟨fun _ => .inl hshort, fun _ => .inl ⟨[], rfl⟩⟩
    next hlong =>
      rw [answers_decodeFrom_iff le_rfl]
      exact ⟨.inr, fun h => h.resolve_left hlong⟩
  rw [← hanswers]
  refine ⟨fun h => h.1, fun h => ⟨h, ?_⟩⟩
  intro records pieces k hbuilt hpieces hdata
  have hfits : ∀ record ∈ records, record.Fits := fun record hrecord => (hbuilt record hrecord).fits
  rw [mapM_encode hfits] at hpieces
  rw [← Except.ok.inj hpieces, ← List.flatMap_def] at hdata
  subst hdata
  apply decode_take_layout hfits h

/-- The records of two commits, of which the second one has been written as far as its first
byte, make the decoder read past the end of the data. -/
theorem not_decodesSafely_torn :
  ¬ DecodesSafely ((layout [commitRecord 1, commitRecord 2]).take 12)
  := by
  have hdecode : decode ((layout [commitRecord 1, commitRecord 2]).take 12)
      = .error .undefinedBehavior := by
    decide
  rintro ⟨hanswers, -⟩
  rw [hdecode, answers_error_iff] at hanswers
  obtain ⟨what, h⟩ := hanswers
  cases h

end Record

end TinyLsm
