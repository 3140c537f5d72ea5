import TinyLsm.Lsm.TrancIdFile
import TinyLsm.Utils.Buffer
import TinyLsm.Utils.Files

/-!
# The bytes of the file of transaction ids

A manager writes its words over those at the beginning of the file, which does not get shorter:
behind them there may be words of a larger set that was written before.  The number of the flushed
ids keeps a manager that reads the file from taking these for its own.

Offsets in the file are of the type `int`.

* What is written last is read back, whatever was in the file: `readTrancIdBytes_writeAll`.
* The bytes of a file of words are read and written as the words are:
  `writeTrancIdBytes_wordBytes`, `readTrancIdBytes_wordBytes`.  Writing throws for the same sets.
-/

namespace TinyLsm

/-- The bytes of words. -/
def wordBytes (words : List ℕ) : Bytes := words.flatMap (toLittleEndian 8)

namespace TranManager

/-- Copy ids into a buffer, from an offset on. -/
def copyTrancIds : List TrancId → Bytes → ℤ → Except Fault Bytes
  | [], buf, _ => .ok buf
  | trancId :: trancIds, buf, offset => do
      let buf ←
        if offset < 0 then .error .undefinedBehavior
        else memcpy buf offset.toNat (toLittleEndian 8 trancId)
      copyTrancIds trancIds buf (Int.bmod (offset + 8) (2 ^ 32))

/-- The buffer that is written. -/
def encodeTrancIds (m : TranManager) : Except Fault Bytes := do
  let bufferSize := Int.bmod (8 * (m.flushedTrancIds.elems.length + 2)) (2 ^ 32)
  if bufferSize < 0 then
    .error (.runtimeError "cannot create std::vector larger than max_size()")
  else
    let buf := List.replicate bufferSize.toNat 0
    let buf ← memcpy buf 0 (toLittleEndian 8 m.nextTransactionId)
    let buf ← memcpy buf 8 (toLittleEndian 8 m.flushedTrancIds.elems.length)
    copyTrancIds m.flushedTrancIds.elems buf 16

/-- `write_tranc_id_file`, by what the file contains. -/
def writeTrancIdBytes (m : TranManager) (content : Bytes) : Except Fault Bytes := do
  let buf ← m.encodeTrancIds
  return FileObj.write content 0 buf

/-- Read a number of flushed ids, from an offset on. -/
def readFlushedTrancIdBytes (content : Bytes) :
    ℕ → ℤ → OrderedSet TrancId → Except Fault (OrderedSet TrancId)
  | 0, _, flushedTrancIds => .ok flushedTrancIds
  | size + 1, offset, flushedTrancIds => do
      let flushedId ← FileObj.readUint64 content (offset % 2 ^ 64).toNat
      readFlushedTrancIdBytes content size (Int.bmod (offset + 8) (2 ^ 32))
        (flushedTrancIds.insert flushedId)

/-- `read_tranc_id_file`, by what the file contains. -/
def readTrancIdBytes (m : TranManager) (content : Bytes) : Except Fault TranManager := do
  let nextTransactionId ← FileObj.readUint64 content 0
  let size ← FileObj.readUint64 content 8
  let flushedTrancIds ← readFlushedTrancIdBytes content size 16 m.flushedTrancIds
  return { m with nextTransactionId, flushedTrancIds }

/-- A manager that is constructed over a file, before it reads it. -/
def fresh : TranManager := { flushedTrancIds := .empty }

/-- The ids are of the type `uint64_t`, and there are less than `2 ^ 27` flushed ones. -/
structure Storable (m : TranManager) : Prop where
  next_lt : m.nextTransactionId < 2 ^ 64
  flushed_lt : ∀ i ∈ m.flushedTrancIds, i < 2 ^ 64
  size_lt : m.flushedTrancIds.elems.length < 2 ^ 27

theorem Storable.writable {m : TranManager} (h : m.Storable) : m.Writable
  := h.size_lt.trans (by decide)

end TranManager

open TranManager

/-! ### Words -/

@[simp]
theorem length_wordBytes : ∀ words : List ℕ, (wordBytes words).length = 8 * words.length
  | [] => rfl
  | word :: words => by
      rw [wordBytes, List.flatMap_cons, ← wordBytes, List.length_append, length_toLittleEndian,
        length_wordBytes words, List.length_cons, Nat.mul_succ, Nat.add_comm]

@[simp]
theorem wordBytes_cons (word : ℕ) (words : List ℕ) :
  wordBytes (word :: words) = toLittleEndian 8 word ++ wordBytes words
  := rfl

theorem wordBytes_single (word : ℕ) : wordBytes [word] = toLittleEndian 8 word
  := List.append_nil _

@[simp]
theorem wordBytes_append (words words' : List ℕ) :
  wordBytes (words ++ words') = wordBytes words ++ wordBytes words'
  := List.flatMap_append

theorem drop_wordBytes :
  ∀ (count : ℕ) (words : List ℕ),
    (wordBytes words).drop (8 * count) = wordBytes (words.drop count)
  | 0, _ => rfl
  | count + 1, [] => by
      rw [List.drop_nil]
      exact List.drop_nil
  | count + 1, word :: words => by
      have hword : (toLittleEndian 8 word).length = 8 := length_toLittleEndian 8 word
      rw [wordBytes_cons, List.drop_succ_cons, ← drop_wordBytes count words, Nat.mul_succ,
        Nat.add_comm, ← List.drop_drop, List.drop_left' hword]

theorem readUint64_word {word : ℕ} (h : word < 2 ^ 64) {front : Bytes} {offset : ℕ}
    (hoffset : front.length = offset) (rest : Bytes) :
  FileObj.readUint64 (front ++ (toLittleEndian 8 word ++ rest)) offset = .ok word
  := by
  rw [← hoffset]
  exact FileObj.readUint_append h front rest

/-- Offsets below `2 ^ 31` are those of `int`. -/
theorem bmod_offset {offset : ℕ} (h : offset + 8 < 2 ^ 31) :
  Int.bmod ((offset : ℤ) + 8) (2 ^ 32) = (offset + 8 : ℕ)
  := by
  rw [Int.bmod_def]
  omega

/-- The offset behind one more word. -/
theorem offset_concat (words : List ℕ) (word : ℕ) :
  8 * words.length + 8 = 8 * (words ++ [word]).length
  := by
  rw [List.length_append, List.length_singleton, Nat.mul_succ]

/-! ### Writing -/

/-- A word is copied behind those that are there. -/
theorem memcpy_word {words : List ℕ} {old : Bytes} (hroom : 8 ≤ old.length) (word : ℕ) :
  memcpy (wordBytes words ++ old) (8 * words.length) (toLittleEndian 8 word) =
    .ok (wordBytes (words ++ [word]) ++ old.drop 8)
  := by
  have hword : (toLittleEndian 8 word).length = 8 := length_toLittleEndian 8 word
  rw [← length_wordBytes, memcpy_append (hword ▸ hroom), hword, wordBytes_append, wordBytes_single]

theorem copyTrancIds_eq :
  ∀ (trancIds words : List ℕ) {old : Bytes}, 8 * trancIds.length ≤ old.length →
    8 * (words.length + trancIds.length) < 2 ^ 31 →
    copyTrancIds trancIds (wordBytes words ++ old) (8 * words.length : ℕ) =
      .ok (wordBytes (words ++ trancIds) ++ old.drop (8 * trancIds.length))
  | [], words, old, _, _ => by
      rw [copyTrancIds, List.append_nil, List.length_nil, Nat.mul_zero, List.drop_zero]
  | trancId :: trancIds, words, old, hroom, hint => by
      rw [List.length_cons] at hroom hint
      have hcopy : memcpy (wordBytes words ++ old) ((8 * words.length : ℕ) : ℤ).toNat
          (toLittleEndian 8 trancId) = .ok (wordBytes (words ++ [trancId]) ++ old.drop 8) := by
        rw [Int.toNat_natCast, memcpy_word (by omega)]
      have hrest : copyTrancIds trancIds (wordBytes (words ++ [trancId]) ++ old.drop 8)
          (8 * (words ++ [trancId]).length : ℕ) =
            .ok (wordBytes (words ++ [trancId] ++ trancIds) ++
              (old.drop 8).drop (8 * trancIds.length)) := by
        apply copyTrancIds_eq trancIds (words ++ [trancId])
        · rw [List.length_drop]
          omega
        · rw [List.length_append, List.length_singleton]
          omega
      rw [copyTrancIds, if_neg (by omega), Except.bind_eq_of_ok _ hcopy]
      dsimp only
      rw [bmod_offset (by omega), offset_concat words trancId, hrest, List.append_assoc,
        List.singleton_append, List.drop_drop, List.length_cons, Nat.mul_succ, Nat.add_comm 8]

/-- Words that do not fit into what is left of the buffer are not copied. -/
theorem copyTrancIds_of_lt :
  ∀ (trancIds words : List ℕ) {old : Bytes}, old.length < 8 * trancIds.length →
    8 * words.length + old.length < 2 ^ 31 →
    copyTrancIds trancIds (wordBytes words ++ old) (8 * words.length : ℕ) =
      .error .undefinedBehavior
  | [], _, _, hfull, _ => absurd hfull (Nat.not_lt_zero _)
  | trancId :: trancIds, words, old, hfull, hint => by
      rw [List.length_cons] at hfull
      rw [copyTrancIds, if_neg (by omega), Int.toNat_natCast]
      by_cases hroom : 8 ≤ old.length
      · have hrest : copyTrancIds trancIds (wordBytes (words ++ [trancId]) ++ old.drop 8)
            (8 * (words ++ [trancId]).length : ℕ) = .error .undefinedBehavior := by
          apply copyTrancIds_of_lt trancIds (words ++ [trancId])
          · rw [List.length_drop]
            omega
          · rw [List.length_append, List.length_singleton, List.length_drop]
            omega
        rw [Except.bind_eq_of_ok _ (memcpy_word hroom trancId)]
        dsimp only
        rw [bmod_offset (by omega), offset_concat words trancId, hrest]
      · have hover : memcpy (wordBytes words ++ old) (8 * words.length)
            (toLittleEndian 8 trancId) = .error .undefinedBehavior := by
          apply if_neg
          rw [List.length_append, length_wordBytes, length_toLittleEndian]
          omega
        rw [hover]
        rfl

/-- A buffer whose size is an `int` is filled with the words, one after the other. -/
theorem encodeTrancIds_eq_copy {m : TranManager}
    (h : 8 * (m.flushedTrancIds.elems.length + 2) % 2 ^ 32 < 2 ^ 31) :
  m.encodeTrancIds =
    copyTrancIds m.words
      (List.replicate (8 * (m.flushedTrancIds.elems.length + 2) % 2 ^ 32) 0) 0
  := by
  have hbuffer : Int.bmod (8 * (m.flushedTrancIds.elems.length + 2)) (2 ^ 32) =
      (8 * (m.flushedTrancIds.elems.length + 2) % 2 ^ 32 : ℕ) := by
    rw [Int.bmod_def]
    omega
  unfold encodeTrancIds
  dsimp only
  rw [hbuffer, if_neg (by omega), Int.toNat_natCast]
  rfl

theorem encodeTrancIds_eq {m : TranManager} (h : m.Writable) :
  m.encodeTrancIds = .ok (wordBytes m.words)
  := by
  rw [Writable] at h
  have hlength : m.words.length = m.flushedTrancIds.elems.length + 2 := rfl
  have hmod : 8 * (m.flushedTrancIds.elems.length + 2) % 2 ^ 32 = 8 * m.words.length := by
    omega
  rw [encodeTrancIds_eq_copy (by omega), hmod]
  generalize hold : List.replicate (8 * m.words.length) (0 : Byte) = old
  have hfull : old.length = 8 * m.words.length := by rw [← hold, List.length_replicate]
  have hcopy : copyTrancIds m.words old 0 =
      .ok (wordBytes ([] ++ m.words) ++ old.drop (8 * m.words.length)) := by
    apply copyTrancIds_eq m.words []
    · rw [hfull]
    · rw [List.length_nil]
      omega
  rw [hcopy, List.nil_append, List.drop_of_length_le hfull.le, List.append_nil]

/-- A buffer whose size is negative as an `int` cannot be created. -/
theorem encodeTrancIds_of_le {m : TranManager}
    (h : 2 ^ 31 ≤ 8 * (m.flushedTrancIds.elems.length + 2) % 2 ^ 32) :
  m.encodeTrancIds = .error (.runtimeError "cannot create std::vector larger than max_size()")
  := by
  have hbuffer : Int.bmod (8 * (m.flushedTrancIds.elems.length + 2)) (2 ^ 32) < 0 := by
    rw [Int.bmod_def]
    omega
  unfold encodeTrancIds
  dsimp only
  rw [if_pos hbuffer]

/-- A buffer whose size has wrapped is written past its end. -/
theorem encodeTrancIds_of_lt {m : TranManager}
    (hint : 8 * (m.flushedTrancIds.elems.length + 2) % 2 ^ 32 < 2 ^ 31)
    (hwrapped : 8 * (m.flushedTrancIds.elems.length + 2) % 2 ^ 32 <
      8 * (m.flushedTrancIds.elems.length + 2)) :
  m.encodeTrancIds = .error .undefinedBehavior
  := by
  rw [encodeTrancIds_eq_copy hint]
  apply copyTrancIds_of_lt m.words []
  · rw [List.length_replicate]
    exact hwrapped
  · rw [List.length_nil, List.length_replicate]
    omega

theorem writeTrancIdBytes_eq {m : TranManager} (h : m.Writable) (content : Bytes) :
  m.writeTrancIdBytes content = .ok (wordBytes m.words ++ content.drop (8 * m.words.length))
  := by
  rw [writeTrancIdBytes, Except.bind_eq_of_ok _ (encodeTrancIds_eq h), FileObj.write_zero,
    length_wordBytes]
  rfl

/-! ### Reading -/

/-- The ids are read one after the other. -/
theorem readFlushedTrancIdBytes_eq :
  ∀ (trancIds words : List ℕ) (rest : Bytes) (flushedTrancIds : OrderedSet TrancId),
    (∀ i ∈ trancIds, i < 2 ^ 64) → 8 * (words.length + trancIds.length) < 2 ^ 31 →
    readFlushedTrancIdBytes (wordBytes (words ++ trancIds) ++ rest) trancIds.length
        (8 * words.length : ℕ) flushedTrancIds =
      .ok (trancIds.foldl .insert flushedTrancIds)
  | [], _, _, _, _, _ => rfl
  | trancId :: trancIds, words, rest, flushedTrancIds, hlt, hint => by
      rw [List.length_cons] at hint
      have hoffset : (((8 * words.length : ℕ) : ℤ) % 2 ^ 64).toNat = 8 * words.length := by
        omega
      have hread : FileObj.readUint64 (wordBytes (words ++ trancId :: trancIds) ++ rest)
          (8 * words.length) = .ok trancId := by
        rw [wordBytes_append, wordBytes_cons, List.append_assoc, List.append_assoc]
        exact readUint64_word (hlt trancId List.mem_cons_self) (length_wordBytes words) _
      have hrest := readFlushedTrancIdBytes_eq trancIds (words ++ [trancId]) rest
        (flushedTrancIds.insert trancId) (fun i hi => hlt i (List.mem_cons_of_mem trancId hi))
        (by rw [List.length_append, List.length_singleton]; omega)
      rw [List.append_assoc, List.singleton_append, ← offset_concat] at hrest
      rw [List.length_cons, readFlushedTrancIdBytes, hoffset, Except.bind_eq_of_ok _ hread,
        bmod_offset (by omega), hrest, List.foldl_cons]

/-- What a manager has written is read back, whatever is behind it. -/
theorem readTrancIdBytes_eq {m : TranManager} (h : m.Storable) (rest : Bytes) :
  fresh.readTrancIdBytes (wordBytes m.words ++ rest) =
    .ok { fresh with
      nextTransactionId := m.nextTransactionId
      flushedTrancIds := m.flushedTrancIds }
  := by
  have hsize := h.size_lt
  have hnext : FileObj.readUint64 (wordBytes m.words ++ rest) 0 = .ok m.nextTransactionId := by
    rw [words, wordBytes_cons, List.append_assoc]
    exact readUint64_word h.next_lt List.length_nil _
  have hcount : FileObj.readUint64 (wordBytes m.words ++ rest) 8 =
      .ok m.flushedTrancIds.elems.length := by
    rw [words, wordBytes_cons, wordBytes_cons, List.append_assoc, List.append_assoc]
    exact readUint64_word (by omega) (length_toLittleEndian 8 m.nextTransactionId) _
  have hflushed : readFlushedTrancIdBytes (wordBytes m.words ++ rest)
      m.flushedTrancIds.elems.length 16 .empty = .ok m.flushedTrancIds := by
    have hread := readFlushedTrancIdBytes_eq m.flushedTrancIds.elems
      [m.nextTransactionId, m.flushedTrancIds.elems.length] rest .empty h.flushed_lt
      (by rw [List.length_cons, List.length_singleton]; omega)
    rwa [OrderedSet.foldl_insert_elems] at hread
  rw [readTrancIdBytes, Except.bind_eq_of_ok _ hnext, Except.bind_eq_of_ok _ hcount]
  exact Except.bind_eq_of_ok _ hflushed

/-- Managers write to the same file, one after the other. -/
def writeAll (ms : List TranManager) (content : Bytes) : Except Fault Bytes :=
  ms.foldlM (fun content m => m.writeTrancIdBytes content) content

theorem writeAll_cons {m : TranManager} (h : m.Storable) (ms : List TranManager) (content : Bytes) :
  writeAll (m :: ms) content = writeAll ms (wordBytes m.words ++ content.drop (8 * m.words.length))
  := by
  rw [writeAll, List.foldlM_cons, Except.bind_eq_of_ok _ (writeTrancIdBytes_eq h.writable content),
    writeAll]

/-- Managers that write leave a file that begins with the words of the last one. -/
theorem writeAll_append :
  ∀ (ms : List TranManager) {m : TranManager}, (∀ m' ∈ ms, m'.Storable) → m.Storable →
    ∀ content, ∃ rest, writeAll (ms ++ [m]) content = .ok (wordBytes m.words ++ rest)
  | [], m, _, h, content => by
      refine ⟨content.drop (8 * m.words.length), ?_⟩
      rw [List.nil_append, writeAll_cons h]
      rfl
  | m' :: ms, m, hms, h, content => by
      obtain ⟨hm', hms⟩ := List.forall_mem_cons.mp hms
      obtain ⟨rest, hwrite⟩ := writeAll_append ms hms h
        (wordBytes m'.words ++ content.drop (8 * m'.words.length))
      rw [List.cons_append, writeAll_cons hm']
      exact ⟨rest, hwrite⟩

/-- After managers have written to a file one after the other, with sets that may grow and shrink,
a manager reads what the last one has written. -/
theorem readTrancIdBytes_writeAll {ms : List TranManager} {m : TranManager}
    (hms : ∀ m' ∈ ms, m'.Storable) (h : m.Storable) (content : Bytes) :
  ∃ content', writeAll (ms ++ [m]) content = .ok content' ∧
    fresh.readTrancIdBytes content' =
      .ok { fresh with
        nextTransactionId := m.nextTransactionId
        flushedTrancIds := m.flushedTrancIds }
  := by
  obtain ⟨rest, hwrite⟩ := writeAll_append ms hms h content
  exact ⟨_, hwrite, readTrancIdBytes_eq h rest⟩

/-- Two flushed ids are written into a new file, and then a single one. -/
theorem readTrancIdBytes_writeAll_shrunk :
  ∃ content,
    writeAll ([{ nextTransactionId := 10, flushedTrancIds := (OrderedSet.singleton 3).insert 9 }] ++
      [{ nextTransactionId := 12, flushedTrancIds := .singleton 11 }]) [] = .ok content ∧
    fresh.readTrancIdBytes content =
      .ok { fresh with nextTransactionId := 12, flushedTrancIds := .singleton 11 }
  := by
  apply readTrancIdBytes_writeAll
  · intro m hm
    obtain rfl := List.mem_singleton.mp hm
    exact ⟨by decide, by decide, by decide⟩
  · exact ⟨by decide, by decide, by decide⟩

/-! ### Files of words -/

/-- A manager writes to a file of words as to its bytes, and throws the same. -/
theorem writeTrancIdBytes_wordBytes (m : TranManager) (words : List ℕ) :
  m.writeTrancIdBytes (wordBytes words) = (m.writeTrancIdFile words).map wordBytes
  := by
  by_cases hwritable : m.Writable
  · rw [writeTrancIdBytes_eq hwritable, writeTrancIdFile_eq_ok.mpr ⟨hwritable, rfl⟩,
      drop_wordBytes, ← wordBytes_append]
    rfl
  · rw [Writable] at hwritable
    rw [writeTrancIdBytes, writeTrancIdFile]
    by_cases hneg : 2 ^ 31 ≤ 8 * (m.flushedTrancIds.elems.length + 2) % 2 ^ 32
    · rw [encodeTrancIds_of_le hneg, if_pos hneg]
      rfl
    · rw [encodeTrancIds_of_lt (by omega) (by omega), if_neg hneg, if_pos (by omega)]
      rfl

theorem readUint64_lt {words : List ℕ} {idx word : ℕ} (h : readUint64 words idx = .ok word) :
  idx < words.length
  := by
  rw [readUint64] at h
  split at h
  next hword => exact (List.getElem?_eq_some_iff.mp hword).1
  next => cases h

theorem readUint64_wordBytes {words : List ℕ} (h : ∀ word ∈ words, word < 2 ^ 64) (idx : ℕ) :
  FileObj.readUint64 (wordBytes words) (8 * idx) = readUint64 words idx
  := by
  cases hword : words[idx]? with
  | none =>
      have hle := List.getElem?_eq_none_iff.mp hword
      rw [readUint64, hword]
      apply FileObj.readUint_of_lt
      rw [length_wordBytes]
      omega
  | some word =>
      obtain ⟨hidx, rfl⟩ := List.getElem?_eq_some_iff.mp hword
      have hfront : (wordBytes (words.take idx)).length = 8 * idx := by
        rw [length_wordBytes, List.length_take_of_le (Nat.le_of_lt hidx)]
      rw [readUint64, hword]
      dsimp only
      conv_lhs => rw [← List.take_append_drop idx words, List.drop_eq_getElem_cons hidx]
      rw [wordBytes_append, wordBytes_cons]
      exact readUint64_word (h _ (List.getElem_mem hidx)) hfront _

theorem readFlushedTrancIdBytes_wordBytes
    {words : List ℕ} (h : ∀ word ∈ words, word < 2 ^ 64) (hlength : words.length < 2 ^ 28) :
  ∀ (size : ℕ) {idx : ℕ} (flushedTrancIds : OrderedSet TrancId), idx ≤ words.length →
    readFlushedTrancIdBytes (wordBytes words) size (8 * idx : ℕ) flushedTrancIds =
      readFlushedTrancIds words size idx flushedTrancIds
  | 0, _, _, _ => rfl
  | size + 1, idx, flushedTrancIds, hidx => by
      have hoffset : (((8 * idx : ℕ) : ℤ) % 2 ^ 64).toNat = 8 * idx := by
        omega
      rw [readFlushedTrancIdBytes, hoffset, readUint64_wordBytes h, readFlushedTrancIds]
      cases hread : readUint64 words idx with
      | error e => rfl
      | ok flushedId =>
          have hidx' := readUint64_lt hread
          rw [Except.bind_eq_of_ok _ rfl, Except.bind_eq_of_ok _ rfl, bmod_offset (by omega),
            ← Nat.mul_succ]
          apply readFlushedTrancIdBytes_wordBytes h hlength size _ hidx'

/-- A manager that is constructed over a file of words reads the words. -/
theorem readTrancIdBytes_wordBytes
    {words : List ℕ} (h : ∀ word ∈ words, word < 2 ^ 64) (hlength : words.length < 2 ^ 28) :
  fresh.readTrancIdBytes (wordBytes words) = readTrancIdFile words
  := by
  have hnext : FileObj.readUint64 (wordBytes words) 0 = readUint64 words 0 :=
    readUint64_wordBytes h 0
  have hcount : FileObj.readUint64 (wordBytes words) 8 = readUint64 words 1 :=
    readUint64_wordBytes h 1
  rw [readTrancIdBytes, hnext, hcount, readTrancIdFile]
  cases readUint64 words 0 with
  | error e => rfl
  | ok nextTransactionId =>
      cases hread : readUint64 words 1 with
      | error e => rfl
      | ok size =>
          have hflushed := readFlushedTrancIdBytes_wordBytes h hlength size .empty
            (readUint64_lt hread)
          rw [Except.bind_eq_of_ok _ rfl, Except.bind_eq_of_ok _ rfl, Except.bind_eq_of_ok _ rfl,
            Except.bind_eq_of_ok _ rfl, ← hflushed]
          rfl

end TinyLsm
