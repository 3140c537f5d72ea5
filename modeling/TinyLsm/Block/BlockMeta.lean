import TinyLsm.Utils.Buffer

/-!
# The metadata of blocks

The metadata of a table are the offsets of its blocks with their first and last keys.  They are
written into a buffer of the size that a first loop has added up: their number, the metadata of each
block, and a hash of these.  They are read back with the lengths that they announce, and only then
the hash is compared.
-/

namespace TinyLsm

structure BlockMeta where
  offset : ℕ := 0
  firstKey : Bytes := []
  lastKey : Bytes := []
deriving DecidableEq, Repr

namespace BlockMeta

/-! ### Encoding -/

/-- The size that the first loop adds for the metadata of a block. -/
def entrySize (metaEntry : BlockMeta) : ℕ :=
  4 + 2 + metaEntry.firstKey.length + 2 + metaEntry.lastKey.length

/-- Write a key after its length, which is kept in sixteen bits. -/
def writeKey (key : Bytes) (buffer : Bytes) (ptr : ℕ) : Except Fault (Bytes × ℕ) := do
  let keyLen := key.length % 2 ^ 16
  let buffer ← memcpy buffer ptr (toLittleEndian 2 keyLen)
  let buffer ← memcpy buffer (ptr + 2) (key.take keyLen)
  return (buffer, ptr + 2 + keyLen)

/-- A round of the second loop: write the metadata of a block. -/
def writeEntry (metaEntry : BlockMeta) (buffer : Bytes) (ptr : ℕ) : Except Fault (Bytes × ℕ) := do
  let buffer ← memcpy buffer ptr (toLittleEndian 4 metaEntry.offset)
  let (buffer, ptr) ← writeKey metaEntry.firstKey buffer (ptr + 4)
  writeKey metaEntry.lastKey buffer ptr

def writeEntries : List BlockMeta → Bytes → ℕ → Except Fault (Bytes × ℕ)
  | [], buffer, ptr => return (buffer, ptr)
  | metaEntry :: metaEntries, buffer, ptr => do
      let (buffer, ptr) ← writeEntry metaEntry buffer ptr
      writeEntries metaEntries buffer ptr

/-- What the vector `metadata` holds after the encoding.  The hash function is that of
`std::string_view`, of which 32 bits are kept. -/
def encodeMetaToSlice (hash : Bytes → ℕ) (metaEntries : List BlockMeta) (metadata : Bytes) :
  Except Fault Bytes := do
  let totalSize := 4 + (metaEntries.map entrySize).sum + 4
  let buffer ← memcpy (resize metadata totalSize) 0 (toLittleEndian 4 metaEntries.length)
  let (buffer, ptr) ← writeEntries metaEntries buffer 4
  let data := (buffer.drop 4).take (ptr - 4)
  memcpy buffer ptr (toLittleEndian 4 (hash data))

/-! ### Decoding -/

/-- Read a key after its length. -/
def readKey (input : Bytes) : Except Fault (Bytes × Bytes) := do
  let (keyLen, input) ← readNumber 2 input
  readBytes keyLen input

/-- A round of the loop: read the metadata of a block. -/
def readEntry (input : Bytes) : Except Fault (BlockMeta × Bytes) := do
  let (offset, input) ← readNumber 4 input
  let (firstKey, input) ← readKey input
  let (lastKey, input) ← readKey input
  return (⟨offset, firstKey, lastKey⟩, input)

def readEntries : ℕ → Bytes → Except Fault (List BlockMeta × Bytes)
  | 0, input => return ([], input)
  | numEntries + 1, input => do
      let (metaEntry, input) ← readEntry input
      let (metaEntries, input) ← readEntries numEntries input
      return (metaEntry :: metaEntries, input)

def decodeMetaFromSlice (hash : Bytes → ℕ) (metadata : Bytes) : Except Fault (List BlockMeta) := do
  if metadata.length < 4 * 2 then
    throw (.runtimeError "Invalid metadata size")
  let (numEntries, input) ← readNumber 4 metadata
  let (metaEntries, rest) ← readEntries numEntries input
  let (storedHash, _) ← readNumber 4 rest
  let data := input.take (input.length - rest.length)
  if storedHash ≠ hash data % 2 ^ 32 then
    throw (.runtimeError "Metadata hash mismatch")
  return metaEntries

/-! ### The layout -/

/-- The offset fits in 32 bits, and the lengths of the keys in sixteen. -/
structure Fits (metaEntry : BlockMeta) : Prop where
  offset_lt : metaEntry.offset < 2 ^ 32
  firstKey_lt : metaEntry.firstKey.length < 2 ^ 16
  lastKey_lt : metaEntry.lastKey.length < 2 ^ 16

instance (metaEntry : BlockMeta) : Decidable metaEntry.Fits :=
  decidable_of_iff (_ ∧ _ ∧ _)
    ⟨fun ⟨hoffset, hfirst, hlast⟩ => ⟨hoffset, hfirst, hlast⟩,
      fun h => ⟨h.offset_lt, h.firstKey_lt, h.lastKey_lt⟩⟩

def keyLayout (key : Bytes) : Bytes := toLittleEndian 2 key.length ++ key

def entryLayout (metaEntry : BlockMeta) : Bytes :=
  toLittleEndian 4 metaEntry.offset ++ (keyLayout metaEntry.firstKey ++ keyLayout metaEntry.lastKey)

/-- The number of the metadata, the metadata and their hash. -/
def layout (hash : Bytes → ℕ) (metaEntries : List BlockMeta) : Bytes :=
  toLittleEndian 4 metaEntries.length ++ (metaEntries.flatMap entryLayout ++
    toLittleEndian 4 (hash (metaEntries.flatMap entryLayout)))

@[simp]
theorem length_keyLayout (key : Bytes) : (keyLayout key).length = 2 + key.length
  := by
  rw [keyLayout, List.length_append, length_toLittleEndian]

@[simp]
theorem length_entryLayout (metaEntry : BlockMeta) :
  metaEntry.entryLayout.length = metaEntry.entrySize
  := by
  rw [entryLayout, List.length_append, List.length_append, length_toLittleEndian,
    length_keyLayout, length_keyLayout, entrySize]
  omega

theorem length_flatMap_entryLayout (metaEntries : List BlockMeta) :
  (metaEntries.flatMap entryLayout).length = (metaEntries.map entrySize).sum
  := by
  rw [List.length_flatMap]
  simp only [length_entryLayout]

/-! ### Writing -/

theorem writeKey_eq {key done old : Bytes} (hlt : key.length < 2 ^ 16)
    (hfits : (keyLayout key).length ≤ old.length) :
  writeKey key (done ++ old) done.length =
    .ok (done ++ keyLayout key ++ old.drop (keyLayout key).length, (done ++ keyLayout key).length)
  := by
  rw [length_keyLayout] at hfits
  have hlen : key.length % 2 ^ 16 = key.length := Nat.mod_eq_of_lt hlt
  have hwriteLen : memcpy (done ++ old) done.length (toLittleEndian 2 key.length) =
      .ok (done ++ toLittleEndian 2 key.length ++ old.drop 2) := by
    rw [memcpy_append (by rw [length_toLittleEndian]; omega), length_toLittleEndian]
  have hwriteKey : memcpy (done ++ toLittleEndian 2 key.length ++ old.drop 2) (done.length + 2)
      key = .ok (done ++ keyLayout key ++ old.drop (keyLayout key).length) := by
    have hdone : done.length + 2 = (done ++ toLittleEndian 2 key.length).length := by
      rw [List.length_append, length_toLittleEndian]
    rw [hdone, memcpy_append (by rw [List.length_drop]; omega), List.drop_drop, length_keyLayout,
      keyLayout, List.append_assoc done]
  rw [writeKey, hlen, List.take_length, Except.bind_eq_of_ok _ hwriteLen,
    Except.bind_eq_of_ok _ hwriteKey, List.length_append, length_keyLayout, Nat.add_assoc]
  rfl

theorem writeEntry_eq {metaEntry : BlockMeta} {done old : Bytes} (h : metaEntry.Fits)
    (hfits : metaEntry.entryLayout.length ≤ old.length) :
  writeEntry metaEntry (done ++ old) done.length =
    .ok (done ++ metaEntry.entryLayout ++ old.drop metaEntry.entryLayout.length,
      (done ++ metaEntry.entryLayout).length)
  := by
  have hoffset : (toLittleEndian 4 metaEntry.offset).length = 4 := length_toLittleEndian _ _
  rw [entryLayout, List.length_append, List.length_append, hoffset] at hfits
  have hwriteOffset : memcpy (done ++ old) done.length (toLittleEndian 4 metaEntry.offset) =
      .ok (done ++ toLittleEndian 4 metaEntry.offset ++ old.drop 4) := by
    rw [memcpy_append (by omega), hoffset]
  have hptr : done.length + 4 = (done ++ toLittleEndian 4 metaEntry.offset).length := by
    rw [List.length_append, hoffset]
  rw [writeEntry, Except.bind_eq_of_ok _ hwriteOffset, hptr,
    Except.bind_eq_of_ok _ (writeKey_eq h.firstKey_lt (by rw [List.length_drop]; omega))]
  dsimp only
  rw [writeKey_eq h.lastKey_lt (by rw [List.length_drop, List.length_drop]; omega), entryLayout]
  simp only [List.append_assoc, List.drop_drop, List.length_append, hoffset, Nat.add_assoc]

/-- The second loop writes the metadata one after the other. -/
theorem writeEntries_eq :
  ∀ {metaEntries : List BlockMeta} (done : Bytes) {old : Bytes},
    (∀ metaEntry ∈ metaEntries, metaEntry.Fits) →
    (metaEntries.flatMap entryLayout).length ≤ old.length →
    writeEntries metaEntries (done ++ old) done.length =
      .ok (done ++ metaEntries.flatMap entryLayout ++
        old.drop (metaEntries.flatMap entryLayout).length,
        (done ++ metaEntries.flatMap entryLayout).length)
  | [], done, old, _, _ => by
      rw [List.flatMap_nil, List.append_nil, List.length_nil, List.drop_zero]
      rfl
  | metaEntry :: metaEntries, done, old, hmetas, hfits => by
      rw [List.flatMap_cons, List.length_append] at hfits
      have hmetas' : ∀ metaEntry' ∈ metaEntries, metaEntry'.Fits :=
        fun metaEntry' hmem => hmetas metaEntry' (List.mem_cons_of_mem metaEntry hmem)
      rw [writeEntries, Except.bind_eq_of_ok _ (writeEntry_eq (hmetas metaEntry List.mem_cons_self)
        (Nat.le_of_add_right_le hfits))]
      dsimp only
      rw [writeEntries_eq _ hmetas' (by rw [List.length_drop]; omega), List.flatMap_cons]
      simp only [List.append_assoc, List.drop_drop, List.length_append]

/-- Metadata that fit are encoded as their layout, whatever the vector held before. -/
theorem encodeMetaToSlice_eq (hash : Bytes → ℕ) {metaEntries : List BlockMeta}
    (h : ∀ metaEntry ∈ metaEntries, metaEntry.Fits) (metadata : Bytes) :
  encodeMetaToSlice hash metaEntries metadata = .ok (layout hash metaEntries)
  := by
  have hcount : (toLittleEndian 4 metaEntries.length).length = 4 := length_toLittleEndian _ _
  have htotal : (resize metadata (4 + (metaEntries.map entrySize).sum + 4)).length =
      4 + (metaEntries.flatMap entryLayout).length + 4 := by
    rw [length_resize, length_flatMap_entryLayout]
  rw [encodeMetaToSlice]
  dsimp only
  generalize resize metadata (4 + (metaEntries.map entrySize).sum + 4) = old at htotal ⊢
  have hwriteCount : memcpy old 0 (toLittleEndian 4 metaEntries.length) =
      .ok (toLittleEndian 4 metaEntries.length ++ old.drop 4) := by
    have hwrite := @memcpy_append [] (toLittleEndian 4 metaEntries.length) old (by omega)
    rwa [hcount] at hwrite
  have hwriteEntries := @writeEntries_eq metaEntries (toLittleEndian 4 metaEntries.length)
    (old.drop 4) h (by rw [List.length_drop]; omega)
  rw [hcount] at hwriteEntries
  rw [Except.bind_eq_of_ok _ hwriteCount, Except.bind_eq_of_ok _ hwriteEntries]
  dsimp only
  have hdata : ((toLittleEndian 4 metaEntries.length ++ metaEntries.flatMap entryLayout ++
      (old.drop 4).drop (metaEntries.flatMap entryLayout).length).drop 4).take
        ((toLittleEndian 4 metaEntries.length ++ metaEntries.flatMap entryLayout).length - 4) =
      metaEntries.flatMap entryLayout := by
    rw [List.append_assoc, List.drop_append, List.drop_of_length_le (by omega), hcount,
      Nat.sub_self, List.drop_zero, List.nil_append, List.length_append, hcount,
      Nat.add_sub_cancel_left, List.take_left]
  have hnil : ((old.drop 4).drop (metaEntries.flatMap entryLayout).length).drop 4 = [] := by
    apply List.drop_eq_nil_of_le
    rw [List.length_drop, List.length_drop]
    omega
  rw [hdata, memcpy_append (by
    rw [length_toLittleEndian, List.length_drop, List.length_drop]
    omega), length_toLittleEndian, hnil, List.append_nil, layout, List.append_assoc]

/-! ### Reading -/

theorem readKey_append {key : Bytes} (hlt : key.length < 2 ^ 16) (rest : Bytes) :
  readKey (keyLayout key ++ rest) = .ok (key, rest)
  := by
  rw [readKey, keyLayout, List.append_assoc, Except.bind_eq_of_ok _ (readNumber_append hlt _)]
  exact readBytes_append key rest

theorem readEntry_append {metaEntry : BlockMeta} (h : metaEntry.Fits) (rest : Bytes) :
  readEntry (metaEntry.entryLayout ++ rest) = .ok (metaEntry, rest)
  := by
  rw [readEntry, entryLayout, List.append_assoc, List.append_assoc,
    Except.bind_eq_of_ok _ (readNumber_append h.offset_lt _)]
  dsimp only
  rw [Except.bind_eq_of_ok _ (readKey_append h.firstKey_lt _)]
  dsimp only
  rw [Except.bind_eq_of_ok _ (readKey_append h.lastKey_lt _)]
  rfl

/-- Metadata that fit are read back. -/
theorem readEntries_append :
  ∀ {metaEntries : List BlockMeta}, (∀ metaEntry ∈ metaEntries, metaEntry.Fits) →
    ∀ rest, readEntries metaEntries.length (metaEntries.flatMap entryLayout ++ rest) =
      .ok (metaEntries, rest)
  | [], _, _ => rfl
  | metaEntry :: metaEntries, hmetas, rest => by
      have hmetas' : ∀ metaEntry' ∈ metaEntries, metaEntry'.Fits :=
        fun metaEntry' hmem => hmetas metaEntry' (List.mem_cons_of_mem metaEntry hmem)
      rw [List.flatMap_cons, List.append_assoc, List.length_cons, readEntries,
        Except.bind_eq_of_ok _ (readEntry_append (hmetas metaEntry List.mem_cons_self) _)]
      dsimp only
      rw [Except.bind_eq_of_ok _ (readEntries_append hmetas' rest)]
      rfl

/-- A key that is read was there, after its length. -/
theorem readKey_eq_ok {input key rest : Bytes} (h : readKey input = .ok (key, rest)) :
  key.length < 2 ^ 16 ∧ input = keyLayout key ++ rest
  := by
  rw [readKey] at h
  obtain ⟨⟨keyLen, input'⟩, hlen, hkey⟩ := Except.exists_of_bind_eq_ok h
  obtain ⟨hlt, rfl⟩ := readNumber_eq_ok hlen
  obtain ⟨rfl, rfl⟩ := readBytes_eq_ok hkey
  rw [keyLayout, List.append_assoc]
  exact ⟨hlt, rfl⟩

/-- Metadata that are read fit, and were there. -/
theorem readEntry_eq_ok {input rest : Bytes} {metaEntry : BlockMeta}
    (h : readEntry input = .ok (metaEntry, rest)) :
  metaEntry.Fits ∧ input = metaEntry.entryLayout ++ rest
  := by
  rw [readEntry] at h
  obtain ⟨⟨offset, input₁⟩, hoffset, h₁⟩ := Except.exists_of_bind_eq_ok h
  obtain ⟨⟨firstKey, input₂⟩, hfirst, h₂⟩ := Except.exists_of_bind_eq_ok h₁
  obtain ⟨⟨lastKey, input₃⟩, hlast, h₃⟩ := Except.exists_of_bind_eq_ok h₂
  obtain ⟨hoffset_lt, rfl⟩ := readNumber_eq_ok hoffset
  obtain ⟨hfirst_lt, rfl⟩ := readKey_eq_ok hfirst
  obtain ⟨hlast_lt, rfl⟩ := readKey_eq_ok hlast
  obtain ⟨rfl, rfl⟩ := Prod.mk.inj (Except.ok.inj h₃)
  refine ⟨⟨hoffset_lt, hfirst_lt, hlast_lt⟩, ?_⟩
  rw [entryLayout, List.append_assoc, List.append_assoc]

theorem readEntries_eq_ok :
  ∀ {numEntries : ℕ} {input rest : Bytes} {metaEntries : List BlockMeta},
    readEntries numEntries input = .ok (metaEntries, rest) →
    (∀ metaEntry ∈ metaEntries, metaEntry.Fits) ∧ metaEntries.length = numEntries ∧
      input = metaEntries.flatMap entryLayout ++ rest
  | 0, input, rest, metaEntries, h => by
      cases h
      exact ⟨nofun, rfl, rfl⟩
  | numEntries + 1, input, rest, metaEntries, h => by
      rw [readEntries] at h
      obtain ⟨⟨metaEntry, input'⟩, hentry, h₁⟩ := Except.exists_of_bind_eq_ok h
      obtain ⟨⟨metaEntries', rest'⟩, hentries, h₂⟩ := Except.exists_of_bind_eq_ok h₁
      obtain ⟨rfl, rfl⟩ := Prod.mk.inj (Except.ok.inj h₂)
      obtain ⟨hfits, rfl⟩ := readEntry_eq_ok hentry
      obtain ⟨hfits', rfl, rfl⟩ := readEntries_eq_ok hentries
      refine ⟨List.forall_mem_cons.mpr ⟨hfits, hfits'⟩, rfl, ?_⟩
      rw [List.flatMap_cons, List.append_assoc]

/-! ### Both directions -/

theorem length_layout (hash : Bytes → ℕ) (metaEntries : List BlockMeta) :
  (layout hash metaEntries).length = 4 + ((metaEntries.flatMap entryLayout).length + 4)
  := by
  rw [layout, List.length_append, List.length_append, length_toLittleEndian, length_toLittleEndian]

/-- The layout of metadata that fit is decoded, whatever follows it. -/
theorem decodeMetaFromSlice_layout (hash : Bytes → ℕ) {metaEntries : List BlockMeta}
    (hlt : metaEntries.length < 2 ^ 32) (h : ∀ metaEntry ∈ metaEntries, metaEntry.Fits)
    (rest : Bytes) :
  decodeMetaFromSlice hash (layout hash metaEntries ++ rest) = .ok metaEntries
  := by
  have hsize : ¬ (layout hash metaEntries ++ rest).length < 4 * 2 := by
    rw [List.length_append, length_layout]
    omega
  have hcount : readNumber 4 (layout hash metaEntries ++ rest) = .ok (metaEntries.length,
      metaEntries.flatMap entryLayout ++
        (toLittleEndian 4 (hash (metaEntries.flatMap entryLayout)) ++ rest)) := by
    rw [layout, List.append_assoc, List.append_assoc]
    exact readNumber_append hlt _
  have hhash : readNumber 4
      (toLittleEndian 4 (hash (metaEntries.flatMap entryLayout)) ++ rest) =
        .ok (hash (metaEntries.flatMap entryLayout) % 2 ^ 32, rest) := by
    have hmod := littleEndian_toLittleEndian_mod 4 (hash (metaEntries.flatMap entryLayout))
    have hpow : 256 ^ 4 = 2 ^ 32 := rfl
    rw [hpow] at hmod
    rw [readNumber_of_length (length_toLittleEndian 4 _), hmod]
  rw [decodeMetaFromSlice, if_neg hsize, Except.bind_eq_of_ok _ hcount]
  dsimp only
  rw [Except.bind_eq_of_ok _ (readEntries_append h _)]
  dsimp only
  rw [Except.bind_eq_of_ok _ hhash]
  dsimp only
  rw [List.length_append, Nat.add_sub_cancel, List.take_left, if_neg (not_not.mpr rfl)]
  rfl

/-- What is decoded fits, and its layout is at the front of the slice. -/
theorem eq_layout_append_of_decode {hash : Bytes → ℕ} {metadata : Bytes}
    {metaEntries : List BlockMeta} (h : decodeMetaFromSlice hash metadata = .ok metaEntries) :
  (∀ metaEntry ∈ metaEntries, metaEntry.Fits) ∧
    ∃ rest, metadata = layout hash metaEntries ++ rest
  := by
  rw [decodeMetaFromSlice] at h
  split at h
  next => cases h
  next hsize =>
    obtain ⟨⟨numEntries, input⟩, hcount, h₁⟩ := Except.exists_of_bind_eq_ok h
    obtain ⟨⟨metaEntries', rest⟩, hentries, h₂⟩ := Except.exists_of_bind_eq_ok h₁
    obtain ⟨⟨storedHash, rest'⟩, hhash, h₃⟩ := Except.exists_of_bind_eq_ok h₂
    obtain ⟨-, rfl⟩ := readNumber_eq_ok hcount
    obtain ⟨hfits, rfl, rfl⟩ := readEntries_eq_ok hentries
    obtain ⟨-, rfl⟩ := readNumber_eq_ok hhash
    dsimp only at h₃
    rw [List.length_append, Nat.add_sub_cancel, List.take_left] at h₃
    split at h₃
    next => cases h₃
    next hstored =>
      obtain rfl := Except.ok.inj h₃
      refine ⟨hfits, rest', ?_⟩
      rw [not_not.mp hstored, layout, List.append_assoc, List.append_assoc]
      congr 3
      exact toLittleEndian_mod 4 _

/-- Metadata that fit are decoded from their encoding, and what is decoded has its encoding at the
front of the slice. -/
theorem decode_encode_meta (hash : Bytes → ℕ) :
  (∀ metaEntries : List BlockMeta, metaEntries.length < 2 ^ 32 →
      (∀ metaEntry ∈ metaEntries, metaEntry.Fits) → ∀ metadata, ∃ slice,
        encodeMetaToSlice hash metaEntries metadata = .ok slice ∧
          decodeMetaFromSlice hash slice = .ok metaEntries) ∧
    ∀ (slice : Bytes) (metaEntries : List BlockMeta),
      decodeMetaFromSlice hash slice = .ok metaEntries → ∀ metadata, ∃ encoding,
        encodeMetaToSlice hash metaEntries metadata = .ok encoding ∧ encoding <+: slice
  := by
  constructor
  · intro metaEntries hlt hfits metadata
    refine ⟨layout hash metaEntries, encodeMetaToSlice_eq hash hfits metadata, ?_⟩
    have hdecode := decodeMetaFromSlice_layout hash hlt hfits []
    rwa [List.append_nil] at hdecode
  · intro slice metaEntries hdecode metadata
    obtain ⟨hfits, rest, rfl⟩ := eq_layout_append_of_decode hdecode
    exact ⟨layout hash metaEntries, encodeMetaToSlice_eq hash hfits metadata,
      List.prefix_append _ _⟩

/-- The metadata of two blocks. -/
theorem decode_encode_meta_two :
  let metaEntries : List BlockMeta := [⟨0, [1], [2, 3]⟩, ⟨4096, [4], [4]⟩]
  ∃ slice, encodeMetaToSlice List.length metaEntries [9] = .ok slice ∧
    decodeMetaFromSlice List.length slice = .ok metaEntries
  := by
  intro metaEntries
  apply (decode_encode_meta List.length).1
  · decide
  · decide

/-! ### Reading within the slice -/

/-- The size of a key after its length, as the length at the front announces it. -/
def announcedSize (input : Bytes) : ℕ := 2 + littleEndian (input.take 2)

/-- The length of a key and the key that it announces are there. -/
def KeyFits (input : Bytes) : Prop := 2 ≤ input.length ∧ announcedSize input ≤ input.length

/-- The offset and the two keys of a block are there, as the lengths of the keys announce them. -/
def EntryFits (input : Bytes) : Prop :=
  4 ≤ input.length ∧ KeyFits (input.drop 4) ∧
    KeyFits ((input.drop 4).drop (announcedSize (input.drop 4)))

/-- What is behind the metadata of a block. -/
def afterEntry (input : Bytes) : Bytes :=
  ((input.drop 4).drop (announcedSize (input.drop 4))).drop
    (announcedSize ((input.drop 4).drop (announcedSize (input.drop 4))))

/-- The metadata of a number of blocks are there, and a hash behind them. -/
def EntriesFit : ℕ → Bytes → Prop
  | 0, input => 4 ≤ input.length
  | numEntries + 1, input => EntryFits input ∧ EntriesFit numEntries (afterEntry input)

theorem readKey_of_keyFits {input : Bytes} (h : KeyFits input) :
  ∃ key, readKey input = .ok (key, input.drop (announcedSize input))
  := by
  obtain ⟨hlen, hkey⟩ := h
  rw [announcedSize] at hkey
  have hle : littleEndian (input.take 2) ≤ (input.drop 2).length := by
    rw [List.length_drop]
    omega
  rw [readKey, Except.bind_eq_of_ok _ (readNumber_of_le hlen)]
  dsimp only
  rw [readBytes_of_le hle, List.drop_drop, announcedSize]
  exact ⟨_, rfl⟩

theorem readKey_of_not_keyFits {input : Bytes} (h : ¬ KeyFits input) :
  readKey input = .error .undefinedBehavior
  := by
  rw [readKey]
  by_cases hlen : 2 ≤ input.length
  · have hlt : (input.drop 2).length < littleEndian (input.take 2) := by
      have hkey : ¬ announcedSize input ≤ input.length := fun hkey => h ⟨hlen, hkey⟩
      rw [announcedSize] at hkey
      rw [List.length_drop]
      omega
    rw [Except.bind_eq_of_ok _ (readNumber_of_le hlen)]
    exact readBytes_of_lt hlt
  · rw [readNumber_of_lt (Nat.lt_of_not_le hlen)]
    rfl

theorem readEntry_of_entryFits {input : Bytes} (h : EntryFits input) :
  ∃ metaEntry, readEntry input = .ok (metaEntry, afterEntry input)
  := by
  obtain ⟨hoffset, hfirst, hlast⟩ := h
  obtain ⟨firstKey, hfirst⟩ := readKey_of_keyFits hfirst
  obtain ⟨lastKey, hlast⟩ := readKey_of_keyFits hlast
  rw [readEntry, Except.bind_eq_of_ok _ (readNumber_of_le hoffset)]
  dsimp only
  rw [Except.bind_eq_of_ok _ hfirst]
  dsimp only
  rw [Except.bind_eq_of_ok _ hlast]
  exact ⟨_, rfl⟩

theorem readEntry_of_not_entryFits {input : Bytes} (h : ¬ EntryFits input) :
  readEntry input = .error .undefinedBehavior
  := by
  rw [readEntry]
  by_cases hoffset : 4 ≤ input.length
  · rw [Except.bind_eq_of_ok _ (readNumber_of_le hoffset)]
    dsimp only
    by_cases hfirst : KeyFits (input.drop 4)
    · obtain ⟨firstKey, hread⟩ := readKey_of_keyFits hfirst
      have hlast : ¬ KeyFits ((input.drop 4).drop (announcedSize (input.drop 4))) :=
        fun hlast => h ⟨hoffset, hfirst, hlast⟩
      rw [Except.bind_eq_of_ok _ hread]
      dsimp only
      rw [readKey_of_not_keyFits hlast]
      rfl
    · rw [readKey_of_not_keyFits hfirst]
      rfl
  · rw [readNumber_of_lt (Nat.lt_of_not_le hoffset)]
    rfl

/-- The loop reads within the slice, and leaves room for the hash, if everything is there. -/
theorem readEntries_of_entriesFit :
  ∀ {numEntries : ℕ} {input : Bytes}, EntriesFit numEntries input →
    ∃ metaEntries rest, readEntries numEntries input = .ok (metaEntries, rest) ∧ 4 ≤ rest.length
  | 0, input, h => ⟨[], input, rfl, h⟩
  | numEntries + 1, input, ⟨hentry, hentries⟩ => by
      obtain ⟨metaEntry, hread⟩ := readEntry_of_entryFits hentry
      obtain ⟨metaEntries, rest, hreads, hrest⟩ := readEntries_of_entriesFit hentries
      refine ⟨metaEntry :: metaEntries, rest, ?_, hrest⟩
      rw [readEntries, Except.bind_eq_of_ok _ hread]
      dsimp only
      rw [Except.bind_eq_of_ok _ hreads]
      rfl

/-- Otherwise the loop reads past the slice, or leaves no room for the hash. -/
theorem readEntries_of_not_entriesFit :
  ∀ {numEntries : ℕ} {input : Bytes}, ¬ EntriesFit numEntries input →
    readEntries numEntries input = .error .undefinedBehavior ∨
      ∃ metaEntries rest, readEntries numEntries input = .ok (metaEntries, rest) ∧ rest.length < 4
  | 0, input, h => .inr ⟨[], input, rfl, Nat.lt_of_not_le h⟩
  | numEntries + 1, input, h => by
      rw [readEntries]
      by_cases hentry : EntryFits input
      · obtain ⟨metaEntry, hread⟩ := readEntry_of_entryFits hentry
        have hentries : ¬ EntriesFit numEntries (afterEntry input) :=
          fun hentries => h ⟨hentry, hentries⟩
        rw [Except.bind_eq_of_ok _ hread]
        dsimp only
        rcases readEntries_of_not_entriesFit hentries with
          hreads | ⟨metaEntries, rest, hreads, hrest⟩
        · left
          rw [hreads]
          rfl
        · right
          rw [Except.bind_eq_of_ok _ hreads]
          exact ⟨_, rest, rfl, hrest⟩
      · left
        rw [readEntry_of_not_entryFits hentry]
        rfl

/-- Decoding returns or throws, and reads nothing past the slice, if and only if the slice is
rejected for its size, or the metadata of as many blocks as it announces and a hash are there. -/
theorem decodeMetaFromSlice_safe_iff (hash : Bytes → ℕ) (metadata : Bytes) :
  ((∃ metaEntries, decodeMetaFromSlice hash metadata = .ok metaEntries) ∨
      ∃ what, decodeMetaFromSlice hash metadata = .error (.runtimeError what)) ↔
    metadata.length < 8 ∨ EntriesFit (littleEndian (metadata.take 4)) (metadata.drop 4)
  := by
  rw [decodeMetaFromSlice]
  split
  next hsize => exact iff_of_true (.inr ⟨_, rfl⟩) (.inl hsize)
  next hsize =>
    have hcount : 4 ≤ metadata.length := by omega
    rw [or_iff_right hsize, Except.bind_eq_of_ok _ (readNumber_of_le hcount)]
    dsimp only
    constructor
    · intro hsafe
      by_contra hfits
      rcases readEntries_of_not_entriesFit hfits with hreads | ⟨metaEntries, rest, hreads, hrest⟩
      · rw [hreads] at hsafe
        rcases hsafe with ⟨_, h⟩ | ⟨_, h⟩ <;> cases h
      · rw [Except.bind_eq_of_ok _ hreads] at hsafe
        dsimp only at hsafe
        rw [readNumber_of_lt hrest] at hsafe
        rcases hsafe with ⟨_, h⟩ | ⟨_, h⟩ <;> cases h
    · intro hfits
      obtain ⟨metaEntries, rest, hreads, hrest⟩ := readEntries_of_entriesFit hfits
      rw [Except.bind_eq_of_ok _ hreads]
      dsimp only
      rw [Except.bind_eq_of_ok _ (readNumber_of_le hrest)]
      dsimp only
      split
      next => exact .inr ⟨_, rfl⟩
      next => exact .inl ⟨_, rfl⟩

/-- Eight bytes that announce the metadata of a block are read past their end. -/
theorem not_decodeMetaFromSlice_safe :
  ¬ ∀ (hash : Bytes → ℕ) (metadata : Bytes),
    (∃ metaEntries, decodeMetaFromSlice hash metadata = .ok metaEntries) ∨
      ∃ what, decodeMetaFromSlice hash metadata = .error (.runtimeError what)
  := by
  intro h
  have hcrash : decodeMetaFromSlice (fun _ => 0) [1, 0, 0, 0, 0, 0, 0, 0] =
      .error .undefinedBehavior := by decide
  rcases h (fun _ => 0) [1, 0, 0, 0, 0, 0, 0, 0] with ⟨_, h⟩ | ⟨_, h⟩
  · cases hcrash.symm.trans h
  · cases hcrash.symm.trans h

end BlockMeta

end TinyLsm
