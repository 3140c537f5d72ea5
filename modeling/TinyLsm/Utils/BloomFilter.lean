import Mathlib.Data.Set.Lattice
import TinyLsm.Library.Runs
import TinyLsm.Utils.Buffer
import TinyLsm.Utils.Text

/-!
# Bloom filters

A filter marks positions of an array of bits.  The positions of a key are those of its
hashes, `hash1` and `hash2` combined by each index below `num_hashes_`.  Adding a key marks its
positions, and a key is possibly contained if all of its positions are marked.

* What is marked after keys are added is what was marked before, and the positions of the keys:
  `marked_addAll`.
* A filter that is encoded decodes to itself: `decode_encode_eq`.
-/

namespace TinyLsm

/-- A Bloom filter.  The rate is the eight bytes of a `double`, which nothing looks into.  A
vector of bits has fewer than `2 ^ 63` of them, as its differences are `std::ptrdiff_t`. -/
structure BloomFilter where
  expectedElements : UInt64
  falsePositiveRate : Vector Byte 8
  numBits : UInt64
  numHashes : UInt64
  bits : Vector Bool numBits.toNat
  numBits_lt : numBits.toNat < 2 ^ 63

namespace BloomFilter

/-! ### Adding and looking up -/

section

variable (hasher : Bytes → UInt64)

def hash1 (key : Bytes) : UInt64 := hasher key

def hash2 (key : Bytes) : UInt64 := hasher (key ++ bytes "salt")

/-- The position of a hash.  A remainder of a division by zero is undefined. -/
def hash (f : BloomFilter) (key : Bytes) (idx : UInt64) : Except Fault UInt64 :=
  if f.numBits = 0 then .error .undefinedBehavior
  else .ok ((hash1 hasher key + idx * hash2 hasher key) % f.numBits)

/-- `bits_[position] = true`. -/
def setBit (f : BloomFilter) (position : ℕ) : Except Fault BloomFilter :=
  if position < f.numBits.toNat then
    .ok { f with bits := f.bits.setIfInBounds position true }
  else
    .error .undefinedBehavior

/-- `bits_[position]`. -/
def getBit (f : BloomFilter) (position : ℕ) : Except Fault Bool :=
  match f.bits[position]? with
  | some bit => .ok bit
  | none => .error .undefinedBehavior

def add (f : BloomFilter) (key : Bytes) : Except Fault BloomFilter :=
  (List.range f.numHashes.toNat).foldlM
    (fun f i => do
      let position ← f.hash hasher key (UInt64.ofNat i)
      f.setBit position.toNat)
    f

def possiblyContains (f : BloomFilter) (key : Bytes) : Except Fault Bool :=
  (List.range f.numHashes.toNat).allM
    (fun i => do
      let position ← f.hash hasher key (UInt64.ofNat i)
      f.getBit position.toNat)

/-- Add keys one after the other. -/
def addAll (f : BloomFilter) (keys : List Bytes) : Except Fault BloomFilter :=
  keys.foldlM (fun f key => f.add hasher key) f

end

/-! ### The stored form -/

/-- The number of bytes that hold so many bits, computed in `size_t`. -/
def numBytes (numBits : UInt64) : ℕ := ((numBits + 7) / 8).toNat

/-- The byte of the bits from `8 * i` on, the first one in the lowest place. -/
def packByte (f : BloomFilter) (i : ℕ) : Byte :=
  Fin.ofNat 256
    ((List.range 8).foldl
      (fun byte j =>
        if h : i * 8 + j < f.numBits.toNat then byte ||| (f.bits[i * 8 + j].toNat <<< j)
        else byte)
      0)

def encode (f : BloomFilter) : Bytes :=
  toLittleEndian 8 f.expectedElements.toNat ++ f.falsePositiveRate.toList ++
    toLittleEndian 8 f.numBits.toNat ++ toLittleEndian 8 f.numHashes.toNat ++
    (List.range (numBytes f.numBits)).map f.packByte

/-- Set the bits from `8 * i` on to those of a byte, as far as there are bits. -/
def unpackByte {n : ℕ} (bits : Vector Bool n) (i : ℕ) (byte : Byte) : Vector Bool n :=
  (List.range 8).foldl
    (fun bits j => if h : i * 8 + j < n then bits.set (i * 8 + j) (byte.val.testBit j) else bits)
    bits

/-- The loop of `decode` over so many bytes: the bits, and what is left of the data. -/
def unpackBytes {n : ℕ} (start : Vector Bool n) (data : Bytes) (count : ℕ) :
    Except Fault (Vector Bool n × Bytes) :=
  (List.range count).foldlM
    (fun state i => do
      let (byte, rest) ← readByte state.2
      return (unpackByte state.1 i byte, rest))
    (start, data)

/-- The filter with the bits that are left of the data.  A vector of more bits than there can
be is not allocated. -/
def decodeBits (expectedElements : UInt64) (falsePositiveRate : Vector Byte 8)
    (numBits numHashes : UInt64) (rest : Bytes) : Except Fault BloomFilter :=
  if h : numBits.toNat < 2 ^ 63 then do
    let (bits, _) ← unpackBytes (Vector.replicate _ false) rest (numBytes numBits)
    return {
      expectedElements := expectedElements
      falsePositiveRate := falsePositiveRate
      numBits := numBits
      numHashes := numHashes
      bits := bits
      numBits_lt := h }
  else
    throw (.runtimeError "std::bad_alloc")

def decode (data : Bytes) : Except Fault BloomFilter := do
  let (expectedElements, rest) ← readNumber 8 data
  let (falsePositiveRate, rest) ← readBytes 8 rest
  let (numBits, rest) ← readNumber 8 rest
  let (numHashes, rest) ← readNumber 8 rest
  decodeBits (UInt64.ofNat expectedElements) (Vector.ofFn (fun i => falsePositiveRate.getD i 0))
    (UInt64.ofNat numBits) (UInt64.ofNat numHashes) rest

/-! ### What is marked -/

/-- The positions whose bits are set. -/
def marked (f : BloomFilter) : Set ℕ := { position | f.bits[position]? = some true }

/-- The position of a key for an index. -/
def position (hasher : Bytes → UInt64) (f : BloomFilter) (key : Bytes) (i : ℕ) : ℕ :=
  ((hash1 hasher key + UInt64.ofNat i * hash2 hasher key) % f.numBits).toNat

/-- The positions of a key. -/
def positions (hasher : Bytes → UInt64) (f : BloomFilter) (key : Bytes) : Set ℕ :=
  { p | ∃ i < f.numHashes.toNat, f.position hasher key i = p }

/-- A filter with the parameters of another one, and the same bits but for those that are
marked. -/
structure SameShape (f f' : BloomFilter) : Prop where
  numBits : f'.numBits = f.numBits
  numHashes : f'.numHashes = f.numHashes

theorem SameShape.refl (f : BloomFilter) : SameShape f f := ⟨rfl, rfl⟩

theorem SameShape.trans {f f' f'' : BloomFilter} (h : SameShape f f') (h' : SameShape f' f'') :
  SameShape f f''
  := ⟨h'.numBits.trans h.numBits, h'.numHashes.trans h.numHashes⟩

section

variable {hasher : Bytes → UInt64} {f : BloomFilter}

theorem SameShape.position_eq {f' : BloomFilter} (h : SameShape f f') (key : Bytes) (i : ℕ) :
  f'.position hasher key i = f.position hasher key i
  := by
  rw [position, position, h.numBits]

theorem SameShape.positions_eq {f' : BloomFilter} (h : SameShape f f') (key : Bytes) :
  f'.positions hasher key = f.positions hasher key
  := by
  ext p
  simp only [positions, h.numHashes, h.position_eq, Set.mem_ofPred_eq]

theorem position_lt (hasher : Bytes → UInt64) (hbits : f.numBits ≠ 0) (key : Bytes) (i : ℕ) :
  f.position hasher key i < f.numBits.toNat
  := by
  have hpos : 0 < f.numBits.toNat := by
    apply Nat.pos_of_ne_zero
    intro hzero
    exact hbits (UInt64.toNat_inj.mp hzero)
  rw [position, UInt64.toNat_mod]
  apply Nat.mod_lt _ hpos

theorem hash_eq (hbits : f.numBits ≠ 0) (key : Bytes) (i : ℕ) :
  f.hash hasher key (UInt64.ofNat i) =
    .ok ((hash1 hasher key + UInt64.ofNat i * hash2 hasher key) % f.numBits)
  := if_neg hbits

/-- The bit of a position of a key is set. -/
theorem setBit_position (hasher : Bytes → UInt64) (hbits : f.numBits ≠ 0) (key : Bytes) (i : ℕ) :
  ∃ f', f.setBit (f.position hasher key i) = .ok f' ∧ SameShape f f' ∧
    f'.marked = f.marked ∪ {f.position hasher key i}
  := by
  have hlt := f.position_lt hasher hbits key i
  use { f with bits := f.bits.setIfInBounds (f.position hasher key i) true }
  refine ⟨if_pos hlt, ⟨rfl, rfl⟩, ?_⟩
  ext p
  simp only [marked, Set.mem_ofPred_eq, Set.mem_union, Set.mem_singleton_iff]
  rw [Vector.getElem?_setIfInBounds]
  by_cases hp : f.position hasher key i = p
  · simp [hp, hp ▸ hlt]
  · simp [hp, Ne.symm hp]

/-- The loop of `add` marks the positions for the indices it has gone through. -/
theorem add_upTo (hbits : f.numBits ≠ 0) (key : Bytes) (count : ℕ) :
  ∃ f', (List.range count).foldlM
      (fun f i => do
        let position ← f.hash hasher key (UInt64.ofNat i)
        f.setBit position.toNat) f = .ok f' ∧
    SameShape f f' ∧ f'.marked = f.marked ∪ { p | ∃ i < count, f.position hasher key i = p }
  := by
  induction count with
  | zero =>
      use f
      refine ⟨rfl, .refl f, ?_⟩
      simp
  | succ count ih =>
      obtain ⟨f₁, hrun, hshape, hmarked⟩ := ih
      have hbits₁ : f₁.numBits ≠ 0 := by rwa [hshape.numBits]
      obtain ⟨f₂, hset, hshape', hmarked'⟩ :=
        f₁.setBit_position hasher hbits₁ key count
      use f₂
      refine ⟨?_, hshape.trans hshape', ?_⟩
      · rw [List.range_succ]
        apply Runs.foldlM_concat_eq_ok.mpr
        use f₁, hrun
        rw [Except.bind_eq_of_ok _ (f₁.hash_eq hbits₁ key count)]
        apply hset
      · ext p
        rw [hmarked', hmarked, hshape.position_eq]
        simp only [Set.mem_union, Set.mem_ofPred_eq, Set.mem_singleton_iff]
        constructor
        · rintro ((hp | ⟨i, hi, hp⟩) | hp)
          · exact .inl hp
          · exact .inr ⟨i, by omega, hp⟩
          · exact .inr ⟨count, by omega, hp.symm⟩
        · rintro (hp | ⟨i, hi, hp⟩)
          · exact .inl (.inl hp)
          · obtain hlt | rfl := Nat.lt_succ_iff_lt_or_eq.mp hi
            · exact .inl (.inr ⟨i, hlt, hp⟩)
            · exact .inr hp.symm

/-- Adding a key marks its positions. -/
theorem marked_add (hasher : Bytes → UInt64) (hbits : f.numBits ≠ 0) (key : Bytes) :
  ∃ f', f.add hasher key = .ok f' ∧ SameShape f f' ∧
    f'.marked = f.marked ∪ f.positions hasher key
  := f.add_upTo hbits key f.numHashes.toNat

/-- What is marked after keys are added is what was marked before, and the positions of the
keys. -/
theorem marked_addAll (hasher : Bytes → UInt64) (hbits : f.numBits ≠ 0) (keys : List Bytes) :
  ∃ f', f.addAll hasher keys = .ok f' ∧ SameShape f f' ∧
    f'.marked = f.marked ∪ ⋃ key ∈ keys, f.positions hasher key
  := by
  induction keys using List.reverseRecOn with
  | nil =>
      use f
      refine ⟨rfl, .refl f, ?_⟩
      simp
  | append_singleton keys key ih =>
      obtain ⟨f₁, hrun, hshape, hmarked⟩ := ih
      have hbits₁ : f₁.numBits ≠ 0 := by rwa [hshape.numBits]
      obtain ⟨f₂, hadd, hshape', hmarked'⟩ := f₁.marked_add hasher hbits₁ key
      use f₂
      refine ⟨Runs.foldlM_concat_eq_ok.mpr ⟨f₁, hrun, hadd⟩, hshape.trans hshape', ?_⟩
      rw [hmarked', hmarked, hshape.positions_eq, Set.union_assoc]
      congr 1
      ext p
      simp [or_and_right, exists_or]

/-- The loop of `possibly_contains` goes on while the bits it looks at are set. -/
theorem possiblyContains_upTo (hasher : Bytes → UInt64) (hbits : f.numBits ≠ 0) (key : Bytes) :
  ∀ indices : List ℕ, ∃ answer, indices.allM
      (fun i => do
        let position ← f.hash hasher key (UInt64.ofNat i)
        f.getBit position.toNat) = .ok answer ∧
    (answer = true ↔ ∀ i ∈ indices, f.position hasher key i ∈ f.marked)
  | [] => ⟨true, rfl, by simp⟩
  | i :: indices => by
      have hlt := f.position_lt hasher hbits key i
      have hbit : f.bits[f.position hasher key i]? = some f.bits[f.position hasher key i] :=
        Vector.getElem?_eq_getElem hlt
      have hget : (do
          let position ← f.hash hasher key (UInt64.ofNat i)
          f.getBit position.toNat) = .ok f.bits[f.position hasher key i] := by
        rw [Except.bind_eq_of_ok _ (f.hash_eq hbits key i)]
        change f.getBit (f.position hasher key i) = _
        rw [getBit, hbit]
      have hmarked : f.position hasher key i ∈ f.marked ↔
          f.bits[f.position hasher key i] = true := by
        rw [marked, Set.mem_ofPred_eq, hbit, Option.some_inj]
      rw [List.allM, Except.bind_eq_of_ok _ hget]
      simp only [List.forall_mem_cons, hmarked]
      cases f.bits[f.position hasher key i] with
      | false => exact ⟨false, rfl, by simp⟩
      | true =>
          obtain ⟨answer, hrest, hiff⟩ := possiblyContains_upTo hasher hbits key indices
          exact ⟨answer, hrest, by simp [hiff]⟩

/-- A key is possibly contained if its positions are marked. -/
theorem possiblyContains_iff (hasher : Bytes → UInt64) (hbits : f.numBits ≠ 0) (key : Bytes) :
  ∃ answer, f.possiblyContains hasher key = .ok answer ∧
    (answer = true ↔ f.positions hasher key ⊆ f.marked)
  := by
  obtain ⟨answer, hrun, hiff⟩ :=
    f.possiblyContains_upTo hasher hbits key (List.range f.numHashes.toNat)
  use answer, hrun
  rw [hiff]
  constructor
  · rintro h p ⟨i, hi, rfl⟩
    exact h i (List.mem_range.mpr hi)
  · intro h i hi
    exact h ⟨i, List.mem_range.mp hi, rfl⟩

end

/-! ### The stored bits -/

/-- A number into which bits are put has these bits. -/
theorem testBit_foldl_or (bit : ℕ → Bool) (count k : ℕ) :
  ((List.range count).foldl (fun word j => word ||| ((bit j).toNat <<< j)) 0).testBit k =
    (decide (k < count) && bit k)
  := by
  induction count with
  | zero => simp
  | succ count ih =>
      rw [List.range_succ, List.foldl_append, List.foldl_cons, List.foldl_nil, Nat.testBit_or, ih,
        Nat.testBit_shiftLeft, Nat.testBit_bool_toNat]
      obtain hk | rfl | hk := Nat.lt_trichotomy k count
      · simp [hk, Nat.lt_succ_of_lt hk, Nat.not_le_of_lt hk]
      · simp
      · have hne : k - count ≠ 0 := by omega
        have hlt : ¬ k < count + 1 := by omega
        simp [hne, hlt, Nat.not_lt_of_lt hk]

/-- The bits of a byte that is put together are those of the filter. -/
theorem testBit_packByte (f : BloomFilter) (i : ℕ) {j : ℕ} (hj : j < 8)
    (h : i * 8 + j < f.numBits.toNat) :
  (f.packByte i).val.testBit j = f.bits[i * 8 + j]
  := by
  have hstep : (fun (byte j : ℕ) =>
      if h : i * 8 + j < f.numBits.toNat then byte ||| (f.bits[i * 8 + j].toNat <<< j) else byte) =
      fun byte j => byte ||| ((f.bits[i * 8 + j]?.getD false).toNat <<< j) := by
    funext byte j
    split
    next hlt => rw [Vector.getElem?_eq_getElem hlt, Option.getD_some]
    next hle => rw [Vector.getElem?_eq_none (Nat.le_of_not_lt hle)]; simp
  have hmod : ∀ word : ℕ, (Fin.ofNat 256 word).val = word % 2 ^ 8 := fun word => rfl
  rw [packByte, hstep, hmod, Nat.testBit_mod_two_pow, testBit_foldl_or,
    Vector.getElem?_eq_getElem h]
  simp [hj]

/-- The bits after those of a byte are set are the bits of the byte where it lies. -/
theorem getElem_unpackByte {n : ℕ} (bits : Vector Bool n) (i : ℕ) (byte : Byte) {k : ℕ}
    (hk : k < n) :
  (unpackByte bits i byte)[k] = if k / 8 = i then byte.val.testBit (k % 8) else bits[k]
  := by
  have hloop : ∀ count, ((List.range count).foldl (fun (bits : Vector Bool n) j =>
      if h : i * 8 + j < n then bits.set (i * 8 + j) (byte.val.testBit j) else bits) bits)[k] =
      if i * 8 ≤ k ∧ k < i * 8 + count then byte.val.testBit (k - i * 8) else bits[k] := by
    intro count
    induction count with
    | zero =>
        rw [if_neg (by omega)]
        rfl
    | succ count ih =>
        rw [List.range_succ, List.foldl_append, List.foldl_cons, List.foldl_nil]
        split
        next hlt =>
          rw [Vector.getElem_set, ih]
          split
          next heq =>
            subst heq
            rw [if_pos (by omega), Nat.add_sub_cancel_left]
          next hne =>
            congr 1
            apply propext
            omega
        next hle =>
          rw [ih]
          congr 1
          apply propext
          omega
  rw [unpackByte, hloop 8]
  by_cases hbyte : k / 8 = i
  · have hmod : k - i * 8 = k % 8 := by omega
    rw [if_pos hbyte, if_pos (by omega), hmod]
  · rw [if_neg hbyte, if_neg (by omega)]

/-- The bytes put together from the bits give them back, as far as they go. -/
theorem unpackBytes_packed
    (f : BloomFilter) (start : Vector Bool f.numBits.toNat) (count : ℕ) (rest : Bytes) :
  ∃ bits, unpackBytes start ((List.range count).map f.packByte ++ rest) count = .ok (bits, rest) ∧
    ∀ {k : ℕ} (hk : k < f.numBits.toNat),
      bits[k] = if k < count * 8 then f.bits[k] else start[k]
  := by
  induction count generalizing rest with
  | zero =>
      use start, rfl
      intro k hk
      rw [if_neg (by omega)]
  | succ count ih =>
      obtain ⟨bits, hrun, hbits⟩ := ih (f.packByte count :: rest)
      use unpackByte bits count (f.packByte count)
      constructor
      · rw [List.range_succ, List.map_append, List.append_assoc, unpackBytes, List.range_succ]
        apply Runs.foldlM_concat_eq_ok.mpr
        use (bits, f.packByte count :: rest), hrun
        rfl
      · intro k hk
        rw [getElem_unpackByte _ _ _ hk]
        by_cases hbyte : k / 8 = count
        · have hdivMod : count * 8 + k % 8 = k := by omega
          have hpacked := f.testBit_packByte count (j := k % 8) (by omega) (by omega)
          rw [if_pos hbyte, if_pos (by omega), hpacked]
          congr 1
        · rw [if_neg hbyte, hbits hk]
          congr 1
          apply propext
          omega

/-- There are enough bytes for the bits. -/
theorem le_numBytes {numBits : UInt64} (h : numBits.toNat < 2 ^ 63) :
  numBits.toNat ≤ numBytes numBits * 8
  := by
  rw [numBytes, UInt64.toNat_div, UInt64.toNat_add]
  have hseven : (7 : UInt64).toNat = 7 := rfl
  have height : (8 : UInt64).toNat = 8 := rfl
  rw [hseven, height]
  omega

theorem decodeBits_packed (f : BloomFilter) :
  decodeBits f.expectedElements f.falsePositiveRate f.numBits f.numHashes
    ((List.range (numBytes f.numBits)).map f.packByte) = .ok f
  := by
  obtain ⟨bits, hrun, hbits⟩ :=
    f.unpackBytes_packed (Vector.replicate _ false) (numBytes f.numBits) []
  have hsame : bits = f.bits := by
    apply Vector.ext
    intro k hk
    have hbytes := le_numBytes f.numBits_lt
    rw [hbits hk, if_pos (by omega)]
  rw [List.append_nil, hsame] at hrun
  rw [decodeBits, dif_pos f.numBits_lt, Except.bind_eq_of_ok _ hrun]
  rfl

/-- A filter that is encoded decodes to itself. -/
theorem decode_encode_eq (f : BloomFilter) : decode f.encode = .ok f
  := by
  have hexpected : f.expectedElements.toNat < 256 ^ 8 := f.expectedElements.toNat_lt
  have hbits : f.numBits.toNat < 256 ^ 8 := f.numBits.toNat_lt
  have hhashes : f.numHashes.toNat < 256 ^ 8 := f.numHashes.toNat_lt
  have hread : ∀ rest, readBytes 8 (f.falsePositiveRate.toList ++ rest) =
      .ok (f.falsePositiveRate.toList, rest) := by
    intro rest
    have hread := readBytes_append f.falsePositiveRate.toList rest
    rwa [Vector.length_toList] at hread
  have hrate : Vector.ofFn (fun i : Fin 8 => f.falsePositiveRate.toList.getD i 0) =
      f.falsePositiveRate := by
    apply Vector.ext
    intro i _
    simp
  simp only [encode, List.append_assoc, decode]
  rw [Except.bind_eq_of_ok _ (readNumber_append hexpected _)]
  dsimp only
  rw [Except.bind_eq_of_ok _ (hread _)]
  dsimp only
  rw [Except.bind_eq_of_ok _ (readNumber_append hbits _)]
  dsimp only
  rw [Except.bind_eq_of_ok _ (readNumber_append hhashes _)]
  dsimp only
  rw [UInt64.ofNat_toNat, UInt64.ofNat_toNat, UInt64.ofNat_toNat, hrate]
  apply decodeBits_packed

/-! ### No false negatives -/

/-- Whatever the hashes of keys are, a key that has been added is possibly contained, and a filter
that has been stored answers for every key as it did. -/
theorem possiblyContains_of_added
    (hasher : Bytes → UInt64) (f : BloomFilter) (hbits : 1 ≤ f.numBits) (keys : List Bytes) :
  ∃ f', f.addAll hasher keys = .ok f' ∧
    (∀ key ∈ keys, f'.possiblyContains hasher key = .ok true) ∧
    ∃ stored, decode f'.encode = .ok stored ∧
      ∀ key, stored.possiblyContains hasher key = f'.possiblyContains hasher key
  := by
  have hne : f.numBits ≠ 0 := by
    intro hzero
    rw [hzero] at hbits
    exact absurd hbits (by decide)
  obtain ⟨f', hrun, hshape, hmarked⟩ := f.marked_addAll hasher hne keys
  refine ⟨f', hrun, ?_, f', decode_encode_eq f', fun _ => rfl⟩
  intro key hkey
  have hne' : f'.numBits ≠ 0 := by rwa [hshape.numBits]
  obtain ⟨answer, hanswer, hiff⟩ := f'.possiblyContains_iff hasher hne' key
  have hsubset : f'.positions hasher key ⊆ f'.marked := by
    rw [hmarked, hshape.positions_eq]
    intro p hp
    exact .inr (Set.mem_biUnion hkey hp)
  rw [hanswer, hiff.mpr hsubset]

theorem possiblyContains_of_added_five_bits :
  ∃ f', (mk 2 (.replicate _ 0) 5 3 (.replicate _ false) (by decide)).addAll
      (fun key => UInt64.ofNat key.length) [[1], [2, 3]] = .ok f' ∧
    (∀ key ∈ [[1], [2, 3]],
      f'.possiblyContains (fun key => UInt64.ofNat key.length) key = .ok true) ∧
    ∃ stored, decode f'.encode = .ok stored ∧
      ∀ key, stored.possiblyContains (fun key => UInt64.ofNat key.length) key =
        f'.possiblyContains (fun key => UInt64.ofNat key.length) key
  := possiblyContains_of_added _ _ (by decide) _

end BloomFilter

end TinyLsm
