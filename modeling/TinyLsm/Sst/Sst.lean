import TinyLsm.Block.BlockIterator
import TinyLsm.Utils.LittleEndian

/-!
# Sorted string tables

A table is its blocks, with its number and the way its values are stored.  With storage mode
`0` the blocks hold the values themselves; otherwise a value of twelve bytes or more is a
reference into the value log.

A table is well formed when it has blocks, its blocks have entries, the keys of the entries
do not decrease, and the values resolve to themselves.
-/

namespace TinyLsm

/-- The value log, which answers the value at an offset of a given size. -/
structure VLog where
  readValue : ℕ → ℕ → Except Fault Bytes

structure SST where
  sstId : ℕ
  blocks : List Block
  storageMode : ℕ := 0
  vlog : Option VLog := none

namespace SST

def numBlocks (sst : SST) : ℕ := sst.blocks.length

def readBlock (sst : SST) (blockIdx : ℕ) : Except Fault Block :=
  match sst.blocks[blockIdx]? with
  | some block => .ok block
  | none => .error .undefinedBehavior

/-- The value a stored value stands for: itself, or what the value log holds at the offset
in its first eight bytes for the size in the next four. -/
def resolveValue (sst : SST) (rawValue : Bytes) : Except Fault Bytes :=
  if sst.storageMode = 0 ∨ rawValue = [] then
    .ok rawValue
  else if rawValue.length < 12 then
    .ok rawValue
  else
    match sst.vlog with
    | none => .error (.runtimeError "SST::resolve_value: vlog is null for WiscKey SST")
    | some vlog =>
        vlog.readValue (littleEndian (rawValue.take 8)) (littleEndian ((rawValue.drop 8).take 4))

/-- A table that stores values inline resolves every value to itself. -/
theorem resolveValue_inline {sst : SST} (h : sst.storageMode = 0) (rawValue : Bytes) :
  sst.resolveValue rawValue = .ok rawValue
  := if_pos (Or.inl h)

/-- The entries of the blocks from a given one on. -/
def entriesFrom (sst : SST) (blockIdx : ℕ) : List Entry :=
  (sst.blocks.drop blockIdx).flatMap Block.entries

/-- All the entries of a table, in the order they are stored. -/
def entries (sst : SST) : List Entry := sst.entriesFrom 0

/-- The table has blocks, the blocks have entries, the keys do not decrease and the values
resolve to themselves. -/
structure WellFormed (sst : SST) : Prop where
  blocks_ne : sst.blocks ≠ []
  entries_ne : ∀ b ∈ sst.blocks, b.entries ≠ []
  sorted : sst.entries.Pairwise (fun e e' => e.key ≤ e'.key)
  resolves : ∀ e ∈ sst.entries, sst.resolveValue e.value = .ok e.value

theorem readBlock_of_getElem? {sst : SST} {blockIdx : ℕ} {block : Block}
    (h : sst.blocks[blockIdx]? = some block) :
  sst.readBlock blockIdx = .ok block
  := by
  rw [readBlock, h]

theorem entriesFrom_of_getElem? {sst : SST} {blockIdx : ℕ} {block : Block}
    (h : sst.blocks[blockIdx]? = some block) :
  sst.entriesFrom blockIdx = block.entries ++ sst.entriesFrom (blockIdx + 1)
  := by
  obtain ⟨hlt, rfl⟩ := List.getElem?_eq_some_iff.mp h
  rw [entriesFrom, List.drop_eq_getElem_cons hlt]
  rfl

theorem readBlock_of_lt {sst : SST} {blockIdx : ℕ} (h : blockIdx < sst.numBlocks) :
  ∃ block, sst.readBlock blockIdx = .ok block ∧ block ∈ sst.blocks ∧
    sst.entriesFrom blockIdx = block.entries ++ sst.entriesFrom (blockIdx + 1)
  := by
  have hblock := List.getElem?_eq_getElem h
  exact ⟨_, readBlock_of_getElem? hblock, List.mem_of_getElem? hblock,
    entriesFrom_of_getElem? hblock⟩

theorem entriesFrom_of_le {sst : SST} {blockIdx : ℕ} (h : sst.numBlocks ≤ blockIdx) :
  sst.entriesFrom blockIdx = []
  := by
  rw [entriesFrom, List.drop_eq_nil_of_le h]
  rfl

theorem WellFormed.entries_ne_nil {sst : SST} (h : sst.WellFormed) : sst.entries ≠ []
  := by
  obtain ⟨block, -, hmem, hfrom⟩ := readBlock_of_lt (List.length_pos_of_ne_nil h.blocks_ne)
  rw [entries, hfrom]
  apply List.append_ne_nil_of_left_ne_nil (h.entries_ne block hmem) _

end SST

end TinyLsm
