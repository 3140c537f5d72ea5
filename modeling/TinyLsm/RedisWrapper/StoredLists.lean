import TinyLsm.RedisWrapper.Replies

/-!
# Lists that are read back

The elements of a list and the fields of a hash are joined with a separator that is not escaped.
They are read back if and only if none contains its separator and the last one is not empty.
-/

namespace TinyLsm

namespace RedisWrapper

open TomlConfig

/-- Byte strings that are read back, as the elements of a list and as the fields of a hash. -/
def ReadsBack (xs : List Bytes) : Prop :=
  split (join xs getInstance.redisListSeparator) getInstance.redisListSeparator = xs ∧
    getFiledsFromHashValue (some (getHashValueFromFields xs)) = .ok xs

/-- Byte strings without the two separators, of which the last is not empty. -/
structure Separable (xs : List Bytes) : Prop where
  listSeparator : ∀ x ∈ xs, getInstance.redisListSeparator ∉ x
  fieldSeparator : ∀ x ∈ xs, getInstance.redisFieldSeparator ∉ x
  last : ∀ x ∈ xs.getLast?, x ≠ []

theorem split_join_iff {xs : List Bytes} (hne : xs ≠ []) (delimiter : Byte) :
  split (join xs delimiter) delimiter = xs ↔
    (∀ x ∈ xs, delimiter ∉ x) ∧ ∀ x ∈ xs.getLast?, x ≠ []
  := Delimited.split_intercalate_iff hne

theorem getFiledsFromHashValue_getHashValueFromFields_iff {xs : List Bytes} (hne : xs ≠ []) :
  getFiledsFromHashValue (some (getHashValueFromFields xs)) = .ok xs ↔
    (∀ x ∈ xs, getInstance.redisFieldSeparator ∉ x) ∧ ∀ x ∈ xs.getLast?, x ≠ []
  := by
  rw [getHashValueFromFields, getFiledsFromHashValue_preffix, Except.ok.injEq,
    split_join_iff hne]

/-- What is read back are the lists without the separators and with a last one that is not
empty. -/
theorem readsBack_iff {xs : List Bytes} (hne : xs ≠ []) :
  ReadsBack xs ↔ Separable xs
  := by
  rw [ReadsBack, split_join_iff hne, getFiledsFromHashValue_getHashValueFromFields_iff hne]
  constructor
  · rintro ⟨⟨hlist, hlast⟩, hfield, -⟩
    exact ⟨hlist, hfield, hlast⟩
  · rintro ⟨hlist, hfield, hlast⟩
    exact ⟨⟨hlist, hlast⟩, hfield, hlast⟩

theorem readsBack_pair :
  ReadsBack [[], bytes "a"] ↔ Separable [[], bytes "a"]
  := readsBack_iff (List.cons_ne_nil _ _)

/-- Elements and fields that contain a separator are divided, and an empty last one is
dropped. -/
theorem not_readsBack :
  ¬ (∀ xs : List Bytes, xs ≠ [] → ReadsBack xs) ∧
    split (join [bytes "a#b", []] getInstance.redisListSeparator) getInstance.redisListSeparator =
      [bytes "a", bytes "b"] ∧
    getFiledsFromHashValue (some (getHashValueFromFields [bytes "a$b", []])) =
      .ok [bytes "a", bytes "b"]
  := by
  refine ⟨?_, by decide, by decide⟩
  intro h
  obtain ⟨hlist, -⟩ := h [bytes "a#b", []] (by decide)
  exact absurd hlist (by decide)

end RedisWrapper

end TinyLsm
