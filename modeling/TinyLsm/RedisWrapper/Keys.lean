import TinyLsm.Utils.Text

/-!
# The storage keys of a user key

All types of data share the keys of the engine.  What is stored for a user key besides the key
itself is stored under keys made of a reserved prefix and the user key: the expiry time, and,
with an underscore and more after it, the fields of a hash, the members and the scores of a
sorted set, and the members of a set.
-/

namespace TinyLsm

/-- The prefixes and separators of the configuration, with the default values. -/
structure TomlConfig where
  redisExpireHeader : Bytes := bytes "REDIS_EXPIRE_"
  redisHashValuePreffix : Bytes := bytes "REDIS_HASH_VALUE_"
  redisFieldPrefix : Bytes := bytes "REDIS_FIELD_"
  redisFieldSeparator : Byte := byteOfChar '$'
  redisListSeparator : Byte := byteOfChar '#'
  redisSortedSetPrefix : Bytes := bytes "REDIS_SORTED_SET_"
  redisSortedSetScoreLen : ℕ := 32
  redisSetPrefix : Bytes := bytes "REDIS_SET_"

def TomlConfig.getInstance : TomlConfig := {}

namespace RedisWrapper

open TomlConfig

def getExplireKey (key : Bytes) : Bytes := getInstance.redisExpireHeader ++ key

def getHashFiledKey (key field : Bytes) : Bytes :=
  getInstance.redisFieldPrefix ++ key ++ bytes "_" ++ field

/-- A score is filled up with zeros on the left. -/
def formattedScore (score : Bytes) : Bytes :=
  score.leftpad getInstance.redisSortedSetScoreLen (byteOfChar '0')

def getZsetKeySocre (key score : Bytes) : Bytes :=
  getInstance.redisSortedSetPrefix ++ key ++ bytes "_SCORE_" ++ formattedScore score

def getZsetKeyElem (key elem : Bytes) : Bytes :=
  getInstance.redisSortedSetPrefix ++ key ++ bytes "_ELEM_" ++ elem

def getZsetKeyPreffix (key : Bytes) : Bytes := getInstance.redisSortedSetPrefix ++ key ++ bytes "_"

def getZsetScorePreffix (key : Bytes) : Bytes :=
  getInstance.redisSortedSetPrefix ++ key ++ bytes "_SCORE_"

def getZsetElemPreffix (key : Bytes) : Bytes :=
  getInstance.redisSortedSetPrefix ++ key ++ bytes "_ELEM_"

def getSetKeyPreffix (key : Bytes) : Bytes := getInstance.redisSetPrefix ++ key ++ bytes "_"

def getSetMemberKey (key elem : Bytes) : Bytes :=
  getInstance.redisSetPrefix ++ key ++ bytes "_" ++ elem

def getSetMemberValue : Bytes := bytes "1"

def getSetMemberPrefix (key : Bytes) : Bytes := getInstance.redisSetPrefix ++ key ++ bytes "_"

/-- `std::string::compare`. -/
def compare (a b : Bytes) : ℤ := if a < b then -1 else if a = b then 0 else 1

/-- The predicate by which the commands query the keys with a prefix. -/
def preffixPredicate (preffix elem : Bytes) : ℤ := -compare (elem.take preffix.length) preffix

theorem preffixPredicate_eq_zero {preffix elem : Bytes} :
  preffixPredicate preffix elem = 0 ↔ preffix <+: elem
  := by
  rw [preffixPredicate, compare, List.prefix_iff_eq_take]
  split
  next hlt => exact iff_of_false (by decide) (ne_of_gt hlt)
  next =>
    split
    next heq => exact iff_of_true (by decide) heq.symm
    next hne => exact iff_of_false (by decide) (Ne.symm hne)

/-! ### Families of keys -/

/-- What the keys of the engine are reserved for. -/
inductive Family where
  | expire
  | field
  | sortedSet
  | set
deriving DecidableEq

def Family.preffix : Family → Bytes
  | expire => getInstance.redisExpireHeader
  | field => getInstance.redisFieldPrefix
  | sortedSet => getInstance.redisSortedSetPrefix
  | set => getInstance.redisSetPrefix

theorem Family.eq_of_preffix : ∀ {f g : Family}, f.preffix <+: g.preffix → f = g
  | expire, expire, _ | field, field, _ | sortedSet, sortedSet, _ | set, set, _ => rfl
  | expire, field, h | expire, sortedSet, h | expire, set, h | field, expire, h
  | field, sortedSet, h | field, set, h | sortedSet, expire, h | sortedSet, field, h
  | sortedSet, set, h | set, expire, h | set, field, h | set, sortedSet, h =>
      absurd h (by decide)

/-- A key is of one family only. -/
theorem Family.eq_of_append {f g : Family} {x y : Bytes} (h : f.preffix ++ x = g.preffix ++ y) :
  f = g
  := by
  rcases List.prefix_or_prefix_of_prefix (List.prefix_append f.preffix x)
    (h ▸ List.prefix_append g.preffix y) with hpreffix | hpreffix
  · apply eq_of_preffix hpreffix
  · exact (eq_of_preffix hpreffix).symm

/-- The keys of a family that belong to a user key, from the underscore on. -/
def Under (f : Family) (key x : Bytes) : Prop := f.preffix ++ key ++ bytes "_" <+: x

instance (f : Family) (key x : Bytes) : Decidable (Under f key x) :=
  inferInstanceAs (Decidable (_ <+: _))

theorem under_getHashFiledKey (key field : Bytes) : Under .field key (getHashFiledKey key field)
  := List.prefix_append _ field

theorem under_getSetMemberKey (key elem : Bytes) : Under .set key (getSetMemberKey key elem)
  := List.prefix_append _ elem

theorem getZsetScorePreffix_eq (key : Bytes) :
  getZsetScorePreffix key = getZsetKeyPreffix key ++ bytes "SCORE_"
  := by
  rw [getZsetScorePreffix, getZsetKeyPreffix, List.append_assoc (_ ++ key)]
  rfl

theorem getZsetElemPreffix_eq (key : Bytes) :
  getZsetElemPreffix key = getZsetKeyPreffix key ++ bytes "ELEM_"
  := by
  rw [getZsetElemPreffix, getZsetKeyPreffix, List.append_assoc (_ ++ key)]
  rfl

theorem under_of_scorePreffix {key x : Bytes} (h : getZsetScorePreffix key <+: x) :
  Under .sortedSet key x
  := by
  rw [getZsetScorePreffix_eq] at h
  exact (List.prefix_append _ _).trans h

theorem under_of_elemPreffix {key x : Bytes} (h : getZsetElemPreffix key <+: x) :
  Under .sortedSet key x
  := by
  rw [getZsetElemPreffix_eq] at h
  exact (List.prefix_append _ _).trans h

theorem scorePreffix_getZsetKeySocre (key score : Bytes) :
  getZsetScorePreffix key <+: getZsetKeySocre key score
  := List.prefix_append _ _

theorem elemPreffix_getZsetKeyElem (key elem : Bytes) :
  getZsetElemPreffix key <+: getZsetKeyElem key elem
  := List.prefix_append _ _

theorem under_getZsetKeySocre (key score : Bytes) :
  Under .sortedSet key (getZsetKeySocre key score)
  := under_of_scorePreffix (scorePreffix_getZsetKeySocre key score)

theorem under_getZsetKeyElem (key elem : Bytes) : Under .sortedSet key (getZsetKeyElem key elem)
  := under_of_elemPreffix (elemPreffix_getZsetKeyElem key elem)

/-- An index key is not the key of a member. -/
theorem not_elemPreffix_of_scorePreffix {key x : Bytes} (h : getZsetScorePreffix key <+: x) :
  ¬ getZsetElemPreffix key <+: x
  := by
  intro helem
  rw [getZsetScorePreffix_eq] at h
  rw [getZsetElemPreffix_eq] at helem
  rcases List.prefix_or_prefix_of_prefix h helem with hpreffix | hpreffix
  · exact absurd ((List.prefix_append_right_inj _).mp hpreffix) (by decide)
  · exact absurd ((List.prefix_append_right_inj _).mp hpreffix) (by decide)

theorem getZsetKeySocre_ne_getZsetKeyElem (key score elem : Bytes) :
  getZsetKeySocre key score ≠ getZsetKeyElem key elem
  := by
  intro h
  apply not_elemPreffix_of_scorePreffix (scorePreffix_getZsetKeySocre key score)
  rw [h]
  apply elemPreffix_getZsetKeyElem

theorem getZsetKeyElem_injective (key : Bytes) : Function.Injective (getZsetKeyElem key)
  := fun _ _ => List.append_cancel_left

theorem getHashFiledKey_injective (key : Bytes) : Function.Injective (getHashFiledKey key)
  := fun _ _ => List.append_cancel_left

theorem getSetMemberKey_injective (key : Bytes) : Function.Injective (getSetMemberKey key)
  := fun _ _ => List.append_cancel_left

/-- What a key has stored under its name is under longer names. -/
theorem Under.ne_key {f : Family} {key x : Bytes} (h : Under f key x) : x ≠ key
  := by
  rintro rfl
  have hlength := h.length_le
  rw [List.length_append, List.length_append] at hlength
  have hone : (bytes "_").length = 1 := by decide
  omega

theorem Under.family_eq {f g : Family} {key key' x : Bytes} (h : Under f key x)
    (h' : Under g key' x) :
  f = g
  := by
  obtain ⟨rest, rfl⟩ := h
  obtain ⟨rest', h'⟩ := h'
  simp only [List.append_assoc] at h'
  exact (Family.eq_of_append h').symm

theorem getExplireKey_ne_key (key : Bytes) : getExplireKey key ≠ key
  := by
  intro h
  have hlength := congrArg List.length h
  rw [getExplireKey, List.length_append] at hlength
  have hpos : getInstance.redisExpireHeader.length = 13 := by decide
  omega

theorem Under.ne_getExplireKey {f : Family} {key key' x : Bytes} (h : Under f key x)
    (hf : f ≠ .expire) :
  x ≠ getExplireKey key'
  := by
  rintro rfl
  obtain ⟨rest, h⟩ := h
  rw [List.append_assoc, List.append_assoc] at h
  exact hf (Family.eq_of_append h)

theorem getHashFiledKey_ne_getExplireKey (key field key' : Bytes) :
  getHashFiledKey key field ≠ getExplireKey key'
  := (under_getHashFiledKey key field).ne_getExplireKey (by decide)

theorem getSetMemberKey_ne_getExplireKey (key member key' : Bytes) :
  getSetMemberKey key member ≠ getExplireKey key'
  := (under_getSetMemberKey key member).ne_getExplireKey (by decide)

theorem getSetMemberValue_ne_nil : getSetMemberValue ≠ []
  := by decide

end RedisWrapper

end TinyLsm
