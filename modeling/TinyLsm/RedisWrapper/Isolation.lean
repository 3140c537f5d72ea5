import TinyLsm.RedisWrapper.Footprint

/-!
# Isolation of keys

What belongs to a key is stored under the key, an underscore and more.  So the commands on one
key do not interfere with those on another one, unless one of the keys starts with the other one
and an underscore.
-/

namespace TinyLsm

namespace RedisWrapper

open TomlConfig

namespace Command

/-- The commands that change what is stored for a key, other than counters. -/
def isChange : Command → Bool
  | set _ _ | del _ | expire _ _ | hset _ _ | hdel _ _ | lpush _ _ | rpush _ _ | lpop _ | rpop _
  | sadd _ _ | srem _ _ | zadd _ _ | zrem _ _ | zincrby _ _ _ => true
  | get _ | incr _ | decr _ | ttl _ | hget _ _ | hkeys _ | llen _ | lrange _ _ _ | zrange _ _ _
  | zcard _ | zscore _ _ | zrank _ _ | sismember _ _ | scard _ | smembers _ | flushall => false

/-- A command on one key that touches what belongs to it. -/
theorem exec_get_of_not_owned [Doubles] {c : Command} (hflush : c ≠ .flushall) {key x : Bytes}
    (h : ∀ k ∈ c.keys, k = key) (hx : ¬ Owned key x) (now : ℤ) (lsm : LSM) :
  (c.exec now lsm).2.get x = lsm.get x
  := (c.touches hflush h).get_run_of_not hx ⟨lsm, now⟩

/-- The reply of a command on a key depends on what belongs to the key. -/
theorem exec_congr [Doubles] {c : Command} (hflush : c ≠ .flushall) {key : Bytes}
    (h : ∀ k ∈ c.keys, k = key) {lsm lsm' : LSM} (hsame : ∀ x, Owned key x → lsm.get x = lsm'.get x)
    (now : ℤ) :
  (c.exec now lsm).1 = (c.exec now lsm').1 ∧
    ∀ x, Owned key x → (c.exec now lsm).2.get x = (c.exec now lsm').2.get x
  := by
  have hworlds : AgreeOn (Owned key) ⟨lsm, now⟩ ⟨lsm', now⟩ := ⟨rfl, hsame⟩
  obtain ⟨hreply, hagree⟩ := (c.touches hflush h).run_congr hworlds
  exact ⟨hreply, hagree.get⟩

end Command

/-- The key starts with a prefix of the configuration. -/
def Reserved (key : Bytes) : Prop :=
  getInstance.redisExpireHeader <+: key ∨ getInstance.redisHashValuePreffix <+: key ∨
    getInstance.redisFieldPrefix <+: key ∨ getInstance.redisSortedSetPrefix <+: key ∨
    getInstance.redisSetPrefix <+: key

instance : DecidablePred Reserved :=
  fun _ => inferInstanceAs (Decidable (_ ∨ _ ∨ _ ∨ _ ∨ _))

/-- The replies of the commands that read a key do not depend on whether another key has been
changed. -/
def Isolated [Doubles] (key₁ key₂ : Bytes) : Prop :=
  ∀ (lsm : LSM) (c r : Command), c.isChange = true → (∀ k ∈ c.keys, k = key₁) →
    r.isRead = true → r.keys = [key₂] →
    ∀ now now', (r.exec now' (c.exec now lsm).2).1 = (r.exec now' lsm).1

/-! ### Keys that share no storage -/

theorem reserved_of_under {f : Family} {key x : Bytes} (h : Under f key x) : Reserved x
  := by
  rw [Under, List.append_assoc] at h
  have hpreffix := (List.prefix_append _ _).trans h
  cases f with
  | expire => exact .inl hpreffix
  | field => exact .inr (.inr (.inl hpreffix))
  | sortedSet => exact .inr (.inr (.inr (.inl hpreffix)))
  | set => exact .inr (.inr (.inr (.inr hpreffix)))

theorem reserved_getExplireKey (key : Bytes) : Reserved (getExplireKey key)
  := .inl (List.prefix_append _ _)

/-- If something is stored under both of two keys, one of them starts with the other one and an
underscore. -/
theorem eq_or_prefix_of_under {f : Family} {key₁ key₂ x : Bytes} (h₁ : Under f key₁ x)
    (h₂ : Under f key₂ x) :
  key₁ = key₂ ∨ key₁ ++ bytes "_" <+: key₂ ∨ key₂ ++ bytes "_" <+: key₁
  := by
  rw [Under, List.append_assoc] at h₁ h₂
  rcases List.prefix_or_prefix_of_prefix h₁ h₂ with h | h
  · rcases List.prefix_concat_iff.mp ((List.prefix_append_right_inj _).mp h) with heq | hpreffix
    · exact .inl (List.append_cancel_right heq)
    · exact .inr (.inl hpreffix)
  · rcases List.prefix_concat_iff.mp ((List.prefix_append_right_inj _).mp h) with heq | hpreffix
    · exact .inl (List.append_cancel_right heq.symm)
    · exact .inr (.inr hpreffix)

/-- Two keys of which nothing is stored under the same storage key. -/
def SharesNothing (key key' : Bytes) : Prop := ∀ x, Owned key' x → ¬ Owned key x

theorem owned_iff {key x : Bytes} :
  Owned key x ↔ x = key ∨ x = getExplireKey key ∨ ∃ f : Family, f ≠ .expire ∧ Under f key x
  := by
  constructor
  · rintro (hkey | hexpire | h | h | h)
    · exact .inl hkey
    · exact .inr (.inl hexpire)
    · exact .inr (.inr ⟨.field, nofun, h⟩)
    · exact .inr (.inr ⟨.sortedSet, nofun, h⟩)
    · exact .inr (.inr ⟨.set, nofun, h⟩)
  · rintro (hkey | hexpire | ⟨f, hf, h⟩)
    · exact .inl hkey
    · exact .inr (.inl hexpire)
    · cases f with
      | expire => exact absurd rfl hf
      | field => exact owned_of_under_field h
      | sortedSet => exact owned_of_under_sortedSet h
      | set => exact owned_of_under_set h

/-- Two keys that are not reserved share storage only if one of them starts with the other one
and an underscore. -/
theorem eq_or_prefix_of_owned {key₁ key₂ x : Bytes} (h₁ : ¬ Reserved key₁) (h₂ : ¬ Reserved key₂)
    (hx₁ : Owned key₁ x) (hx₂ : Owned key₂ x) :
  key₁ = key₂ ∨ key₁ ++ bytes "_" <+: key₂ ∨ key₂ ++ bytes "_" <+: key₁
  := by
  rcases owned_iff.mp hx₁ with rfl | rfl | ⟨f, hf, hunder⟩
  · rcases owned_iff.mp hx₂ with rfl | rfl | ⟨g, hg, hunder'⟩
    · exact .inl rfl
    · exact absurd (reserved_getExplireKey key₂) h₁
    · exact absurd (reserved_of_under hunder') h₁
  · rcases owned_iff.mp hx₂ with heq | heq | ⟨g, hg, hunder'⟩
    · exact absurd (heq ▸ reserved_getExplireKey key₁) h₂
    · exact .inl (List.append_cancel_left heq)
    · exact absurd rfl (hunder'.ne_getExplireKey hg)
  · rcases owned_iff.mp hx₂ with rfl | rfl | ⟨g, hg, hunder'⟩
    · exact absurd (reserved_of_under hunder) h₂
    · exact absurd rfl (hunder.ne_getExplireKey hf)
    · obtain rfl := hunder.family_eq hunder'
      apply eq_or_prefix_of_under hunder hunder'

/-- Keys that are not reserved share nothing unless one of them starts with the other one and an
underscore. -/
theorem sharesNothing_of_not_prefix {key₁ key₂ : Bytes} (hne : key₁ ≠ key₂) (h₁ : ¬ Reserved key₁)
    (h₂ : ¬ Reserved key₂) (hpreffix₁ : ¬ key₁ ++ bytes "_" <+: key₂)
    (hpreffix₂ : ¬ key₂ ++ bytes "_" <+: key₁) :
  SharesNothing key₁ key₂
  := by
  intro x hx₂ hx₁
  rcases eq_or_prefix_of_owned h₁ h₂ hx₁ hx₂ with heq | hpreffix | hpreffix
  · exact hne heq
  · exact hpreffix₁ hpreffix
  · exact hpreffix₂ hpreffix

/-! ### When keys are isolated -/

variable [Doubles]

/-- A member that is added to one set is a member of another one if it has the same storage
key there. -/
theorem not_isolated_of_getSetMemberKey_eq {key₁ key₂ member₁ member₂ : Bytes}
    (h₁ : ¬ Reserved key₁)
    (h : getSetMemberKey key₁ member₁ = getSetMemberKey key₂ member₂) :
  ¬ Isolated key₁ key₂
  := by
  intro hisolated
  have hreply := hisolated .empty (.sadd key₁ [member₁]) (.sismember key₂ member₂) rfl
    (fun k hk => List.mem_singleton.mp hk) rfl rfl 0 0
  have hsize : changedSize 1 none = .ok 1 := changedSize_none ⟨by decide, by decide⟩
  have hunexpired : Unexpired key₁ ⟨.empty, 0⟩ := .inl rfl
  have hsadd := run_redisSadd hunexpired (bytes "sadd") [member₁] hsize
  have hmembers : membersOf false key₁ .empty [member₁] = [member₁] := rfl
  have hexec : ((Command.sadd key₁ [member₁]).exec 0 .empty).2 =
      (LSM.empty.put (getSetMemberKey key₁ member₁) getSetMemberValue).put key₁ (decimal 1) := by
    rw [Command.exec, Command.program, hsadd, hmembers]
    rfl
  rw [hexec] at hreply
  generalize hlsm : LSM.put _ key₁ _ = lsm at hreply
  have hexpire : lsm.get (getExplireKey key₂) = none := by
    have hne : getExplireKey key₂ ≠ key₁ := by
      rintro rfl
      exact h₁ (reserved_getExplireKey key₂)
    rw [← hlsm, LSM.get_put_of_ne _ hne, LSM.get_put_of_ne, LSM.get_empty]
    exact (getSetMemberKey_ne_getExplireKey key₁ member₁ key₂).symm
  have hmember : lsm.get (getSetMemberKey key₂ member₂) = some getSetMemberValue := by
    rw [← hlsm, ← h, LSM.get_put_of_ne _ (under_getSetMemberKey key₁ member₁).ne_key,
      LSM.get_put_self, LSM.stored_of_ne_nil getSetMemberValue_ne_nil]
  rw [Command.exec, Command.exec, Command.program, run_redisSismember (.inl hexpire),
    run_redisSismember (.inl rfl), hmember] at hreply
  cases integerReply_injective (Except.ok.inj hreply)

/-- Two different keys that are not reserved are isolated exactly if neither of them starts with
the other one and an underscore. -/
theorem isolated_iff {key₁ key₂ : Bytes} (hne : key₁ ≠ key₂) (h₁ : ¬ Reserved key₁)
    (h₂ : ¬ Reserved key₂) :
  Isolated key₁ key₂ ↔ ¬ key₁ ++ bytes "_" <+: key₂ ∧ ¬ key₂ ++ bytes "_" <+: key₁
  := by
  constructor
  · intro h
    constructor
    · rintro ⟨rest, rfl⟩
      have hkey : getSetMemberKey key₁ (rest ++ bytes "_") =
          getSetMemberKey (key₁ ++ bytes "_" ++ rest) [] := by
        simp only [getSetMemberKey, List.append_assoc, List.append_nil]
      exact not_isolated_of_getSetMemberKey_eq h₁ hkey h
    · rintro ⟨rest, rfl⟩
      have hkey : getSetMemberKey (key₂ ++ bytes "_" ++ rest) [] =
          getSetMemberKey key₂ (rest ++ bytes "_") := by
        simp only [getSetMemberKey, List.append_assoc, List.append_nil]
      exact not_isolated_of_getSetMemberKey_eq h₁ hkey h
  · rintro ⟨hpreffix₁, hpreffix₂⟩ lsm c r hchange hc hread hr now now'
    have hflush : c ≠ .flushall := by
      rintro rfl
      cases hchange
    have hflush' : r ≠ .flushall := by
      rintro rfl
      cases hread
    have hr' : ∀ k ∈ r.keys, k = key₂ := by
      rw [hr]
      exact fun k hk => List.mem_singleton.mp hk
    apply (Command.exec_congr hflush' hr' _ now').1
    intro x hx
    apply Command.exec_get_of_not_owned hflush hc
    apply sharesNothing_of_not_prefix hne h₁ h₂ hpreffix₁ hpreffix₂ x hx

omit [Doubles] in
theorem isolated_of_letters :
  letI := Doubles.whole
  Isolated (bytes "k") (bytes "j")
  := by
  let _ := Doubles.whole
  exact (isolated_iff (by decide) (by decide) (by decide)).mpr ⟨by decide, by decide⟩

omit [Doubles] in
/-- A member of the set of one key is one of the set of another key. -/
theorem not_isolated_of_underscore :
  letI := Doubles.whole
  bytes "k" ≠ bytes "k_j" ∧ ¬ Reserved (bytes "k") ∧ ¬ Reserved (bytes "k_j") ∧
    ¬ Isolated (bytes "k") (bytes "k_j")
  := by
  let _ := Doubles.whole
  refine ⟨by decide, by decide, by decide, ?_⟩
  have hkey : getSetMemberKey (bytes "k") (bytes "j_m") =
      getSetMemberKey (bytes "k_j") (bytes "m") := by
    decide
  exact not_isolated_of_getSetMemberKey_eq (by decide) hkey

end RedisWrapper

end TinyLsm
