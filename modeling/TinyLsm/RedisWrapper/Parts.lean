import TinyLsm.RedisWrapper.Isolation

/-!
# Parts of the store

A command works on the part of the store that belongs to the keys it names as on a store that has
only this part, and leaves the other parts.
-/

namespace TinyLsm

namespace LSM

open Classical in
/-- The part of the store at some keys. -/
noncomputable def part (S : Bytes → Prop) (lsm : LSM) : LSM :=
  lsm.removeBatch ((lsm.map.pairs.map Prod.fst).filter (fun key => ¬ S key))

variable {S : Bytes → Prop} {lsm lsm' : LSM} {key : Bytes}

open Classical in
theorem mem_removed :
  key ∈ (lsm.map.pairs.map Prod.fst).filter (fun key => ¬ S key) ↔
    (lsm.get key).isSome = true ∧ ¬ S key
  := by
  rw [List.mem_filter, decide_eq_true_iff, List.mem_map, Option.isSome_iff_exists]
  apply and_congr_left'
  constructor
  · rintro ⟨p, hp, rfl⟩
    exact ⟨p.2, mem_pairs_iff.mp hp⟩
  · rintro ⟨value, hget⟩
    exact ⟨(key, value), mem_pairs_iff.mpr hget, rfl⟩

theorem get_part_of_mem (h : S key) : (lsm.part S).get key = lsm.get key
  := by
  rw [part, get_removeBatch, if_neg]
  exact fun hmem => (mem_removed.mp hmem).2 h

theorem get_part_of_not (h : ¬ S key) : (lsm.part S).get key = none
  := by
  rw [part, get_removeBatch, ite_eq_left_iff]
  intro hmem
  rw [mem_removed, not_and_not_right] at hmem
  cases hget : lsm.get key with
  | none => rfl
  | some value =>
      rw [hget] at hmem
      exact absurd (hmem rfl) h

/-- Stores that are the same at the keys of a part have it in common. -/
theorem part_congr (h : ∀ x, S x → lsm.get x = lsm'.get x) : lsm.part S = lsm'.part S
  := by
  apply ext_get
  intro x
  by_cases hx : S x
  · rw [get_part_of_mem hx, get_part_of_mem hx, h x hx]
  · rw [get_part_of_not hx, get_part_of_not hx]

theorem part_empty (S : Bytes → Prop) : empty.part S = empty
  := by
  apply ext_get
  intro x
  by_cases hx : S x
  · rw [get_part_of_mem hx]
  · rw [get_part_of_not hx, get_empty]

end LSM

namespace RedisWrapper

theorem Touches.mono {α : Type} {S T : Bytes → Prop} {p : Redis α} (hp : Touches S p)
    (h : ∀ x, S x → T x) :
  Touches T p
  := by
  refine ⟨Program.AllCalls.mono ?_ hp.allCalls⟩
  intro c hc
  cases c with
  | get key | put key value | remove key => exact h _ hc
  | putBatch kvs => exact fun kv hkv => h _ (hc kv hkv)
  | removeBatch keys => exact fun key hkey => h _ (hc key hkey)
  | itersMonotonyPredicate predicate => exact fun x hx => h x (hc x hx)
  | clear => cases hc
  | now => trivial

namespace Command

/-- What belongs to a key that the command names. -/
def Touched (c : Command) (x : Bytes) : Prop := ∃ key ∈ c.keys, Owned key x

/-- The removal of keys touches what belongs to them. -/
theorem touches_redisDelFrom :
  ∀ (keys : List Bytes) (delCount : ℕ),
    Touches (fun x => ∃ key ∈ keys, Owned key x) (redisDelFrom delCount keys)
  | [], _ => .pure _
  | key :: keys, delCount => by
      apply (Touches.redisDelKey.mono (fun x hx => ⟨key, List.mem_cons_self, hx⟩)).bind
      intro deleted
      apply (touches_redisDelFrom keys _).mono
      rintro x ⟨key', hmem, hx⟩
      exact ⟨key', List.mem_cons_of_mem key hmem, hx⟩

variable [Doubles] {c : Command} (hflush : c ≠ .flushall)

include hflush

theorem touches_touched : Touches c.Touched c.program
  := by
  by_cases hdel : ∃ keys, c = .del keys
  · obtain ⟨keys, rfl⟩ := hdel
    apply (Touches.lock _).bind
    exact fun _ => (touches_redisDelFrom keys 0).bind (fun _ => .pure _)
  · obtain ⟨key, hkeys⟩ := keys_eq_singleton hflush (fun keys heq => hdel ⟨keys, heq⟩)
    have hkey : ∀ k ∈ c.keys, k = key := by
      rw [hkeys]
      exact fun k hk => List.mem_singleton.mp hk
    apply (c.touches hflush hkey).mono
    intro x hx
    exact ⟨key, hkeys ▸ List.mem_singleton_self key, hx⟩

variable {S : Bytes → Prop} (now : ℤ) (lsm : LSM)

/-- A command works on the part of the store that it touches as on the store. -/
theorem exec_part (h : ∀ x, c.Touched x → S x) :
  (c.exec now (lsm.part S)).1 = (c.exec now lsm).1 ∧
    (c.exec now (lsm.part S)).2 = (c.exec now lsm).2.part S
  := by
  have htouches := (touches_touched hflush).mono h
  have hworlds : AgreeOn S ⟨lsm.part S, now⟩ ⟨lsm, now⟩ :=
    ⟨rfl, fun x hx => LSM.get_part_of_mem hx⟩
  obtain ⟨hreply, hagree⟩ := htouches.run_congr hworlds
  refine ⟨hreply, ?_⟩
  apply LSM.ext_get
  intro x
  by_cases hx : S x
  · rw [LSM.get_part_of_mem hx]
    exact hagree.get x hx
  · rw [LSM.get_part_of_not hx]
    exact (htouches.get_run_of_not hx _).trans (LSM.get_part_of_not hx)

/-- A command leaves the parts of the store that it does not touch. -/
theorem part_exec (h : ∀ x, c.Touched x → ¬ S x) :
  (c.exec now lsm).2.part S = lsm.part S
  := by
  apply LSM.part_congr
  intro x hx
  exact (touches_touched hflush).get_run_of_not (fun htouched => h x htouched hx) _

end Command

end RedisWrapper

end TinyLsm
