import Mathlib.Data.Finset.Sort
import TinyLsm.Library.Replies
import TinyLsm.RedisWrapper.SetCardinality

/-!
# Sets as finite sets

The commands on a set answer as a finite set does, of which the members are listed in ascending
order, as long as no command names a new member, or one to be removed, twice.
-/

namespace TinyLsm

namespace RedisWrapper

open Replies

/-- The commands on a set. -/
inductive SetCommand where
  | sadd (members : List Bytes)
  | srem (members : List Bytes)
  | sismember (member : Bytes)
  | scard
  | smembers

namespace SetCommand

def command (key : Bytes) : SetCommand → Command
  | sadd members => .sadd key members
  | srem members => .srem key members
  | sismember member => .sismember key member
  | scard => .scard key
  | smembers => .smembers key

/-- The reply of a finite set, and the set afterwards. -/
def perform : SetCommand → Finset Bytes → Bytes × Finset Bytes
  | sadd members, s =>
      (integerReply ((s ∪ members.toFinset).card - s.card), s ∪ members.toFinset)
  | srem members, s =>
      (integerReply (s.card - (s \ members.toFinset).card), s \ members.toFinset)
  | sismember member, s => (integerReply (if member ∈ s then 1 else 0), s)
  | scard, s => (integerReply s.card, s)
  | smembers, s => (arrayReply s.sort, s)

/-- No new member is added twice, no member is removed twice, and the number of members fits
`int`. -/
def Counted : SetCommand → Finset Bytes → Prop
  | sadd members, s =>
      (members.filter (fun member => member ∉ s)).Nodup ∧
        (s ∪ members.toFinset).card < 2 ^ 31
  | srem members, s => (members.filter (fun member => member ∈ s)).Nodup
  | sismember _, _ | scard, _ | smembers, _ => True

instance : ∀ (c : SetCommand) (s : Finset Bytes), Decidable (c.Counted s)
  | sadd _, _ => inferInstanceAs (Decidable (_ ∧ _))
  | srem members, s =>
      inferInstanceAs (Decidable (members.filter (fun member => member ∈ s)).Nodup)
  | sismember _, _ | scard, _ | smembers, _ => .isTrue trivial

/-- Execute a command on the key, by a clock. -/
def exec [Doubles] (key : Bytes) (request : ℤ × SetCommand) (lsm : LSM) :
    Except Fault Bytes × LSM :=
  (request.2.command key).exec request.1 lsm

/-- What the finite set answers instead. -/
def spec (request : ℤ × SetCommand) (s : Finset Bytes) : Except Fault Bytes × Finset Bytes :=
  (.ok (request.2.perform s).1, (request.2.perform s).2)

end SetCommand

/-! ### How a set is stored -/

/-- The members are those of the set, and their number is stored. -/
structure StoresSet (key : Bytes) (lsm : LSM) (s : Finset Bytes) : Prop
    extends CountsMembers key lsm where
  members : (setMembers key lsm).toFinset = s

/-- The members are listed in ascending order. -/
theorem pairwise_setMembers (key : Bytes) (lsm : LSM) :
  (setMembers key lsm).Pairwise (fun member member' => member ≤ member')
  := by
  rw [setMembers, List.pairwise_map]
  apply List.Pairwise.imp_of_mem _ (lsm.query_ascending _)
  intro p q hp hq hlt
  obtain ⟨rest, hrest⟩ := preffixPredicate_eq_zero.mp (LSM.mem_query.mp hp).2
  obtain ⟨rest', hrest'⟩ := preffixPredicate_eq_zero.mp (LSM.mem_query.mp hq).2
  rw [← hrest, ← hrest', List.drop_left, List.drop_left]
  rw [← hrest, ← hrest'] at hlt
  exact le_of_not_gt (fun hgt => lt_asymm hlt (List.append_left_lt hgt))

namespace StoresSet

variable {key : Bytes} {lsm : LSM} {s : Finset Bytes} (h : StoresSet key lsm s)

include h

theorem mem_iff {member : Bytes} : member ∈ setMembers key lsm ↔ member ∈ s
  := by
  rw [← h.members, List.mem_toFinset]

theorem length_eq : (setMembers key lsm).length = s.card
  := by
  rw [← h.members, List.toFinset_card_of_nodup (nodup_setMembers key lsm)]

theorem setMembers_eq : setMembers key lsm = s.sort
  := by
  rw [← h.members]
  exact ((List.toFinset_sort _ (nodup_setMembers key lsm)).mpr (pairwise_setMembers key lsm)).symm

theorem membersOf_false (members : List Bytes) :
  membersOf false key lsm members = members.filter (fun member => member ∉ s)
  := by
  apply List.filter_congr
  intro member _
  simp only [← h.mem_iff, mem_setMembers, Bool.not_eq_true]

theorem membersOf_true (members : List Bytes) :
  membersOf true key lsm members = members.filter (fun member => member ∈ s)
  := by
  apply List.filter_congr
  intro member _
  simp only [← h.mem_iff, mem_setMembers]

/-- The store after SADD has the members of both. -/
theorem sadd [Doubles] (now : ℤ) {members : List Bytes}
    (hcounted : (SetCommand.sadd members).Counted s) :
  ((Command.sadd key members).exec now lsm).1 =
      .ok (integerReply ((s ∪ members.toFinset).card - s.card)) ∧
    StoresSet key ((Command.sadd key members).exec now lsm).2 (s ∪ members.toFinset)
  := by
  obtain ⟨hnodup, hfits⟩ := hcounted
  have hadded : (members.filter (fun member => member ∉ s)).length + s.card =
      (s ∪ members.toFinset).card := by
    rw [← List.toFinset_card_of_nodup hnodup, Finset.union_comm, ← Finset.card_sdiff_add_card]
    congr 2
    ext member
    rw [List.mem_toFinset, List.mem_filter, decide_eq_true_iff, Finset.mem_sdiff,
      List.mem_toFinset]
  have hlength := h.length_eq
  have hdedup : (setMembers key lsm ++ members).dedup.length < 2 ^ 31 := by
    rwa [← List.card_toFinset, List.toFinset_append, h.members]
  rw [← h.membersOf_false] at hnodup hadded
  obtain ⟨lsm', hexec, hcounts⟩ := h.toCountsMembers.sadd now hnodup hdedup
  have hchanged := h.changedSize (membersOf false key lsm members).length
    ⟨by omega, by omega⟩ ⟨by omega, by omega⟩
  have hmembers : ∀ member, member ∈ setMembers key lsm' ↔
      member ∈ membersOf false key lsm members ∨ member ∈ setMembers key lsm := by
    intro member
    rw [Command.exec, Command.program,
      run_redisSadd (h.unexpired now) (bytes "sadd") members hchanged] at hexec
    have hlsm := congrArg Prod.snd hexec
    dsimp only at hlsm
    rw [← hlsm]
    apply mem_setMembers_putBatch
  have hunion : (setMembers key lsm').toFinset = s ∪ members.toFinset := by
    ext member
    rw [List.mem_toFinset, hmembers, mem_membersOf, h.mem_iff, Finset.mem_union, List.mem_toFinset]
    tauto
  have hstores : StoresSet key lsm' (s ∪ members.toFinset) := ⟨hcounts, hunion⟩
  rw [hexec, hstores.length_eq, hlength]
  exact ⟨rfl, hstores⟩

/-- The store after SREM has the members that are not removed. -/
theorem srem [Doubles] (now : ℤ) {members : List Bytes}
    (hcounted : (SetCommand.srem members).Counted s) :
  ((Command.srem key members).exec now lsm).1 =
      .ok (integerReply (s.card - (s \ members.toFinset).card)) ∧
    StoresSet key ((Command.srem key members).exec now lsm).2 (s \ members.toFinset)
  := by
  have hnodup : (members.filter (fun member => member ∈ s)).Nodup := hcounted
  have hremoved : (members.filter (fun member => member ∈ s)).length ≤ s.card := by
    rw [← List.toFinset_card_of_nodup hnodup]
    apply Finset.card_le_card
    intro member hmem
    rw [List.mem_toFinset, List.mem_filter, decide_eq_true_iff] at hmem
    exact hmem.2
  have hlength := h.length_eq
  have hfits := h.fits
  rw [← h.membersOf_true] at hnodup hremoved
  obtain ⟨lsm', hexec, hcounts⟩ := h.toCountsMembers.srem now hnodup
  have hchanged := h.changedSize (-(membersOf true key lsm members).length)
    ⟨by omega, by omega⟩ ⟨by omega, by omega⟩
  have hmembers : ∀ member, member ∈ setMembers key lsm' ↔
      member ∈ setMembers key lsm ∧ member ∉ membersOf true key lsm members := by
    intro member
    rw [Command.exec, Command.program,
      run_redisSrem (h.unexpired now) (bytes "srem") members hchanged] at hexec
    have hlsm := congrArg Prod.snd hexec
    dsimp only at hlsm
    rw [← hlsm]
    apply mem_setMembers_removeBatch
  have hdiff : (setMembers key lsm').toFinset = s \ members.toFinset := by
    ext member
    rw [List.mem_toFinset, hmembers, mem_membersOf, h.mem_iff, Finset.mem_sdiff, List.mem_toFinset]
    tauto
  have hstores : StoresSet key lsm' (s \ members.toFinset) := ⟨hcounts, hdiff⟩
  rw [hexec, hstores.length_eq, hlength]
  exact ⟨rfl, hstores⟩

/-- A command answers as the finite set does, and stores the set it becomes. -/
theorem exec [Doubles] {request : ℤ × SetCommand} (hcounted : request.2.Counted s) :
  (SetCommand.exec key request lsm).1 = (SetCommand.spec request s).1 ∧
    StoresSet key (SetCommand.exec key request lsm).2 (SetCommand.spec request s).2
  := by
  obtain ⟨now, c⟩ := request
  cases c with
  | sadd members => exact h.sadd now hcounted
  | srem members => exact h.srem now hcounted
  | sismember member =>
      have hsame : (SetCommand.exec key (now, .sismember member) lsm).2 = lsm := by
        rw [SetCommand.exec, SetCommand.command, Command.exec, Command.program,
          run_redisSismember (h.unexpired now)]
      have hreply := h.setAnswers.sismember now member
      simp only [h.mem_iff] at hreply
      rw [hsame]
      exact ⟨hreply, h⟩
  | scard =>
      have hsame : (SetCommand.exec key (now, .scard) lsm).2 = lsm := by
        rw [SetCommand.exec, SetCommand.command, Command.exec, Command.program,
          run_redisScard (h.unexpired now)]
      have hreply := h.setAnswers.scard now
      rw [h.length_eq] at hreply
      rw [hsame]
      exact ⟨hreply, h⟩
  | smembers =>
      have hsame : (SetCommand.exec key (now, .smembers) lsm).2 = lsm := by
        rw [SetCommand.exec, SetCommand.command, Command.exec, Command.program,
          run_redisSmembers (h.unexpired now)]
      have hreply := h.setAnswers.smembers now
      rw [h.setMembers_eq] at hreply
      rw [hsame]
      exact ⟨hreply, h⟩

end StoresSet

end RedisWrapper

end TinyLsm
