import Mathlib.Data.List.Perm.Basic
import Mathlib.Data.List.Dedup
import TinyLsm.Library.Transition
import TinyLsm.RedisWrapper.Commands

/-!
# The number of members of a set

The number of members is stored besides the members.  Whether a member is in the set is asked
before any of the changes of a command is made, so that the number follows the members only if
no command names a new member, or one to be removed, twice.
-/

namespace TinyLsm

namespace RedisWrapper

/-- What the commands that read a set answer if it has the members. -/
structure SetAnswers [Doubles] (key : Bytes) (lsm : LSM) (members : List Bytes) : Prop where
  smembers : ∀ now, ((Command.smembers key).exec now lsm).1 = .ok (arrayReply members)
  scard : ∀ now, ((Command.scard key).exec now lsm).1 = .ok (integerReply members.length)
  sismember : ∀ now member, ((Command.sismember key member).exec now lsm).1 =
    .ok (integerReply (if member ∈ members then 1 else 0))

/-- Requests to add members to a set or to remove some, such that no new member is added twice,
no member is removed twice, and the number of members fits `int`. -/
def ChangesSet (key : Bytes) (lsm : LSM) (request : ℤ × Command) : Prop :=
  match request.2 with
  | .sadd k members =>
      k = key ∧ (membersOf false key lsm members).Nodup ∧
        (setMembers key lsm ++ members).dedup.length < 2 ^ 31
  | .srem k members => k = key ∧ (membersOf true key lsm members).Nodup
  | _ => False

/-- The number under the key is the number of members, and the key has no expiry time. -/
structure CountsMembers (key : Bytes) (lsm : LSM) : Prop where
  expire : lsm.get (getExplireKey key) = none
  count : lsm.get key = some (decimal (setMembers key lsm).length) ∨
    lsm.get key = none ∧ setMembers key lsm = []
  fits : (setMembers key lsm).length < 2 ^ 31

theorem mem_membersOf {present : Bool} {key : Bytes} {lsm : LSM} {members : List Bytes}
    {member : Bytes} :
  member ∈ membersOf present key lsm members ↔
    member ∈ members ∧ (member ∈ setMembers key lsm ↔ present = true)
  := by
  rw [membersOf, List.mem_filter, decide_eq_true_iff, mem_setMembers, Bool.eq_iff_iff]

/-- The store after SADD. -/
theorem mem_setMembers_putBatch {key : Bytes} {lsm : LSM} {members : List Bytes} {size member : Bytes} :
  member ∈ setMembers key (lsm.putBatch
      (((membersOf false key lsm members).map (getSetMemberKey key)).map
        (fun memberKey => (memberKey, getSetMemberValue)) ++ [(key, size)])) ↔
    member ∈ membersOf false key lsm members ∨ member ∈ setMembers key lsm
  := by
  rw [mem_setMembers, mem_setMembers, LSM.putBatch_append]
  change (LSM.get (LSM.put _ key size) _).isSome = true ↔ _
  have hinjective := List.mem_map_of_injective (l := membersOf false key lsm members) (a := member)
    (getSetMemberKey_injective key)
  rw [LSM.get_put_of_ne _ (under_getSetMemberKey key member).ne_key, LSM.get_putBatch_map,
    LSM.stored_of_ne_nil getSetMemberValue_ne_nil]
  split
  next hmem => exact iff_of_true rfl (.inl (hinjective.mp hmem))
  next hmem => rw [or_iff_right (fun h => hmem (hinjective.mpr h))]

theorem mem_setMembers_removeBatch {key : Bytes} {lsm : LSM} {members : List Bytes}
    {size member : Bytes} :
  member ∈ setMembers key ((lsm.put key size).removeBatch
      ((membersOf true key lsm members).map (getSetMemberKey key))) ↔
    member ∈ setMembers key lsm ∧ member ∉ membersOf true key lsm members
  := by
  have hinjective := List.mem_map_of_injective (l := membersOf true key lsm members) (a := member)
    (getSetMemberKey_injective key)
  rw [mem_setMembers, mem_setMembers, LSM.get_removeBatch,
    LSM.get_put_of_ne _ (under_getSetMemberKey key member).ne_key]
  split
  next hmem => exact iff_of_false nofun (fun h => h.2 (hinjective.mp hmem))
  next hmem => exact (and_iff_left (fun h => hmem (hinjective.mpr h))).symm

namespace CountsMembers

variable {key : Bytes} {lsm : LSM}

theorem unexpired (h : CountsMembers key lsm) (now : ℤ) : Unexpired key ⟨lsm, now⟩
  := .inl h.expire

/-- The commands that read the set answer by its members. -/
theorem setAnswers [Doubles] (h : CountsMembers key lsm) : SetAnswers key lsm (setMembers key lsm)
  := by
  constructor
  · intro now
    rw [Command.exec, Command.program, run_redisSmembers (h.unexpired now)]
  · intro now
    rw [Command.exec, Command.program, run_redisScard (h.unexpired now)]
    dsimp only
    rcases h.count with hcount | ⟨hcount, hnil⟩
    · rw [hcount]
      rfl
    · rw [hcount, hnil]
      rfl
  · intro now member
    rw [Command.exec, Command.program, run_redisSismember (h.unexpired now)]
    simp only [mem_setMembers]

/-- The stored number is changed by the members that are added or removed. -/
theorem changedSize (h : CountsMembers key lsm) (change : ℤ) (hchange : FitsSigned 32 change)
    (hsum : FitsSigned 32 (change + (setMembers key lsm).length)) :
  changedSize change (lsm.get key) = .ok (change + (setMembers key lsm).length)
  := by
  have hfits := h.fits
  rcases h.count with hcount | ⟨hcount, hnil⟩
  · rw [hcount, changedSize_decimal hchange ⟨by omega, by omega⟩ hsum]
  · rw [hcount, hnil, changedSize_none hchange, List.length_nil, Int.natCast_zero, Int.add_zero]

/-- What SADD answers, and what it leaves. -/
theorem sadd [Doubles] (h : CountsMembers key lsm) (now : ℤ) {members : List Bytes}
    (hnodup : (membersOf false key lsm members).Nodup)
    (hfits : (setMembers key lsm ++ members).dedup.length < 2 ^ 31) :
  ∃ lsm', (Command.sadd key members).exec now lsm =
      (.ok (integerReply ((setMembers key lsm').length - (setMembers key lsm).length)), lsm') ∧
    CountsMembers key lsm'
  := by
  have hfits' := h.fits
  have hdedup : (membersOf false key lsm members ++ setMembers key lsm).Perm
      (setMembers key lsm ++ members).dedup := by
    rw [List.perm_ext_iff_of_nodup _ (List.nodup_dedup _)]
    · intro member
      rw [List.mem_dedup, List.mem_append, List.mem_append, mem_membersOf]
      tauto
    · apply hnodup.append (nodup_setMembers key lsm)
      intro member hmember hmem
      cases (mem_membersOf.mp hmember).2.mp hmem
  have hlength := hdedup.length_eq
  rw [List.length_append] at hlength
  have hchanged := h.changedSize (membersOf false key lsm members).length
    ⟨by omega, by omega⟩ ⟨by omega, by omega⟩
  have hrun := run_redisSadd (h.unexpired now) (bytes "sadd") members hchanged
  have hmembers := @mem_setMembers_putBatch key lsm members
    (decimal ((membersOf false key lsm members).length + (setMembers key lsm).length))
  generalize hlsm : lsm.putBatch _ = lsm' at hrun hmembers
  have hlength' : (setMembers key lsm').length =
      (membersOf false key lsm members).length + (setMembers key lsm).length := by
    rw [← List.length_append]
    apply List.Perm.length_eq
    rw [List.perm_ext_iff_of_nodup (nodup_setMembers key lsm')
      (hdedup.nodup_iff.mpr (List.nodup_dedup _))]
    intro member
    rw [hmembers, List.mem_append]
  refine ⟨lsm', ?_, ?_⟩
  · rw [Command.exec, Command.program, hrun, hlength', Int.natCast_add, Int.add_sub_cancel]
  · constructor
    · rw [← hlsm, LSM.putBatch_append]
      change LSM.get (LSM.put _ key _) _ = none
      rw [LSM.get_put_of_ne _ (getExplireKey_ne_key key), LSM.get_putBatch_map, if_neg, h.expire]
      rw [List.mem_map]
      rintro ⟨member, -, heq⟩
      exact getSetMemberKey_ne_getExplireKey key member key heq
    · left
      rw [hlength', ← hlsm, LSM.putBatch_append]
      change LSM.get (LSM.put _ key _) key = _
      rw [LSM.get_put_self, Int.natCast_add, LSM.stored_of_ne_nil (decimal_ne_nil _)]
    · omega

/-- What SREM answers, and what it leaves. -/
theorem srem [Doubles] (h : CountsMembers key lsm) (now : ℤ) {members : List Bytes}
    (hnodup : (membersOf true key lsm members).Nodup) :
  ∃ lsm', (Command.srem key members).exec now lsm =
      (.ok (integerReply ((setMembers key lsm).length - (setMembers key lsm').length)), lsm') ∧
    CountsMembers key lsm'
  := by
  have hfits := h.fits
  have hmembers := @mem_setMembers_removeBatch key lsm members
    (decimal (-(membersOf true key lsm members).length + (setMembers key lsm).length))
  have hperm : ∀ lsm' : LSM, (∀ {member}, member ∈ setMembers key lsm' ↔
        member ∈ setMembers key lsm ∧ member ∉ membersOf true key lsm members) →
      (setMembers key lsm' ++ membersOf true key lsm members).Perm (setMembers key lsm) := by
    intro lsm' hmembers
    rw [List.perm_ext_iff_of_nodup _ (nodup_setMembers key lsm)]
    · intro member
      rw [List.mem_append, hmembers, mem_membersOf]
      tauto
    · apply (nodup_setMembers key lsm').append hnodup
      exact fun member hmember hmem => (hmembers.mp hmember).2 hmem
  have hlength := (hperm _ hmembers).length_eq
  rw [List.length_append] at hlength
  have hrun := run_redisSrem (h.unexpired now) (bytes "srem") members
    (h.changedSize (-(membersOf true key lsm members).length) ⟨by omega, by omega⟩
      ⟨by omega, by omega⟩)
  generalize hlsm : LSM.removeBatch _ _ = lsm' at hrun hmembers hlength
  have hsize : (-(membersOf true key lsm members).length + (setMembers key lsm).length : ℤ) =
      (setMembers key lsm').length := by omega
  have hremoved : ((membersOf true key lsm members).length : ℤ) =
      (setMembers key lsm).length - (setMembers key lsm').length := by omega
  refine ⟨lsm', ?_, ?_⟩
  · rw [Command.exec, Command.program, hrun, hremoved]
  · constructor
    · rw [← hlsm, LSM.get_removeBatch, if_neg, LSM.get_put_of_ne _ (getExplireKey_ne_key key),
        h.expire]
      rw [List.mem_map]
      rintro ⟨member, -, heq⟩
      exact getSetMemberKey_ne_getExplireKey key member key heq
    · left
      rw [← hsize, ← hlsm, LSM.get_removeBatch, if_neg, LSM.get_put_self,
        LSM.stored_of_ne_nil (decimal_ne_nil _)]
      rw [List.mem_map]
      rintro ⟨member, -, heq⟩
      exact (under_getSetMemberKey key member).ne_key heq
    · omega

end CountsMembers

variable [Doubles]

theorem countsMembers_of_reached {key : Bytes} {start lsm : LSM}
    (hexpire : start.get (getExplireKey key) = none) (hcount : start.get key = none)
    (hmembers : ∀ member, start.get (getSetMemberKey key member) = none)
    (h : Transition.Reached step start (ChangesSet key) lsm) :
  CountsMembers key lsm
  := by
  apply h.invariant
  · have hnil : setMembers key start = [] := by
      rw [List.eq_nil_iff_forall_not_mem]
      intro member hmember
      rw [mem_setMembers, hmembers member] at hmember
      cases hmember
    refine ⟨hexpire, .inr ⟨hcount, hnil⟩, ?_⟩
    rw [hnil, List.length_nil]
    omega
  · rintro lsm lsm' ⟨now, c⟩ - hcounts hchanges hstep
    obtain rfl := Option.some.inj hstep
    cases c with
    | sadd k members =>
        obtain ⟨rfl, hnodup, hfits⟩ := hchanges
        obtain ⟨lsm', hexec, hcounts'⟩ := hcounts.sadd now hnodup hfits
        rw [hexec]
        apply hcounts'
    | srem k members =>
        obtain ⟨rfl, hnodup⟩ := hchanges
        obtain ⟨lsm', hexec, hcounts'⟩ := hcounts.srem now hnodup
        rw [hexec]
        apply hcounts'
    | _ => cases hchanges

/-- In every run of SADD and SREM on a key where nothing is stored, the number of members that
SCARD answers is the one of the members that SMEMBERS lists, SISMEMBER answers by them, and a
command answers by how much it changes their number. -/
theorem setAnswers_of_reached {key : Bytes} {start lsm : LSM}
    (hexpire : start.get (getExplireKey key) = none) (hcount : start.get key = none)
    (hmembers : ∀ member, start.get (getSetMemberKey key member) = none)
    (h : Transition.Reached step start (ChangesSet key) lsm) :
  ∃ members : List Bytes, members.Nodup ∧ SetAnswers key lsm members ∧
    (∀ now added, ChangesSet key lsm (now, .sadd key added) →
      ∃ members' : List Bytes, SetAnswers key ((Command.sadd key added).exec now lsm).2 members' ∧
        ((Command.sadd key added).exec now lsm).1 =
          .ok (integerReply (members'.length - members.length))) ∧
    ∀ now removed, ChangesSet key lsm (now, .srem key removed) →
      ∃ members' : List Bytes,
        SetAnswers key ((Command.srem key removed).exec now lsm).2 members' ∧
        ((Command.srem key removed).exec now lsm).1 =
          .ok (integerReply (members.length - members'.length))
  := by
  have hcounts := countsMembers_of_reached hexpire hcount hmembers h
  refine ⟨setMembers key lsm, nodup_setMembers key lsm, hcounts.setAnswers, ?_, ?_⟩
  · rintro now added ⟨-, hnodup, hfits⟩
    obtain ⟨lsm', hexec, hcounts'⟩ := hcounts.sadd now hnodup hfits
    rw [hexec]
    exact ⟨_, hcounts'.setAnswers, rfl⟩
  · rintro now removed ⟨-, hnodup⟩
    obtain ⟨lsm', hexec, hcounts'⟩ := hcounts.srem now hnodup
    rw [hexec]
    exact ⟨_, hcounts'.setAnswers, rfl⟩

omit [Doubles] in
theorem setAnswers_of_sadd :
  letI := Doubles.whole
  ∃ members : List Bytes, members.Nodup ∧ SetAnswers (bytes "k")
    ((Command.sadd (bytes "k") [bytes "a", bytes "b"]).exec 0 .empty).2 members
  := by
  let _ := Doubles.whole
  have hchanges : ChangesSet (bytes "k") .empty (0, .sadd (bytes "k") [bytes "a", bytes "b"]) :=
    ⟨rfl, by decide, by decide⟩
  obtain ⟨members, hnodup, hanswers, -, -⟩ :=
    setAnswers_of_reached rfl rfl (fun _ => rfl) (.step .start hchanges rfl)
  exact ⟨members, hnodup, hanswers⟩

omit [Doubles] in
/-- A member that is added twice at once is counted twice. -/
theorem not_setAnswers_of_sadd_twice :
  letI := Doubles.whole
  ¬ ∃ members : List Bytes, SetAnswers (bytes "k")
    ((Command.sadd (bytes "k") [bytes "a", bytes "a"]).exec 0 .empty).2 members
  := by
  let _ := Doubles.whole
  rintro ⟨members, h⟩
  have hsmembers := (h.smembers 0).symm.trans
    (by decide : _ = Except.ok (arrayReply [bytes "a"]))
  have hscard := (h.scard 0).symm.trans
    (by decide +kernel : _ = Except.ok (integerReply 2))
  have hlisted := length_eq_of_arrayReply_eq (Except.ok.inj hsmembers)
  have hcounted := integerReply_injective (Except.ok.inj hscard)
  rw [hlisted] at hcounted
  cases hcounted

end RedisWrapper

end TinyLsm
