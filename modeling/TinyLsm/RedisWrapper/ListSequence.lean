import TinyLsm.Library.Replies
import TinyLsm.RedisWrapper.Commands

/-!
# Lists as sequences

The commands on a list, with values that are not empty and do not contain the separator, answer
as a sequence of strings does.  LRANGE counts in `int`, so that it does so only for a sequence
whose length fits.
-/

namespace TinyLsm

namespace RedisWrapper

open Replies TomlConfig

/-- The commands on a list; the range is the whole one. -/
inductive ListCommand where
  | lpush (value : Bytes)
  | rpush (value : Bytes)
  | lpop
  | rpop
  | llen
  | lrange

namespace ListCommand

def command (key : Bytes) : ListCommand → Command
  | lpush value => .lpush key value
  | rpush value => .rpush key value
  | lpop => .lpop key
  | rpop => .rpop key
  | llen => .llen key
  | lrange => .lrange key (bytes "0") (bytes "-1")

/-- The reply of a sequence, and the sequence afterwards. -/
def perform : ListCommand → List Bytes → Bytes × List Bytes
  | lpush value, elements => (integerReply (elements.length + 1), value :: elements)
  | rpush value, elements => (integerReply (elements.length + 1), elements ++ [value])
  | lpop, [] => (nilReply, [])
  | lpop, value :: elements => (bulkReply value, elements)
  | rpop, elements =>
      match elements.getLast? with
      | none => (nilReply, [])
      | some value => (bulkReply value, elements.dropLast)
  | llen, elements => (integerReply elements.length, elements)
  | lrange, elements => (arrayReply elements, elements)

/-- A value that is not empty and does not contain the separator. -/
def IsElement (value : Bytes) : Prop := value ≠ [] ∧ getInstance.redisListSeparator ∉ value

instance (value : Bytes) : Decidable (IsElement value) :=
  inferInstanceAs (Decidable (_ ∧ _))

/-- What is pushed is an element. -/
def PushesElement : ListCommand → Prop
  | lpush value | rpush value => IsElement value
  | lpop | rpop | llen | lrange => True

instance : DecidablePred PushesElement
  | lpush value | rpush value => inferInstanceAs (Decidable (IsElement value))
  | lpop | rpop | llen | lrange => .isTrue trivial

/-- The range is asked for only if the length fits `int`. -/
def FitsInt : ListCommand → List Bytes → Prop
  | lrange, elements => elements.length < 2 ^ 31
  | lpush _, _ | rpush _, _ | lpop, _ | rpop, _ | llen, _ => True

instance : ∀ (c : ListCommand) (elements : List Bytes), Decidable (c.FitsInt elements)
  | lrange, elements => inferInstanceAs (Decidable (elements.length < 2 ^ 31))
  | lpush _, _ | rpush _, _ | lpop, _ | rpop, _ | llen, _ => .isTrue trivial

/-- Execute a command on the key, by a clock. -/
def exec [Doubles] (key : Bytes) (request : ℤ × ListCommand) (lsm : LSM) :
    Except Fault Bytes × LSM :=
  (request.2.command key).exec request.1 lsm

/-- What the sequence answers instead. -/
def spec (request : ℤ × ListCommand) (elements : List Bytes) : Except Fault Bytes × List Bytes :=
  (.ok (request.2.perform elements).1, (request.2.perform elements).2)

end ListCommand

/-! ### How a sequence is stored -/

/-- The elements joined are stored under the key, which has no expiry time. -/
structure StoresList (key : Bytes) (lsm : LSM) (elements : List Bytes) : Prop where
  expire : lsm.get (getExplireKey key) = none
  value : lsm.get key = LSM.stored (join elements getInstance.redisListSeparator)
  isElement : ∀ value ∈ elements, ListCommand.IsElement value

section

variable {key : Bytes} {lsm : LSM} {elements : List Bytes}

theorem split_join (h : ∀ value ∈ elements, ListCommand.IsElement value) :
  split (join elements getInstance.redisListSeparator) getInstance.redisListSeparator = elements
  := Delimited.split_intercalate_of_ne_nil h

theorem join_eq_nil_iff (h : ∀ value ∈ elements, ListCommand.IsElement value) :
  join elements getInstance.redisListSeparator = [] ↔ elements = []
  := by
  constructor
  · intro hjoin
    rw [← split_join h, hjoin]
    rfl
  · rintro rfl
    rfl

namespace StoresList

section

variable (h : StoresList key lsm elements)

include h

theorem unexpired (now : ℤ) : Unexpired key ⟨lsm, now⟩
  := .inl h.expire

theorem getD_get : (lsm.get key).getD [] = join elements getInstance.redisListSeparator
  := by
  rw [h.value, LSM.stored]
  split
  next hnil => rw [hnil, Option.getD_none]
  next => rw [Option.getD_some]

theorem split_getD_get :
  split ((lsm.get key).getD []) getInstance.redisListSeparator = elements
  := by
  rw [h.getD_get, split_join h.isElement]

/-- Storing other elements under the key. -/
theorem put {elements' : List Bytes} (h' : ∀ value ∈ elements', ListCommand.IsElement value) :
  StoresList key (lsm.put key (join elements' getInstance.redisListSeparator)) elements'
  := by
  constructor
  · rw [LSM.get_put_of_ne _ (getExplireKey_ne_key key), h.expire]
  · rw [LSM.get_put_self]
  · apply h'

theorem remove : StoresList key (lsm.remove key) []
  := by
  constructor
  · rw [LSM.get_remove_of_ne _ (getExplireKey_ne_key key), h.expire]
  · rw [LSM.get_remove_self]
    rfl
  · intro value hvalue
    cases hvalue

/-- A push stores the value joined with the elements at one of their ends. -/
theorem push (joined : Bytes → Bytes → Bytes) {value : Bytes} {elements' : List Bytes}
    (h' : ∀ value ∈ elements', ListCommand.IsElement value)
    (hjoin : join elements' getInstance.redisListSeparator =
      if elements = [] then value else joined value (join elements getInstance.redisListSeparator))
    (now : ℤ) :
  ∃ lsm', Redis.run (redisPush joined key value) ⟨lsm, now⟩ =
      (.ok (integerReply elements'.length), ⟨lsm', now⟩) ∧
    StoresList key lsm' elements'
  := by
  have hvalue : join elements' getInstance.redisListSeparator =
      if (lsm.get key).getD [] = [] then value else joined value ((lsm.get key).getD []) := by
    rw [hjoin, h.getD_get]
    simp only [join_eq_nil_iff h.isElement]
  have hrun := run_redisPush (h.unexpired now) joined value hvalue
  rw [split_join h'] at hrun
  exact ⟨_, hrun, h.put h'⟩

theorem pop (taken : List Bytes → Option (Bytes × List Bytes)) {value : Bytes}
    {elements' : List Bytes} (htaken : taken elements = some (value, elements'))
    (h' : ∀ value ∈ elements', ListCommand.IsElement value) (hne : elements ≠ []) (now : ℤ) :
  ∃ lsm', Redis.run (redisPop taken key) ⟨lsm, now⟩ = (.ok (bulkReply value), ⟨lsm', now⟩) ∧
    StoresList key lsm' elements'
  := by
  have hget : lsm.get key = some (join elements getInstance.redisListSeparator) := by
    rw [h.value, LSM.stored_of_ne_nil]
    rw [ne_eq, join_eq_nil_iff h.isElement]
    apply hne
  rw [← split_join h.isElement] at htaken
  refine ⟨_, run_redisPop (h.unexpired now) taken hget htaken, ?_⟩
  dsimp only
  split
  next hnil =>
    rw [hnil]
    apply h.remove
  next => exact h.put h'

end

/-- Nothing is popped from the empty sequence. -/
theorem pop_nil (h : StoresList key lsm []) (taken : List Bytes → Option (Bytes × List Bytes))
    (now : ℤ) :
  Redis.run (redisPop taken key) ⟨lsm, now⟩ = (.ok nilReply, ⟨lsm, now⟩)
  := run_redisPop_of_none (h.unexpired now) taken h.value

end StoresList

end

/-! ### Every command -/

theorem stoi_zero : stoi (bytes "0") = .ok 0
  := by decide

theorem stoi_minus_one : stoi (bytes "-1") = .ok (-1)
  := by decide

namespace StoresList

variable [Doubles] {key : Bytes} {lsm : LSM} {elements : List Bytes}

theorem exec_lrange (h : StoresList key lsm elements) (now : ℤ) :
  ListCommand.exec key (now, .lrange) lsm =
    (if elements = [] then .ok (arrayReply []) else rangeReply elements 0 (-1), lsm)
  := by
  have hrun := run_redisLrange (h.unexpired now) 0 (-1) h.split_getD_get
  rw [ListCommand.exec, ListCommand.command, Command.exec, Command.program, lrange, stoi_zero,
    stoi_minus_one]
  exact congrArg (fun outcome => (outcome.1, outcome.2.lsm)) hrun

/-- A command answers as the sequence does, and stores the sequence it becomes. -/
theorem exec (h : StoresList key lsm elements) {request : ℤ × ListCommand}
    (hpushes : request.2.PushesElement) (hfits : request.2.FitsInt elements) :
  (ListCommand.exec key request lsm).1 = (ListCommand.spec request elements).1 ∧
    StoresList key (ListCommand.exec key request lsm).2 (ListCommand.spec request elements).2
  := by
  obtain ⟨now, c⟩ := request
  cases c with
  | lpush value =>
      have hmem : ∀ x ∈ value :: elements, ListCommand.IsElement x :=
        List.forall_mem_cons.mpr ⟨hpushes, h.isElement⟩
      have hjoin : join (value :: elements) getInstance.redisListSeparator =
          if elements = [] then value
          else value ++ getInstance.redisListSeparator ::
            join elements getInstance.redisListSeparator := by
        split
        next hnil =>
          rw [hnil, join, List.intercalate_singleton]
        next hne => rw [join, Delimited.intercalate_cons hne, join]
      obtain ⟨lsm', hrun, hstores⟩ := h.push (fun value listValue =>
        value ++ getInstance.redisListSeparator :: listValue) hmem hjoin now
      rw [ListCommand.exec, ListCommand.command, Command.exec, Command.program, redisLpush, hrun]
      exact ⟨rfl, hstores⟩
  | rpush value =>
      have hmem : ∀ x ∈ elements ++ [value], ListCommand.IsElement x :=
        List.forall_mem_append.mpr ⟨h.isElement, List.forall_mem_singleton.mpr hpushes⟩
      have hjoin : join (elements ++ [value]) getInstance.redisListSeparator =
          if elements = [] then value
          else join elements getInstance.redisListSeparator ++
            getInstance.redisListSeparator :: value := by
        split
        next hnil =>
          rw [hnil, List.nil_append, join, List.intercalate_singleton]
        next hne => rw [join, Delimited.intercalate_concat hne, join]
      obtain ⟨lsm', hrun, hstores⟩ := h.push (fun value listValue =>
        listValue ++ getInstance.redisListSeparator :: value) hmem hjoin now
      rw [List.length_append] at hrun
      rw [ListCommand.exec, ListCommand.command, Command.exec, Command.program, redisRpush, hrun]
      exact ⟨rfl, hstores⟩
  | lpop =>
      rw [ListCommand.exec, ListCommand.command, Command.exec, Command.program, redisLpop]
      cases elements with
      | nil =>
          rw [h.pop_nil]
          exact ⟨rfl, h⟩
      | cons value elements =>
          obtain ⟨lsm', hrun, hstores⟩ := h.pop (fun elements =>
            elements.head?.map (fun value => (value, elements.tail))) rfl
            (List.forall_mem_cons.mp h.isElement).2 (List.cons_ne_nil value elements) now
          rw [hrun]
          exact ⟨rfl, hstores⟩
  | rpop =>
      rw [ListCommand.exec, ListCommand.command, Command.exec, Command.program, redisRpop]
      cases hlast : elements.getLast? with
      | none =>
          obtain rfl := List.getLast?_eq_none_iff.mp hlast
          rw [h.pop_nil]
          exact ⟨rfl, h⟩
      | some value =>
          obtain ⟨lsm', hrun, hstores⟩ := h.pop (fun elements =>
            elements.getLast?.map (fun value => (value, elements.dropLast)))
            (by rw [hlast, Option.map_some])
            (fun x hx => h.isElement x ((List.dropLast_sublist _).subset hx))
            (by rintro rfl; cases hlast) now
          rw [hrun, ListCommand.spec, ListCommand.perform, hlast]
          exact ⟨rfl, hstores⟩
  | llen =>
      have hrun := run_redisLlen (h.unexpired now)
      rw [h.split_getD_get] at hrun
      rw [ListCommand.exec, ListCommand.command, Command.exec, Command.program, hrun]
      exact ⟨rfl, h⟩
  | lrange =>
      rw [h.exec_lrange]
      refine ⟨?_, h⟩
      dsimp only
      split
      next hnil =>
        rw [hnil]
        rfl
      next hne =>
        rw [rangeReply_all hne hfits]
        rfl

end StoresList

/-! ### Runs -/

/-- A run of commands on a key where nothing is stored answers as a sequence that starts empty,
if the whole range is asked for only while the length fits `int`. -/
theorem replies_listCommands [Doubles] {key : Bytes} {lsm : LSM} (hempty : lsm.get key = none)
    (hexpire : lsm.get (getExplireKey key) = none) {requests : List (ℤ × ListCommand)}
    (hpushes : ∀ request ∈ requests, request.2.PushesElement)
    (hfits : Along ListCommand.spec (fun request => request.2.FitsInt) requests []) :
  replies (ListCommand.exec key) requests lsm = replies ListCommand.spec requests []
  := by
  have hstores : StoresList key lsm [] := ⟨hexpire, hempty, List.forall_mem_nil _⟩
  apply replies_eq_of_simulation (R := StoresList key)
    (P := fun request elements => request.2.PushesElement ∧ request.2.FitsInt elements)
  · intro request lsm elements h hmeets
    apply h.exec hmeets.1 hmeets.2
  · apply hstores
  · apply Along.and
    · apply Along.of_mem
      apply hpushes
    · apply hfits

theorem replies_listCommands_pushes :
  letI := Doubles.whole
  replies (ListCommand.exec (bytes "k"))
      [(0, .rpush (bytes "a")), (1, .lpush (bytes "b")), (2, .lrange), (3, .lpop)] .empty =
    replies ListCommand.spec
      [(0, .rpush (bytes "a")), (1, .lpush (bytes "b")), (2, .lrange), (3, .lpop)] []
  := by
  let _ := Doubles.whole
  apply replies_listCommands
  · rfl
  · rfl
  · decide
  · decide

theorem after_spec_rpush (now : ℤ) (value : Bytes) :
  ∀ (n : ℕ) (elements : List Bytes),
    after ListCommand.spec (List.replicate n (now, .rpush value)) elements =
      elements ++ List.replicate n value
  | 0, elements => (List.append_nil elements).symm
  | n + 1, elements => by
      rw [List.replicate_succ, after, after_spec_rpush now value n, List.replicate_succ]
      exact List.append_assoc elements [value] _

/-- After pushes of more elements than `int` counts, the range of all elements is answered as
that of the empty sequence. -/
theorem replies_listCommands_ne [Doubles] (key : Bytes) {n : ℕ} (h : 2 ^ 31 < n)
    (hlt : n < 2 ^ 32) :
  replies (ListCommand.exec key)
      (List.replicate n (0, .rpush (bytes "a")) ++ [(0, .lrange)]) .empty ≠
    replies ListCommand.spec (List.replicate n (0, .rpush (bytes "a")) ++ [(0, .lrange)]) []
  := by
  have hmeets : Along ListCommand.spec
      (fun request elements => request.2.PushesElement ∧ request.2.FitsInt elements)
      (List.replicate n (0, .rpush (bytes "a"))) [] := by
    apply Along.mono (P := fun request _ => request = (0, .rpush (bytes "a")))
    · rintro request elements rfl
      exact ⟨by rw [ListCommand.PushesElement]; decide, trivial⟩
    · apply Along.of_mem
      exact fun request => List.eq_of_mem_replicate
  have hstep : ∀ {request : ℤ × ListCommand} {lsm : LSM} {elements : List Bytes},
      StoresList key lsm elements →
      request.2.PushesElement ∧ request.2.FitsInt elements →
      (ListCommand.exec key request lsm).1 = (ListCommand.spec request elements).1 ∧
        StoresList key (ListCommand.exec key request lsm).2
          (ListCommand.spec request elements).2 :=
    fun h hmeets => h.exec hmeets.1 hmeets.2
  have hstores : StoresList key .empty [] := ⟨rfl, rfl, List.forall_mem_nil _⟩
  have hafter := after_of_simulation hstep hstores hmeets
  rw [replies_append, replies_append, replies_eq_of_simulation hstep hstores hmeets]
  intro heq
  have hlast := List.append_cancel_left heq
  rw [after_spec_rpush, List.nil_append] at hafter hlast
  have hlength : (List.replicate n (bytes "a")).length = n := List.length_replicate
  have hne : List.replicate n (bytes "a") ≠ [] := by
    rw [ne_eq, List.replicate_eq_nil_iff]
    omega
  rw [replies, replies, replies, replies, hafter.exec_lrange, if_neg hne,
    rangeReply_all_of_wide (hlength.symm ▸ h) (hlength.symm ▸ hlt)] at hlast
  have harray := Except.ok.inj (List.cons.inj hlast).1
  exact hne (List.length_eq_zero_iff.mp (length_eq_of_arrayReply_eq harray).symm)

theorem replies_listCommands_wide_ne :
  letI := Doubles.whole
  replies (ListCommand.exec (bytes "k"))
      (List.replicate (2 ^ 31 + 1) (0, .rpush (bytes "a")) ++ [(0, .lrange)]) .empty ≠
    replies ListCommand.spec
      (List.replicate (2 ^ 31 + 1) (0, .rpush (bytes "a")) ++ [(0, .lrange)]) []
  := by
  let _ := Doubles.whole
  apply replies_listCommands_ne
  · omega
  · omega

end RedisWrapper

end TinyLsm
