import TinyLsm.RedisWrapper.FiniteSets
import TinyLsm.RedisWrapper.HashMap
import TinyLsm.RedisWrapper.ListSequence
import TinyLsm.RedisWrapper.Parts
import TinyLsm.RedisWrapper.StringMap

/-!
# The keyspace

The commands on strings, hashes, lists and sets, in whatever order, answer as objects that stand
side by side: a map of all strings, and a map, a sequence or a finite set for each other key.  A key
is used for one kind of object, and no key starts with another one and an underscore.
-/

namespace TinyLsm

namespace RedisWrapper

open Replies

/-- What a key is used for. -/
inductive Kind where
  | string
  | hash
  | list
  | set
deriving DecidableEq

/-- The objects of a keyspace. -/
inductive Object where
  | strings
  | hash (key : Bytes)
  | list (key : Bytes)
  | set (key : Bytes)
deriving DecidableEq

namespace Object

/-- The object that a key of a kind belongs to. -/
def ofKind (key : Bytes) : Kind → Object
  | .string => strings
  | .hash => hash key
  | .list => list key
  | .set => set key

abbrev Content : Object → Type
  | strings => StringMap
  | hash _ => List (Bytes × Bytes)
  | list _ => List Bytes
  | set _ => Finset Bytes

abbrev Request : Object → Type
  | strings => StringCommand
  | hash _ => HashCommand
  | list _ => ListCommand
  | set _ => SetCommand

def command : (o : Object) → o.Request → Command
  | strings, c => StringCommand.command c
  | hash key, c => HashCommand.command key c
  | list key, c => ListCommand.command key c
  | set key, c => SetCommand.command key c

/-- The reply of the object, and the object afterwards. -/
def spec : (o : Object) → ℤ × o.Request → o.Content → Except Fault Bytes × o.Content
  | strings => StringCommand.spec
  | hash _ => HashCommand.spec
  | list _ => ListCommand.spec
  | set _ => SetCommand.spec

/-- What each kind of object asks of its requests. -/
def Accepts : (o : Object) → ℤ × o.Request → o.Content → Prop
  | strings, request, m => StringCommand.Proper request m
  | hash _, request, _ => HashCommand.SetsFieldValues request.2
  | list _, request, elements =>
      ListCommand.PushesElement request.2 ∧ ListCommand.FitsInt request.2 elements
  | set _, request, s => SetCommand.Counted request.2 s

instance : ∀ (o : Object) (request : ℤ × o.Request) (content : o.Content),
    Decidable (o.Accepts request content)
  | strings, request, m => inferInstanceAs (Decidable (StringCommand.Proper request m))
  | hash _, request, _ => inferInstanceAs (Decidable (HashCommand.SetsFieldValues request.2))
  | list _, request, elements => inferInstanceAs
      (Decidable (ListCommand.PushesElement request.2 ∧ ListCommand.FitsInt request.2 elements))
  | set _, request, s => inferInstanceAs (Decidable (SetCommand.Counted request.2 s))

def empty : (o : Object) → o.Content
  | strings => StringMap.empty
  | hash _ | list _ => []
  | set _ => ∅

/-- How an object is stored. -/
def Stored : (o : Object) → LSM → o.Content → Prop
  | strings => StoresStrings
  | hash key => StoresHash key
  | list key => StoresList key
  | set key => StoresSet key

theorem command_ne_flushall (o : Object) (c : o.Request) : o.command c ≠ .flushall
  := by
  cases o <;> cases c <;> exact nofun

theorem stored_empty (o : Object) : o.Stored .empty o.empty
  := by
  cases o with
  | strings => exact storesStrings_empty
  | hash key => exact ⟨⟨rfl, fun _ => rfl, List.nodup_nil, List.forall_mem_nil _⟩, rfl⟩
  | list key => exact ⟨rfl, rfl, List.forall_mem_nil _⟩
  | set key => exact ⟨⟨rfl, .inr ⟨rfl, rfl⟩, Nat.two_pow_pos 31⟩, rfl⟩

/-- A request answers as the object does, and stores the object it becomes. -/
theorem exec [Doubles] (o : Object) {now : ℤ} {c : o.Request} {lsm : LSM} {content : o.Content}
    (h : o.Stored lsm content) (haccepts : o.Accepts (now, c) content) :
  ((o.command c).exec now lsm).1 = (o.spec (now, c) content).1 ∧
    o.Stored ((o.command c).exec now lsm).2 (o.spec (now, c) content).2
  := by
  cases o with
  | strings => exact StoresStrings.exec h haccepts
  | hash key => exact StoresHash.exec h haccepts
  | list key => exact StoresList.exec h haccepts.1 haccepts.2
  | set key => exact StoresSet.exec h haccepts

end Object

/-- The objects of all keys. -/
abbrev Keyspace := (o : Object) → o.Content

/-- A request to an object, or to remove all of them. -/
inductive KeyspaceCommand where
  | on (o : Object) (c : o.Request)
  | flushall

namespace KeyspaceCommand

def command : KeyspaceCommand → Command
  | on o c => o.command c
  | flushall => .flushall

/-- Execute a request, by a clock. -/
def exec [Doubles] (request : ℤ × KeyspaceCommand) (lsm : LSM) : Except Fault Bytes × LSM :=
  request.2.command.exec request.1 lsm

/-- The reply of the keyspace, and the keyspace afterwards. -/
def spec : ℤ × KeyspaceCommand → Keyspace → Except Fault Bytes × Keyspace
  | (now, on o c), objects => sideBySide Object.spec ⟨o, (now, c)⟩ objects
  | (_, flushall), _ => (.ok okReply, Object.empty)

end KeyspaceCommand

/-! ### What the keys are used for -/

variable (kind : Bytes → Option Kind)

/-- The object that a key belongs to. -/
def objectOf (key : Bytes) : Option Object := (kind key).map (Object.ofKind key)

/-- A request to an object that its keys belong to, such as the object accepts. -/
def Fits : ℤ × KeyspaceCommand → Keyspace → Prop
  | (now, .on o c), objects =>
      (∀ key ∈ (o.command c).keys, objectOf kind key = some o) ∧ o.Accepts (now, c) (objects o)
  | (_, .flushall), _ => True

instance : ∀ (request : ℤ × KeyspaceCommand) (objects : Keyspace),
    Decidable (Fits kind request objects)
  | (_, .on _ _), _ => inferInstanceAs (Decidable ((∀ key ∈ _, _) ∧ _))
  | (_, .flushall), _ => .isTrue trivial

/-- The keys in use are not reserved, and none of them starts with another one and an underscore. -/
structure Apart : Prop where
  notReserved : ∀ key, (kind key).isSome → ¬ Reserved key
  notPrefix : ∀ key key', (kind key).isSome → (kind key').isSome → ¬ key ++ bytes "_" <+: key'

/-- What belongs to the keys of an object. -/
def Region (o : Object) (x : Bytes) : Prop := ∃ key, objectOf kind key = some o ∧ Owned key x

/-- The object is stored in its region. -/
def StoredIn (o : Object) (lsm : LSM) (content : o.Content) : Prop :=
  o.Stored (lsm.part (Region kind o)) content

/-- Each object is stored in its region. -/
def StoresKeyspace (lsm : LSM) (objects : Keyspace) : Prop := ∀ o, StoredIn kind o lsm (objects o)

variable {kind}

theorem isSome_of_objectOf {key : Bytes} {o : Object} (h : objectOf kind key = some o) :
  (kind key).isSome
  := by
  rw [objectOf, Option.map_eq_some_iff] at h
  obtain ⟨k, hk, -⟩ := h
  rw [hk, Option.isSome_some]

/-- The regions of different objects share nothing. -/
theorem Apart.eq_of_region (h : Apart kind) {o o' : Object} {x : Bytes} (hx : Region kind o x)
    (hx' : Region kind o' x) :
  o = o'
  := by
  obtain ⟨key, hkey, howned⟩ := hx
  obtain ⟨key', hkey', howned'⟩ := hx'
  have hsome := isSome_of_objectOf hkey
  have hsome' := isSome_of_objectOf hkey'
  rcases eq_or_prefix_of_owned (h.notReserved key hsome) (h.notReserved key' hsome') howned howned'
    with rfl | hprefix | hprefix
  · exact Option.some.inj (hkey.symm.trans hkey')
  · exact absurd hprefix (h.notPrefix key key' hsome hsome')
  · exact absurd hprefix (h.notPrefix key' key hsome' hsome)

theorem storesKeyspace_empty : StoresKeyspace kind .empty Object.empty
  := by
  intro o
  rw [StoredIn, LSM.part_empty]
  apply o.stored_empty

variable [Doubles]

/-- A request answers as the keyspace does, and stores the keyspace that it becomes. -/
theorem StoresKeyspace.exec (hapart : Apart kind) {lsm : LSM} {objects : Keyspace}
    (h : StoresKeyspace kind lsm objects) {request : ℤ × KeyspaceCommand}
    (hfits : Fits kind request objects) :
  (KeyspaceCommand.exec request lsm).1 = (KeyspaceCommand.spec request objects).1 ∧
    StoresKeyspace kind (KeyspaceCommand.exec request lsm).2
      (KeyspaceCommand.spec request objects).2
  := by
  obtain ⟨now, c⟩ := request
  cases c with
  | flushall => exact ⟨rfl, storesKeyspace_empty⟩
  | on o c =>
      obtain ⟨hkeys, haccepts⟩ := hfits
      have hflush := o.command_ne_flushall c
      have hregion : ∀ x, (o.command c).Touched x → Region kind o x := by
        rintro x ⟨key, hmem, howned⟩
        exact ⟨key, hkeys key hmem, howned⟩
      obtain ⟨hreply, hpart⟩ := Command.exec_part hflush now lsm hregion
      obtain ⟨hanswer, hstored⟩ := o.exec (h o) haccepts
      refine ⟨hreply.symm.trans hanswer, ?_⟩
      change ∀ o', StoredIn kind o' ((o.command c).exec now lsm).2
        ((sideBySide Object.spec ⟨o, (now, c)⟩ objects).2 o')
      apply related_sideBySide h
      · rw [StoredIn, ← hpart]
        exact hstored
      · intro o' hne hstored'
        have hother : ∀ x, (o.command c).Touched x → ¬ Region kind o' x :=
          fun x htouched hx => hne (hapart.eq_of_region hx (hregion x htouched))
        rw [StoredIn, Command.part_exec hflush now lsm hother]
        exact hstored'

omit [Doubles] in
/-- A list of the keys in use. -/
theorem apart_lookup {used : List (Bytes × Kind)}
    (h : ∀ p ∈ used, ¬ Reserved p.1 ∧ ∀ q ∈ used, ¬ p.1 ++ bytes "_" <+: q.1) :
  Apart (fun key => used.lookup key)
  := by
  have hmem : ∀ key, (used.lookup key).isSome → ∃ k, (key, k) ∈ used := by
    intro key hsome
    obtain ⟨k, hk⟩ := Option.isSome_iff_exists.mp hsome
    obtain ⟨before, after, rfl, -⟩ := List.lookup_eq_some_iff.mp hk
    exact ⟨k, List.mem_append_right _ List.mem_cons_self⟩
  constructor
  · intro key hsome
    obtain ⟨k, hk⟩ := hmem key hsome
    exact (h _ hk).1
  · intro key key' hsome hsome'
    obtain ⟨k, hk⟩ := hmem key hsome
    obtain ⟨k', hk'⟩ := hmem key' hsome'
    exact (h _ hk).2 _ hk'

end RedisWrapper

end TinyLsm
