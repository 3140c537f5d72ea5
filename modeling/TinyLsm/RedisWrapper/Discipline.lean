import TinyLsm.Library.Locking
import TinyLsm.RedisWrapper.Footprint

/-!
# What the commands do under the lock

A command that stores data reads with the lock shared, removes what has expired with the lock
upgraded, and stores data with the lock taken alone.
-/

namespace TinyLsm

/-- The keys that a call stores something under. -/
def Call.storedKeys : Call → List Bytes
  | .put key _ => [key]
  | .putBatch kvs => kvs.map Prod.fst
  | .get _ | .remove _ | .removeBatch _ | .itersMonotonyPredicate _ | .clear | .now => []

/-- The calls that change nothing. -/
def Call.isQuery : Call → Bool
  | .get _ | .itersMonotonyPredicate _ | .now => true
  | .put _ _ | .remove _ | .putBatch _ | .removeBatch _ | .clear => false

namespace RedisWrapper

/-- The calls that are made with the lock held in a mode. -/
def Disciplined : Option LockMode → Call → Prop
  | none, _ => False
  | some .shared, c => c.isQuery = true
  | some .upgraded, c => c.storedKeys = []
  | some .exclusive, _ => True

/-- The commands that are disciplined. -/
def Command.isDisciplined : Command → Bool
  | .set _ _ | .hset _ _ | .lpush _ _ | .zadd _ _ | .sadd _ _ | .srem _ _ => true
  | _ => false

/-! ### Programs without locks -/

section

variable {α : Type}

theorem noLocks_forM {f : α → Redis Unit} (h : ∀ a, (f a).NoLocks Possible) :
  ∀ (as : List α), (ForM.forM as f : Redis Unit).NoLocks Possible
  | [] => trivial
  | a :: as => by
      rw [List.forM_cons]
      exact (h a).bind (fun _ => noLocks_forM h as)

theorem noLocks_hsetFields (key : Bytes) (pairs : List (Bytes × Bytes)) :
  ∀ (fieldList : List Bytes) (addedCount : ℕ),
    (hsetFields key fieldList addedCount pairs).NoLocks Possible
  := by
  induction pairs with
  | nil => exact fun _ _ => trivial
  | cons p pairs ih =>
      intro fieldList addedCount _ _
      change Program.NoLocks Possible (if p.1 ∈ fieldList then _ else _)
      split
      · apply ih
      · apply ih

theorem noLocks_memberKeys (present : Bool) (key : Bytes) (members : List Bytes) :
  (memberKeys present key members).NoLocks Possible
  := by
  induction members with
  | nil => trivial
  | cons member members ih => exact fun _ _ => ih.bind (fun _ => trivial)

theorem noLocks_zaddPairs (key : Bytes) (pairs : List (Bytes × Bytes)) :
  ∀ (batch : ZaddBatch), (zaddPairs key batch (pairArgs pairs)).NoLocks Possible
  := by
  induction pairs with
  | nil => exact fun _ => trivial
  | cons p pairs ih =>
      intro batch
      rw [pairArgs_cons, zaddPairs]
      intro queryElem _
      cases queryElem with
      | none => apply ih
      | some originalScore =>
          change Program.NoLocks Possible (if originalScore = p.1 then _ else _)
          split
          · apply ih
          · apply ih

end

/-! ### The cleanings -/

/-- A program that holds the lock upgraded all along, and stores nothing. -/
def Cleans {α : Type} (p : Redis α) : Prop :=
  p.UnderLock Disciplined Possible (fun held _ => held = some .upgraded) (some .upgraded)

theorem Cleans.bind {α β : Type} {p : Redis α} {f : α → Redis β} (hp : Cleans p)
    (hf : ∀ a, Cleans (f a)) :
  Cleans (p >>= f)
  := by
  apply Program.UnderLock.bind hp
  rintro _ a rfl
  apply hf a

theorem cleans_done {α : Type} (result : Except Fault α) : Cleans (.done result : Redis α)
  := by
  cases result with
  | ok a => exact rfl
  | error e => exact trivial

theorem cleans_get (key : Bytes) : Cleans (Redis.get key)
  := ⟨rfl, fun _ _ => rfl⟩

theorem cleans_remove (key : Bytes) : Cleans (Redis.remove key)
  := ⟨rfl, fun _ _ => rfl⟩

theorem cleans_forM {α : Type} {f : α → Redis Unit} (h : ∀ a, Cleans (f a)) :
  ∀ (as : List α), Cleans (ForM.forM as f)
  | [] => rfl
  | a :: as => by
      rw [List.forM_cons]
      exact (h a).bind (fun _ => cleans_forM h as)

theorem cleans_cleanHash (key : Bytes) : Cleans (cleanHash key)
  := by
  apply (cleans_get key).bind
  intro value
  apply (cleans_done _).bind
  intro fields
  apply (cleans_forM (fun field => cleans_remove (getHashFiledKey key field)) fields).bind
  exact fun _ => (cleans_remove key).bind (fun _ => cleans_remove (getExplireKey key))

theorem cleans_cleanList (key : Bytes) : Cleans (cleanList key)
  := (cleans_remove key).bind (fun _ => cleans_remove (getExplireKey key))

theorem cleans_cleanPreffix (preffix key : Bytes) : Cleans (cleanPreffix preffix key)
  := by
  apply (cleans_remove key).bind
  intro _
  apply (cleans_remove (getExplireKey key)).bind
  refine fun _ => ⟨rfl, ?_⟩
  intro found _
  cases found with
  | none => exact rfl
  | some elems => exact ⟨rfl, fun _ _ => rfl⟩

/-! ### Each command -/

/-- What is done with the lock taken alone. -/
theorem underLock_exclusive {α : Type} {p : Redis α} (hp : p.NoLocks Possible) :
  (Redis.lock .exclusive >>= fun _ => p).UnderLock Disciplined Possible (fun _ _ => True) none
  := by
  have hunder : p.UnderLock Disciplined Possible (fun held _ => held = some .exclusive)
      (some .exclusive) :=
    .of_noLocks hp ((Program.allCalls_true p).mono (fun _ _ => trivial))
  exact hunder.mono (fun _ _ _ => trivial)

/-- The check of the expiry time keeps the lock shared, or releases it after the cleaning. -/
theorem underLock_expireClean {key : Bytes} {clean : Redis Unit} (hclean : Cleans clean) :
  (expireClean key clean).UnderLock Disciplined Possible
    (fun held expired => held = if expired then none else some .shared) (some .shared)
  := by
  refine ⟨rfl, ?_⟩
  intro expireQuery _
  have hexpired : (isExpired expireQuery).UnderLock Disciplined Possible
      (fun held _ => held = some .shared) (some .shared) := by
    cases expireQuery with
    | none => exact rfl
    | some text =>
        refine ⟨rfl, ?_⟩
        intro now _
        change Program.UnderLock _ _ _ _ (Program.bind (.done (stoll text)) _)
        cases stoll text with
        | error e => exact trivial
        | ok time => exact rfl
  apply hexpired.bind
  rintro _ expired rfl
  cases expired with
  | false => exact rfl
  | true =>
      have hcleaned : (clean >>= fun _ => Redis.unlock >>= fun _ => pure true).UnderLock
          Disciplined Possible (fun held expired => held = if expired then none else some .shared)
          (some .upgraded) := by
        apply Program.UnderLock.bind hclean
        rintro _ _ rfl
        exact rfl
      exact hcleaned

/-- A command on a key begins with the check of the expiry time. -/
theorem underLock_check {key : Bytes} {clean : Redis Unit} {f : Bool → Redis Bytes}
    (hclean : Cleans clean)
    (hf : ∀ expired, (f expired).UnderLock Disciplined Possible (fun _ _ => True)
      (if expired then none else some .shared)) :
  (Redis.lock .shared >>= fun _ => expireClean key clean >>= f).UnderLock Disciplined Possible
    (fun _ _ => True) none
  := by
  have hchecked : (expireClean key clean >>= f).UnderLock Disciplined Possible (fun _ _ => True)
      (some .shared) := by
    apply Program.UnderLock.bind (underLock_expireClean hclean)
    rintro _ expired rfl
    apply hf expired
  exact hchecked

/-- A command that stores data after the check of the expiry time. -/
theorem underLock_write {key : Bytes} {clean : Redis Unit} {p : Redis Bytes}
    (hclean : Cleans clean) (hp : p.NoLocks Possible) :
  (Redis.lock .shared >>= fun _ => expireClean key clean >>= fun expired =>
    if (!expired) = true then Redis.unlock >>= fun _ => Redis.lock .exclusive >>= fun _ => p
    else Redis.lock .exclusive >>= fun _ => p).UnderLock Disciplined Possible (fun _ _ => True)
      none
  := by
  apply underLock_check hclean
  intro expired
  cases expired with
  | false => exact underLock_exclusive hp
  | true => exact underLock_exclusive hp

theorem Command.underLock [Doubles] {c : Command} (h : c.isDisciplined = true) :
  c.program.UnderLock Disciplined Possible (fun _ _ => True) none
  := by
  cases c with
  | set key value =>
      apply underLock_exclusive
      intro _ _ expireQuery _
      change Program.NoLocks Possible (if expireQuery.isSome then _ else _)
      split
      · exact fun _ _ => trivial
      · trivial
  | hset key pairs =>
      cases pairs with
      | nil => trivial
      | cons p pairs =>
          rw [Command.program, hset_pairArgs _ _ (List.cons_ne_nil p pairs)]
          apply underLock_write (cleans_cleanHash key)
          intro value _
          change Program.NoLocks Possible (Program.bind (.done (getFiledsFromHashValue value)) _)
          cases getFiledsFromHashValue value with
          | error e => trivial
          | ok fieldList =>
              apply (noLocks_hsetFields key (p :: pairs) fieldList 0).bind
              exact fun _ _ _ => trivial
  | lpush key value => exact underLock_write (cleans_cleanList key) (fun _ _ _ _ => trivial)
  | zadd key pairs =>
      apply underLock_write (cleans_cleanPreffix _ key)
      intro present _
      apply (noLocks_zaddPairs key pairs _).bind
      exact fun batch _ _ _ _ => trivial
  | sadd key members =>
      apply underLock_write (cleans_cleanPreffix _ key)
      apply (noLocks_memberKeys false key members).bind
      intro newKeys keyQuery _
      change Program.NoLocks Possible (Program.bind (.done (changedSize _ keyQuery)) _)
      cases changedSize newKeys.length keyQuery with
      | error e => trivial
      | ok size => exact fun _ _ => trivial
  | srem key members =>
      apply underLock_check (cleans_cleanPreffix _ key)
      intro expired
      cases expired with
      | true => trivial
      | false =>
          apply underLock_exclusive
          apply (noLocks_memberKeys true key members).bind
          intro delKvs keyQuery _
          change Program.NoLocks Possible (Program.bind (.done (changedSize _ keyQuery)) _)
          cases changedSize (-delKvs.length) keyQuery with
          | error e => trivial
          | ok size => exact fun _ _ _ _ => trivial
  | _ => cases h

end RedisWrapper

end TinyLsm
