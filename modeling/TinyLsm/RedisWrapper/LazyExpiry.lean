import TinyLsm.RedisWrapper.Discipline
import TinyLsm.RedisWrapper.Expiry

/-!
# Cleaning an expired key among other clients

A command that finds its key expired releases the lock before it takes the lock alone in order to
remove the data.  What another client stores in between is removed, too.

Each section of a command, from where it takes the lock to where it takes the lock again or is
done, is one step.
-/

namespace TinyLsm

namespace RedisWrapper

open Transition (Reached)

namespace Command

/-- The key of a command that stores new data. -/
def storesFor : Command → Option Bytes
  | set key _ | lpush key _ | hset key _ | sadd key _ | zadd key _ => some key
  | _ => none

/-- The key of a command whose section comes upon data that has expired. -/
def foundExpired (c : Command) (w : World) : Option Bytes :=
  match c, c.keys with
  | get key, _ => if Lapsed key w ∧ (w.lsm.get key).isSome then some key else none
  | _, [key] => if Lapsed key w then some key else none
  | _, _ => none

end Command

/-- A client that executes a command: what the command goes on with, and the key that it has found
expired and is about to clean. -/
structure Client where
  command : Command
  rest : Redis Bytes
  found : Option Bytes

abbrev CommandSection := Program.Section Call Call.Answer Fault Bytes World

/-- What an acknowledged command has stored for a key without an expiry time. -/
def acknowledged (c : Command) (later : CommandSection) : List (Bytes × Bytes) :=
  match c.storesFor, later.rest with
  | some key, .done (.ok _) =>
      if later.state.lsm.get (getExplireKey key) = none then
        (later.calls.flatMap Call.storedKeys).map (fun x => (key, x))
      else []
  | _, _ => []

/-- The clients, and for each of them what others have stored and acknowledged since its last
section: the key that was named, and the key that it is stored under. -/
structure Server (ι : Type) where
  lsm : LSM
  clients : ι → Option Client
  newer : ι → List (Bytes × Bytes)

inductive Event (ι : Type) where
  | request (i : ι) (c : Command)
  | advance (i : ι) (now : ℤ)

namespace Client

/-- The section that comes next. -/
def nextSection (client : Client) (w : World) : CommandSection :=
  client.rest.runSection World.answer w

/-- The client after a section, if it is not done. -/
def after (client : Client) (w : World) : Option Client :=
  match (client.nextSection w).rest with
  | .done _ => none
  | rest => some {
      command := client.command
      rest := rest
      found := if rest.nextMode = some .upgraded then client.command.foundExpired w else none }

end Client

namespace Server

variable {ι : Type} [DecidableEq ι]

omit [DecidableEq ι] in
def start (lsm : LSM) : Server ι := ⟨lsm, fun _ => none, fun _ => []⟩

/-- The server after a request of a client that waits. -/
def requested [Doubles] (s : Server ι) (i : ι) (c : Command) : Server ι where
  lsm := s.lsm
  clients := Function.update s.clients i (some ⟨c, c.program, none⟩)
  newer := s.newer

/-- The server after the next section of a client. -/
def advanced (s : Server ι) (i : ι) (client : Client) (now : ℤ) : Server ι where
  lsm := (client.nextSection ⟨s.lsm, now⟩).state.lsm
  clients := Function.update s.clients i (client.after ⟨s.lsm, now⟩)
  newer := fun j =>
    if j = i then [] else acknowledged client.command (client.nextSection ⟨s.lsm, now⟩) ++ s.newer j

/-- A client that waits sends a request, and others go on with theirs. -/
def step [Doubles] (s : Server ι) : Event ι → Option (Server ι)
  | .request i c =>
      match s.clients i with
      | none => some (s.requested i c)
      | some _ => none
  | .advance i now => (s.clients i).map (fun client => s.advanced i client now)

theorem advanced_clients_self (s : Server ι) (i : ι) (client : Client) (now : ℤ) :
  (s.advanced i client now).clients i = client.after ⟨s.lsm, now⟩
  := Function.update_self _ _ _

theorem advanced_clients_of_ne (s : Server ι) {i j : ι} (h : j ≠ i) (client : Client) (now : ℤ) :
  (s.advanced i client now).clients j = s.clients j
  := Function.update_of_ne h _ _

theorem advanced_newer_self (s : Server ι) (i : ι) (client : Client) (now : ℤ) :
  (s.advanced i client now).newer i = []
  := if_pos rfl

theorem advanced_newer_of_ne (s : Server ι) {i j : ι} (h : j ≠ i) (client : Client) (now : ℤ) :
  (s.advanced i client now).newer j =
    acknowledged client.command (client.nextSection ⟨s.lsm, now⟩) ++ s.newer j
  := if_neg h

theorem requested_clients_self [Doubles] (s : Server ι) (i : ι) (c : Command) :
  (s.requested i c).clients i = some ⟨c, c.program, none⟩
  := Function.update_self _ _ _

theorem requested_clients_of_ne [Doubles] (s : Server ι) {i j : ι} (h : j ≠ i) (c : Command) :
  (s.requested i c).clients j = s.clients j
  := Function.update_of_ne h _ _

/-- A client that has found a key expired does not remove what others have stored and acknowledged
since, for keys without an expiry time. -/
def KeepsNewer (s : Server ι) (i : ι) (now : ℤ) : Prop :=
  ∀ client key, s.clients i = some client → client.found = some key →
    ∀ p ∈ s.newer i, s.lsm.get (getExplireKey p.1) = none → s.lsm.get p.2 ≠ none →
      (s.advanced i client now).lsm.get p.2 ≠ none

/-- No command stores data for a key while another client is about to clean a key that shares
storage with it. -/
def MissesGap (s : Server ι) : Event ι → Prop
  | .request _ _ => True
  | .advance i _ => ∀ client key, s.clients i = some client →
      client.rest.nextMode = some .exclusive → client.command.storesFor = some key →
      ∀ j ≠ i, ∀ other found, s.clients j = some other → other.found = some found →
        SharesNothing found key

end Server

/-! ### What is stored in the gap -/

/-- A client touches what belongs to its key, and has found no key expired for which something has
been stored since. -/
structure Client.Sound (newer : List (Bytes × Bytes)) (client : Client) : Prop where
  touches : ∀ key, client.command.keys = [key] → Touches (Owned key) client.rest
  underLock : client.command.storesFor.isSome = true →
    client.rest.UnderLock Disciplined Possible (fun _ _ => True) none
  keys : ∀ key, client.found = some key → client.command.keys = [key]
  newer : ∀ key, client.found = some key → ∀ p ∈ newer, ¬ Owned key p.2

variable {ι : Type} [DecidableEq ι] {key : Bytes} {c : Command} {w : World}

theorem Command.keys_of_foundExpired (h : c.foundExpired w = some key) : c.keys = [key]
  := by
  rw [foundExpired.eq_def] at h
  split at h
  next k _ _ =>
    split at h
    next => rw [← Option.some.inj h, keys]
    next => cases h
  next _ k hk =>
    split at h
    next => rw [← Option.some.inj h, hk]
    next => cases h
  next => cases h

theorem Command.keys_of_storesFor (h : c.storesFor = some key) : c.keys = [key]
  := by
  cases c with
  | set k value | lpush k value | hset k pairs | sadd k members | zadd k pairs =>
      rw [← Option.some.inj h, keys]
  | _ => cases h

theorem Command.isDisciplined_of_storesFor (h : c.storesFor.isSome = true) :
  c.isDisciplined = true
  := by
  cases c with
  | set k value | lpush k value | hset k pairs | sadd k members | zadd k pairs => rfl
  | _ => cases h

theorem Disciplined.storedKeys_eq_nil {held : Option LockMode} {call : Call}
    (h : Disciplined held call) (hheld : held ≠ some .exclusive) :
  call.storedKeys = []
  := by
  match held, h with
  | some .exclusive, _ => exact absurd rfl hheld
  | some .upgraded, h => exact h
  | some .shared, h =>
      cases call with
      | get _ | itersMonotonyPredicate _ | now => rfl
      | _ => cases h

/-- What a command has stored belongs to its key, and it has stored it with the lock taken
alone. -/
theorem Client.Sound.of_mem_acknowledged {newer : List (Bytes × Bytes)} {client : Client}
    (h : client.Sound newer) {p : Bytes × Bytes}
    (hp : p ∈ acknowledged client.command (client.nextSection w)) :
  client.command.storesFor = some p.1 ∧ client.rest.nextMode = some .exclusive ∧ Owned p.1 p.2
  := by
  rw [acknowledged.eq_def] at hp
  split at hp
  next key _ hstores _ =>
    split at hp
    next =>
      obtain ⟨x, hx, rfl⟩ := List.mem_map.mp hp
      obtain ⟨call, hcall, hx⟩ := List.mem_flatMap.mp hx
      refine ⟨hstores, ?_, ?_⟩
      · by_contra hmode
        obtain ⟨hcalls, -⟩ := Program.UnderLock.runSection possible_answer
          (h.underLock (hstores ▸ rfl)) w
        have hnil : call.storedKeys = [] := by
          rcases hcalls call hcall with hallowed | hallowed
          · exact hallowed.storedKeys_eq_nil hmode
          · cases hallowed
        rw [hnil] at hx
        cases hx
      · have htouches := (h.touches key (Command.keys_of_storesFor hstores)).allCalls
        obtain ⟨hcalls, -⟩ := Program.AllCalls.runSection possible_answer htouches w
        have hwithin := hcalls call hcall
        cases call with
        | put k value =>
            rw [List.mem_singleton.mp hx]
            apply hwithin
        | putBatch kvs =>
            obtain ⟨kv, hkv, rfl⟩ := List.mem_map.mp hx
            apply hwithin kv hkv
        | _ => cases hx
    next => cases hp
  next => cases hp

/-- A section of a client leaves what does not belong to its key. -/
theorem Client.Sound.get_nextSection {newer : List (Bytes × Bytes)} {client : Client}
    (h : client.Sound newer) (hkeys : client.command.keys = [key]) {x : Bytes} (hx : ¬ Owned key x) :
  (client.nextSection w).state.lsm.get x = w.lsm.get x
  := by
  apply Program.AllCalls.runSection_keeps possible_answer
    (I := fun w' => w'.lsm.get x = w.lsm.get x) _ (h.touches key hkeys).allCalls rfl
  intro call hcall w' hw'
  rw [get_answer_of_not hcall hx, hw']

theorem Client.Sound.after {newer : List (Bytes × Bytes)} {client client' : Client}
    (h : client.Sound newer) (hafter : client.after w = some client') :
  client'.Sound []
  := by
  rw [Client.after] at hafter
  split at hafter
  next => cases hafter
  next =>
    obtain rfl := Option.some.inj hafter
    constructor
    · intro key hkeys
      exact ⟨(Program.AllCalls.runSection possible_answer (h.touches key hkeys).allCalls w).2⟩
    · intro hstores
      exact (Program.UnderLock.runSection possible_answer (h.underLock hstores) w).2
    · intro key hfound
      dsimp only at hfound
      split at hfound
      next => exact Command.keys_of_foundExpired hfound
      next => cases hfound
    · exact fun _ _ => nofun

/-- All clients of a server are sound. -/
def Server.Sound (s : Server ι) : Prop :=
  ∀ i client, s.clients i = some client → client.Sound (s.newer i)

theorem Server.Sound.step [Doubles] {s s' : Server ι} {e : Event ι} (h : s.Sound)
    (hmisses : s.MissesGap e) (hstep : s.step e = some s') :
  s'.Sound
  := by
  intro j client' hclient'
  cases e with
  | request i c =>
      rw [Server.step] at hstep
      split at hstep
      next =>
        obtain rfl := Option.some.inj hstep
        by_cases hj : j = i
        · subst hj
          rw [Server.requested_clients_self] at hclient'
          obtain rfl := Option.some.inj hclient'
          constructor
          · intro key hkeys
            apply Command.touches
            · rintro rfl
              cases hkeys
            · rw [hkeys]
              exact fun k hk => List.mem_singleton.mp hk
          · exact fun hstores => Command.underLock (Command.isDisciplined_of_storesFor hstores)
          · exact nofun
          · exact nofun
        · rw [Server.requested_clients_of_ne s hj] at hclient'
          apply h j client' hclient'
      next => cases hstep
  | advance i now =>
      obtain ⟨client, hclient, rfl⟩ := Option.map_eq_some_iff.mp hstep
      by_cases hj : j = i
      · subst hj
        rw [Server.advanced_clients_self] at hclient'
        rw [Server.advanced_newer_self]
        apply (h j client hclient).after hclient'
      · rw [Server.advanced_clients_of_ne s hj] at hclient'
        have hsound := h j client' hclient'
        refine ⟨hsound.touches, hsound.underLock, hsound.keys, ?_⟩
        intro found hfound p hp
        rw [Server.advanced_newer_of_ne s hj] at hp
        rcases List.mem_append.mp hp with hp | hp
        · obtain ⟨hstores, hmode, howned⟩ := (h i client hclient).of_mem_acknowledged hp
          exact hmisses client p.1 hclient hmode hstores j hj client' found hclient' hfound p.2
            howned
        · apply hsound.newer found hfound p hp

/-- In every run of several clients, section by section, in which no command stores data for a
key while another client is about to clean the key, no cleaning removes what has been stored and
acknowledged since the client found the key expired. -/
theorem keepsNewer_of_reached [Doubles] {lsm : LSM} {s : Server ι}
    (h : Reached Server.step (Server.start lsm) Server.MissesGap s) (i : ι) (now : ℤ) :
  s.KeepsNewer i now
  := by
  have hsound : s.Sound := by
    apply h.invariant
    · exact nofun
    · exact fun _ hs hmisses hstep => hs.step hmisses hstep
  intro client key hclient hfound p hp _ hlive
  have hclean := hsound i client hclient
  have hget := hclean.get_nextSection (w := ⟨s.lsm, now⟩) (hclean.keys key hfound)
    (hclean.newer key hfound p hp)
  rw [Server.advanced]
  dsimp only
  rw [hget]
  apply hlive

omit [DecidableEq ι] in
/-- Another key is set in the gap. -/
theorem keepsNewer_of_other_key :
  letI := Doubles.whole
  ∃ s : Server Bool, (bytes "j", bytes "j") ∈ s.newer true ∧
    (∃ client, s.clients true = some client ∧ client.found = some (bytes "k")) ∧
    s.KeepsNewer true 100
  := by
  let _ := Doubles.whole
  let lsm := ((Command.expire (bytes "k") (bytes "10")).exec 0
    ((Command.set (bytes "k") (bytes "v")).exec 0 .empty).2).2
  let getClient : Client := ⟨.get (bytes "k"), Command.program (.get (bytes "k")), none⟩
  let setClient : Client :=
    ⟨.set (bytes "j") (bytes "w"), Command.program (.set (bytes "j") (bytes "w")), none⟩
  let s₁ : Server Bool := (Server.start lsm).requested true (.get (bytes "k"))
  let s₂ := (s₁.advanced true getClient 100).requested false (.set (bytes "j") (bytes "w"))
  have hfound : ∃ client, s₂.clients true = some client ∧ client.found = some (bytes "k") := by
    decide +kernel
  have hget : s₁.MissesGap (.advance true 100) := by
    intro client key hclient hmode
    obtain rfl := Option.some.inj (hclient : some getClient = some client)
    cases hmode
  have hset : s₂.MissesGap (.advance false 100) := by
    intro client key hclient _ hstores j hj other found hother hfound'
    obtain rfl := Option.some.inj (hclient : some setClient = some client)
    obtain rfl := Option.some.inj (hstores : some (bytes "j") = some key)
    obtain rfl : j = true := by simpa using hj
    obtain ⟨client', hclient', hfound⟩ := hfound
    obtain rfl := Option.some.inj (hclient'.symm.trans hother)
    obtain rfl := Option.some.inj (hfound.symm.trans hfound')
    exact sharesNothing_of_not_prefix (by decide) (by decide) (by decide) (by decide) (by decide)
  have hreached : Reached Server.step (Server.start lsm) Server.MissesGap
      (s₂.advanced false setClient 100) :=
    .step (a := .advance false 100) (.step (a := .request false (.set (bytes "j") (bytes "w")))
      (.step (a := .advance true 100) (.step (a := .request true (.get (bytes "k"))) .start
        trivial rfl) hget rfl) trivial rfl) hset rfl
  refine ⟨s₂.advanced false setClient 100, by decide +kernel, ?_, keepsNewer_of_reached hreached _ _⟩
  rw [Server.advanced_clients_of_ne s₂ (by decide)]
  exact hfound

omit [DecidableEq ι] in
/-- A value that is removed from under a client that has stored it. -/
theorem not_keepsNewer_of_set :
  letI := Doubles.whole
  ∃ s : Server Bool,
    Reached Server.step (Server.start .empty) (fun _ _ => True) s ∧ ¬ s.KeepsNewer true 100
  := by
  let _ := Doubles.whole
  have hrun : ∃ s : Server Bool, Transition.run Server.step (fun _ _ => True) (Server.start .empty)
      [.request false (.set (bytes "k") (bytes "v")), .advance false 0,
        .request false (.expire (bytes "k") (bytes "10")), .advance false 0,
        .request true (.get (bytes "k")), .advance true 100,
        .request false (.set (bytes "k") (bytes "w")), .advance false 100] = some s ∧
      s.lsm.get (getExplireKey (bytes "k")) = none ∧ s.lsm.get (bytes "k") ≠ none ∧
      (bytes "k", bytes "k") ∈ s.newer true ∧
      ∃ client, s.clients true = some client ∧ client.found = some (bytes "k") ∧
        (s.advanced true client 100).lsm.get (bytes "k") = none := by
    decide +kernel
  obtain ⟨s, hrun, hexpire, hlive, hnewer, client, hclient, hfound, hnone⟩ := hrun
  refine ⟨s, Transition.reached_of_run hrun, ?_⟩
  exact fun h => h client (bytes "k") hclient hfound _ hnewer hexpire hlive hnone

end RedisWrapper

end TinyLsm
