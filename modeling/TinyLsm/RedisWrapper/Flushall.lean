import Mathlib.Data.List.Permutation
import TinyLsm.Library.Interleaving
import TinyLsm.RedisWrapper.Discipline
import TinyLsm.RedisWrapper.Lapsed

/-!
# FLUSHALL among other commands

Each call of a command is a step, and the commands of several clients take the lock in turn.
FLUSHALL takes no lock.  If it does not come in between the calls with which another command
changes the store, and the keys have not expired meanwhile, the commands leave what they leave
one after another, in some order.
-/

namespace TinyLsm

namespace RedisWrapper

open Program (ArrivesAt AtChange)

/-- FLUSHALL, and the commands that store data for a key after the check of its expiry time, or
remove members. -/
def Command.isMixed : Command → Bool
  | .flushall | .hset _ _ | .sadd _ _ | .srem _ _ | .zadd _ _ | .lpush _ _ => true
  | _ => false

/-- What a command has found of its key when it begins its changes is still so: the key is expired
if the command is about to remove its data, where nothing stored is as good for a command that
then stores data, and not expired if the command is about to store. -/
def Command.FindsAgain (c : Command) (now : ℤ) (held : Option LockMode) (lsm : LSM) : Prop :=
  ∀ key, c.keys = [key] →
    match held with
    | some .upgraded => Lapsed key ⟨lsm, now⟩ ∨ c.recreates = true ∧ Blank key lsm
    | some .exclusive => Unexpired key ⟨lsm, now⟩
    -- the check has failed
    | some .shared => ¬ Lapsed key ⟨lsm, now⟩ ∧ ¬ Unexpired key ⟨lsm, now⟩
    | none => True

/-- FLUSHALL changes everything, and the other commands what belongs to their key. -/
def Command.Owns (c : Command) (x : Bytes) : Prop :=
  c = .flushall ∨ ∃ key, c.keys = [key] ∧ Owned key x

/-- The calls that a command may make. -/
def Command.MayCall (c : Command) (call : Call) : Prop :=
  c = .flushall ∨ ∃ key, c.keys = [key] ∧ Within (Owned key) call

/-- A call by a clock that stands. -/
def answerAt (now : ℤ) (call : Call) (lsm : LSM) : call.Answer × LSM :=
  let outcome := World.answer call ⟨lsm, now⟩
  (outcome.1, outcome.2.lsm)

/-- By a clock that stands, programs run as in the world. -/
theorem run_answerAt {α : Type} (now : ℤ) (p : Redis α) (lsm : LSM) :
  Program.run (answerAt now) p lsm =
    ((Redis.run p ⟨lsm, now⟩).1, (Redis.run p ⟨lsm, now⟩).2.lsm)
  := by
  induction p generalizing lsm with
  | done result => rfl
  | lock mode next ih => apply ih
  | unlock next ih => apply ih
  | call call next ih =>
      have hworld : (World.answer call ⟨lsm, now⟩).2 = ⟨(answerAt now call lsm).2, now⟩ := by
        cases call with
        | _ => rfl
      rw [Program.run, ih, Redis.run, Redis.run, Program.run, hworld]
      rfl

/-! ### The check of the expiry time -/

section

variable {key : Bytes} {clean : Redis Unit} {f : Bool → Redis Bytes} {body : Redis Bytes}
  {T : Option LockMode → Redis Bytes → Prop}

/-- What a command does after it has found its key expired. -/
def afterLapsed (clean : Redis Unit) (f : Bool → Redis Bytes) : Redis Bytes :=
  (clean >>= fun _ => Redis.unlock >>= fun _ => pure true) >>= f

/-- A command with a check comes to the cleaning, or to what it does to a key that is not
expired, or fails. -/
theorem arrivesAt_check
    (hf : f false = Redis.unlock >>= fun _ => Redis.lock .exclusive >>= fun _ => body)
    (hclean : (afterLapsed clean f).AtChange (some .upgraded))
    (hbody : body.AtChange (some .exclusive))
    (hlapsed : T (some .upgraded) (afterLapsed clean f))
    (hunexpired : T (some .exclusive) body) (hfail : ∀ e, T (some .shared) (.done (.error e))) :
  (Redis.lock .shared >>= fun _ => expireClean key clean >>= f).ArrivesAt
    (fun call => call.isQuery = true) Possible T none
  := by
  have hfalse :
      (f false).ArrivesAt (fun call => call.isQuery = true) Possible T (some .shared) := by
    have harrives : body.ArrivesAt (fun call => call.isQuery = true) Possible T (some .exclusive) :=
      Program.arrivesAt_of_atChange hunexpired hbody
    rw [hf]
    exact harrives
  refine ⟨rfl, ?_⟩
  intro expireQuery _
  cases expireQuery with
  | none => exact hfalse
  | some text =>
      refine ⟨rfl, ?_⟩
      intro now _
      change ArrivesAt _ _ _ _ ((((.done (stoll text) : Redis ℤ) >>= fun time =>
        pure (decide (time < now))) >>= fun expired => if expired = true then
          Redis.unlock >>= fun _ => Redis.lock .upgraded >>= fun _ => clean >>= fun _ =>
            Redis.unlock >>= fun _ => pure true
        else pure false) >>= f)
      cases stoll text with
      | error e => exact hfail e
      | ok time =>
          change ArrivesAt _ _ _ _ ((if decide (time < now) = true then
            Redis.unlock >>= fun _ => Redis.lock .upgraded >>= fun _ => clean >>= fun _ =>
              Redis.unlock >>= fun _ => pure true
            else pure false) >>= f)
          split
          · have harrives : (afterLapsed clean f).ArrivesAt (fun call => call.isQuery = true)
                Possible T (some .upgraded) :=
              Program.arrivesAt_of_atChange hlapsed hclean
            exact harrives
          · exact hfalse

variable {w : World}

theorem run_check_of_lapsed (h : Lapsed key w) :
  Redis.run (Redis.lock .shared >>= fun _ => expireClean key clean >>= f) w =
    Redis.run (afterLapsed clean f) w
  := by
  have hclean : Program.run World.answer (expireClean key clean) w =
      Program.run World.answer (clean >>= fun _ => Redis.unlock >>= fun _ => pure true) w := by
    change Redis.run _ _ = Redis.run _ _
    rw [expireClean, Redis.run_get, Redis.run_bind_of_ok (run_isExpired_of_lapsed h), if_pos rfl,
      Redis.run_unlock, Redis.run_lock]
  rw [Redis.run_lock, afterLapsed, Redis.run, Redis.run, Program.run_bind, Program.run_bind, hclean]

theorem run_check_of_unexpired (h : Unexpired key w)
    (hf : f false = Redis.unlock >>= fun _ => Redis.lock .exclusive >>= fun _ => body) :
  Redis.run (Redis.lock .shared >>= fun _ => expireClean key clean >>= f) w = Redis.run body w
  := by
  rw [Redis.run_lock, Redis.run_bind_of_ok (run_expireClean_of_unexpired h _), hf, Redis.run_unlock,
    Redis.run_lock]

/-- The check fails if the expiry time cannot be read, and changes nothing. -/
theorem run_check_of_unreadable (hlapsed : ¬ Lapsed key w) (hunexpired : ¬ Unexpired key w) :
  (Redis.run (Redis.lock .shared >>= fun _ => expireClean key clean >>= f) w).2 = w
  := by
  obtain ⟨e, hclean⟩ := run_expireClean_of_unreadable hlapsed hunexpired clean
  rw [Redis.run_lock, Redis.run_bind_of_error hclean]

/-- The cleaning of a key for which nothing is stored changes nothing. -/
theorem run_clean_of_blank (hempties : Empties key clean w) (htouches : Touches (Owned key) clean)
    (h : Blank key w.lsm) :
  Redis.run clean w = (.ok (), w)
  := by
  obtain ⟨lsm, hrun, hblank⟩ := hempties
  have hsame : lsm = w.lsm := by
    apply LSM.ext_get
    intro x
    by_cases hx : Owned key x
    · rw [hblank x hx, h x hx]
    · have hget := htouches.get_run_of_not hx w
      rwa [hrun] at hget
  rw [hrun, hsame]

end

variable [Doubles] {c : Command}

/-- What a command comes to does the same as the command, as long as what it has found is so. -/
def Command.ComesTo (c : Command) (held : Option LockMode) (p : Redis Bytes) : Prop :=
  ∀ now lsm, c.FindsAgain now held lsm →
    (Redis.run p ⟨lsm, now⟩).2 = (Redis.run c.program ⟨lsm, now⟩).2

theorem Command.arrivesAt_of_check {key : Bytes} {clean : Redis Unit} {f : Bool → Redis Bytes}
    {body : Redis Bytes} (hkey : c.keys = [key])
    (hprogram : c.program = Redis.lock .shared >>= fun _ => expireClean key clean >>= f)
    (hf : f false = Redis.unlock >>= fun _ => Redis.lock .exclusive >>= fun _ => body)
    (hclean : (afterLapsed clean f).AtChange (some .upgraded))
    (hbody : body.AtChange (some .exclusive))
    (hrecreates : c.recreates = true → f true = (Redis.lock .exclusive >>= fun _ => body) ∧
      ∀ w, Blank key w.lsm → Redis.run clean w = (.ok (), w)) :
  c.program.ArrivesAt (fun call => call.isQuery = true) Possible c.ComesTo none
  := by
  rw [hprogram]
  apply arrivesAt_check hf hclean hbody
  · intro now lsm hfinds
    rw [hprogram]
    rcases hfinds key hkey with hlapsed | ⟨hcreates, hblank⟩
    · rw [run_check_of_lapsed hlapsed]
    · obtain ⟨htrue, hrun⟩ := hrecreates hcreates
      have hcleaned : Redis.run (clean >>= fun _ => Redis.unlock >>= fun _ => pure true)
          ⟨lsm, now⟩ = (.ok true, ⟨lsm, now⟩) := by
        rw [Redis.run_bind_of_ok (hrun ⟨lsm, now⟩ hblank)]
        rfl
      rw [run_check_of_unexpired (hblank.unexpired now) hf, afterLapsed,
        Redis.run_bind_of_ok hcleaned, htrue, Redis.run_lock]
  · intro now lsm hfinds
    rw [hprogram, run_check_of_unexpired (hfinds key hkey) hf]
  · intro e now lsm hfinds
    obtain ⟨hlapsed, hunexpired⟩ := hfinds key hkey
    rw [hprogram, run_check_of_unreadable hlapsed hunexpired]
    rfl

omit [Doubles] in
/-- A cleaning that removes all there is of a blank key. -/
theorem run_clean_of_empties {key : Bytes} {clean : Redis Unit}
    (hempties : ∀ w, Blank key w.lsm → Empties key clean w) (htouches : Touches (Owned key) clean)
    (w : World) (h : Blank key w.lsm) :
  Redis.run clean w = (.ok (), w)
  := run_clean_of_blank (hempties w h) htouches h

theorem Command.arrivesAt (h : c.isMixed = true) :
  c.program.ArrivesAt (fun call => call.isQuery = true) Possible c.ComesTo none
  := by
  have hlist : ∀ key, ∀ w, Blank key w.lsm → Redis.run (cleanList key) w = (.ok (), w) :=
    fun key => run_clean_of_empties (fun w hw => empties_cleanList (hw.storesOnly _))
      Touches.cleanList
  have hhash : ∀ key, ∀ w, Blank key w.lsm → Redis.run (cleanHash key) w = (.ok (), w) :=
    fun key => run_clean_of_empties (fun w hw => empties_cleanHash
      (by rw [hw key owned_key]; rfl) (hw.storesOnly _)) Touches.cleanHash
  have hzset : ∀ key, ∀ w, Blank key w.lsm → Redis.run (cleanZset key) w = (.ok (), w) :=
    fun key => run_clean_of_empties (fun w hw => empties_cleanPreffix (hw.storesOnly _))
      (Touches.cleanPreffix (fun _ => owned_of_zsetPreffix))
  have hset : ∀ key, ∀ w, Blank key w.lsm → Redis.run (cleanSet key) w = (.ok (), w) :=
    fun key => run_clean_of_empties (fun w hw => empties_cleanPreffix (hw.storesOnly _))
      (Touches.cleanPreffix (fun _ => owned_of_setPreffix))
  cases c with
  | flushall =>
      apply Program.arrivesAt_of_atChange
      · exact fun _ _ _ => rfl
      · exact nofun
  | lpush key value =>
      exact arrivesAt_of_check rfl rfl rfl nofun nofun (fun _ => ⟨rfl, hlist key⟩)
  | hset key pairs =>
      cases pairs with
      | nil =>
          apply Program.arrivesAt_of_atChange
          · exact fun _ _ _ => rfl
          · trivial
      | cons p pairs =>
          have hprogram := hset_pairArgs (bytes "hset") key (List.cons_ne_nil p pairs)
          exact arrivesAt_of_check rfl hprogram rfl nofun nofun (fun _ => ⟨rfl, hhash key⟩)
  | zadd key pairs => exact arrivesAt_of_check rfl rfl rfl nofun nofun (fun _ => ⟨rfl, hzset key⟩)
  | sadd key members =>
      refine arrivesAt_of_check rfl rfl rfl ?_ ?_ (fun _ => ⟨rfl, hset key⟩)
      · exact nofun
      · cases members with
        | nil => exact nofun
        | cons member members => exact nofun
  | srem key members =>
      refine arrivesAt_of_check rfl rfl rfl ?_ ?_ ?_
      · exact nofun
      · cases members with
        | nil => exact nofun
        | cons member members => exact nofun
      · exact nofun
  | _ => cases h

/-! ### The commands as threads -/

theorem Command.mayCall (h : c.isMixed = true) : c.program.AllCalls c.MayCall Possible
  := by
  by_cases hflush : c = .flushall
  · exact (Program.allCalls_true c.program).mono (fun _ _ => .inl hflush)
  · have hkey : ∃ key, c.keys = [key] := by
      cases c with
      | flushall => exact absurd rfl hflush
      | hset k pairs | sadd k members | srem k members | zadd k pairs | lpush k value =>
          exact ⟨k, rfl⟩
      | _ => cases h
    obtain ⟨key, hkey⟩ := hkey
    have htouches : Touches (Owned key) c.program := by
      apply Command.touches hflush
      rw [hkey]
      exact fun k hk => List.mem_singleton.mp hk
    exact htouches.allCalls.mono (fun _ hcall => .inr ⟨key, hkey, hcall⟩)

/-- Requests, each by a clock of its own, as threads. -/
def mixedThreads {ι : Type} (requests : ι → ℤ × Command)
    (hmixed : ∀ i, (requests i).2.isMixed = true) :
    Threads ι Call Call.Answer Fault Bytes LSM Bytes (Option Bytes) where
  program i := (requests i).2.program
  answer i := answerAt (requests i).1
  view := LSM.get
  own i := (requests i).2.Owns
  within i := (requests i).2.MayCall
  query call := call.isQuery = true
  possible := Possible
  arrives i := (requests i).2.ComesTo
  ready i := (requests i).2.FindsAgain (requests i).1
  eq_of_view := LSM.ext_get
  possible_answer i call lsm := possible_answer call ⟨lsm, (requests i).1⟩
  answer_query := by
    intro i call hquery lsm
    cases call with
    | get _ | itersMonotonyPredicate _ | now => rfl
    | _ => cases hquery
  view_answer := by
    rintro i call (hflush | ⟨key, hkey, hcall⟩) lsm x hx
    · exact absurd (.inl hflush) hx
    · exact get_answer_of_not hcall (fun howned => hx (.inr ⟨key, hkey, howned⟩))
  answer_congr := by
    rintro i call (hflush | ⟨key, hkey, hcall⟩) lsm lsm' hsame
    · rw [LSM.ext_get (fun x => hsame x (.inl hflush))]
      exact ⟨rfl, fun _ _ => rfl⟩
    · have hworlds : AgreeOn (Owned key) ⟨lsm, (requests i).1⟩ ⟨lsm', (requests i).1⟩ :=
        ⟨rfl, fun x hx => hsame x (.inr ⟨key, hkey, hx⟩)⟩
      obtain ⟨hanswer, hagree⟩ := answer_congr hcall hworlds
      refine ⟨hanswer, ?_⟩
      rintro x (hflush | ⟨key', hkey', hx⟩)
      · rw [hflush] at hkey
        cases hkey
      · obtain rfl := (List.cons.inj (hkey.symm.trans hkey')).1
        exact hagree.get x hx
  program_within i := Command.mayCall (hmixed i)
  program_arrives i := Command.arrivesAt (hmixed i)
  run_of_ready := by
    intro i held p lsm harrives hready
    rw [run_answerAt, run_answerAt, harrives _ lsm hready]

/-- What commands leave that are executed one after another. -/
def executed {ι : Type} (requests : ι → ℤ × Command) (order : List ι) (lsm : LSM) : LSM :=
  order.foldl (fun lsm i => ((requests i).2.exec (requests i).1 lsm).2) lsm

theorem serial_mixedThreads {ι : Type} {requests : ι → ℤ × Command}
    (hmixed : ∀ i, (requests i).2.isMixed = true) (order : List ι) (lsm : LSM) :
  (mixedThreads requests hmixed).serial order lsm = executed requests order lsm
  := by
  have hexec : (fun lsm i => (mixedThreads requests hmixed).exec i lsm) =
      fun lsm i => ((requests i).2.exec (requests i).1 lsm).2 := by
    funext lsm i
    change (Program.run (answerAt (requests i).1) (requests i).2.program lsm).2 = _
    rw [run_answerAt]
    rfl
  rw [Threads.serial, executed, hexec]

/-- Let FLUSHALL, HSET, SADD, SREM, ZADD and LPUSH of several clients be executed call by call.  If
each command still finds of its key what it has found when it begins its changes, no command
shares storage with one that has cleaned its key and is not done, and FLUSHALL is not executed
while another command is in the middle of its changes, then the store in the end is the one that
the same commands leave one after another, in some order. -/
theorem executed_of_reached {ι : Type} [Fintype ι] [DecidableEq ι] {requests : ι → ℤ × Command}
    (hmixed : ∀ i, (requests i).2.isMixed = true) {lsm : LSM}
    {s : Threads.State ι Call Call.Answer Fault Bytes LSM}
    (h : Transition.Reached (mixedThreads requests hmixed).step
      ((mixedThreads requests hmixed).start lsm) (mixedThreads requests hmixed).Orderly s)
    (hover : s.Over) :
  ∃ order : List ι, order.Nodup ∧ (∀ i, i ∈ order) ∧ s.store = executed requests order lsm
  := by
  obtain ⟨order, hnodup, hall, hstore⟩ := Threads.serial_of_reached h hover
  refine ⟨order, hnodup, hall, ?_⟩
  rw [hstore, serial_mixedThreads]

omit [Doubles] in
/-- FLUSHALL comes in between the check of an LPUSH and what it stores. -/
theorem executed_of_lpush :
  letI := Doubles.whole
  let requests : Bool → ℤ × Command
    | true => (0, .lpush (bytes "k") (bytes "a"))
    | false => (0, .flushall)
  ∃ order : List Bool, order.Nodup ∧ (∀ i, i ∈ order) ∧
    (executed requests order .empty).get (bytes "k") = some (bytes "a")
  := by
  let _ := Doubles.whole
  intro requests
  have hmixed : ∀ i, (requests i).2.isMixed = true := by decide
  -- each begins its changes by itself, and nothing is stored that expires
  have hrun : ∃ s, Transition.run (mixedThreads requests (by decide)).step
      (fun s i => s.begun i = true ∨ ¬ (s.rest i).AtChange (s.held i) ∨
        (∀ j, j ≠ i → ¬ s.InProgress j) ∧ (s.held i = none ∨ s.held i = some .exclusive) ∧
          s.store.get (getExplireKey (bytes "k")) = none)
      ((mixedThreads requests (by decide)).start .empty)
      [true, true, false, true, true, true, true] = some s ∧ s.Over ∧
      s.store.get (bytes "k") = some (bytes "a") := by
    decide +kernel
  obtain ⟨s, hrun, hover, hget⟩ := hrun
  have hreached : Transition.Reached (mixedThreads requests hmixed).step
      ((mixedThreads requests hmixed).start .empty) (mixedThreads requests hmixed).Orderly s := by
    apply (Transition.reached_of_run hrun).mono
    rintro s i (hbegun | hnot | ⟨halone, hheld, hexpire⟩) hfalse hchange
    · exact absurd (hbegun.symm.trans hfalse) Bool.noConfusion
    · exact absurd hchange hnot
    · refine ⟨?_, fun j hj hprogress => absurd hprogress (halone j hj)⟩
      intro key hkey
      cases i with
      | true =>
          obtain rfl := (List.cons.inj hkey).1
          rcases hheld with hheld | hheld
          · rw [hheld]
            trivial
          · rw [hheld]
            exact .inl hexpire
      | false => cases hkey
  obtain ⟨order, hnodup, hall, hstore⟩ := executed_of_reached hmixed hreached hover
  exact ⟨order, hnodup, hall, hstore ▸ hget⟩

omit [Doubles] in
/-- FLUSHALL comes in between the value of a field and the list of the fields. -/
theorem not_executed_of_hset :
  letI := Doubles.whole
  let requests : Bool → ℤ × Command
    | true => (0, .hset (bytes "k") [(bytes "f", bytes "v")])
    | false => (0, .flushall)
  ∃ s, Transition.Reached (mixedThreads requests (by decide)).step
      ((mixedThreads requests (by decide)).start .empty) (fun _ _ => True) s ∧ s.Over ∧
    ¬ ∃ order : List Bool, order.Nodup ∧ (∀ i, i ∈ order) ∧
      s.store = executed requests order .empty
  := by
  let _ := Doubles.whole
  intro requests
  have hrun : ∃ s, Transition.run (mixedThreads requests (by decide)).step (fun _ _ => True)
      ((mixedThreads requests (by decide)).start .empty)
      [true, true, true, true, true, true, false, true] = some s ∧ s.Over ∧
      s.store.get (bytes "k") ≠ none ∧
      s.store.get (getHashFiledKey (bytes "k") (bytes "f")) = none := by
    decide +kernel
  have hfirst : (executed requests [true, false] .empty).get (bytes "k") = none := by
    decide +kernel
  have hlast : (executed requests [false, true] .empty).get
      (getHashFiledKey (bytes "k") (bytes "f")) ≠ none := by
    decide +kernel
  obtain ⟨s, hrun, hover, hkey, hfield⟩ := hrun
  refine ⟨s, Transition.reached_of_run hrun, hover, ?_⟩
  rintro ⟨order, hnodup, hall, hstore⟩
  have hperm : order.Perm [true, false] :=
    (List.perm_ext_iff_of_nodup hnodup (by decide)).mpr
      (fun i => iff_of_true (hall i) (by cases i <;> decide))
  rcases List.perm_pair.mp hperm with rfl | rfl
  · exact hkey (hstore ▸ hfirst)
  · exact hlast (hstore ▸ hfield)

end RedisWrapper

end TinyLsm
