import TinyLsm.Server.Handler

/-!
# Programs that return

A program returns if it has a result, run on its own.  A command that checks the expiry time of its
key first returns if the expiry time can be read, and it returns from the cleaned store if the key
is expired, and from the same store if not.
-/

namespace TinyLsm

namespace Server

open RedisWrapper TomlConfig

/-! ### Programs that return -/

/-- The program returns, run on its own. -/
def Returns {α : Type} (p : Redis α) (w : World) : Prop := ∃ a w', Redis.run p w = (.ok a, w')

section

variable {α β : Type} {p : Redis α} {f : α → Redis β} {w w' : World}

@[simp]
theorem returns_pure (a : α) : Returns (pure a : Redis α) w
  := ⟨a, w, rfl⟩

@[simp]
theorem returns_lock {q : Unit → Redis β} (mode : LockMode) :
  Returns (Redis.lock mode >>= q) w ↔ Returns (q ()) w
  := Iff.rfl

@[simp]
theorem returns_unlock {q : Unit → Redis β} : Returns (Redis.unlock >>= q) w ↔ Returns (q ()) w
  := Iff.rfl

@[simp]
theorem returns_get {q : Option Bytes → Redis β} (key : Bytes) :
  Returns (Redis.get key >>= q) w ↔ Returns (q (w.lsm.get key)) w
  := Iff.rfl

@[simp]
theorem returns_put {q : Unit → Redis β} (key value : Bytes) :
  Returns (Redis.put key value >>= q) w ↔ Returns (q ()) { w with lsm := w.lsm.put key value }
  := Iff.rfl

@[simp]
theorem returns_remove {q : Unit → Redis β} (key : Bytes) :
  Returns (Redis.remove key >>= q) w ↔ Returns (q ()) { w with lsm := w.lsm.remove key }
  := Iff.rfl

@[simp]
theorem returns_query {q : Option (List (Bytes × Bytes)) → Redis β} (predicate : Bytes → ℤ) :
  Returns (Redis.itersMonotonyPredicate predicate >>= q) w ↔
    Returns (q (w.lsm.itersMonotonyPredicate predicate)) w
  := Iff.rfl

@[simp]
theorem returns_now {q : ℤ → Redis β} : Returns (Redis.now >>= q) w ↔ Returns (q w.now) w
  := Iff.rfl

theorem returns_bind_of_ok {a : α} (h : Redis.run p w = (.ok a, w')) :
  Returns (p >>= f) w ↔ Returns (f a) w'
  := by
  rw [Returns, Redis.run_bind_of_ok h]
  rfl

theorem not_returns_bind_of_error {e : Fault} (h : Redis.run p w = (.error e, w')) :
  ¬ Returns (p >>= f) w
  := by
  rintro ⟨b, w'', hrun⟩
  rw [Redis.run_bind_of_error h] at hrun
  cases hrun

theorem returns_done_iff {result : Except Fault α} :
  Returns (.done result : Redis α) w ↔ ∃ a, result = .ok a
  := by
  constructor
  · rintro ⟨a, w', hrun⟩
    exact ⟨a, congrArg Prod.fst hrun⟩
  · rintro ⟨a, rfl⟩
    apply returns_pure

/-- A program that goes on with a result returns if there is one, and it returns from there. -/
theorem returns_done_bind_iff {result : Except Fault α} :
  Returns (.done result >>= f) w ↔ ∃ a, result = .ok a ∧ Returns (f a) w
  := by
  cases result with
  | error e =>
      apply iff_of_false (not_returns_bind_of_error (Redis.run_done _ _))
      rintro ⟨a, h, -⟩
      cases h
  | ok a =>
      rw [returns_bind_of_ok (Redis.run_done _ _)]
      constructor
      · exact fun h => ⟨a, rfl, h⟩
      · rintro ⟨a', h, hreturns⟩
        obtain rfl := Except.ok.inj h
        exact hreturns

theorem returns_iff : Returns p w ↔ ∃ a, (Redis.run p w).1 = .ok a
  := by
  constructor
  · rintro ⟨a, w', hrun⟩
    exact ⟨a, by rw [hrun]⟩
  · rintro ⟨a, h⟩
    exact ⟨a, (Redis.run p w).2, by rw [← h]⟩

end

/-! ### The check of the expiry time -/

/-- The expiry time of a key, if there is one, is a number. -/
def ReadableExpiry (key : Bytes) (w : World) : Prop :=
  ∀ text, w.lsm.get (getExplireKey key) = some text → ∃ time, stoll text = .ok time

theorem readableExpiry_iff {key : Bytes} {w : World} :
  ReadableExpiry key w ↔ Lapsed key w ∨ Unexpired key w
  := by
  constructor
  · intro h
    cases hget : w.lsm.get (getExplireKey key) with
    | none => exact .inr (.inl hget)
    | some text =>
        obtain ⟨time, hread⟩ := h text hget
        by_cases hlt : time < w.now
        · exact .inl ⟨text, time, hget, hread, hlt⟩
        · exact .inr (.inr ⟨text, time, hget, hread, not_lt.mp hlt⟩)
  · rintro (⟨text, time, hget, hread, -⟩ | hnone | ⟨text, time, hget, hread, -⟩) text' hget'
    · exact ⟨time, Option.some.inj (hget.symm.trans hget') ▸ hread⟩
    · rw [hnone] at hget'
      cases hget'
    · exact ⟨time, Option.some.inj (hget.symm.trans hget') ▸ hread⟩

section

variable {key : Bytes} {clean : Redis Unit} {f : Bool → Redis Bytes} {w : World}

/-- A command with a check returns if the expiry time can be read, and it returns from the cleaned
store if the key is expired, and from the same store if not. -/
theorem returns_check_iff :
  Returns (Redis.lock .shared >>= fun _ => expireClean key clean >>= f) w ↔
    ReadableExpiry key w ∧
      (Lapsed key w → ∃ w', Redis.run clean w = (.ok (), w') ∧ Returns (f true) w') ∧
      (Unexpired key w → Returns (f false) w)
  := by
  have hlock : Returns (Redis.lock .shared >>= fun _ => expireClean key clean >>= f) w ↔
      Returns (expireClean key clean >>= f) w := Iff.rfl
  rw [hlock, readableExpiry_iff]
  by_cases hunexpired : Unexpired key w
  · rw [returns_bind_of_ok (run_expireClean_of_unexpired hunexpired clean)]
    constructor
    · exact fun h => ⟨.inr hunexpired, fun hlapsed => absurd hunexpired hlapsed.not_unexpired,
        fun _ => h⟩
    · exact fun h => h.2.2 hunexpired
  · by_cases hlapsed : Lapsed key w
    · cases hrun : Redis.run clean w with
      | mk result w' =>
          cases result with
          | ok _ =>
              rw [returns_bind_of_ok (run_expireClean_of_lapsed hlapsed hrun)]
              constructor
              · exact fun h => ⟨.inl hlapsed, fun _ => ⟨w', rfl, h⟩,
                  fun h' => absurd h' hunexpired⟩
              · rintro ⟨-, h, -⟩
                obtain ⟨w'', heq, hreturns⟩ := h hlapsed
                obtain rfl := (Prod.mk.inj heq).2
                exact hreturns
          | error e =>
              have hclean : Redis.run (expireClean key clean) w = (.error e, w') := by
                rw [expireClean, Redis.run_get,
                  Redis.run_bind_of_ok (run_isExpired_of_lapsed hlapsed), if_pos rfl,
                  Redis.run_unlock, Redis.run_lock, Redis.run_bind_of_error hrun]
              apply iff_of_false (not_returns_bind_of_error hclean)
              rintro ⟨-, h, -⟩
              obtain ⟨w'', heq, -⟩ := h hlapsed
              cases heq
    · obtain ⟨e, hclean⟩ := run_expireClean_of_unreadable hlapsed hunexpired clean
      apply iff_of_false (not_returns_bind_of_error hclean)
      exact fun h => h.1.elim hlapsed hunexpired

variable {p : Redis Bytes} (hp : p = Redis.lock .shared >>= fun _ => expireClean key clean >>= f)
  (hclean : ∀ w, ∃ w', Redis.run clean w = (.ok (), w'))

include hp hclean

/-- A command with a cleaning that returns, and that returns after it. -/
theorem returns_cleaning_iff (htrue : ∀ w, Returns (f true) w) :
  Returns p w ↔ ReadableExpiry key w ∧ (Unexpired key w → Returns (f false) w)
  := by
  rw [hp, returns_check_iff]
  constructor
  · exact fun h => ⟨h.1, h.2.2⟩
  · intro h
    refine ⟨h.1, fun _ => ?_, h.2⟩
    obtain ⟨w', hrun⟩ := hclean w
    exact ⟨w', hrun, htrue w'⟩

/-- A command that needs nothing but an expiry time that can be read. -/
theorem returns_iff_readableExpiry (htrue : ∀ w, Returns (f true) w)
    (hfalse : ∀ w, Returns (f false) w) :
  Returns p w ↔ ReadableExpiry key w
  := by
  rw [returns_cleaning_iff hp hclean htrue]
  exact and_iff_left (fun _ => hfalse w)

end

theorem run_cleanList_eq_ok (key : Bytes) (w : World) :
  ∃ w', Redis.run (cleanList key) w = (.ok (), w')
  := ⟨_, run_cleanList key w⟩

theorem run_cleanZset_eq_ok (key : Bytes) (w : World) :
  ∃ w', Redis.run (cleanZset key) w = (.ok (), w')
  := by
  obtain ⟨lsm, hrun, -⟩ := run_cleanPreffix (getZsetKeyPreffix key) key w
  exact ⟨_, hrun⟩

theorem run_cleanSet_eq_ok (key : Bytes) (w : World) :
  ∃ w', Redis.run (cleanSet key) w = (.ok (), w')
  := by
  obtain ⟨lsm, hrun, -⟩ := run_cleanPreffix (getSetKeyPreffix key) key w
  exact ⟨_, hrun⟩

end Server

end TinyLsm
