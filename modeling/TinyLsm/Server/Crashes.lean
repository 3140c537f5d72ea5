import TinyLsm.Server.Answerable

/-!
# Requests that are answered

A request is answered if it is rejected, or if it has arguments and its command returns.  The
parser keeps positions as `int`, so that in a request of `2 ^ 31` bytes or more it may fail, too.
-/

namespace TinyLsm

namespace RedisSession

open RedisWrapper Server

/-! ### Positions -/

/-- The position behind the next line feed can be counted. -/
def LineFits (request : Bytes) (pos : ℕ) : Prop := toInt (find request lineFeed pos) ≠ 2 ^ 31 - 1

/-- The position behind the next line feed, where it can be counted. -/
def lineEnd (request : Bytes) (pos : ℕ) : ℕ := toSizeT (toInt (find request lineFeed pos) + 1)

/-- The positions that the parser counts in the lines of an argument are those of the request. -/
def ArgFits (request : Bytes) (pos : ℕ) : Prop :=
  ∀ len, request[pos]? = some (byteOfChar '$') → stoi (request.drop (pos + 1)) = .ok len →
    LineFits request pos ∧ (toSizeT (lineEnd request pos + len) ≤ request.length →
      lineEnd request pos ≤ request.length ∧ LineFits request (lineEnd request pos))

/-- The positions fit in all rounds that the parser comes to. -/
def RoundsFit (request : Bytes) : ℕ → ℕ → Prop
  | 0, _ => True
  | rounds + 1, pos => ArgFits request pos ∧
      ∀ arg pos', readArg request pos = .ok (.ok (arg, pos')) → RoundsFit request rounds pos'

theorem afterLine_of_lineFits {request : Bytes} {pos : ℕ} (h : LineFits request pos) :
  afterLine request pos = .ok (lineEnd request pos)
  := by
  have hle := le_toInt (find request lineFeed pos)
  have hlt := toInt_lt (find request lineFeed pos)
  rw [LineFits] at h
  rw [afterLine, checkedSigned, if_pos ⟨by omega, by omega⟩]
  rfl

theorem afterLine_of_not_lineFits {request : Bytes} {pos : ℕ} (h : ¬ LineFits request pos) :
  afterLine request pos = .error .undefinedBehavior
  := by
  rw [LineFits, not_not] at h
  rw [afterLine, h]
  rfl

/-- The lines of an argument of a length are read. -/
theorem readLines_eq_ok_iff {request : Bytes} {pos : ℕ} {len : ℤ} :
  (∃ result, (do
      let pos ← afterLine request pos
      if request.length < toSizeT (pos + len) then
        return .error lengthExceeds
      let arg ← substrCount request pos (toSizeT len)
      let pos ← afterLine request pos
      return .ok (arg, pos) : Except Fault (Except Bytes (Bytes × ℕ))) = .ok result) ↔
    LineFits request pos ∧ (toSizeT (lineEnd request pos + len) ≤ request.length →
      lineEnd request pos ≤ request.length ∧ LineFits request (lineEnd request pos))
  := by
  by_cases hline : LineFits request pos
  · rw [Except.bind_eq_of_ok _ (afterLine_of_lineFits hline), and_iff_right hline]
    split
    next hexceeds =>
      exact iff_of_true ⟨_, rfl⟩ (fun hle => absurd hexceeds (not_lt_of_ge hle))
    next hlength =>
      rw [substrCount, substr, imp_iff_right (not_lt.mp hlength)]
      split
      next hlt =>
        apply iff_of_false
        · rintro ⟨result, h⟩
          cases h
        · exact fun h => absurd hlt (not_lt_of_ge h.1)
      next hle =>
        rw [Except.map, Except.bind_eq_of_ok _ rfl, and_iff_right (not_lt.mp hle)]
        by_cases hvalue : LineFits request (lineEnd request pos)
        · rw [Except.bind_eq_of_ok _ (afterLine_of_lineFits hvalue)]
          exact iff_of_true ⟨_, rfl⟩ hvalue
        · rw [afterLine_of_not_lineFits hvalue]
          apply iff_of_false _ hvalue
          rintro ⟨result, h⟩
          cases h
  · rw [afterLine_of_not_lineFits hline]
    apply iff_of_false _ (fun h => hline h.1)
    rintro ⟨result, h⟩
    cases h

theorem readArg_eq_ok_iff {request : Bytes} {pos : ℕ} :
  (∃ result, readArg request pos = .ok result) ↔ ArgFits request pos
  := by
  rw [readArg, ArgFits]
  split
  next hdollar => exact iff_of_true ⟨_, rfl⟩ (fun _ h => absurd h hdollar)
  next hdollar =>
    cases hread : stoi (request.drop (pos + 1)) with
    | error e => exact iff_of_true ⟨_, rfl⟩ (by rintro _ - ⟨⟩)
    | ok len =>
        simp only [imp_iff_right (not_not.mp hdollar), Except.ok.injEq, forall_eq']
        exact readLines_eq_ok_iff

theorem readArgs_eq_ok_iff {request : Bytes} :
  ∀ {rounds pos : ℕ}, (∃ result, readArgs request rounds pos = .ok result) ↔
    RoundsFit request rounds pos
  | 0, _ => iff_of_true ⟨_, rfl⟩ trivial
  | rounds + 1, pos => by
      rw [RoundsFit, ← readArg_eq_ok_iff, readArgs]
      cases hread : readArg request pos with
      | error e =>
          apply iff_of_false
          · rintro ⟨result, h⟩
            cases h
          · rintro ⟨⟨result, h⟩, -⟩
            cases h
      | ok result =>
          cases result with
          | error reply => exact iff_of_true ⟨_, rfl⟩ ⟨⟨_, rfl⟩, by rintro _ _ ⟨⟩⟩
          | ok found =>
              obtain ⟨arg, pos'⟩ := found
              rw [Except.bind_eq_of_ok _ rfl]
              dsimp only
              constructor
              · rintro ⟨result, h⟩
                obtain ⟨rest, hrest, -⟩ := Except.exists_of_bind_eq_ok h
                refine ⟨⟨_, rfl⟩, ?_⟩
                rintro _ _ ⟨rfl, rfl⟩
                exact readArgs_eq_ok_iff.mp ⟨rest, hrest⟩
              · rintro ⟨-, h⟩
                obtain ⟨rest, hrest⟩ := readArgs_eq_ok_iff.mpr (h arg pos' rfl)
                exact ⟨_, by rw [Except.bind_eq_of_ok _ hrest]; rfl⟩

/-- In a request of less than `2 ^ 31` bytes all positions fit. -/
theorem roundsFit_of_lt {request : Bytes} (hlt : request.length < 2 ^ 31) :
  ∀ (rounds pos : ℕ), RoundsFit request rounds pos
  | 0, _ => trivial
  | rounds + 1, pos => by
      have hfind : ∀ pos, LineFits request pos ∧ lineEnd request pos ≤ request.length := by
        intro pos
        rw [LineFits, lineEnd, find]
        cases hidx : (request.drop pos).idxOf? lineFeed with
        | none =>
            have hnpos : toInt npos = -1 := rfl
            dsimp only
            rw [hnpos]
            exact ⟨by decide, Nat.zero_le _⟩
        | some i =>
            have hi := (List.idxOf?_eq_some_iff.mp hidx).1
            rw [List.length_drop] at hi
            dsimp only
            rw [toInt_of_fits ⟨by omega, by omega⟩, toSizeT_of_nonneg (by omega) (by omega)]
            omega
      refine ⟨fun len _ _ => ?_, fun _ pos' _ => roundsFit_of_lt hlt rounds pos'⟩
      exact ⟨(hfind pos).1, fun _ => ⟨(hfind pos).2, (hfind _).1⟩⟩

/-! ### Requests -/

/-- A request with a number of arguments has at least one, its positions fit, and its command
returns, if it has one. -/
def Answered [Doubles] (request : Bytes) (w : World) : Prop :=
  ∀ numElements, stoi (request.drop 1) = .ok numElements →
    0 < numElements ∧
      RoundsFit request numElements.toNat (toSizeT (find request lineFeed 0 + 1)) ∧
      ∀ command rest c, parse request = .ok (.ok (command :: rest)) →
        (string2Ops command).command (command :: rest) = some c → Answerable w c

theorem returns_execute_iff [Doubles] {command : Bytes} {rest : List Bytes} {w : World} :
  Returns (execute (command :: rest)) w ↔
    ∀ c, (string2Ops command).command (command :: rest) = some c → Answerable w c
  := by
  change Returns ((string2Ops command).run (command :: rest)) w ↔ _
  by_cases hunknown : string2Ops command = .unknown
  · rw [hunknown]
    exact iff_of_true (returns_pure _) nofun
  · have hanswers := OPS.run_answers hunknown (command :: rest)
    cases hcommand : (string2Ops command).command (command :: rest) with
    | none =>
        rw [hcommand] at hanswers
        obtain ⟨reply, -, hrun⟩ := hanswers
        rw [hrun]
        exact iff_of_true (returns_pure _) nofun
    | some c =>
        rw [hcommand] at hanswers
        rw [hanswers, returns_program_iff]
        simp only [Option.some.injEq, forall_eq']

theorem length_of_readArgs {request : Bytes} :
  ∀ {rounds pos : ℕ} {args : List Bytes}, readArgs request rounds pos = .ok (.ok args) →
    args.length = rounds
  | 0, _, args, h => by
      obtain rfl := Except.ok.inj (Except.ok.inj h)
      rfl
  | rounds + 1, pos, args, h => by
      obtain ⟨found, -, h⟩ := Except.exists_of_bind_eq_ok h
      cases found with
      | error reply => cases h
      | ok found =>
          obtain ⟨result, hrest, h⟩ := Except.exists_of_bind_eq_ok h
          cases result with
          | error reply => cases h
          | ok rest =>
              obtain rfl := Except.ok.inj (Except.ok.inj h)
              rw [List.length_cons, length_of_readArgs hrest]

/-- What is done with a request that has been parsed. -/
def respond [Doubles] : Except Bytes (List Bytes) → Redis Bytes
  | .error reply => return reply
  | .ok args => execute args

/-- A request is answered if and only if it has no number of arguments or at least one argument, its
positions fit, and what its command reads can be read and what it computes fits. -/
theorem handleRequest_returns_iff [Doubles] (request : Bytes) (w : World) :
  (∃ reply, (Redis.run (handleRequest request) w).1 = .ok reply) ↔ Answered request w
  := by
  rw [← returns_iff, handleRequest, Answered]
  split
  next hempty =>
    rw [hempty]
    exact iff_of_true (returns_pure _) (by rintro _ ⟨⟩)
  next =>
    split
    next hping =>
      rw [hping]
      exact iff_of_true (returns_pure _) (by rintro _ ⟨⟩)
    next =>
      change Returns (.done (parse request) >>= respond) w ↔ _
      cases hread : stoi (request.drop 1) with
      | error e =>
          have hparse : parse request = .ok (.error invalidCount) := by rw [parse, hread]
          rw [hparse]
          exact iff_of_true (returns_pure _) (by rintro _ ⟨⟩)
      | ok numElements =>
          have hparse : parse request = readArgs request numElements.toNat
              (toSizeT (find request lineFeed 0 + 1)) := by rw [parse, hread]
          simp only [Except.ok.injEq, forall_eq']
          rw [hparse, ← readArgs_eq_ok_iff]
          cases hargs : readArgs request numElements.toNat
              (toSizeT (find request lineFeed 0 + 1)) with
          | error e =>
              apply iff_of_false (not_returns_bind_of_error (Redis.run_done _ _))
              rintro ⟨-, ⟨result, h⟩, -⟩
              cases h
          | ok result =>
              cases result with
              | error reply =>
                  have hpos : 0 < numElements := by
                    by_contra hnot
                    rw [Int.toNat_of_nonpos (not_lt.mp hnot)] at hargs
                    cases hargs
                  exact iff_of_true (returns_pure _) ⟨hpos, ⟨_, rfl⟩, by rintro _ _ _ ⟨⟩⟩
              | ok args =>
                  have hlength := length_of_readArgs hargs
                  cases args with
                  | nil =>
                      apply iff_of_false
                      · rintro ⟨reply, w', hrun⟩
                        cases hrun
                      · intro h
                        have hpos := h.1
                        rw [List.length_nil] at hlength
                        omega
                  | cons command rest =>
                      rw [returns_bind_of_ok (Redis.run_done _ _), respond, returns_execute_iff]
                      rw [List.length_cons] at hlength
                      constructor
                      · intro h
                        refine ⟨by omega, ⟨_, rfl⟩, ?_⟩
                        rintro _ _ c ⟨rfl, rfl⟩
                        exact h c
                      · exact fun h c => h.2.2 command rest c rfl

/-- An array without elements has no first one. -/
theorem not_handleRequest_returns :
  letI := Doubles.whole
  ¬ ∀ (request : Bytes) (now : ℤ) (lsm : LSM), Served lsm →
      ∃ reply, (Redis.run (handleRequest request) ⟨lsm, now⟩).1 = .ok reply
  := by
  let _ := Doubles.whole
  intro h
  obtain ⟨reply, hreply⟩ := h (bytes "*0\r\n") 0 .empty .start
  have hcrash : (Redis.run (handleRequest (bytes "*0\r\n")) ⟨.empty, 0⟩).1 =
      .error .undefinedBehavior := by
    decide +kernel
  rw [hcrash] at hreply
  cases hreply

end RedisSession

end TinyLsm
