import TinyLsm.RedisWrapper.Keyspace
import TinyLsm.Server.Session

/-!
# Streams of requests

The session passes a request on with another line end on each of its lines, and the parser takes
the arguments out again.  So requests that come on a connection are answered as if they were
executed one after another, up to one that ends the server: as by a keyspace, if they name its
commands.
-/

namespace TinyLsm

namespace RedisSession

open RedisWrapper Server Segments Replies

/-- Execute a request, by a clock. -/
def executeAt [Doubles] (request : ℤ × List Bytes) (lsm : LSM) : Except Fault Bytes × LSM :=
  let outcome := Redis.run (execute request.2) ⟨lsm, request.1⟩
  (outcome.1, outcome.2.lsm)

/-- Requests that the parser reads back. -/
def Readable (requests : List (List Bytes)) : Prop :=
  ∀ request ∈ requests, (relayed request).length < 2 ^ 31 ∧ ∀ arg ∈ request, lineFeed ∉ arg

instance (requests : List (List Bytes)) : Decidable (Readable requests) :=
  inferInstanceAs (Decidable (∀ request ∈ requests, _ ∧ _))

/-! ### A request -/

theorem two_mul_length_lt {args : List Bytes} (h : (relayed args).length < 2 ^ 31) :
  2 * args.length < 2 ^ 31
  := by
  have hle := length_le_length_flatMap_bulkLines [byteOfChar '\r', byteOfChar '\r'] args
  rw [relayed, arrayLines, List.length_append, List.length_cons] at h
  omega

/-- A request that is passed on is executed with the arguments that were sent. -/
theorem handleRequest_relayed [Doubles] {args : List Bytes} (h : (relayed args).length < 2 ^ 31)
    (hargs : ∀ arg ∈ args, lineFeed ∉ arg) :
  handleRequest (relayed args) = execute args
  := by
  have hends : ∀ b ∈ [byteOfChar '\r', byteOfChar '\r'], b = byteOfChar '\r' := by simp
  have hparse : parse (relayed args) = .ok (.ok args) := parse_arrayLines_eq hends h hargs
  have hhead : (relayed args).head? = some (byteOfChar '*') := rfl
  have hne : relayed args ≠ [] := by
    intro hnil
    rw [hnil] at hhead
    cases hhead
  have hping : relayed args ≠ bytes "PING\r\n" := by
    intro hping
    rw [hping] at hhead
    exact absurd hhead (by decide)
  rw [handleRequest, if_neg hne, if_neg hping, hparse]
  rfl

section

variable [Doubles] {clock : ℕ → ℤ}

/-- A read of a request executes it. -/
theorem onRead_arrayReply {args : List Bytes} (h : (relayed args).length < 2 ^ 31)
    (hargs : ∀ arg ∈ args, lineFeed ∉ arg) (s : LSM × ℕ) (rest : Bytes) :
  onRead clock s (arrayReply args ++ rest) =
    (executeAt (clock s.2, args) s.1).1.toOption.map (fun reply =>
      (reply, ((executeAt (clock s.2, args) s.1).2, s.2 + 1), rest))
  := by
  rw [onRead, takeRequest_arrayReply (two_mul_length_lt h) hargs]
  dsimp only
  rw [handleRequest_relayed h hargs, executeAt]
  cases Redis.run (execute args) ⟨s.1, clock s.2⟩ with
  | mk result w => cases result <;> rfl

/-- The requests that are pending are answered as if they were executed one after another. -/
theorem Pending.replies_eq :
  ∀ {requests : List (List Bytes)} {c : Connection Byte (LSM × ℕ)}, Pending requests c →
    Readable requests →
    (reader clock).replies c =
      answered (Replies.replies executeAt (stamped clock c.state.2 requests) c.state.1)
  | [], c, h, _ => by
      have hread : (reader clock).read c = none := by
        cases hread : (reader clock).read c with
        | none => rfl
        | some p =>
            obtain ⟨buffer, hreceive, -⟩ := Reader.read_eq_some hread
            obtain ⟨request, later, rest, hrequests, -⟩ := h.buffer_eq hreceive
            cases hrequests
      rw [Reader.replies_eq_nil hread]
      rfl
  | request :: requests, c, h, hreadable => by
      obtain ⟨hlength, hargs⟩ := hreadable request List.mem_cons_self
      cases hreceive : (reader clock).receive c.buffer c.segments with
      | none =>
          -- the bytes of the request would have been waited for
          refine absurd ?_ (Reader.not_ready_of_receive_eq_none hreceive)
          change crlf <:+: c.stream
          rw [h.2.1, List.flatMap_cons, arrayReply, announcedReply, List.append_assoc (_ ++ crlf)]
          apply List.infix_append
      | some p =>
          obtain ⟨_, _, rest, hrequests, hbuffer, hlater⟩ := h.buffer_eq hreceive
          cases hrequests
          have hstep : (reader clock).step c.state p.1 = _ :=
            hbuffer ▸ onRead_arrayReply hlength hargs c.state rest
          have hread := Reader.read_of_receive hreceive
          rw [hstep] at hread
          rw [stamped, Replies.replies]
          cases hexecute : (executeAt (clock c.state.2, request) c.state.1).1 with
          | error e =>
              rw [hexecute] at hread
              rw [Reader.replies_eq_nil hread]
              rfl
          | ok reply =>
              rw [hexecute] at hread
              have hpending :=
                hlater ((executeAt (clock c.state.2, request) c.state.1).2, c.state.2 + 1)
              have hreplies := hpending.replies_eq (fun request' hmem =>
                hreadable request' (List.mem_cons_of_mem request hmem))
              rw [Reader.replies_eq_cons hread, hreplies]
              rfl

end

/-- Requests are pending on a connection that gives them, if no segment ends within one of them,
behind its first line. -/
theorem pending_connection (lsm : LSM) {requests : List (List Bytes)}
    (hreadable : Readable requests) {segments : List Bytes}
    (hsegments : segments.flatten = requests.flatMap arrayReply)
    (hunbroken : Unbroken requests segments) :
  Pending requests (connection lsm segments)
  := by
  refine ⟨?_, hsegments, ?_⟩
  · intro request hmem
    obtain ⟨hlength, hargs⟩ := hreadable request hmem
    exact ⟨two_mul_length_lt hlength, hargs⟩
  · intro received hreceived
    exact hunbroken received ((List.mem_inits _ _).mpr hreceived)

/-- The arguments name a request: its operation, in letters of either case, and what it takes. -/
def Names (args : List Bytes) (c : KeyspaceCommand) : Prop :=
  ∃ name ∈ args.head?, (string2Ops name).command args = some c.command

theorem executeAt_of_names [Doubles] {args : List Bytes} {c : KeyspaceCommand} (h : Names args c)
    (now : ℤ) :
  executeAt (now, args) = KeyspaceCommand.exec (now, c)
  := by
  obtain ⟨name, hname, hcommand⟩ := h
  cases args with
  | nil => cases hname
  | cons first args =>
      obtain rfl := Option.some.inj hname
      have hknown : string2Ops first ≠ .unknown := by
        intro hunknown
        rw [hunknown] at hcommand
        cases hcommand
      have hanswers := OPS.run_answers hknown (first :: args)
      rw [hcommand] at hanswers
      have hexecute : execute (first :: args) = c.command.program := hanswers
      funext lsm
      rw [executeAt, hexecute]
      rfl

end RedisSession

end TinyLsm
