import TinyLsm.Library.Segments
import TinyLsm.Server.Handler

/-!
# Sessions

A read completes once the buffer contains a line end.  The session then takes the first line, and
twice as many lines as it announces elements.  It rejects a request of which lines are missing,
instead of waiting for them.
-/

namespace TinyLsm

namespace RedisSession

open RedisWrapper Server Segments

def partialRequest : Bytes := protocolError "partial request received"

/-! ### Taking lines -/

/-- `std::getline`: the line without its line feed, and what is behind it. -/
def takeLine (buffer : Bytes) : Bytes × Bytes :=
  (buffer.takeWhile (fun b => decide (b ≠ lineFeed)),
    (buffer.dropWhile (fun b => decide (b ≠ lineFeed))).tail)

/-- The number of lines that the first line announces, or the reply to it. -/
def readHeader (requestLine : Bytes) : Except Fault (Except Bytes ℕ) :=
  if requestLine = bytes "PING\r\n" then .ok (.error pongReply)
  else if requestLine.length < 2 ∨ requestLine[0]? ≠ some (byteOfChar '*') then
    .ok (.error expectedArray)
  else
    match stoi (requestLine.drop 1) with
    | .error _ => .ok (.error invalidCount)
    | .ok numElements => (checkedSigned 32 (numElements * 2)).map (fun lines => .ok lines.toNat)

/-- The loop over the other lines, with the number of rounds left: the request or the reply to a
part of it, and the rest of the buffer. -/
def takeLines : ℕ → Bytes → Bytes → Except Bytes Bytes × Bytes
  | 0, fullRequest, buffer => (.ok fullRequest, buffer)
  | rounds + 1, fullRequest, buffer =>
      if buffer = [] then (.error partialRequest, buffer)
      else takeLines rounds (fullRequest ++ (takeLine buffer).1 ++ crlf) (takeLine buffer).2

/-- The request at the front of the buffer, or the reply without one, and the rest. -/
def takeRequest (buffer : Bytes) : Except Fault (Except Bytes Bytes × Bytes) := do
  match ← readHeader ((takeLine buffer).1 ++ crlf) with
  | .error reply => return (.error reply, (takeLine buffer).2)
  | .ok lines => return takeLines lines ((takeLine buffer).1 ++ crlf) (takeLine buffer).2

/-- The number of lines that a read takes. -/
def linesTaken (buffer : Bytes) : ℕ :=
  match readHeader ((takeLine buffer).1 ++ crlf) with
  | .ok (.ok lines) => lines + 1
  | _ => 1

/-! ### Reads -/

/-- The reply to what is at the front of the buffer, the store and the number of handled requests
after it, and the rest of the buffer, unless the request ends the server. -/
def onRead [Doubles] (clock : ℕ → ℤ) (s : LSM × ℕ) (buffer : Bytes) :
  Option (Bytes × (LSM × ℕ) × Bytes) :=
  match takeRequest buffer with
  | .error _ => none
  | .ok (.error reply, rest) => some (reply, s, rest)
  | .ok (.ok request, rest) =>
      match Redis.run (handleRequest request) ⟨s.1, clock s.2⟩ with
      | (.error _, _) => none
      | (.ok reply, w) => some (reply, (w.lsm, s.2 + 1), rest)

/-! ### Lines of the buffer -/

theorem takeLine_append_cons {line : Bytes} (hline : lineFeed ∉ line) (rest : Bytes) :
  takeLine (line ++ lineFeed :: rest) = (line, rest)
  := by
  have hall : ∀ b ∈ line, decide (b ≠ lineFeed) = true := by
    intro b hb
    exact decide_eq_true (fun heq => hline (heq ▸ hb))
  rw [takeLine, List.takeWhile_append_of_pos hall, List.dropWhile_append_of_pos hall,
    List.takeWhile_cons_of_neg (by simp), List.dropWhile_cons_of_neg (by simp), List.append_nil,
    List.tail_cons]

/-- A buffer with a line feed has a first line. -/
theorem eq_takeLine_append {buffer : Bytes} (h : lineFeed ∈ buffer) :
  buffer = (takeLine buffer).1 ++ lineFeed :: (takeLine buffer).2 ∧
    lineFeed ∉ (takeLine buffer).1
  := by
  obtain ⟨line, rest, heq, hline⟩ := List.eq_append_cons_of_mem h
  rw [heq, takeLine_append_cons hline]
  exact ⟨rfl, hline⟩

theorem takeLine_append {buffer : Bytes} (h : lineFeed ∈ buffer) (more : Bytes) :
  takeLine (buffer ++ more) = ((takeLine buffer).1, (takeLine buffer).2 ++ more)
  := by
  obtain ⟨heq, hline⟩ := eq_takeLine_append h
  conv_lhs => rw [heq, List.append_assoc, List.cons_append]
  apply takeLine_append_cons hline

theorem count_takeLine {buffer : Bytes} (h : lineFeed ∈ buffer) :
  (takeLine buffer).2.count lineFeed + 1 = buffer.count lineFeed
  := by
  obtain ⟨heq, hline⟩ := eq_takeLine_append h
  conv_rhs => rw [heq, List.count_append, List.count_eq_zero.mpr hline, List.count_cons_self]
  omega

theorem length_takeLine_lt {buffer : Bytes} (h : lineFeed ∈ buffer) :
  (takeLine buffer).2.length < buffer.length
  := by
  obtain ⟨heq, -⟩ := eq_takeLine_append h
  conv_rhs => rw [heq, List.length_append, List.length_cons]
  omega

/-- What is left of whole lines is whole lines. -/
theorem getLast?_takeLine {buffer : Bytes} (h : buffer.getLast? = some lineFeed) :
  (takeLine buffer).2 = [] ∨ (takeLine buffer).2.getLast? = some lineFeed
  := by
  obtain ⟨heq, -⟩ := eq_takeLine_append (List.mem_of_getLast? h)
  by_cases hrest : (takeLine buffer).2 = []
  · exact .inl hrest
  · right
    rw [heq, List.getLast?_append, List.getLast?_cons_of_ne_nil hrest,
      List.getLast?_eq_some_getLast hrest, Option.some_or] at h
    rw [List.getLast?_eq_some_getLast hrest, h]

/-- The loop takes no more than the lines it needs. -/
theorem takeLines_append (more : Bytes) :
  ∀ {rounds : ℕ} (fullRequest : Bytes) {buffer : Bytes}, rounds ≤ buffer.count lineFeed →
    takeLines rounds fullRequest (buffer ++ more) =
      ((takeLines rounds fullRequest buffer).1, (takeLines rounds fullRequest buffer).2 ++ more)
  | 0, _, _, _ => rfl
  | rounds + 1, fullRequest, buffer, hle => by
      have hmem : lineFeed ∈ buffer := List.count_pos_iff.mp (by omega)
      have hne : buffer ≠ [] := List.ne_nil_of_mem hmem
      have hcount := count_takeLine hmem
      rw [takeLines, takeLines, if_neg (List.append_ne_nil_of_left_ne_nil hne more), if_neg hne,
        takeLine_append hmem, takeLines_append more _ (by omega)]

/-- The loop rejects whole lines that are too few. -/
theorem takeLines_of_count_lt :
  ∀ {rounds : ℕ} (fullRequest : Bytes) {buffer : Bytes}, buffer.count lineFeed < rounds →
    buffer = [] ∨ buffer.getLast? = some lineFeed →
    takeLines rounds fullRequest buffer = (.error partialRequest, [])
  | rounds + 1, fullRequest, buffer, hlt, hlines => by
      rw [takeLines]
      split
      next hnil => rw [hnil]
      next hne =>
        have hlast := hlines.resolve_left hne
        have hcount := count_takeLine (List.mem_of_getLast? hlast)
        exact takeLines_of_count_lt _ (by omega) (getLast?_takeLine hlast)

theorem length_takeLines_le :
  ∀ (rounds : ℕ) (fullRequest buffer : Bytes),
    (takeLines rounds fullRequest buffer).2.length ≤ buffer.length
  | 0, _, _ => Nat.le_refl _
  | rounds + 1, fullRequest, buffer => by
      rw [takeLines]
      split
      next => exact Nat.le_refl _
      next =>
        have hle := length_takeLines_le rounds (fullRequest ++ (takeLine buffer).1 ++ crlf)
          (takeLine buffer).2
        have hdrop : (takeLine buffer).2.length ≤ buffer.length := by
          rw [takeLine, List.length_tail]
          have hsub := (buffer.dropWhile_sublist (fun b => decide (b ≠ lineFeed))).length_le
          omega
        omega

/-! ### Requests of the buffer -/

/-- A read that finds the lines it takes leaves what is behind them. -/
theorem takeRequest_append {buffer : Bytes} (h : linesTaken buffer ≤ buffer.count lineFeed)
    (more : Bytes) :
  takeRequest (buffer ++ more) =
    (takeRequest buffer).map (fun result => (result.1, result.2 ++ more))
  := by
  have hpos : 0 < linesTaken buffer := by
    rw [linesTaken]
    split <;> omega
  have hmem : lineFeed ∈ buffer := List.count_pos_iff.mp (by omega)
  have hcount := count_takeLine hmem
  rw [takeRequest, takeRequest, takeLine_append hmem]
  rw [linesTaken] at h
  revert h
  cases readHeader ((takeLine buffer).1 ++ crlf) with
  | error e => exact fun _ => rfl
  | ok header =>
      cases header with
      | error reply => exact fun _ => rfl
      | ok lines =>
          intro h
          have hle : lines ≤ (takeLine buffer).2.count lineFeed := by
            dsimp only at h
            omega
          change Except.ok _ = Except.ok _
          rw [takeLines_append more _ hle]

/-- A read that finds whole lines, but too few of them, rejects them. -/
theorem takeRequest_of_count_lt {buffer : Bytes} (hlines : buffer.getLast? = some lineFeed)
    (hlt : buffer.count lineFeed < linesTaken buffer) :
  takeRequest buffer = .ok (.error partialRequest, [])
  := by
  have hmem := List.mem_of_getLast? hlines
  have hcount := count_takeLine hmem
  rw [takeRequest]
  rw [linesTaken] at hlt
  revert hlt
  cases readHeader ((takeLine buffer).1 ++ crlf) with
  | error e =>
      intro hlt
      dsimp only at hlt
      omega
  | ok header =>
      cases header with
      | error reply =>
          intro hlt
          dsimp only at hlt
          omega
      | ok lines =>
          intro hlt
          have hfew : (takeLine buffer).2.count lineFeed < lines := by
            dsimp only at hlt
            omega
          change Except.ok _ = Except.ok _
          rw [takeLines_of_count_lt _ hfew (getLast?_takeLine hlines)]

theorem length_takeRequest_lt {buffer rest : Bytes} {request : Except Bytes Bytes}
    (hmem : lineFeed ∈ buffer) (h : takeRequest buffer = .ok (request, rest)) :
  rest.length < buffer.length
  := by
  have hlt := length_takeLine_lt hmem
  rw [takeRequest] at h
  revert h
  cases readHeader ((takeLine buffer).1 ++ crlf) with
  | error e => exact nofun
  | ok header =>
      cases header with
      | error reply =>
          intro h
          cases h
          exact hlt
      | ok lines =>
          intro h
          have hle := length_takeLines_le lines ((takeLine buffer).1 ++ crlf) (takeLine buffer).2
          have hrest : (takeLines lines ((takeLine buffer).1 ++ crlf) (takeLine buffer).2).2 =
              rest := congrArg Prod.snd (Except.ok.inj h)
          rw [← hrest]
          omega

theorem lineFeed_mem_of_crlf {buffer : Bytes} (h : crlf <:+: buffer) :
  lineFeed ∈ buffer
  := h.subset (by decide)

/-! ### Connections -/

section

variable [Doubles] (clock : ℕ → ℤ)

theorem length_onRead_lt {s s' : LSM × ℕ} {buffer rest reply : Bytes} (h : crlf <:+: buffer)
    (hread : onRead clock s buffer = some (reply, s', rest)) :
  rest.length < buffer.length
  := by
  rw [onRead] at hread
  split at hread
  next => cases hread
  next htake =>
    cases hread
    exact length_takeRequest_lt (lineFeed_mem_of_crlf h) htake
  next htake =>
    split at hread
    next => cases hread
    next =>
      cases hread
      exact length_takeRequest_lt (lineFeed_mem_of_crlf h) htake

/-- The session reads until the buffer contains a line end. -/
def reader : Reader Byte (LSM × ℕ) Bytes where
  ready buffer := crlf <:+: buffer
  decidableReady := inferInstance
  step := onRead clock
  ready_append more h := h.trans (List.infix_append' [] _ more)
  length_lt := length_onRead_lt clock

/-- A connection of which the bytes come in segments. -/
def connection (lsm : LSM) (segments : List Bytes) : Connection Byte (LSM × ℕ) :=
  ⟨(lsm, 0), [], segments⟩

/-- The replies on a connection. -/
def replies (lsm : LSM) (segments : List Bytes) : List Bytes :=
  (reader clock).replies (connection lsm segments)

/-- Every read that completes finds the lines that it takes. -/
def Complete (lsm : LSM) (segments : List Bytes) : Prop :=
  (reader clock).AtReads (fun _ buffer => linesTaken buffer ≤ buffer.count lineFeed)
    (connection lsm segments)

variable {clock}

theorem settled_of_linesTaken_le {s : LSM × ℕ} {buffer : Bytes}
    (h : linesTaken buffer ≤ buffer.count lineFeed) :
  (reader clock).Settled s buffer
  := by
  intro more
  change onRead clock s (buffer ++ more) = (onRead clock s buffer).map _
  rw [onRead, onRead, takeRequest_append h]
  cases takeRequest buffer with
  | error e => rfl
  | ok result =>
      obtain ⟨request, rest⟩ := result
      cases request with
      | error reply => rfl
      | ok request =>
          change (match Redis.run (handleRequest request) ⟨s.1, clock s.2⟩ with
            | (.error _, _) => none
            | (.ok reply, w) => some (reply, (w.lsm, s.2 + 1), rest ++ more)) = Option.map _
              (match Redis.run (handleRequest request) ⟨s.1, clock s.2⟩ with
              | (.error _, _) => none
              | (.ok reply, w) => some (reply, (w.lsm, s.2 + 1), rest))
          cases Redis.run (handleRequest request) ⟨s.1, clock s.2⟩ with
          | mk result w => cases result <;> rfl

end

/-! ### Requests without line feeds -/

/-- A position in the bytes of requests is within one of them, behind its first line. -/
def Within : List (List Bytes) → ℕ → Prop
  | [], _ => False
  | request :: requests, pos =>
      if pos < (arrayReply request).length then (announcement "*" request.length).length < pos
      else Within requests (pos - (arrayReply request).length)

instance decidableWithin : ∀ requests pos, Decidable (Within requests pos)
  | [], _ => inferInstanceAs (Decidable False)
  | request :: requests, pos =>
      if h : pos < (arrayReply request).length then
        decidable_of_iff ((announcement "*" request.length).length < pos) (by rw [Within, if_pos h])
      else
        haveI := decidableWithin requests (pos - (arrayReply request).length)
        decidable_of_iff (Within requests (pos - (arrayReply request).length))
          (by rw [Within, if_neg h])

/-- A request as it is handled: `std::getline` keeps the carriage returns, and the session adds a
line end to each line. -/
def relayed (args : List Bytes) : Bytes := arrayLines [byteOfChar '\r', byteOfChar '\r'] args

/-- The line of a value that is taken is the value. -/
theorem takeLines_bulkReply {arg : Bytes} (harg : lineFeed ∉ arg) (rounds : ℕ)
    (fullRequest rest : Bytes) :
  takeLines (rounds + 2) fullRequest (bulkReply arg ++ rest) =
    takeLines rounds (fullRequest ++ bulkLines [byteOfChar '\r', byteOfChar '\r'] arg) rest
  := by
  have hvalue : arg ++ crlf ++ rest = (arg ++ [byteOfChar '\r']) ++ lineFeed :: rest := by
    rw [List.append_assoc, List.append_assoc]
    rfl
  have hline : lineFeed ∉ arg ++ [byteOfChar '\r'] := by
    intro hmem
    rcases List.mem_append.mp hmem with hmem | hmem
    · exact harg hmem
    · exact absurd hmem (by decide)
  have hfull : fullRequest ++ announcement "$" arg.length ++ crlf ++
      (arg ++ [byteOfChar '\r']) ++ crlf =
      fullRequest ++ bulkLines [byteOfChar '\r', byteOfChar '\r'] arg := by
    simp only [announcement, bulkLines, List.append_assoc]
    rfl
  rw [bulkReply_eq, List.append_assoc, List.cons_append, hvalue, takeLines, if_neg (by simp),
    takeLine_append_cons (lineFeed_notMem_announcement (by decide) _), takeLines,
    if_neg (by simp), takeLine_append_cons hline, hfull]

theorem takeLines_flatMap_bulkReply :
  ∀ {args : List Bytes}, (∀ arg ∈ args, lineFeed ∉ arg) → ∀ (fullRequest rest : Bytes),
    takeLines (2 * args.length) fullRequest (args.flatMap bulkReply ++ rest) =
      (.ok (fullRequest ++ args.flatMap (bulkLines [byteOfChar '\r', byteOfChar '\r'])), rest)
  | [], _, fullRequest, rest => by
      rw [List.flatMap_nil, List.flatMap_nil, List.append_nil]
      rfl
  | arg :: args, hargs, fullRequest, rest => by
      rw [List.flatMap_cons, List.flatMap_cons, List.append_assoc, List.length_cons, Nat.mul_succ,
        takeLines_bulkReply (hargs arg List.mem_cons_self), takeLines_flatMap_bulkReply
          (fun arg' hmem => hargs arg' (List.mem_cons_of_mem arg hmem)), List.append_assoc]

theorem readHeader_announcement {n : ℕ} (hn : 2 * n < 2 ^ 31) :
  readHeader (announcement "*" n ++ crlf) = .ok (.ok (2 * n))
  := by
  have heq : announcement "*" n ++ crlf =
      bytes "*" ++ (natDecimal n ++ (byteOfChar '\r' :: crlf)) := by
    rw [announcement, List.append_assoc, List.append_assoc]
    rfl
  have hread : stoi ((announcement "*" n ++ crlf).drop 1) = .ok n := by
    rw [heq]
    apply stoi_natDecimal_append (by omega)
    intro b hb
    obtain rfl := Option.some.inj hb
    decide
  have hhead : (announcement "*" n ++ crlf)[0]? = some (byteOfChar '*') := by
    rw [heq]
    rfl
  have hping : announcement "*" n ++ crlf ≠ bytes "PING\r\n" := by
    intro hping
    rw [hping] at hhead
    exact absurd hhead (by decide)
  have hlength : ¬ (announcement "*" n ++ crlf).length < 2 := by
    have hcrlf : crlf.length = 2 := by decide
    rw [List.length_append]
    omega
  rw [readHeader, if_neg hping, if_neg (not_or.mpr ⟨hlength, not_not.mpr hhead⟩), hread]
  dsimp only
  rw [checkedSigned, if_pos ⟨by omega, by omega⟩]
  change Except.ok (Except.ok _) = _
  congr 2
  omega

/-- A request without line feeds in its arguments is taken as a whole. -/
theorem takeRequest_arrayReply {args : List Bytes} (hlt : 2 * args.length < 2 ^ 31)
    (hargs : ∀ arg ∈ args, lineFeed ∉ arg) (rest : Bytes) :
  takeRequest (arrayReply args ++ rest) = .ok (.ok (relayed args), rest)
  := by
  have hline := lineFeed_notMem_announcement (by decide : lineFeed ∉ bytes "*") args.length
  have hfull := takeLines_flatMap_bulkReply hargs (announcement "*" args.length ++ crlf) rest
  have hrelayed : announcement "*" args.length ++ crlf ++
      args.flatMap (bulkLines [byteOfChar '\r', byteOfChar '\r']) = relayed args := by
    simp only [announcement, relayed, arrayLines, List.append_assoc]
    rfl
  rw [takeRequest, arrayReply_eq, List.append_assoc, List.cons_append, takeLine_append_cons hline,
    readHeader_announcement hlt]
  change Except.ok (takeLines _ _ _) = _
  rw [hfull, hrelayed]

theorem linesTaken_arrayReply {args : List Bytes} (hlt : 2 * args.length < 2 ^ 31) (rest : Bytes) :
  linesTaken (arrayReply args ++ rest) = 2 * args.length + 1
  := by
  have hline := lineFeed_notMem_announcement (by decide : lineFeed ∉ bytes "*") args.length
  rw [linesTaken, arrayReply_eq, List.append_assoc, List.cons_append, takeLine_append_cons hline,
    readHeader_announcement hlt]

theorem count_flatMap_bulkReply :
  ∀ (args : List Bytes), 2 * args.length ≤ (args.flatMap bulkReply).count lineFeed
  | [] => Nat.le_refl _
  | arg :: args => by
      have hle := count_flatMap_bulkReply args
      have hcrlf : crlf.count lineFeed = 1 := by decide
      rw [List.flatMap_cons, List.count_append, bulkReply_eq, List.count_append,
        List.count_cons_self, List.count_append, List.length_cons, hcrlf]
      omega

/-- The lines of a request are there. -/
theorem linesTaken_arrayReply_le {args : List Bytes} (hlt : 2 * args.length < 2 ^ 31)
    (rest : Bytes) :
  linesTaken (arrayReply args ++ rest) ≤ (arrayReply args ++ rest).count lineFeed
  := by
  have hle := count_flatMap_bulkReply args
  rw [linesTaken_arrayReply hlt, arrayReply_eq, List.count_append, List.count_append,
    List.count_cons_self]
  omega

/-! ### Cuts -/

/-- The requests that are not yet taken: what a connection gives is their bytes, and no segment ends
within one of them, behind its first line. -/
def Pending (requests : List (List Bytes)) (c : Connection Byte (LSM × ℕ)) : Prop :=
  (∀ request ∈ requests, 2 * request.length < 2 ^ 31 ∧ ∀ arg ∈ request, lineFeed ∉ arg) ∧
    c.stream = requests.flatMap arrayReply ∧
    ∀ received, received <+: c.segments → ¬ Within requests (c.buffer ++ received.flatten).length

section

variable [Doubles] {clock : ℕ → ℤ}

/-- A read that completes finds the first of the requests in the buffer. -/
theorem Pending.buffer_eq {requests : List (List Bytes)} {c : Connection Byte (LSM × ℕ)}
    {buffer : Bytes} {segments : List Bytes} (h : Pending requests c)
    (hreceive : (reader clock).receive c.buffer c.segments = some (buffer, segments)) :
  ∃ request later rest, requests = request :: later ∧ buffer = arrayReply request ++ rest ∧
    ∀ s, Pending later ⟨s, rest, segments⟩
  := by
  obtain ⟨hrequests, hstream, hcut⟩ := h
  obtain ⟨hready, taken, hsegments, hbuffer⟩ := Reader.receive_eq_some hreceive
  have hmem := lineFeed_mem_of_crlf hready
  have hall : buffer ++ segments.flatten = requests.flatMap arrayReply := by
    rw [← hstream, Connection.stream, hsegments, hbuffer, List.flatten_append, List.append_assoc]
  have hlater : ∀ received, received <+: segments →
      ¬ Within requests (buffer ++ received.flatten).length := by
    intro received hreceived
    have hcut' := hcut (taken ++ received) (by
      rw [hsegments]
      exact (List.prefix_append_right_inj taken).mpr hreceived)
    rwa [List.flatten_append, ← List.append_assoc, ← hbuffer] at hcut'
  cases requests with
  | nil =>
      rw [List.flatMap_nil, List.append_eq_nil_iff] at hall
      rw [hall.1] at hmem
      cases hmem
  | cons request later =>
      rw [List.flatMap_cons] at hall
      have hnot := hlater [] List.nil_prefix
      rw [List.flatten_nil, List.append_nil, Within] at hnot
      split at hnot
      next =>
        have hbefore : buffer <+: announcement "*" request.length ++
            (lineFeed :: (request.flatMap bulkReply ++ later.flatMap arrayReply)) := by
          refine ⟨segments.flatten, ?_⟩
          rw [hall, arrayReply_eq, List.append_assoc, List.cons_append]
        have hline : buffer <+: announcement "*" request.length :=
          List.prefix_of_prefix_length_le hbefore (List.prefix_append _ _) (by omega)
        exact absurd (hline.subset hmem) (lineFeed_notMem_announcement (by decide) _)
      next hle =>
        have hwhole : arrayReply request <+: buffer :=
          List.prefix_of_prefix_length_le (hall ▸ List.prefix_append _ _)
            (List.prefix_append _ segments.flatten) (by omega)
        obtain ⟨rest, hrest⟩ := hwhole
        rw [← hrest, List.append_assoc] at hall
        refine ⟨request, later, rest, rfl, hrest.symm, ?_⟩
        intro s
        refine ⟨fun request' hmem' => hrequests request' (List.mem_cons_of_mem request hmem'),
          List.append_cancel_left hall, ?_⟩
        intro received hreceived
        have hcut' := hlater received hreceived
        rw [← hrest, List.append_assoc, List.length_append, Within, if_neg (by omega),
          Nat.add_sub_cancel_left] at hcut'
        exact hcut'

/-- After a read, the later requests are pending. -/
theorem Pending.of_read {requests : List (List Bytes)} {c c' : Connection Byte (LSM × ℕ)}
    {reply : Bytes} (h : Pending requests c) (hread : (reader clock).read c = some (reply, c')) :
  ∃ later, Pending later c'
  := by
  obtain ⟨buffer, hreceive, hstep⟩ := Reader.read_eq_some hread
  obtain ⟨request, later, rest, rfl, rfl, hlater⟩ := h.buffer_eq hreceive
  obtain ⟨hlt, hargs⟩ := h.1 request List.mem_cons_self
  have htake := takeRequest_arrayReply hlt hargs rest
  change onRead clock c.state _ = _ at hstep
  rw [onRead, htake] at hstep
  dsimp only at hstep
  split at hstep
  next => cases hstep
  next =>
    have hbuffer := congrArg (fun p => p.2.2) (Option.some.inj hstep)
    dsimp only at hbuffer
    refine ⟨later, ?_⟩
    have hpending := hlater c'.state
    rwa [hbuffer] at hpending

/-- The reads of pending requests find the lines that they take. -/
theorem Pending.atReads {requests : List (List Bytes)} {c : Connection Byte (LSM × ℕ)}
    (h : Pending requests c) :
  (reader clock).AtReads (fun _ buffer => linesTaken buffer ≤ buffer.count lineFeed) c
  := by
  refine Reader.atReads_of_invariant (fun c => ∃ requests, Pending requests c) ?_ ?_ ⟨requests, h⟩
  · rintro c c' reply ⟨requests, h⟩ hread
    exact h.of_read hread
  · rintro c buffer segments ⟨requests, h⟩ hreceive
    obtain ⟨request, later, rest, rfl, rfl, -⟩ := h.buffer_eq hreceive
    exact linesTaken_arrayReply_le (h.1 request List.mem_cons_self).1 rest

end

/-- No segment ends within a request, behind its first line. -/
def Unbroken (requests : List (List Bytes)) (segments : List Bytes) : Prop :=
  ∀ received ∈ segments.inits, ¬ Within requests received.flatten.length

instance decidableUnbroken (requests : List (List Bytes)) (segments : List Bytes) :
  Decidable (Unbroken requests segments) :=
  inferInstanceAs (Decidable (∀ received ∈ segments.inits, ¬ Within requests received.flatten.length))

/-- The replies do not depend on how the stream is cut, if every read that completes finds the lines
that it takes.  For requests without line feeds in their arguments, it does if no segment ends
within a request, behind its first line.  Whole lines that are too few are rejected and dropped. -/
theorem replies_eq_of_complete [Doubles] (clock : ℕ → ℤ) (lsm : LSM) :
  (∀ segments segments' : List Bytes, segments.flatten = segments'.flatten →
      Complete clock lsm segments → Complete clock lsm segments' →
      replies clock lsm segments = replies clock lsm segments') ∧
    (∀ (requests : List (List Bytes)) (segments : List Bytes),
      (∀ request ∈ requests, 2 * request.length < 2 ^ 31 ∧ ∀ arg ∈ request, lineFeed ∉ arg) →
      segments.flatten = requests.flatMap arrayReply → Unbroken requests segments →
      Complete clock lsm segments) ∧
    ∀ (s : LSM × ℕ) (buffer : Bytes), buffer.getLast? = some lineFeed →
      buffer.count lineFeed < linesTaken buffer →
      onRead clock s buffer = some (partialRequest, s, [])
  := by
  refine ⟨?_, ?_, ?_⟩
  · intro segments segments' hflatten hcomplete hcomplete'
    have hstream : (connection lsm segments).stream = (connection lsm segments').stream := hflatten
    refine Reader.replies_eq_of_stream_eq rfl hstream ?_ ?_
    · exact hcomplete.mono (fun _ _ h => settled_of_linesTaken_le h)
    · exact hcomplete'.mono (fun _ _ h => settled_of_linesTaken_le h)
  · intro requests segments hrequests hflatten hunbroken
    apply Pending.atReads
    refine ⟨hrequests, hflatten, ?_⟩
    intro received hreceived
    exact hunbroken received ((List.mem_inits _ _).mpr hreceived)
  · intro s buffer hlines hlt
    rw [onRead, takeRequest_of_count_lt hlines hlt]

/-- A segment may end within the first line of a request. -/
theorem replies_eq_of_complete_ping :
  letI := Doubles.whole
  replies (fun _ => 0) .empty [bytes "*", bytes "1\r\n$4\r\nPING\r\n*1\r\n$4\r\nPING\r\n"] =
    replies (fun _ => 0) .empty [bytes "*1\r\n$4\r\nPING\r\n*", bytes "1\r\n$4\r\nPING\r\n"]
  := by
  let _ := Doubles.whole
  have hcomplete := (replies_eq_of_complete (fun _ => 0) .empty).2.1
    [[bytes "PING"], [bytes "PING"]]
  exact (replies_eq_of_complete _ _).1 _ _ (by decide)
    (hcomplete _ (by decide) (by decide) (by decide))
    (hcomplete _ (by decide) (by decide) (by decide))

/-- If a segment ends behind the first line of a request, the request is rejected. -/
theorem not_replies_eq :
  letI := Doubles.whole
  ¬ ∀ (clock : ℕ → ℤ) (lsm : LSM) (requests : List (List Bytes)) (segments segments' : List Bytes),
    (∀ request ∈ requests, request ≠ []) → segments.flatten = requests.flatMap arrayReply →
    segments'.flatten = requests.flatMap arrayReply →
    replies clock lsm segments = replies clock lsm segments'
  := by
  let _ := Doubles.whole
  intro h
  have hreplies := h (fun _ => 0) .empty [[bytes "PING"]] [bytes "*1\r\n", bytes "$4\r\nPING\r\n"]
    [bytes "*1\r\n$4\r\nPING\r\n"] (by decide) (by decide) (by decide)
  have hhead := congrArg List.head? hreplies
  rw [replies, replies, Reader.head?_replies, Reader.head?_replies] at hhead
  revert hhead
  decide +kernel

end RedisSession

end TinyLsm
