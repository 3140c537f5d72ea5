import TinyLsm.Library.Cursor
import TinyLsm.RedisWrapper.Replies

/-!
# Parsing requests

A request is an array of bulk strings.  The parser takes as many bytes for an argument as its length
line announces, but goes on behind the first line feed from the start of the argument on.  So it
reads back the arguments of which none but the last contains a line feed.
-/

namespace TinyLsm

namespace RedisSession

open RedisWrapper

/-! ### Protocol errors -/

def protocolError (what : String) : Bytes := bytes "-ERR Protocol error: " ++ bytes what ++ crlf

def expectedArray : Bytes := protocolError "expected '*'"

def invalidCount : Bytes := protocolError "invalid number of elements"

def expectedBulk : Bytes := protocolError "expected '$'"

def invalidLength : Bytes := protocolError "invalid bulk string length"

def lengthExceeds : Bytes := protocolError "bulk string length exceeds request size"

/-! ### The parser -/

def lineFeed : Byte := byteOfChar '\n'

/-- The largest `size_t`. -/
def npos : ℕ := 2 ^ 64 - 1

/-- `std::string::find` of a byte from a position on. -/
def find (text : Bytes) (b : Byte) (pos : ℕ) : ℕ :=
  match (text.drop pos).idxOf? b with
  | some i => pos + i
  | none => npos

/-- `std::string::substr` of a number of bytes. -/
def substrCount (text : Bytes) (pos count : ℕ) : Except Fault Bytes :=
  (substr text pos).map (fun rest => rest.take count)

/-- The position behind the next line feed, which is counted in `int`. -/
def afterLine (request : Bytes) (pos : ℕ) : Except Fault ℕ :=
  (checkedSigned 32 (toInt (find request lineFeed pos) + 1)).map toSizeT

/-- A round of the loop: the next argument and the position after it, or the reply to a request
that is rejected. -/
def readArg (request : Bytes) (pos : ℕ) : Except Fault (Except Bytes (Bytes × ℕ)) :=
  if request[pos]? ≠ some (byteOfChar '$') then .ok (.error expectedBulk)
  else
    match stoi (request.drop (pos + 1)) with
    | .error _ => .ok (.error invalidLength)
    | .ok len => do
        let pos ← afterLine request pos
        if request.length < toSizeT (pos + len) then
          return .error lengthExceeds
        let arg ← substrCount request pos (toSizeT len)
        let pos ← afterLine request pos
        return .ok (arg, pos)

/-- The loop, with the number of rounds left. -/
def readArgs (request : Bytes) : ℕ → ℕ → Except Fault (Except Bytes (List Bytes))
  | 0, _ => .ok (.ok [])
  | rounds + 1, pos => do
      match ← readArg request pos with
      | .error reply => return .error reply
      | .ok (arg, pos) => return (← readArgs request rounds pos).map (fun args => arg :: args)

/-- The arguments of a request that is not empty. -/
def parse (request : Bytes) : Except Fault (Except Bytes (List Bytes)) :=
  match stoi (request.drop 1) with
  | .error _ => .ok (.error invalidCount)
  | .ok numElements =>
      readArgs request numElements.toNat (toSizeT (find request lineFeed 0 + 1))

/-! ### Lines of a request -/

theorem find_eq {text x rest : Bytes} {b : Byte} {pos : ℕ} (htext : text.drop pos = x ++ b :: rest)
    (hx : b ∉ x) :
  find text b pos = pos + x.length
  := by
  have hidx : (x ++ b :: rest).idxOf? b = some x.length := by
    rw [List.idxOf?_eq_some_iff]
    refine ⟨by simp, by simp, ?_⟩
    intro i hi heq
    rw [List.getElem_append_left hi] at heq
    exact hx (heq ▸ List.getElem_mem hi)
  rw [find, htext, hidx]

theorem drop_add_of_drop_eq {text x rest : Bytes} {pos : ℕ} (h : text.drop pos = x ++ rest) :
  text.drop (pos + x.length) = rest
  := by
  rw [← List.drop_drop, h, List.drop_left]

/-- A number is read up to the first byte that is not a digit. -/
theorem stoi_natDecimal_append {n : ℕ} (h : n < 2 ^ 31) {rest : Bytes}
    (hrest : ∀ b ∈ rest.head?, ¬ IsDigit b) :
  stoi (natDecimal n ++ rest) = .ok n
  := by
  rw [stoi, readSigned, readInteger_natDecimal_append _ hrest]
  exact if_pos ⟨by omega, by omega⟩

/-- A line that announces a number, up to its line feed. -/
def announcement (mark : String) (n : ℕ) : Bytes :=
  bytes mark ++ (natDecimal n ++ [byteOfChar '\r'])

theorem lineFeed_notMem_line {mark : String} (h : lineFeed ∉ bytes mark) (n : ℕ) {ends : Bytes}
    (hends : ∀ b ∈ ends, b = byteOfChar '\r') :
  lineFeed ∉ bytes mark ++ (natDecimal n ++ ends)
  := by
  intro hmem
  rcases List.mem_append.mp hmem with hmem | hmem
  · exact h hmem
  · rcases List.mem_append.mp hmem with hmem | hmem
    · exact absurd (isDigit_of_mem_natDecimal hmem) (by decide)
    · exact absurd (hends lineFeed hmem) (by decide)

theorem lineFeed_notMem_announcement {mark : String} (h : lineFeed ∉ bytes mark) (n : ℕ) :
  lineFeed ∉ announcement mark n
  := lineFeed_notMem_line h n (fun _ hb => List.mem_singleton.mp hb)

theorem announcement_append (mark : String) (n : ℕ) (rest : Bytes) :
  announcement mark n ++ lineFeed :: rest = bytes mark ++ (natDecimal n ++ (crlf ++ rest))
  := by
  rw [announcement, List.append_assoc, List.append_assoc]
  rfl

theorem bulkReply_eq (value : Bytes) :
  bulkReply value = announcement "$" value.length ++ lineFeed :: (value ++ crlf)
  := by
  rw [announcement_append, bulkReply, decimal_natCast]
  simp only [List.append_assoc]

theorem arrayReply_eq (values : List Bytes) :
  arrayReply values = announcement "*" values.length ++ lineFeed :: values.flatMap bulkReply
  := by
  rw [announcement_append, arrayReply, announcedReply, decimal_natCast]
  simp only [List.append_assoc]

/-- A value behind its length, on lines that both end with some bytes and a line feed. -/
def bulkLines (ends value : Bytes) : Bytes :=
  (bytes "$" ++ (natDecimal value.length ++ ends)) ++ lineFeed :: (value ++ (ends ++ [lineFeed]))

/-- An array of values, on lines that all end with some bytes and a line feed. -/
def arrayLines (ends : Bytes) (values : List Bytes) : Bytes :=
  (bytes "*" ++ (natDecimal values.length ++ ends)) ++ lineFeed :: values.flatMap (bulkLines ends)

theorem bulkReply_eq_bulkLines : bulkReply = bulkLines [byteOfChar '\r']
  := by
  funext value
  apply bulkReply_eq

theorem arrayReply_eq_arrayLines (values : List Bytes) :
  arrayReply values = arrayLines [byteOfChar '\r'] values
  := by
  rw [arrayReply_eq, bulkReply_eq_bulkLines]
  rfl

/-- A line that is ended by carriage returns announces its number. -/
theorem stoi_natDecimal_line {n : ℕ} (h : n < 2 ^ 31) {ends : Bytes}
    (hends : ∀ b ∈ ends, b = byteOfChar '\r') (rest : Bytes) :
  stoi (natDecimal n ++ (ends ++ lineFeed :: rest)) = .ok n
  := by
  apply stoi_natDecimal_append h
  intro b hb
  cases ends with
  | nil =>
      obtain rfl := Option.some.inj hb
      decide
  | cons b' ends =>
      obtain rfl := Option.some.inj hb
      rw [hends b' List.mem_cons_self]
      decide

section

variable {request : Bytes} (hlt : request.length < 2 ^ 31)

include hlt

/-- The parser goes on behind the line. -/
theorem afterLine_eq {pos : ℕ} {x rest : Bytes} (hline : request.drop pos = x ++ lineFeed :: rest)
    (hx : lineFeed ∉ x) :
  ∃ pos', afterLine request pos = .ok pos' ∧ request.drop pos' = rest
  := by
  have hlength := congrArg List.length hline
  rw [List.length_drop, List.length_append, List.length_cons] at hlength
  refine ⟨pos + (x ++ [lineFeed]).length, ?_, ?_⟩
  · rw [afterLine, find_eq hline hx, toInt_of_fits ⟨by omega, by omega⟩, checkedSigned,
      if_pos ⟨by omega, by omega⟩, Except.map, toSizeT_of_nonneg (by omega) (by omega),
      List.length_append, List.length_singleton]
    congr 1
  · apply drop_add_of_drop_eq
    rw [hline, List.append_assoc, List.singleton_append]

/-- An argument is read, however its length line ends, and the parser goes on behind the first line
feed from its start on. -/
theorem readArg_of_line {pos : ℕ} {arg ends tail x rest : Bytes}
    (hends : ∀ b ∈ ends, b = byteOfChar '\r')
    (hbulk : request.drop pos =
      (bytes "$" ++ (natDecimal arg.length ++ ends)) ++ lineFeed :: (arg ++ tail))
    (hline : arg ++ tail = x ++ lineFeed :: rest) (hx : lineFeed ∉ x) :
  ∃ pos', readArg request pos = .ok (.ok (arg, pos')) ∧ request.drop pos' = rest
  := by
  have hfirst := lineFeed_notMem_line (by decide : lineFeed ∉ bytes "$") arg.length hends
  obtain ⟨start, hstart, hdrop⟩ := afterLine_eq hlt hbulk hfirst
  obtain ⟨pos', hpos', hrest⟩ := afterLine_eq hlt (hdrop.trans hline) hx
  refine ⟨pos', ?_, hrest⟩
  have hdollar : request[pos]? = some (byteOfChar '$') := by
    rw [← List.head?_drop, hbulk]
    rfl
  have hstartLength := congrArg List.length hdrop
  have hlineLength := congrArg List.length hline
  rw [List.length_drop] at hstartLength
  rw [List.length_append, List.length_append, List.length_cons] at hlineLength
  rw [List.length_append] at hstartLength
  have hread : stoi (request.drop (pos + 1)) = .ok arg.length := by
    rw [List.append_assoc, List.append_assoc] at hbulk
    have hdigits : request.drop (pos + (bytes "$").length) = _ := drop_add_of_drop_eq hbulk
    change stoi (request.drop (pos + (bytes "$").length)) = _
    rw [hdigits]
    apply stoi_natDecimal_line (by omega) hends
  have hfits : toSizeT (start + arg.length) = start + arg.length := by
    rw [toSizeT_of_nonneg (by omega) (by omega)]
    omega
  have hcount : toSizeT arg.length = arg.length := by
    rw [toSizeT_of_nonneg (by omega) (by omega), Int.toNat_natCast]
  have hsubstr : substrCount request start arg.length = .ok arg := by
    rw [substrCount, substr, if_neg (by omega), hdrop, Except.map, List.take_left]
  rw [readArg, if_neg (not_not.mpr hdollar), hread]
  dsimp only
  rw [Except.bind_eq_of_ok _ hstart, hfits, if_neg (by omega), hcount,
    Except.bind_eq_of_ok _ hsubstr, Except.bind_eq_of_ok _ hpos']
  rfl

/-- An argument is read, and the parser goes on behind the first line feed from its start on. -/
theorem readArg_eq {pos : ℕ} {arg tail x rest : Bytes}
    (hbulk : request.drop pos = announcement "$" arg.length ++ lineFeed :: (arg ++ tail))
    (hline : arg ++ tail = x ++ lineFeed :: rest) (hx : lineFeed ∉ x) :
  ∃ pos', readArg request pos = .ok (.ok (arg, pos')) ∧ request.drop pos' = rest
  := readArg_of_line hlt (fun _ hb => List.mem_singleton.mp hb) hbulk hline hx

/-- Arguments without a line feed are read, and the parser goes on behind the last one. -/
theorem readArgs_bulkLines {ends rest : Bytes} (hends : ∀ b ∈ ends, b = byteOfChar '\r') :
  ∀ {args : List Bytes} {pos : ℕ}, request.drop pos = args.flatMap (bulkLines ends) ++ rest →
    (∀ arg ∈ args, lineFeed ∉ arg) →
    ∃ pos', request.drop pos' = rest ∧ ∀ rounds,
      readArgs request (args.length + rounds) pos =
        (readArgs request rounds pos').map (Except.map (fun more => args ++ more))
  | [], pos, hdrop, _ => by
      refine ⟨pos, hdrop, ?_⟩
      intro rounds
      rw [List.length_nil, Nat.zero_add]
      cases readArgs request rounds pos with
      | error e => rfl
      | ok result => cases result <;> rfl
  | arg :: args, pos, hdrop, hargs => by
      rw [List.flatMap_cons, List.append_assoc, bulkLines, List.append_assoc _ (_ :: _),
        List.cons_append, List.append_assoc arg] at hdrop
      have hline : arg ++ ((ends ++ [lineFeed]) ++ (args.flatMap (bulkLines ends) ++ rest)) =
          (arg ++ ends) ++ lineFeed :: (args.flatMap (bulkLines ends) ++ rest) := by
        simp only [List.append_assoc, List.singleton_append]
      have hx : lineFeed ∉ arg ++ ends := by
        intro hmem
        rcases List.mem_append.mp hmem with hmem | hmem
        · exact hargs arg List.mem_cons_self hmem
        · exact absurd (hends lineFeed hmem) (by decide)
      obtain ⟨pos₁, hread, hrest⟩ := readArg_of_line hlt hends hdrop hline hx
      obtain ⟨pos', hdrop', hrounds⟩ :=
        readArgs_bulkLines hends hrest (fun arg' hmem => hargs arg' (List.mem_cons_of_mem arg hmem))
      refine ⟨pos', hdrop', ?_⟩
      intro rounds
      have hsucc : (arg :: args).length + rounds = (args.length + rounds) + 1 := by
        rw [List.length_cons]
        omega
      rw [hsucc, readArgs, Except.bind_eq_of_ok _ hread]
      dsimp only
      rw [hrounds rounds]
      cases readArgs request rounds pos' with
      | error e => rfl
      | ok result => cases result <;> rfl

theorem readArgs_append {rest : Bytes} {args : List Bytes} {pos : ℕ}
    (hdrop : request.drop pos = args.flatMap bulkReply ++ rest)
    (hargs : ∀ arg ∈ args, lineFeed ∉ arg) :
  ∃ pos', request.drop pos' = rest ∧ ∀ rounds,
    readArgs request (args.length + rounds) pos =
      (readArgs request rounds pos').map (Except.map (fun more => args ++ more))
  := by
  rw [bulkReply_eq_bulkLines] at hdrop
  exact readArgs_bulkLines hlt (fun _ hb => List.mem_singleton.mp hb) hdrop hargs

/-- An argument that contains a line feed is followed by what is behind the line feed. -/
theorem readArgs_of_lineFeed {x y tail : Bytes} {pos rounds : ℕ}
    (hdrop : request.drop pos = announcement "$" (x ++ lineFeed :: y).length ++
      lineFeed :: (x ++ lineFeed :: y ++ tail))
    (hx : lineFeed ∉ x) (hy : (y ++ tail).head? ≠ some (byteOfChar '$')) :
  readArgs request (rounds + 2) pos = .ok (.error expectedBulk)
  := by
  have hline : x ++ lineFeed :: y ++ tail = x ++ lineFeed :: (y ++ tail) := by
    rw [List.append_assoc, List.cons_append]
  obtain ⟨pos', hread, hrest⟩ := readArg_eq hlt hdrop hline hx
  have hreject : readArg request pos' = .ok (.error expectedBulk) := by
    rw [readArg, ← List.head?_drop, hrest, if_pos hy]
  rw [readArgs, Except.bind_eq_of_ok _ hread]
  dsimp only
  rw [readArgs, Except.bind_eq_of_ok _ hreject]
  rfl

end

/-! ### Requests -/

theorem length_le_length_flatMap_bulkLines (ends : Bytes) :
  ∀ (args : List Bytes), 2 * args.length ≤ (args.flatMap (bulkLines ends)).length
  | [] => Nat.le_refl _
  | arg :: args => by
      have hle := length_le_length_flatMap_bulkLines ends args
      rw [List.flatMap_cons, List.length_cons, List.length_append, bulkLines, List.length_append,
        List.length_cons]
      have hmark : (bytes "$").length ≤ (bytes "$" ++ (natDecimal arg.length ++ ends)).length :=
        (List.sublist_append_left _ _).length_le
      have hdollar : (bytes "$").length = 1 := by decide
      omega

/-- The loop of the parser starts at the first argument. -/
theorem parse_arrayLines {ends : Bytes} (hends : ∀ b ∈ ends, b = byteOfChar '\r')
    {args : List Bytes} (hlt : (arrayLines ends args).length < 2 ^ 31) :
  ∃ pos, parse (arrayLines ends args) = readArgs (arrayLines ends args) args.length pos ∧
    (arrayLines ends args).drop pos = args.flatMap (bulkLines ends)
  := by
  have hle := length_le_length_flatMap_bulkLines ends args
  have hlength : (arrayLines ends args).length =
      (bytes "*" ++ (natDecimal args.length ++ ends)).length +
        ((args.flatMap (bulkLines ends)).length + 1) := by
    rw [arrayLines, List.length_append, List.length_cons]
  have hnotMem := lineFeed_notMem_line (by decide : lineFeed ∉ bytes "*") args.length hends
  have hread : stoi ((arrayLines ends args).drop 1) = .ok args.length := by
    rw [arrayLines, List.append_assoc, List.append_assoc]
    change stoi (natDecimal _ ++ (ends ++ lineFeed :: _)) = _
    apply stoi_natDecimal_line (by omega) hends
  have hfind : find (arrayLines ends args) lineFeed 0 =
      (bytes "*" ++ (natDecimal args.length ++ ends)).length := by
    have hdrop : (arrayLines ends args).drop 0 = _ := List.drop_zero
    rw [find_eq hdrop hnotMem, Nat.zero_add]
  refine ⟨(bytes "*" ++ (natDecimal args.length ++ ends)).length + 1, ?_, ?_⟩
  · rw [parse, hread]
    dsimp only
    rw [hfind, toSizeT_of_nonneg (by omega) (by omega), Int.toNat_natCast]
    congr 1
  · have hdrop : (arrayLines ends args).drop 0 =
        (bytes "*" ++ (natDecimal args.length ++ ends) ++ [lineFeed]) ++
          args.flatMap (bulkLines ends) := by
      rw [List.append_assoc, List.singleton_append, List.drop_zero, arrayLines]
    have hrest := drop_add_of_drop_eq hdrop
    rwa [Nat.zero_add, List.length_append, List.length_singleton] at hrest

theorem parse_eq {args : List Bytes} (hlt : (arrayReply args).length < 2 ^ 31) :
  ∃ pos, parse (arrayReply args) = readArgs (arrayReply args) args.length pos ∧
    (arrayReply args).drop pos = args.flatMap bulkReply
  := by
  rw [bulkReply_eq_bulkLines]
  rw [arrayReply_eq_arrayLines] at hlt ⊢
  exact parse_arrayLines (fun _ hb => List.mem_singleton.mp hb) hlt

/-- Arguments without a line feed are read back, however many carriage returns end the lines. -/
theorem parse_arrayLines_eq {ends : Bytes} (hends : ∀ b ∈ ends, b = byteOfChar '\r')
    {args : List Bytes} (hlt : (arrayLines ends args).length < 2 ^ 31)
    (hargs : ∀ arg ∈ args, lineFeed ∉ arg) :
  parse (arrayLines ends args) = .ok (.ok args)
  := by
  obtain ⟨pos, hparse, hdrop⟩ := parse_arrayLines hends hlt
  rw [← List.append_nil (args.flatMap _)] at hdrop
  obtain ⟨pos', -, hrounds⟩ := readArgs_bulkLines hlt hends hdrop hargs
  have hread := hrounds 0
  rw [Nat.add_zero] at hread
  rw [hparse, hread, readArgs, Except.map, Except.map, List.append_nil]

/-- Arguments of which none but the last contains a line feed are read back. -/
theorem readArgs_flatMap_bulkReply {request : Bytes} (hlt : request.length < 2 ^ 31)
    {args : List Bytes} {pos : ℕ} (hdrop : request.drop pos = args.flatMap bulkReply)
    (hargs : ∀ arg ∈ args.dropLast, lineFeed ∉ arg) :
  readArgs request args.length pos = .ok (.ok args)
  := by
  rcases List.eq_nil_or_concat args with rfl | ⟨firsts, last, rfl⟩
  · rfl
  · rw [List.concat_eq_append] at hdrop hargs ⊢
    rw [List.dropLast_concat] at hargs
    rw [List.flatMap_append] at hdrop
    obtain ⟨pos₁, hdrop₁, hrounds⟩ := readArgs_append hlt hdrop hargs
    rw [List.flatMap_singleton, bulkReply_eq] at hdrop₁
    have hmem : lineFeed ∈ last ++ crlf := List.mem_append_right _ (by decide)
    obtain ⟨x, rest, hline, hx⟩ := List.eq_append_cons_of_mem hmem
    obtain ⟨pos₂, hread, -⟩ := readArg_eq hlt hdrop₁ hline hx
    have hlast : readArgs request 1 pos₁ = .ok (.ok [last]) := by
      rw [readArgs, Except.bind_eq_of_ok _ hread]
      rfl
    rw [List.length_append, List.length_singleton, hrounds 1, hlast]
    rfl

/-- An array of arguments is read back if none but the last of them contains a line feed.  If a line
feed comes earlier, the parser goes on behind it, and rejects what is not a length line. -/
theorem parse_arrayReply {args : List Bytes} (hlt : (arrayReply args).length < 2 ^ 31) :
  ((∀ arg ∈ args.dropLast, lineFeed ∉ arg) → parse (arrayReply args) = .ok (.ok args)) ∧
    ∀ firsts lasts x y, args = firsts ++ (x ++ lineFeed :: y) :: lasts → lasts ≠ [] →
      (∀ arg ∈ firsts, lineFeed ∉ arg) → lineFeed ∉ x → y.head? ≠ some (byteOfChar '$') →
      parse (arrayReply args) = .ok (.error expectedBulk)
  := by
  obtain ⟨pos, hparse, hdrop⟩ := parse_eq hlt
  rw [hparse]
  constructor
  · apply readArgs_flatMap_bulkReply hlt hdrop
  · rintro firsts lasts x y rfl hlasts hfirsts hx hy
    rw [List.flatMap_append] at hdrop
    obtain ⟨pos', hdrop', hrounds⟩ := readArgs_append hlt hdrop hfirsts
    rw [List.flatMap_cons, bulkReply_eq, List.append_assoc, List.cons_append,
      List.append_assoc] at hdrop'
    have hhead : (y ++ (crlf ++ lasts.flatMap bulkReply)).head? ≠ some (byteOfChar '$') := by
      cases y with
      | nil => exact fun heq => absurd (Option.some.inj heq) (by decide)
      | cons b y => exact hy
    have hsucc : (firsts ++ (x ++ lineFeed :: y) :: lasts).length =
        firsts.length + (lasts.length - 1 + 2) := by
      have hpos := List.length_pos_iff.mpr hlasts
      rw [List.length_append, List.length_cons]
      omega
    rw [hsucc, hrounds, readArgs_of_lineFeed hlt hdrop' hx hhead]
    rfl

/-- A line feed may end the last argument. -/
theorem parse_arrayReply_set :
  parse (arrayReply [bytes "SET", bytes "k", bytes "a\nb"]) =
    .ok (.ok [bytes "SET", bytes "k", bytes "a\nb"])
  := (parse_arrayReply (by decide)).1 (by decide)

/-- A key that contains a line feed is not read back. -/
theorem not_parse_arrayReply :
  ¬ ∀ args : List Bytes, args ≠ [] → parse (arrayReply args) = .ok (.ok args)
  := by
  intro h
  have hparse := h [bytes "SET", bytes "a\nb", bytes "v"] (by decide)
  revert hparse
  decide

end RedisSession

end TinyLsm
