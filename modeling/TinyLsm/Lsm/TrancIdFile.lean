import TinyLsm.Lsm.TranManager

/-!
# The file of transaction ids

A manager keeps the next transaction id and the flushed ids in a file, from which the next
manager over the same directory starts.  The file is created empty by the first manager, and
written by the destructor only; a manager that finds it created but not written cannot be
constructed, and one that follows a crash hands out the ids of the crashed one again.  A
destructor that has too many flushed ids to write throws, which is a crash as well.

The file holds words of eight bytes, the numbers in which are taken to fit.
-/

namespace TinyLsm

/-- The words of the file, if there is one. -/
abbrev TrancIdFile := Option (List ℕ)

def readUint64 (words : List ℕ) (idx : ℕ) : Except Fault ℕ :=
  match words[idx]? with
  | some word => .ok word
  | none => .error (.outOfRange "Read beyond file size")

namespace TranManager

/-- Read a number of flushed ids, from a word on. -/
def readFlushedTrancIds (words : List ℕ) :
    ℕ → ℕ → OrderedSet TrancId → Except Fault (OrderedSet TrancId)
  | 0, _, flushedTrancIds => .ok flushedTrancIds
  | size + 1, idx, flushedTrancIds => do
      let flushedId ← readUint64 words idx
      readFlushedTrancIds words size (idx + 1) (flushedTrancIds.insert flushedId)

def readTrancIdFile (words : List ℕ) : Except Fault TranManager := do
  let nextTransactionId ← readUint64 words 0
  let size ← readUint64 words 1
  let flushedTrancIds ← readFlushedTrancIds words size 2 .empty
  return { nextTransactionId, flushedTrancIds }

/-- The words that a manager writes. -/
def words (m : TranManager) : List ℕ :=
  m.nextTransactionId :: m.flushedTrancIds.elems.length :: m.flushedTrancIds.elems

/-- Write the words over those the file begins with.  The size of the buffer is of the type
`int`: with too many flushed ids it is negative, or less than what is copied. -/
def writeTrancIdFile (m : TranManager) (words : List ℕ) : Except Fault (List ℕ) :=
  let bufferSize := 8 * (m.flushedTrancIds.elems.length + 2) % 2 ^ 32
  if 2 ^ 31 ≤ bufferSize then
    .error (.runtimeError "cannot create std::vector larger than max_size()")
  else if bufferSize < 8 * (m.flushedTrancIds.elems.length + 2) then
    .error .undefinedBehavior
  else
    .ok (m.words ++ words.drop m.words.length)

/-- The constructor, with the file it leaves. -/
def construct : TrancIdFile → Except Fault TranManager × TrancIdFile
  | none => (.ok {}, some [])
  | some words => (readTrancIdFile words, some words)

/-- What the destructor leaves of the file.  If it throws, which ends the program, nothing has
been written. -/
def destruct (m : TranManager) (words : List ℕ) : List ℕ :=
  match m.writeTrancIdFile words with
  | .ok words' => words'
  | .error _ => words

/-- Start a new log, which leaves the last id handed out as the flushed one. -/
def initNewWal (m : TranManager) : TranManager :=
  { m with
    flushedTrancIds := .singleton (m.nextTransactionId - 1)
    wal := [] }

/-- The flushed ids are few enough for the size of the buffer to be an `int`. -/
def Writable (m : TranManager) : Prop := m.flushedTrancIds.elems.length < 2 ^ 28 - 2

instance (m : TranManager) : Decidable m.Writable := inferInstanceAs (Decidable (_ < _))

theorem writeTrancIdFile_eq_ok {m : TranManager} {words words' : List ℕ} :
  m.writeTrancIdFile words = .ok words' ↔
    m.Writable ∧ m.words ++ words.drop m.words.length = words'
  := by
  rw [writeTrancIdFile, Writable]
  split
  next hneg =>
    constructor
    · rintro ⟨⟩
    · exact fun h => absurd h.1 (by omega)
  next hnonneg =>
    split
    next hlt =>
      constructor
      · rintro ⟨⟩
      · exact fun h => absurd h.1 (by omega)
    next hle =>
      refine ⟨fun h => ⟨?_, Except.ok.inj h⟩, fun h => congrArg _ h.2⟩
      omega

theorem destruct_of_writable {m : TranManager} (h : m.Writable) (words : List ℕ) :
  m.destruct words = m.words ++ words.drop m.words.length
  := by
  rw [destruct, writeTrancIdFile_eq_ok.mpr ⟨h, rfl⟩]

theorem destruct_of_not_writable {m : TranManager} (h : ¬ m.Writable) (words : List ℕ) :
  m.destruct words = words
  := by
  rw [destruct]
  split
  next words' hwrite => exact absurd (writeTrancIdFile_eq_ok.mp hwrite).1 h
  next => rfl

end TranManager

/-- The steps of a manager that hand out ids or change the flushed ones. -/
inductive ManagerStep where
  | getNextTransactionId
  | addReadyToFlushTrancId (trancId : TrancId) (state : TransactionState)
  | addFlushedTrancId (trancId : TrancId)
  | initNewWal
deriving DecidableEq

/-- The steps of a manager between its construction and its end, which is its destructor
unless it crashes. -/
structure Lifetime where
  steps : List ManagerStep
  closed : Bool

namespace Lifetime

/-- The ids that steps hand out, and the manager after them. -/
def live (m : TranManager) : List ManagerStep → List TrancId × TranManager
  | [] => ([], m)
  | .getNextTransactionId :: steps =>
      let (trancId, m') := m.getNextTransactionId
      let (trancIds, m'') := live m' steps
      (trancId :: trancIds, m'')
  | .addReadyToFlushTrancId trancId state :: steps =>
      live (m.addReadyToFlushTrancId trancId state) steps
  | .addFlushedTrancId trancId :: steps => live (m.addFlushedTrancId trancId) steps
  | .initNewWal :: steps => live m.initNewWal steps

/-- The ids a lifetime hands out, if the manager can be constructed, and the file it leaves. -/
def run (l : Lifetime) (file : TrancIdFile) : Except Fault (List TrancId) × TrancIdFile :=
  match TranManager.construct file with
  | (.error e, file') => (.error e, file')
  | (.ok m, file') =>
      let (trancIds, m') := live m l.steps
      (.ok trancIds, if l.closed then file'.map m'.destruct else file')

/-- Lifetimes one after the other, over the same directory. -/
def runAll : TrancIdFile → List Lifetime → List (Except Fault (List TrancId))
  | _, [] => []
  | file, l :: ls =>
      let (trancIds, file') := l.run file
      trancIds :: runAll file' ls

/-- Every manager is constructed, and hands out ids that are greater than those of the managers
before it. -/
def NeverReuse (file : TrancIdFile) (ls : List Lifetime) : Prop :=
  ∃ issued : List (List TrancId), runAll file ls = issued.map .ok ∧
    issued.Pairwise (fun ids ids' => ∀ i ∈ ids, ∀ j ∈ ids', i < j)

/-- The lifetime hands out an id. -/
def Issues (l : Lifetime) : Prop := .getNextTransactionId ∈ l.steps

instance (l : Lifetime) : Decidable l.Issues :=
  inferInstanceAs (Decidable (_ ∈ _))

/-- The lifetime over a file ends with its destructor, and this can write the file. -/
def Closes (l : Lifetime) (file : TrancIdFile) : Prop :=
  l.closed = true ∧ ∀ m ∈ (TranManager.construct file).1.toOption, (live m l.steps).2.Writable

instance (l : Lifetime) (file : TrancIdFile) : Decidable (l.Closes file) :=
  inferInstanceAs (Decidable (_ ∧ ∀ m ∈ _, _))

/-! ### The ids of one lifetime -/

/-- The ids handed out follow each other from the next one on. -/
theorem live_eq :
  ∀ (steps : List ManagerStep) (m : TranManager), ∃ n,
    (live m steps).1 = List.range' m.nextTransactionId n ∧
      (live m steps).2.nextTransactionId = m.nextTransactionId + n ∧
      (0 < n ↔ .getNextTransactionId ∈ steps)
  | [], m => ⟨0, rfl, rfl, nofun, nofun⟩
  | step :: steps, m => by
      cases step with
      | getNextTransactionId =>
          obtain ⟨n, hids, hnext, -⟩ := live_eq steps m.getNextTransactionId.2
          refine ⟨n + 1, congrArg (m.nextTransactionId :: ·) hids, hnext.trans ?_,
            fun _ => List.mem_cons_self, fun _ => Nat.succ_pos n⟩
          apply Nat.add_right_comm
      | addReadyToFlushTrancId trancId state =>
          obtain ⟨n, hids, hnext, hpos⟩ := live_eq steps (m.addReadyToFlushTrancId trancId state)
          refine ⟨n, hids, hnext, hpos.trans ?_⟩
          exact ⟨List.mem_cons_of_mem _, fun h => (List.mem_cons.mp h).resolve_left nofun⟩
      | addFlushedTrancId trancId =>
          obtain ⟨n, hids, hnext, hpos⟩ := live_eq steps (m.addFlushedTrancId trancId)
          refine ⟨n, hids, hnext, hpos.trans ?_⟩
          exact ⟨List.mem_cons_of_mem _, fun h => (List.mem_cons.mp h).resolve_left nofun⟩
      | initNewWal =>
          obtain ⟨n, hids, hnext, hpos⟩ := live_eq steps m.initNewWal
          refine ⟨n, hids, hnext, hpos.trans ?_⟩
          exact ⟨List.mem_cons_of_mem _, fun h => (List.mem_cons.mp h).resolve_left nofun⟩

/-! ### What the file holds -/

theorem readUint64_append (front : List ℕ) (word : ℕ) (rest : List ℕ) :
  readUint64 (front ++ word :: rest) front.length = .ok word
  := by
  rw [readUint64, List.getElem?_append_right le_rfl, Nat.sub_self]
  rfl

theorem exists_readFlushedTrancIds :
  ∀ (ids front rest : List ℕ) (flushed : OrderedSet TrancId), ∃ flushed',
    TranManager.readFlushedTrancIds (front ++ (ids ++ rest)) ids.length front.length flushed =
      .ok flushed' ∧ ∀ i, i ∈ flushed' ↔ i ∈ ids ∨ i ∈ flushed
  | [], _, _, flushed => ⟨flushed, rfl, fun _ => ⟨.inr, fun h => h.resolve_left nofun⟩⟩
  | i :: ids, front, rest, flushed => by
      obtain ⟨flushed', hread, hmem⟩ :=
        exists_readFlushedTrancIds ids (front ++ [i]) rest (flushed.insert i)
      use flushed'
      rw [List.length_append, List.append_assoc] at hread
      rw [List.cons_append, List.length_cons, TranManager.readFlushedTrancIds,
        Except.bind_eq_of_ok _ (readUint64_append front i _)]
      refine ⟨hread, ?_⟩
      intro j
      rw [hmem, OrderedSet.mem_insert, List.mem_cons, or_assoc, or_left_comm]

/-- What a manager writes is read back, as far as the next id and the flushed ids go, whatever is
behind it. -/
theorem readTrancIdFile_words (m : TranManager) (words : List ℕ) :
  ∃ flushedTrancIds, TranManager.readTrancIdFile (m.words ++ words) =
      .ok { nextTransactionId := m.nextTransactionId, flushedTrancIds } ∧
    ∀ i, i ∈ flushedTrancIds ↔ i ∈ m.flushedTrancIds
  := by
  obtain ⟨flushed, hread, hmem⟩ := exists_readFlushedTrancIds m.flushedTrancIds.elems
    [m.nextTransactionId, m.flushedTrancIds.elems.length] words .empty
  have hnext : readUint64 (m.words ++ words) 0 = .ok m.nextTransactionId := rfl
  have hsize : readUint64 (m.words ++ words) 1 = .ok m.flushedTrancIds.elems.length := rfl
  refine ⟨flushed, ?_, fun i => (hmem i).trans ⟨fun h => h.resolve_right nofun, .inl⟩⟩
  rw [TranManager.readTrancIdFile, Except.bind_eq_of_ok _ hnext, Except.bind_eq_of_ok _ hsize]
  exact Except.bind_eq_of_ok _ hread

/-- The next manager is constructed from the file, and starts with the given id. -/
def StartsWith (file : TrancIdFile) (next : TrancId) : Prop :=
  ∃ words m, file = some words ∧ TranManager.readTrancIdFile words = .ok m ∧
    m.nextTransactionId = next

/-- A manager that writes the file leaves one that the next manager starts from. -/
theorem startsWith_destruct {m : TranManager} (h : m.Writable) (words : List ℕ) :
  StartsWith (some (m.destruct words)) m.nextTransactionId
  := by
  obtain ⟨flushed, hread, -⟩ := readTrancIdFile_words m (words.drop m.words.length)
  rw [TranManager.destruct_of_writable h]
  exact ⟨_, _, rfl, hread, rfl⟩

/-- The file that a lifetime leaves, if its manager is constructed. -/
theorem snd_run {l : Lifetime} {file : TrancIdFile} {words : List ℕ} {m : TranManager}
    (h : TranManager.construct file = (.ok m, some words)) :
  (l.run file).2 = some (if l.Closes file then (live m l.steps).2.destruct words else words)
  := by
  have hcloses : l.Closes file ↔ l.closed = true ∧ (live m l.steps).2.Writable := by
    rw [Closes, h]
    apply and_congr_right'
    exact ⟨fun h => h m rfl, fun h m' hm' => Option.some.inj hm' ▸ h⟩
  rw [run, h]
  dsimp only
  cases hclosed : l.closed with
  | false =>
      rw [if_neg Bool.false_ne_true, if_neg]
      rw [hcloses, hclosed]
      exact fun h => Bool.false_ne_true h.1
  | true =>
      rw [if_pos rfl, Option.map_some]
      split
      next => rfl
      next hnot =>
        have hwritable : ¬ (live m l.steps).2.Writable := fun h => hnot (hcloses.mpr ⟨hclosed, h⟩)
        rw [TranManager.destruct_of_not_writable hwritable]

/-- A lifetime that closes has a manager that can write the file. -/
theorem Closes.writable {l : Lifetime} {file file' : TrancIdFile} {m : TranManager}
    (hcloses : l.Closes file) (h : TranManager.construct file = (.ok m, file')) :
  (live m l.steps).2.Writable
  := by
  apply hcloses.2
  rw [h]
  rfl

/-- A lifetime whose manager starts from the file. -/
theorem StartsWith.run_eq {file : TrancIdFile} {next : TrancId} (h : StartsWith file next)
    (l : Lifetime) :
  ∃ n, l.run file = (.ok (List.range' next n), (l.run file).2) ∧ (0 < n ↔ l.Issues) ∧
    StartsWith (l.run file).2 (if l.Closes file then next + n else next)
  := by
  obtain ⟨words, m, rfl, hread, rfl⟩ := h
  obtain ⟨n, hids, hnext, hpos⟩ := live_eq l.steps m
  have hconstruct : TranManager.construct (some words) = (.ok m, some words) := by
    rw [TranManager.construct, hread]
  refine ⟨n, ?_, hpos, ?_⟩
  · rw [run, hconstruct, ← hids]
  · rw [snd_run hconstruct]
    split
    next hcloses => exact hnext ▸ startsWith_destruct (hcloses.writable hconstruct) words
    next => exact ⟨words, m, rfl, hread, rfl⟩

/-! ### Sequences of lifetimes -/

/-- Lifetimes that hand out an id and do not close are followed by such only that hand out
none. -/
def Confined : TrancIdFile → List Lifetime → Prop
  | _, [] => True
  | file, l :: ls =>
      (¬ l.Closes file → l.Issues → ∀ l' ∈ ls, ¬ l'.Issues) ∧ Confined (l.run file).2 ls

/-- Lifetimes that start from a file: every manager is constructed, and hands out ids from the
next one on, which is among them if any is handed out; and the ids of different lifetimes
ascend exactly if no lifetime that hands out an id and does not close is followed by another
that hands out one. -/
theorem StartsWith.runAll_eq :
  ∀ (ls : List Lifetime) {file : TrancIdFile} {next : TrancId}, StartsWith file next →
    ∃ issued : List (List TrancId), runAll file ls = issued.map .ok ∧
      (∀ ids ∈ issued, ∀ i ∈ ids, next ≤ i) ∧
      ((∃ l ∈ ls, l.Issues) ↔ ∃ ids ∈ issued, next ∈ ids) ∧
      ((∀ l ∈ ls, ¬ l.Issues) → ∀ ids ∈ issued, ids = []) ∧
      (issued.Pairwise (fun ids ids' => ∀ i ∈ ids, ∀ j ∈ ids', i < j) ↔ Confined file ls)
  | [], _, _, _ => by
      refine ⟨[], rfl, nofun, ⟨nofun, nofun⟩, fun _ => nofun, ?_⟩
      exact ⟨fun _ => trivial, fun _ => .nil⟩
  | l :: ls, file, next, h => by
      obtain ⟨n, hrun, hpos, hfile⟩ := h.run_eq l
      obtain ⟨issued, hissued, hle, hfirst, hnone, hconfined⟩ := hfile.runAll_eq ls
      have hmem {i : TrancId} : i ∈ List.range' next n ↔ next ≤ i ∧ i < next + n :=
        List.mem_range'_1
      have hself : next ∈ List.range' next n ↔ l.Issues := by
        rw [hmem, ← hpos]
        exact ⟨fun h => Nat.pos_of_lt_add_right h.2, fun h => ⟨le_rfl, Nat.lt_add_of_pos_right h⟩⟩
      have hnil (h : ¬ l.Issues) : n = 0 := Nat.eq_zero_of_not_pos (fun hn => h (hpos.mp hn))
      have hnext : next ≤ if l.Closes file then next + n else next := by
        split
        · apply Nat.le_add_right
        · apply le_rfl
      refine ⟨List.range' next n :: issued, ?_, ?_, ?_, ?_, ?_⟩
      · rw [runAll, hrun, List.map_cons, ← hissued]
      · intro ids hids i hi
        rcases List.mem_cons.mp hids with rfl | hids
        · exact (hmem.mp hi).1
        · exact hnext.trans (hle ids hids i hi)
      · rw [List.exists_mem_cons_iff, List.exists_mem_cons_iff, hself]
        by_cases hissues : l.Issues
        · exact ⟨fun _ => .inl hissues, fun _ => .inl hissues⟩
        · have hsame : (if l.Closes file then next + n else next) = next := by
            rw [hnil hissues, Nat.add_zero, ite_self]
          rw [hfirst, hsame]
      · intro hall ids hids
        obtain ⟨hl, hls⟩ := List.forall_mem_cons.mp hall
        rcases List.mem_cons.mp hids with rfl | hids
        · rw [hnil hl]
          rfl
        · apply hnone hls ids hids
      · rw [List.pairwise_cons, hconfined, Confined]
        apply and_congr_left'
        by_cases hcloses : l.Closes file
        · refine ⟨fun _ h => absurd hcloses h, fun _ ids hids i hi j hj => ?_⟩
          have hge := hle ids hids j hj
          rw [if_pos hcloses] at hge
          exact (hmem.mp hi).2.trans_le hge
        · constructor
          · intro hless _ hissues l' hl' hissues'
            obtain ⟨ids, hids, hmem'⟩ := hfirst.mp ⟨l', hl', hissues'⟩
            rw [if_neg hcloses] at hmem'
            exact lt_irrefl next (hless ids hids next (hself.mpr hissues) next hmem')
          · intro hconf ids hids i hi j hj
            have hissues : l.Issues := by
              apply hpos.mp
              exact Nat.pos_of_lt_add_right ((hmem.mp hi).1.trans_lt (hmem.mp hi).2)
            rw [hnone (hconf hcloses hissues) ids hids] at hj
            cases hj

/-- If there is more than one lifetime, the first one closes. -/
def FirstCloses (file : TrancIdFile) : List Lifetime → Prop
  | l :: _ :: _ => l.Closes file
  | _ => True

theorem neverReuse_iff_pairwise
    {file : TrancIdFile} {ls : List Lifetime} {issued : List (List TrancId)}
    (h : runAll file ls = issued.map .ok) :
  NeverReuse file ls ↔ issued.Pairwise (fun ids ids' => ∀ i ∈ ids, ∀ j ∈ ids', i < j)
  := by
  refine ⟨?_, fun hless => ⟨issued, h, hless⟩⟩
  rintro ⟨issued', hissued', hless⟩
  rw [h] at hissued'
  have hinj : Function.Injective (Except.ok : List TrancId → Except Fault (List TrancId)) :=
    fun _ _ => Except.ok.inj
  rwa [List.map_injective_iff.mpr hinj hissued']

/-- The first lifetime over a new directory. -/
theorem run_none (l : Lifetime) :
  ∃ n, l.run none = (.ok (List.range' 1 n), (l.run none).2) ∧
    (l.Closes none → StartsWith (l.run none).2 (1 + n)) ∧
    (¬ l.Closes none → (l.run none).2 = some [])
  := by
  obtain ⟨n, hids, hnext, -⟩ := live_eq l.steps {}
  have hconstruct : TranManager.construct none = (.ok {}, some []) := rfl
  refine ⟨n, ?_, ?_, ?_⟩
  · rw [run, hconstruct, ← hids]
  · intro hcloses
    rw [snd_run hconstruct, if_pos hcloses]
    exact hnext ▸ startsWith_destruct (hcloses.writable hconstruct) []
  · intro hcrashed
    rw [snd_run hconstruct, if_neg hcrashed]

/-- Over a new directory every manager is constructed, and no id is handed out twice, exactly
if the first lifetime closes, unless it is the only one, and no lifetime that hands out an id
and does not close is followed by another that hands out one. -/
theorem neverReuse_iff (ls : List Lifetime) :
  NeverReuse none ls ↔ FirstCloses none ls ∧ Confined none ls
  := by
  cases ls with
  | nil => exact ⟨fun _ => ⟨trivial, trivial⟩, fun _ => ⟨[], rfl, .nil⟩⟩
  | cons l ls =>
      obtain ⟨n, hrun, hclosing, hcrashing⟩ := l.run_none
      have hall : runAll none (l :: ls) = .ok (List.range' 1 n) :: runAll (l.run none).2 ls := by
        rw [runAll, hrun]
      by_cases hcloses : l.Closes none
      · obtain ⟨issued, hissued, hle, -, -, hconfined⟩ := (hclosing hcloses).runAll_eq ls
        have hmap : runAll none (l :: ls) = (List.range' 1 n :: issued).map .ok := by
          rw [hall, hissued]
          rfl
        have hfirst : FirstCloses none (l :: ls) := by
          cases ls with
          | nil => trivial
          | cons l' ls => exact hcloses
        rw [neverReuse_iff_pairwise hmap, and_iff_right hfirst, List.pairwise_cons, hconfined,
          Confined]
        apply and_congr_left'
        refine ⟨fun _ h => absurd hcloses h, fun _ ids hids i hi j hj => ?_⟩
        exact (List.mem_range'_1.mp hi).2.trans_le (hle ids hids j hj)
      · rw [hcrashing hcloses] at hall
        cases ls with
        | nil =>
            have hmap : runAll none [l] = [List.range' 1 n].map .ok := hall
            rw [neverReuse_iff_pairwise hmap]
            refine ⟨fun _ => ⟨trivial, ?_, trivial⟩, fun _ => List.pairwise_singleton _ _⟩
            intro _ _ l' hl'
            cases hl'
        | cons l' ls =>
            -- the second manager finds the file as it was created
            constructor
            · rintro ⟨issued, hissued, -⟩
              rw [hall] at hissued
              obtain ⟨_, _, _, -, hrest⟩ := List.map_eq_cons_iff.mp hissued.symm
              obtain ⟨_, _, _, herror, -⟩ := List.map_eq_cons_iff.mp hrest
              cases herror
            · exact fun h => absurd h.1 hcloses

/-- After a crash the manager of a new directory cannot be constructed again; and after a crash
later on, the ids that were handed out before it are handed out again. -/
theorem not_neverReuse_crashed :
  ¬ NeverReuse none [⟨[], false⟩, ⟨[], true⟩] ∧
    ¬ NeverReuse none [⟨[], true⟩, ⟨[.getNextTransactionId], false⟩, ⟨[.getNextTransactionId], true⟩]
  := by
  constructor
  · rintro ⟨issued, hissued, -⟩
    have hrun : runAll none [⟨[], false⟩, ⟨[], true⟩]
        = [.ok [], .error (.outOfRange "Read beyond file size")] := rfl
    rw [hrun] at hissued
    obtain ⟨_, _, _, -, hrest⟩ := List.map_eq_cons_iff.mp hissued.symm
    obtain ⟨_, _, _, herror, -⟩ := List.map_eq_cons_iff.mp hrest
    nomatch herror
  · have hrun : runAll none [⟨[], true⟩, ⟨[.getNextTransactionId], false⟩,
        ⟨[.getNextTransactionId], true⟩] = [[], [1], [1]].map .ok := rfl
    rw [neverReuse_iff_pairwise hrun]
    simp

end Lifetime

end TinyLsm
