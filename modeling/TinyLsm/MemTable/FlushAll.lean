import TinyLsm.Library.Loops
import TinyLsm.MemTable.State

/-!
# Flushing all of the memtable

`flush_all` flushes as long as the memtable has a size.  Each flush that returns takes off a table
that is not empty, since a builder without entries throws.  So the loop ends, if the count of the
bytes in the frozen tables is right.

`clear` drops the frozen tables and leaves their count.  If there is something to count, the
count is wrong after it, and `flush_all` goes on forever: `clear_exact_iff`,
`flushAll_clear_iff`.
-/

namespace TinyLsm

namespace MemTable

/-- What a flush is given: the builder that it starts with, and where the table is to be written. -/
structure FlushRound (β : Type) where
  builder : β
  sstPath : Bytes
  sstId : ℕ

namespace State

/-- A round of `flush_all`, with the number of flushes before it.  The loop is left with how it
ended, and the number of flushes it made. -/
def flushAllStep {β σ : Type} [SSTBuilder β σ] (rounds : ℕ → FlushRound β) (s : ℕ × State) :
    (Except Fault Unit × ℕ) ⊕ (ℕ × State) :=
  if 0 < s.2.getTotalSize then
    match s.2.flushLast (rounds s.1).builder (rounds s.1).sstPath (rounds s.1).sstId [] with
    | (.error fault, _, _) => .inl (.error fault, s.1 + 1)
    | (.ok _, m, _) => .inr (s.1 + 1, m)
  else
    .inl (.ok (), s.1)

/-- The number of tables with entries. -/
def nonEmpty (m : State) : ℕ :=
  ((m.currentTable :: m.frozenTables).filter (fun t => t.entries ≠ [])).length

/-- Every table has a size if and only if it has entries. -/
def Sized (m : State) : Prop :=
  ∀ t ∈ m.currentTable :: m.frozenTables, t.getSize ≠ 0 ↔ t.entries ≠ []

/-! ### Clearing -/

/-- After `clear` the count of bytes is right if and only if it has been zero before. -/
theorem clear_exact_iff (m : State) : m.clear.FrozenExact ↔ m.frozenBytes = 0
  := by
  rw [FrozenExact, clear, ← UInt64.toNat_inj]
  exact Iff.rfl

theorem getTotalSize_clear (m : State) : m.clear.getTotalSize = m.frozenBytes
  := UInt64.add_zero m.frozenBytes

theorem flushed?_clear (m : State) : m.clear.flushed? = none
  := by
  rw [m.clear.flushed?_nil rfl]
  exact if_pos m.currentTable.getSize_clear

/-! ### The rounds -/

/-- With something to flush there is a table to flush. -/
theorem FrozenExact.exists_flushed {m : State} (h : m.FrozenExact) (hsize : 0 < m.getTotalSize) :
  ∃ table, m.flushed? = some table
  := by
  obtain hnil | ⟨tables, table, hconcat⟩ := m.frozenTables_cases
  · use m.currentTable
    rw [m.flushed?_nil hnil, if_neg]
    intro hcurrent
    rw [FrozenExact, hnil] at h
    have hfrozen : m.frozenBytes = 0 := UInt64.toNat_inj.mp h
    rw [getTotalSize, getFrozenSize, getCurSize, hfrozen, hcurrent] at hsize
    exact absurd hsize (by decide)
  · exact ⟨table, flushed?_concat hconcat⟩

/-- With something to flush there is a table with entries. -/
theorem FrozenExact.nonEmpty_pos {m : State} (h : m.FrozenExact) (hsized : m.Sized)
    (hsize : 0 < m.getTotalSize) :
  0 < m.nonEmpty
  := by
  apply Nat.pos_of_ne_zero
  intro hzero
  have hsizes : ∀ t ∈ m.currentTable :: m.frozenTables, t.getSize = 0 := by
    intro t ht
    by_contra hne
    have hmem : t ∈ (m.currentTable :: m.frozenTables).filter (fun t => t.entries ≠ []) :=
      List.mem_filter.mpr ⟨ht, decide_eq_true ((hsized t ht).mp hne)⟩
    rw [List.eq_nil_of_length_eq_zero hzero] at hmem
    cases hmem
  have hfrozen : m.frozenBytes = 0 := by
    apply UInt64.toNat_inj.mp
    rw [h, List.sum_eq_zero]
    · rfl
    · intro n hn
      obtain ⟨t, ht, rfl⟩ := List.mem_map.mp hn
      rw [hsizes t (List.mem_cons_of_mem _ ht)]
      rfl
  rw [getTotalSize, getFrozenSize, getCurSize, hfrozen, hsizes _ List.mem_cons_self] at hsize
  exact absurd hsize (by decide)

theorem Sized.detached {m : State} (h : m.Sized) {table : Table}
    (hflushed : m.flushed? = some table) :
  (m.detached table).Sized
  := by
  obtain ⟨-, -, -, hdetached⟩ | ⟨tables, hconcat, hdetached⟩ := flushed?_cases hflushed
  · rw [hdetached]
    intro t ht
    rw [List.mem_singleton.mp ht]
    simp
  · rw [hdetached]
    intro t ht
    apply h t
    rw [hconcat]
    rcases List.mem_cons.mp ht with rfl | ht
    · apply List.mem_cons_self
    · exact List.mem_cons_of_mem _ (List.mem_append_left _ ht)

/-- A table with entries that is taken off counts one. -/
theorem nonEmpty_detached {m : State} {table : Table} (h : m.flushed? = some table)
    (hentries : table.entries ≠ []) :
  m.nonEmpty = (m.detached table).nonEmpty + 1
  := by
  obtain ⟨hnil, rfl, -, hdetached⟩ | ⟨tables, hconcat, hdetached⟩ := flushed?_cases h
  · rw [hdetached, nonEmpty, nonEmpty, hnil]
    simp [hentries]
  · rw [hdetached, nonEmpty, nonEmpty, hconcat]
    simp only [List.filter_cons, List.filter_append]
    split <;> simp [hentries]

section

variable {β σ : Type} [SSTBuilder β σ]

/-- A table without entries is not written by a builder that throws without entries. -/
theorem writeTable_nil {table : Table} (h : table.entries = []) {builder : β} {sstPath : Bytes}
    {sstId : ℕ} (hbuild : ∃ fault, SSTBuilder.build builder sstId sstPath = .error fault)
    (flushedTrancIds : List TrancId) :
  ∃ fault, (writeTable table builder sstPath sstId flushedTrancIds).1 = .error fault
  := by
  obtain ⟨fault, hfault⟩ := hbuild
  use fault
  rw [writeTable, table.flush_eq, h]
  exact hfault

/-- A flush that returns takes a table with entries off. -/
theorem flushLast_returns {m : State} {table : Table} (h : m.flushed? = some table)
    {round : FlushRound β}
    (hbuild : ∃ fault, SSTBuilder.build round.builder round.sstId round.sstPath = .error fault)
    {flushedTrancIds flushedTrancIds' : List TrancId} {sst : Option σ} {m' : State}
    (hreturns : m.flushLast round.builder round.sstPath round.sstId flushedTrancIds =
      (.ok sst, m', flushedTrancIds')) :
  table.entries ≠ [] ∧ m' = m.detached table
  := by
  rw [m.flushLast_of_some h] at hreturns
  constructor
  · intro hnil
    obtain ⟨fault, hfault⟩ := writeTable_nil hnil hbuild flushedTrancIds
    cases hwrite : writeTable table round.builder round.sstPath round.sstId flushedTrancIds with
    | mk result ids =>
        rw [hwrite] at hfault hreturns
        dsimp only at hfault
        rw [hfault] at hreturns
        cases hreturns
  · split at hreturns
    · cases hreturns
    · cases hreturns
      rfl

/-! ### The loop -/

/-- What holds in the rounds of `flush_all`, for so many tables with entries. -/
structure Flushing (bound : ℕ) (s : ℕ × State) : Prop where
  exact : s.2.FrozenExact
  sized : s.2.Sized
  count : s.1 + s.2.nonEmpty ≤ bound

variable {rounds : ℕ → FlushRound β}

/-- A round after which the loop goes on has taken a table with entries off. -/
theorem Flushing.next {bound : ℕ} {s s' : ℕ × State} (h : Flushing bound s)
    (hbuild : ∀ k, ∃ fault, SSTBuilder.build (rounds k).builder (rounds k).sstId
      (rounds k).sstPath = .error fault)
    (hstep : flushAllStep rounds s = .inr s') :
  Flushing bound s' ∧ s'.2.nonEmpty < s.2.nonEmpty
  := by
  obtain ⟨k, m⟩ := s
  obtain ⟨hexact, hsized, hcount⟩ := h
  dsimp only at hexact hsized hcount
  rw [flushAllStep] at hstep
  split at hstep
  next hsize =>
    obtain ⟨table, hflushed⟩ := hexact.exists_flushed hsize
    split at hstep
    next => cases hstep
    next sst m' ids hreturns =>
      cases hstep
      obtain ⟨hentries, rfl⟩ := flushLast_returns hflushed (hbuild k) hreturns
      have hcount' := nonEmpty_detached hflushed hentries
      refine ⟨⟨hexact.detached hflushed, hsized.detached hflushed, ?_⟩, ?_⟩
      · dsimp only
        omega
      · dsimp only
        omega
  next => cases hstep

/-- When the loop is left, the flush that throws counts too. -/
theorem Flushing.flushes_le {bound : ℕ} {s : ℕ × State} (h : Flushing bound s)
    {result : Except Fault Unit} {flushes : ℕ}
    (hstep : flushAllStep rounds s = .inl (result, flushes)) :
  flushes ≤ bound
  := by
  obtain ⟨k, m⟩ := s
  obtain ⟨hexact, hsized, hcount⟩ := h
  dsimp only at hexact hsized hcount
  rw [flushAllStep] at hstep
  split at hstep
  next hsize =>
    have hpos := hexact.nonEmpty_pos hsized hsize
    split at hstep
    next =>
      cases hstep
      omega
    next => cases hstep
  next =>
    cases hstep
    omega

/-- The loop ends after at most one flush for each table with entries. -/
theorem flushAll_ends {m : State} (hexact : m.FrozenExact) (hsized : m.Sized)
    (hbuild : ∀ k, ∃ fault, SSTBuilder.build (rounds k).builder (rounds k).sstId
      (rounds k).sstPath = .error fault) :
  ∃ n result flushes, Loops.run (flushAllStep rounds) n (0, m) = some (result, flushes) ∧
    flushes ≤ m.nonEmpty
  := by
  have hstart : Flushing m.nonEmpty (0, m) := ⟨hexact, hsized, (Nat.zero_add _).le⟩
  obtain ⟨n, ⟨result, flushes⟩, s, hrun, hflushing, hleft⟩ :=
    Loops.exists_run_of_invariant (fun s : ℕ × State => s.2.nonEmpty)
      (fun _ _ hflushing hstep => hflushing.next hbuild hstep) hstart
  exact ⟨n, result, flushes, hrun, hflushing.flushes_le hleft⟩

/-- After `clear` the loop goes on forever, if there are bytes counted. -/
theorem not_ends_clear {m : State} (h : m.frozenBytes ≠ 0) :
  ¬ Loops.Ends (flushAllStep rounds) (0, m.clear)
  := by
  have hsize : 0 < m.clear.getTotalSize := by
    rw [getTotalSize_clear]
    exact UInt64.pos_iff_ne_zero.mpr h
  have hgoes : ∀ s : ℕ × State, s.2 = m.clear →
      ∃ s', flushAllStep rounds s = .inr s' ∧ s'.2 = m.clear := by
    rintro ⟨k, _⟩ rfl
    use (k + 1, m.clear)
    rw [flushAllStep, if_pos hsize, flushLast_of_none m.flushed?_clear]
    exact ⟨rfl, rfl⟩
  have hstart : ((0, m.clear) : ℕ × State).2 = m.clear := rfl
  apply Loops.not_ends_of_invariant hgoes hstart

/-- After `clear` the loop ends if and only if the count of bytes has been zero before. -/
theorem flushAll_clear_iff (m : State) :
  (∃ n result flushes,
    Loops.run (flushAllStep rounds) n (0, m.clear) = some (result, flushes) ∧
      flushes ≤ m.clear.nonEmpty) ↔
    m.frozenBytes = 0
  := by
  constructor
  · rintro ⟨n, result, flushes, hrun, -⟩
    by_contra hne
    exact not_ends_clear hne ⟨n, _, hrun⟩
  · intro hzero
    have hsize : ¬ 0 < m.clear.getTotalSize := by
      rw [getTotalSize_clear, hzero]
      decide
    have hleft : flushAllStep rounds (0, m.clear) = .inl (.ok (), 0) := if_neg hsize
    exact ⟨1, .ok (), 0, Loops.run_of_left hleft 0, Nat.zero_le _⟩

/-- From a state with the count of its frozen tables, and with a builder that throws without
entries: `flush_last` leaves the count right and `flush_all` makes at most one flush for each table
with entries; `clear` leaves it right, and `flush_all` ends after it, if and only if the count has
been zero. -/
theorem frozenBytes_exact_and_flushAll_ends (m : State) (hexact : m.FrozenExact)
    (hsized : m.Sized) (rounds : ℕ → FlushRound β)
    (hbuild : ∀ k, ∃ fault, SSTBuilder.build (rounds k).builder (rounds k).sstId
      (rounds k).sstPath = .error fault) :
  (∀ (builder : β) sstPath sstId flushedTrancIds,
      (m.flushLast builder sstPath sstId flushedTrancIds).2.1.FrozenExact) ∧
    (∃ n result flushes, Loops.run (flushAllStep rounds) n (0, m) = some (result, flushes) ∧
      flushes ≤ m.nonEmpty) ∧
    (m.clear.FrozenExact ↔ m.frozenBytes = 0) ∧
    ((∃ n result flushes,
        Loops.run (flushAllStep rounds) n (0, m.clear) = some (result, flushes) ∧
          flushes ≤ m.clear.nonEmpty) ↔
      m.frozenBytes = 0)
  := ⟨hexact.flushLast, flushAll_ends hexact hsized hbuild, m.clear_exact_iff, m.flushAll_clear_iff⟩

end

/-! ### A count that is left -/

/-- A builder that counts its entries, and throws without entries. -/
structure CountingBuilder where
  count : ℕ

instance : SSTBuilder CountingBuilder ℕ where
  add builder _ _ _ := .ok ⟨builder.count + 1⟩
  build builder _ _ :=
    if builder.count = 0 then .error (.runtimeError "no entries") else .ok builder.count

/-- A memtable with one entry, in a frozen table. -/
def frozenState : State := ⟨.empty, [oneEntry], oneEntry.getSize⟩

theorem exact_frozenState : frozenState.FrozenExact
  := (Nat.add_zero _).symm

theorem sized_frozenState : frozenState.Sized
  := by
  intro t ht
  simp only [frozenState, List.mem_cons, List.not_mem_nil, or_false] at ht
  rcases ht with rfl | rfl
  · simp
  · rw [entries_oneEntry]
    decide

theorem frozenBytes_exact_and_flushAll_ends_frozenState :
  (∀ (builder : CountingBuilder) sstPath sstId flushedTrancIds,
      (frozenState.flushLast builder sstPath sstId flushedTrancIds).2.1.FrozenExact) ∧
    (∃ n result flushes,
      Loops.run (flushAllStep (fun k => ⟨CountingBuilder.mk 0, [], k⟩)) n (0, frozenState) =
        some (result, flushes) ∧ flushes ≤ frozenState.nonEmpty)
  := by
  have h := frozenBytes_exact_and_flushAll_ends frozenState exact_frozenState sized_frozenState
    (fun k => ⟨CountingBuilder.mk 0, [], k⟩) (fun _ => ⟨_, rfl⟩)
  exact ⟨h.1, h.2.1⟩

/-- After `clear` the count of a frozen table is left, and `flush_all` does not end. -/
theorem not_exact_clear_frozenState :
  frozenState.FrozenExact ∧ frozenState.Sized ∧ ¬ frozenState.clear.FrozenExact ∧
    ¬ Loops.Ends (flushAllStep (fun k => ⟨CountingBuilder.mk 0, [], k⟩)) (0, frozenState.clear)
  := by
  have hne : frozenState.frozenBytes ≠ 0 := by decide
  refine ⟨exact_frozenState, sized_frozenState, ?_, not_ends_clear hne⟩
  rw [clear_exact_iff]
  exact hne

end State

end MemTable

end TinyLsm
