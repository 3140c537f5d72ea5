import TinyLsm.SkipList.SnapshotRead

/-!
# The order of a flush

The versions of a key are flushed from the last one put on, whatever their ids.  A flush after
puts is in the order of the nodes, that of the keys and within a key that of the ids from the
greatest on, if and only if no put has an id less than that of an earlier put of its key.
-/

namespace TinyLsm

/-- `SkipListNode::operator<`, with the greater id of a key first. -/
def Entry.Less (e e' : Entry) : Prop :=
  if e.key = e'.key then e'.trancId < e.trancId else e.key < e'.key

instance (e e' : Entry) : Decidable (e.Less e') :=
  inferInstanceAs (Decidable (if e.key = e'.key then e'.trancId < e.trancId else e.key < e'.key))

/-- The ids of a stack, that of the top first, are strictly descending. -/
def Descending (stack : List (Bytes × TrancId)) : Prop := stack.Pairwise (fun v w => w.2 < v.2)

/-- The ids of every stack are related if and only if those of versions of the same key are. -/
theorem pairwise_stackOf_iff {R : TrancId → TrancId → Prop} {es : List Entry} :
  (∀ key, (stackOf key es).Pairwise (fun v w => R v.2 w.2)) ↔
    es.Pairwise (fun e e' => e.key = e'.key → R e.trancId e'.trancId)
  := by
  simp only [stackOf, List.pairwise_map, List.pairwise_filter, decide_eq_true_eq]
  constructor
  · intro h
    rw [List.pairwise_iff_getElem]
    intro i j hi hj hij heq
    exact List.pairwise_iff_getElem.mp (h es[i].key) i j hi hj hij rfl heq.symm
  · intro h key
    apply h.imp
    intro e e' hR hkey hkey'
    exact hR (hkey.trans hkey'.symm)

/-- Versions by their keys are in the order of the nodes if and only if the ids of each key are
strictly descending. -/
theorem pairwise_less_iff {es : List Entry} (h : es.Pairwise (fun e e' => e.key ≤ e'.key)) :
  es.Pairwise Entry.Less ↔ ∀ key, Descending (stackOf key es)
  := by
  simp only [Descending, pairwise_stackOf_iff (R := fun i j => j < i)]
  constructor
  · intro hless
    apply hless.imp
    intro e e' hlt hkey
    rwa [Entry.Less, if_pos hkey] at hlt
  · intro hids
    apply (h.and hids).imp
    rintro e e' ⟨hle, hid⟩
    rw [Entry.Less]
    split
    next heq => exact hid heq
    next hne => exact lt_of_le_of_ne hle hne

/-! ### Stacks -/

/-- The versions of a key pushed one after the other. -/
def pushAll (stack : List (Bytes × TrancId)) (puts : List (Bytes × TrancId)) :
    List (Bytes × TrancId) :=
  puts.foldl (fun stack v => pushVersion v.1 v.2 stack) stack

/-- After puts, the stack of a key has what has been put for the key pushed to it. -/
theorem foldl_perform_put (key : Bytes) :
  ∀ (es : List Entry) (m : VersionStacks),
    (es.map (fun e => .put e.key e.value e.trancId)).foldl VersionStacks.perform m key =
      pushAll (m key) (stackOf key es)
  | [], _ => rfl
  | e :: es, m => by
      rw [List.map_cons, List.foldl_cons, foldl_perform_put key es, stackOf_cons,
        VersionStacks.perform]
      by_cases hkey : e.key = key
      · subst hkey
        rw [Function.update_self, if_pos rfl]
        rfl
      · rw [Function.update_of_ne (Ne.symm hkey), if_neg hkey]

/-- The top of a stack after a push is what has been pushed, and nothing has got lost from what
was below. -/
theorem exists_pushVersion (value : Bytes) (trancId : TrancId) (stack : List (Bytes × TrancId)) :
  ∃ below, pushVersion value trancId stack = (value, trancId) :: below ∧
    (below = stack ∨ ∃ top, stack = top :: below ∧ top.2 = trancId)
  := by
  cases stack with
  | nil => exact ⟨[], rfl, .inl rfl⟩
  | cons top stack =>
      rw [pushVersion]
      split
      next hid => exact ⟨stack, rfl, .inr ⟨top, rfl, hid⟩⟩
      next => exact ⟨top :: stack, rfl, .inl rfl⟩

/-- A push keeps a stack descending if and only if its id is not less than that of the top. -/
theorem descending_pushVersion_iff {stack : List (Bytes × TrancId)} (h : Descending stack)
    (value : Bytes) (trancId : TrancId) :
  Descending (pushVersion value trancId stack) ↔ ∀ top ∈ stack.head?, top.2 ≤ trancId
  := by
  cases stack with
  | nil => exact iff_of_true (List.pairwise_singleton _ _) (fun _ ht => nomatch ht)
  | cons top stack =>
      obtain ⟨htop, hstack⟩ := List.pairwise_cons.mp h
      simp only [List.head?_cons, Option.mem_some_iff, forall_eq', pushVersion]
      split
      next hid =>
        subst hid
        exact iff_of_true (List.pairwise_cons.mpr ⟨htop, hstack⟩) le_rfl
      next hid =>
        constructor
        · intro hpush
          exact ((List.pairwise_cons.mp hpush).1 top List.mem_cons_self).le
        · intro hle
          have hlt : top.2 < trancId := lt_of_le_of_ne hle hid
          apply List.pairwise_cons.mpr ⟨_, h⟩
          intro v hv
          rcases List.mem_cons.mp hv with rfl | hv
          · apply hlt
          · exact (htop v hv).trans hlt

/-- What is out of order stays so. -/
theorem descending_of_pushAll :
  ∀ {puts stack : List (Bytes × TrancId)}, Descending (pushAll stack puts) → Descending stack
  | [], _, h => h
  | v :: puts, stack, h => by
      have hpush : Descending (pushVersion v.1 v.2 stack) := descending_of_pushAll h
      obtain ⟨below, heq, hbelow⟩ := exists_pushVersion v.1 v.2 stack
      rw [heq] at hpush
      obtain ⟨hfirst, hrest⟩ := List.pairwise_cons.mp hpush
      rcases hbelow with rfl | ⟨top, rfl, hid⟩
      · apply hrest
      · apply List.pairwise_cons.mpr ⟨_, hrest⟩
        intro w hw
        rw [hid]
        apply hfirst w hw

/-- Pushes leave a stack descending if and only if their ids do not decrease from the id of the
top on. -/
theorem descending_pushAll_iff :
  ∀ {puts stack : List (Bytes × TrancId)}, Descending stack →
    (Descending (pushAll stack puts) ↔
      (∀ top ∈ stack.head?, ∀ v ∈ puts, top.2 ≤ v.2) ∧ puts.Pairwise (fun v w => v.2 ≤ w.2))
  | [], _, h => iff_of_true h ⟨fun _ _ _ hv => (nomatch hv), .nil⟩
  | v :: puts, stack, h => by
      have hpush := descending_pushVersion_iff h v.1 v.2
      obtain ⟨below, heq, -⟩ := exists_pushVersion v.1 v.2 stack
      rw [pushAll, List.foldl_cons, ← pushAll, List.pairwise_cons]
      constructor
      · intro hall
        have hfirst := descending_of_pushAll hall
        obtain ⟨htop, hputs⟩ := (descending_pushAll_iff hfirst).mp hall
        rw [heq] at htop
        have hle := hpush.mp hfirst
        refine ⟨?_, htop _ rfl, hputs⟩
        intro top ht w hw
        rcases List.mem_cons.mp hw with rfl | hw
        · apply hle top ht
        · exact (hle top ht).trans (htop _ rfl w hw)
      · rintro ⟨htop, hv, hputs⟩
        have hfirst := hpush.mpr (fun top ht => htop top ht v List.mem_cons_self)
        apply (descending_pushAll_iff hfirst).mpr ⟨_, hputs⟩
        rw [heq]
        rintro _ ⟨⟩ w hw
        apply hv w hw

/-! ### Runs -/

namespace SkipList

/-- Whatever the puts into the empty list and the coin flips: the flush is in the order of the
nodes if and only if no put has an id less than that of an earlier put of its key. -/
theorem flush_less_iff {maxLvl : ℕ} (hmax : 0 < maxLvl) (flips : ℕ → List Bool)
    (es : List Entry) :
  ∃ s out, (empty maxLvl).performAll flips (es.map (fun e => .put e.key e.value e.trancId)) = .ok s ∧
    s.flush = .ok out ∧
    (out.Pairwise Entry.Less ↔ NonDecreasing es)
  := by
  have hempty : (empty maxLvl).Holds [] (fun _ => []) := ⟨chained_empty hmax, fun _ => rfl⟩
  obtain ⟨s, chain, hperform, hholds⟩ := hempty.performAll_eq flips
    (es.map (fun e => .put e.key e.value e.trancId))
  refine ⟨s, _, hperform, hholds.chained.flush_eq, ?_⟩
  rw [pairwise_less_iff hholds.chained.sorted_versions, NonDecreasing,
    ← pairwise_stackOf_iff (R := fun i j => i ≤ j)]
  apply forall_congr'
  intro key
  have hnil : Descending [] := .nil
  rw [hholds.stacks_eq, foldl_perform_put, descending_pushAll_iff hnil]
  exact and_iff_right (by rintro _ ⟨⟩)

theorem flush_less_iff_default :
  ∃ s out, empty.performAll (fun _ => []) [.put [1] [7] 1, .put [1] [8] 2] = .ok s ∧
    s.flush = .ok out ∧
    (out.Pairwise Entry.Less ↔ NonDecreasing [⟨[1], [7], 1⟩, ⟨[1], [8], 2⟩])
  := flush_less_iff (by decide) (fun _ => []) [⟨[1], [7], 1⟩, ⟨[1], [8], 2⟩]

/-- A version with a smaller id that is put later is flushed first. -/
theorem not_flush_less :
  ¬ ∀ (flips : ℕ → List Bool) (es : List Entry), ∃ s out,
    empty.performAll flips (es.map (fun e => .put e.key e.value e.trancId)) = .ok s ∧
      s.flush = .ok out ∧ out.Pairwise Entry.Less
  := by
  intro h
  obtain ⟨s, out, hs, hflush, hless⟩ := h (fun _ => []) [⟨[1], [7], 2⟩, ⟨[1], [8], 1⟩]
  have hout : empty.performAll (fun _ => []) [.put [1] [7] 2, .put [1] [8] 1] >>=
      flush = .ok [⟨[1], [8], 1⟩, ⟨[1], [7], 2⟩] := by decide
  have hsame : Except.ok out = _ := hflush.symm.trans ((Except.bind_eq_of_ok flush hs).symm.trans hout)
  obtain rfl := Except.ok.inj hsame
  exact absurd hless (by decide)

end SkipList

end TinyLsm
