import TinyLsm.SkipList.Stacks
import Mathlib.Data.List.Induction

/-!
# Reading a snapshot from a skip list

A read with the id of a transaction is to find the version of the key with the greatest id up
to that one.  `get` looks at the newest version only: it finds nothing when that is too new,
although an older version of the key may not be.
-/

namespace TinyLsm

/-- The version in a stack with the greatest id up to a given one, if there is one. -/
def IsSnapshot (stack : List (Bytes × TrancId)) (trancId : TrancId) :
    Option (Bytes × TrancId) → Prop
  | some version => version ∈ stack ∧ version.2 ≤ trancId ∧
      ∀ version' ∈ stack, version'.2 ≤ trancId → version'.2 ≤ version.2
  | none => ∀ version ∈ stack, ¬ version.2 ≤ trancId

/-- The stacks that puts lead to. -/
def stacksOf (puts : List Entry) : VersionStacks :=
  (puts.map (fun e => SkipListCall.put e.key e.value e.trancId)).foldl VersionStacks.perform
    (fun _ => [])

/-- The ids of each key do not decrease. -/
def NonDecreasing (puts : List Entry) : Prop :=
  puts.Pairwise (fun e e' => e.key = e'.key → e.trancId ≤ e'.trancId)

theorem stacksOf_concat (puts : List Entry) (e : Entry) :
  stacksOf (puts ++ [e]) = Function.update (stacksOf puts) e.key
    (pushVersion e.value e.trancId (stacksOf puts e.key))
  := by
  rw [stacksOf, List.map_append, List.foldl_append]
  rfl

theorem head?_pushVersion (value : Bytes) (trancId : TrancId) :
  ∀ stack : List (Bytes × TrancId), (pushVersion value trancId stack).head? = some (value, trancId)
  | [] => rfl
  | top :: stack => by
      rw [pushVersion]
      split <;> rfl

theorem exists_mem_pushVersion {value : Bytes} {trancId i : TrancId} :
  ∀ {stack : List (Bytes × TrancId)},
    (∃ version ∈ pushVersion value trancId stack, version.2 = i) ↔
      trancId = i ∨ ∃ version ∈ stack, version.2 = i
  | [] => by
      rw [pushVersion, List.exists_mem_cons_iff]
  | top :: stack => by
      rw [pushVersion]
      split
      next heq =>
        -- the top that is replaced has the id of what replaces it
        rw [List.exists_mem_cons_iff, List.exists_mem_cons_iff, heq, ← or_assoc, or_self]
      next => rw [List.exists_mem_cons_iff]

/-- The top of the stack of a key is the last version put. -/
theorem head?_stacksOf (key : Bytes) (puts : List Entry) :
  (stacksOf puts key).head? =
    (puts.filter (fun e => decide (e.key = key))).getLast?.map (fun e => (e.value, e.trancId))
  := by
  induction puts using List.reverseRecOn with
  | nil => rfl
  | append_singleton puts e ih =>
      rw [stacksOf_concat, List.filter_append]
      by_cases hkey : e.key = key
      · have hfilter : [e].filter (fun e => decide (e.key = key)) = [e] :=
          List.filter_cons_of_pos (decide_eq_true hkey)
        rw [hfilter, List.getLast?_concat, ← hkey, Function.update_self, head?_pushVersion]
        rfl
      · have hfilter : [e].filter (fun e => decide (e.key = key)) = [] :=
          List.filter_cons_of_neg (by simpa using hkey)
        rw [hfilter, List.append_nil, Function.update_of_ne (Ne.symm hkey), ih]

/-- The ids in the stack of a key are those of the versions put. -/
theorem exists_mem_stacksOf {key : Bytes} {i : TrancId} (puts : List Entry) :
  (∃ version ∈ stacksOf puts key, version.2 = i) ↔
    ∃ e ∈ puts, e.key = key ∧ e.trancId = i
  := by
  induction puts using List.reverseRecOn with
  | nil => exact ⟨nofun, nofun⟩
  | append_singleton puts e ih =>
      have hconcat : (∃ e' ∈ puts ++ [e], e'.key = key ∧ e'.trancId = i) ↔
          (∃ e' ∈ puts, e'.key = key ∧ e'.trancId = i) ∨ e.key = key ∧ e.trancId = i := by
        simp only [List.mem_append, List.mem_singleton, or_and_right, exists_or, exists_eq_left]
      rw [stacksOf_concat, hconcat]
      by_cases hkey : e.key = key
      · rw [← hkey, Function.update_self, exists_mem_pushVersion, hkey, ih, or_comm,
          and_iff_right rfl]
      · rw [Function.update_of_ne (Ne.symm hkey), ih]
        exact ⟨.inl, fun h => h.resolve_right (fun h => hkey h.1)⟩

/-- The top of a stack has the greatest id, if the ids put do not decrease. -/
theorem le_of_head?_stacksOf {puts : List Entry} (h : NonDecreasing puts) {key : Bytes}
    {top version : Bytes × TrancId} (htop : (stacksOf puts key).head? = some top)
    (hversion : version ∈ stacksOf puts key) :
  version.2 ≤ top.2
  := by
  obtain ⟨e, he, hkey, hid⟩ := (exists_mem_stacksOf puts).mp ⟨version, hversion, rfl⟩
  rw [head?_stacksOf] at htop
  obtain ⟨last, hlast, rfl⟩ := Option.map_eq_some_iff.mp htop
  obtain ⟨front, hsplit⟩ := List.getLast?_eq_some_iff.mp hlast
  have hmem : e ∈ front ++ [last] := by
    rw [← hsplit]
    apply List.mem_filter.mpr ⟨he, decide_eq_true hkey⟩
  have hlastKey : last.key = key := by
    have hlastMem : last ∈ puts.filter (fun e => decide (e.key = key)) := by
      rw [hsplit]
      apply List.mem_append_right front List.mem_cons_self
    exact of_decide_eq_true (List.mem_filter.mp hlastMem).2
  have hsorted := h.sublist (List.filter_sublist (p := fun e => decide (e.key = key)))
  rw [hsplit] at hsorted
  rw [← hid]
  rcases List.mem_append.mp hmem with hfront | hlast
  · apply (List.pairwise_append.mp hsorted).2.2 e hfront last List.mem_cons_self
    rw [hkey, hlastKey]
  · rw [List.mem_singleton.mp hlast]

/-- The top of a stack, if its id is at most the given one, is the version of a snapshot
exactly if the top has such an id or no version does. -/
theorem isSnapshot_head?_iff {stack : List (Bytes × TrancId)} {trancId : TrancId}
    (h : ∀ top ∈ stack.head?, ∀ version ∈ stack, version.2 ≤ top.2) :
  IsSnapshot stack trancId (stack.head?.filter (fun top => decide (top.2 ≤ trancId))) ↔
    (∀ top ∈ stack.head?, top.2 ≤ trancId) ∨ ∀ version ∈ stack, trancId < version.2
  := by
  cases stack with
  | nil => exact ⟨fun _ => .inl nofun, fun _ => nofun⟩
  | cons top stack =>
      rw [List.head?_cons, Option.filter_some]
      by_cases htop : top.2 ≤ trancId
      · rw [if_pos (decide_eq_true htop)]
        refine ⟨fun _ => .inl (fun top' htop' => Option.some.inj htop' ▸ htop), fun _ => ?_⟩
        exact ⟨List.mem_cons_self, htop, fun version hversion _ => h top rfl version hversion⟩
      · rw [if_neg (by simpa using htop)]
        constructor
        · intro hnone
          exact .inr (fun version hversion => lt_of_not_ge (hnone version hversion))
        · rintro (hle | hlt)
          · exact absurd (hle top rfl) htop
          · exact fun version hversion => not_le_of_gt (hlt version hversion)

namespace SkipList

/-- `get` points at the newest version up to the id, or at the end if there is none. -/
def ReadsSnapshot (s : SkipList) (stack : List (Bytes × TrancId)) (key : Bytes)
    (trancId : TrancId) : Prop :=
  ∃ answer, IsSnapshot stack trancId answer ∧
    s.lookup key trancId = .ok (answer.map (fun version => ⟨key, version.1, version.2⟩))

/-- With an id, `get` finds the top of the stack of a key, if its id is at most that one. -/
theorem Holds.lookup_eq {s : SkipList} {chain : List Ref} {m : VersionStacks}
    (h : s.Holds chain m) (key : Bytes) {trancId : TrancId} (hid : trancId ≠ 0) :
  s.lookup key trancId = .ok (((m key).head?.filter (fun top => decide (top.2 ≤ trancId))).map
    (fun top => ⟨key, top.1, top.2⟩))
  := by
  rw [h.chained.lookup_eq, topVersion_eq_head?, h.stacks_eq]
  cases m key with
  | nil => rfl
  | cons top stack =>
      simp only [List.head?_cons, Option.map_some, Option.filter_some, hid, false_or]
      split <;> rfl

/-- After puts whose ids do not decrease for any key, `get` reads the snapshot of an id exactly
if the last version put of the key has an id up to that one, or all of them have greater
ids. -/
theorem readsSnapshot_iff {maxLvl : ℕ} (hmax : 0 < maxLvl) (flips : ℕ → List Bool)
    {puts : List Entry} (hputs : NonDecreasing puts) (key : Bytes) {trancId : TrancId}
    (hid : trancId ≠ 0) :
  ∃ s, (empty maxLvl).performAll flips (puts.map (fun e => .put e.key e.value e.trancId)) = .ok s ∧
    (s.ReadsSnapshot (stacksOf puts key) key trancId ↔
      (∀ e ∈ (puts.filter (fun e => decide (e.key = key))).getLast?, e.trancId ≤ trancId) ∨
        ∀ e ∈ puts, e.key = key → trancId < e.trancId)
  := by
  have hempty : (empty maxLvl).Holds [] (fun _ => []) := ⟨chained_empty hmax, fun _ => rfl⟩
  obtain ⟨s, chain, hperform, hholds⟩ := hempty.performAll_eq flips
    (puts.map (fun e => .put e.key e.value e.trancId))
  have hlookup := hholds.lookup_eq key hid
  change s.lookup key trancId = .ok (((stacksOf puts key).head?.filter _).map _) at hlookup
  have hreads : s.ReadsSnapshot (stacksOf puts key) key trancId ↔
      IsSnapshot (stacksOf puts key) trancId
        ((stacksOf puts key).head?.filter (fun top => decide (top.2 ≤ trancId))) := by
    constructor
    · rintro ⟨answer, hanswer, hsame⟩
      rw [hlookup] at hsame
      have hinj : Function.Injective
          (fun version : Bytes × TrancId => (⟨key, version.1, version.2⟩ : Entry)) := by
        intro v v' heq
        cases v
        cases v'
        cases heq
        rfl
      rwa [Option.map_injective hinj (Except.ok.inj hsame)]
    · exact fun h => ⟨_, h, hlookup⟩
  have hlast : (∀ top ∈ (stacksOf puts key).head?, top.2 ≤ trancId) ↔
      ∀ e ∈ (puts.filter (fun e => decide (e.key = key))).getLast?, e.trancId ≤ trancId := by
    rw [head?_stacksOf]
    cases (puts.filter (fun e => decide (e.key = key))).getLast? with
    | none => exact ⟨fun _ => nofun, fun _ => nofun⟩
    | some last =>
        simp only [Option.map_some, Option.mem_some_iff, forall_eq']
  have hall : (∀ version ∈ stacksOf puts key, trancId < version.2) ↔
      ∀ e ∈ puts, e.key = key → trancId < e.trancId := by
    constructor
    · intro h e he hkey
      obtain ⟨version, hversion, heq⟩ := (exists_mem_stacksOf puts).mpr ⟨e, he, hkey, rfl⟩
      rw [← heq]
      apply h version hversion
    · intro h version hversion
      obtain ⟨e, he, hkey, heq⟩ := (exists_mem_stacksOf puts).mp ⟨version, hversion, rfl⟩
      rw [← heq]
      apply h e he hkey
  refine ⟨s, hperform, ?_⟩
  rw [hreads, isSnapshot_head?_iff, hlast, hall]
  intro top htop version hversion
  apply le_of_head?_stacksOf hputs htop hversion

/-- With the id of the newest version `get` finds that one. -/
theorem readsSnapshot_iff_newest :
  ∃ s, (empty 16).performAll (fun _ => [])
      [.put [1] [7] 1, .put [2] [8] 2, .put [1] [9] 3] = .ok s ∧
    s.ReadsSnapshot [([9], 3), ([7], 1)] [1] 3
  := by
  have hputs : NonDecreasing [⟨[1], [7], 1⟩, ⟨[2], [8], 2⟩, ⟨[1], [9], 3⟩] := by
    simp [NonDecreasing]
  obtain ⟨s, hperform, hreads⟩ := readsSnapshot_iff (show 0 < 16 by decide) (fun _ => []) hputs [1]
    (show 3 ≠ 0 by decide)
  refine ⟨s, hperform, hreads.mpr (.inl ?_)⟩
  intro e he
  obtain rfl := Option.some.inj he
  apply le_rfl

/-- Two versions of a key have been put with the ids `1` and `3`.  With the id `2`, `get` finds
neither. -/
theorem not_readsSnapshot :
  ¬ ∀ (maxLvl : ℕ) (flips : ℕ → List Bool) (puts : List Entry) (key : Bytes) (trancId : TrancId),
    0 < maxLvl → NonDecreasing puts → trancId ≠ 0 →
    ∃ s, (empty maxLvl).performAll flips (puts.map (fun e => .put e.key e.value e.trancId)) = .ok s ∧
      s.ReadsSnapshot (stacksOf puts key) key trancId
  := by
  intro h
  obtain ⟨s, hperform, answer, hanswer, hlookup⟩ := h 16 (fun _ => [])
    [⟨[1], [7], 1⟩, ⟨[1], [9], 3⟩] [1] 2 (by decide) (by simp [NonDecreasing]) (by decide)
  have hnone : ((empty 16).performAll (fun _ => []) [.put [1] [7] 1, .put [1] [9] 3] >>=
      fun s => s.lookup [1] 2) = .ok none := by
    decide
  simp only [List.map_cons, List.map_nil] at hperform
  rw [Except.bind_eq_of_ok _ hperform, hlookup] at hnone
  obtain rfl := Option.map_eq_none_iff.mp (Except.ok.inj hnone)
  apply hanswer ([7], 1) _ (by decide)
  decide

end SkipList

end TinyLsm
