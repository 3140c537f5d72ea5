import Mathlib.Algebra.Order.BigOperators.Group.List
import Mathlib.Algebra.Order.Group.Nat
import TinyLsm.SkipList.Stacks

/-!
# The counter of bytes

The size of a skip list against what its versions take up.  They agree in every state of a run
if and only if no put of the run replaces a value by one that is not empty, and the versions fit
the counter.
-/

namespace TinyLsm

/-- What versions take up together. -/
def totalSize (es : List Entry) : ℕ := (es.map Entry.size).sum

@[simp]
theorem totalSize_nil : totalSize [] = 0
  := rfl

@[simp]
theorem totalSize_cons (e : Entry) (es : List Entry) :
  totalSize (e :: es) = e.size + totalSize es
  := by
  rw [totalSize, List.map_cons, List.sum_cons, totalSize]

theorem totalSize_eq_zero_iff {es : List Entry} : totalSize es = 0 ↔ es = []
  := by
  cases es with
  | nil => exact iff_of_true rfl rfl
  | cons e es =>
      apply iff_of_false _ (List.cons_ne_nil e es)
      rw [totalSize_cons, Entry.size]
      omega

theorem topVersion_cons (key : Bytes) (e : Entry) (es : List Entry) :
  topVersion key (e :: es) = if e.key = key then some e else topVersion key es
  := by
  rw [topVersion, List.find?_cons]
  by_cases h : e.key = key
  · rw [if_pos h, decide_eq_true h]
  · rw [if_neg h, decide_eq_false h, topVersion]

/-- A version among others takes up no more than these. -/
theorem size_le_totalSize {key : Bytes} {e : Entry} {es : List Entry}
    (h : topVersion key es = some e) :
  e.size ≤ totalSize es
  := List.single_le_sum (fun _ _ => Nat.zero_le _) _
    (List.mem_map_of_mem (List.mem_of_find?_eq_some h))

/-- What is put in is added, and what it replaces is gone. -/
theorem totalSize_insertVersion (e : Entry) :
  ∀ {es : List Entry}, es.Pairwise (fun e e' => e.key ≤ e'.key) →
    totalSize (insertVersion e es) + ((replacedVersion e es).map Entry.size).getD 0 =
      totalSize es + e.size
  | [], _ => by
      rw [insertVersion, totalSize_cons, Nat.add_comm (totalSize [])]
      rfl
  | e' :: es, h => by
      obtain ⟨hfirst, hes⟩ := List.pairwise_cons.mp h
      rw [insertVersion, replacedVersion, topVersion_cons]
      split
      next hlt =>
        have ih := totalSize_insertVersion e hes
        rw [replacedVersion] at ih
        rw [if_neg hlt.ne, totalSize_cons, totalSize_cons]
        omega
      next hge =>
        by_cases hkey : e'.key = e.key
        · rw [if_pos hkey, Option.filter_some]
          by_cases hid : e'.trancId = e.trancId
          · rw [if_pos ⟨hkey, hid⟩, if_pos (decide_eq_true hid), Option.map_some, Option.getD_some,
              totalSize_cons, totalSize_cons]
            omega
          · rw [if_neg (fun hsame => hid hsame.2), if_neg (by simpa using hid), totalSize_cons]
            exact Nat.add_comm e.size _
        · -- the keys from here on are greater, so that nothing is replaced
          have hnone : topVersion e.key es = none := by
            apply List.find?_eq_none.mpr
            intro e'' he'' heq
            have hle := hfirst e'' he''
            rw [of_decide_eq_true heq] at hle
            exact hkey (le_antisymm hle (le_of_not_gt hge))
          rw [if_neg (fun hsame => hkey hsame.1), if_neg hkey, hnone, totalSize_cons]
          exact Nat.add_comm e.size _

/-- What is removed is gone. -/
theorem totalSize_removeVersion (key : Bytes) :
  ∀ es : List Entry, totalSize (removeVersion key es) +
    ((topVersion key es).map Entry.size).getD 0 = totalSize es
  | [] => rfl
  | e :: es => by
      rw [removeVersion_cons, topVersion_cons, totalSize_cons]
      split
      next =>
        rw [Option.map_some, Option.getD_some]
        exact Nat.add_comm (totalSize es) e.size
      next =>
        rw [totalSize_cons, Nat.add_assoc, totalSize_removeVersion]

/-! ### Calls -/

/-- The versions after a call. -/
def performVersions (es : List Entry) : SkipListCall → List Entry
  | .put key value trancId => insertVersion ⟨key, value, trancId⟩ es
  | .remove key => removeVersion key es
  | .clear => []

/-- The counter after a call on versions. -/
def performSize (size : UInt64) (es : List Entry) : SkipListCall → UInt64
  | .put key value trancId => insertedSize ⟨key, value, trancId⟩ size es
  | .remove key => removedSize key size es
  | .clear => 0

/-- A put that replaces a value leaves it empty, and the versions still fit the counter after
any other put. -/
def SkipListCall.Counted (es : List Entry) : SkipListCall → Prop
  | .put key value trancId =>
      if (replacedVersion ⟨key, value, trancId⟩ es).isSome then value = []
      else totalSize es + Entry.size ⟨key, value, trancId⟩ < 2 ^ 64
  | .remove _ => True
  | .clear => True

instance (es : List Entry) : ∀ c : SkipListCall, Decidable (c.Counted es)
  | .put key value trancId =>
      inferInstanceAs (Decidable (if (replacedVersion ⟨key, value, trancId⟩ es).isSome then _
        else _))
  | .remove _ => .isTrue trivial
  | .clear => .isTrue trivial

/-- Taking off what is there does not wrap. -/
theorem toNat_sub_ofNat {size : UInt64} {n : ℕ} (h : n ≤ size.toNat) :
  (size - UInt64.ofNat n).toNat = size.toNat - n
  := by
  have hlt := size.toNat_lt
  have hn : (UInt64.ofNat n).toNat = n := UInt64.toNat_ofNat_of_lt' (h.trans_lt hlt)
  rw [UInt64.toNat_sub_of_le, hn]
  rw [UInt64.le_iff_toNat_le, hn]
  apply h

/-- If the counter is right before a call, it is right after it if and only if the call is
counted. -/
theorem performSize_eq_iff {size : UInt64} {es : List Entry}
    (hsorted : es.Pairwise (fun e e' => e.key ≤ e'.key)) (h : size.toNat = totalSize es)
    (c : SkipListCall) :
  (performSize size es c).toNat = totalSize (performVersions es c) ↔ c.Counted es
  := by
  cases c with
  | put key value trancId =>
      have htotal := totalSize_insertVersion ⟨key, value, trancId⟩ hsorted
      rw [performSize, performVersions, SkipListCall.Counted, insertedSize]
      cases hreplaced : replacedVersion ⟨key, value, trancId⟩ es with
      | none =>
          rw [hreplaced] at htotal
          change totalSize (insertVersion _ es) = totalSize es + _ at htotal
          dsimp only
          rw [UInt64.toNat_add, UInt64.toNat_ofNat', Nat.add_mod_mod, h, htotal,
            if_neg (by decide)]
          exact Nat.mod_eq_iff_lt (by decide)
      | some e' =>
          obtain ⟨htop, hid⟩ := Option.filter_eq_some_iff.mp hreplaced
          have hkey : e'.key = key := by simpa using List.find?_some htop
          have hle := size_le_totalSize htop
          rw [hreplaced, Option.map_some, Option.getD_some, Entry.size, Entry.size, hkey] at htotal
          rw [Entry.size] at hle
          dsimp only at htotal ⊢
          rw [toNat_sub_ofNat (by omega), h, if_pos Option.isSome_some, ← List.length_eq_zero_iff]
          omega
  | remove key =>
      have htotal := totalSize_removeVersion key es
      rw [performSize, performVersions, removedSize]
      apply iff_of_true _ trivial
      cases htop : topVersion key es with
      | none =>
          rw [htop] at htotal
          exact h.trans htotal.symm
      | some e =>
          have hle := size_le_totalSize htop
          rw [htop, Option.map_some, Option.getD_some] at htotal
          dsimp only
          rw [toNat_sub_ofNat (by omega), h]
          omega
  | clear => exact iff_of_true rfl trivial

/-! ### Runs -/

namespace SkipList

def getSize (s : SkipList) : UInt64 := s.sizeBytes

/-- The size is what the nodes of the list take up, and zero for the empty list only. -/
def Accounted (s : SkipList) : Prop :=
  ∃ es, s.flush = .ok es ∧ s.getSize.toNat = totalSize es ∧ (s.getSize = 0 ↔ es = [])

theorem Chained.accounted_iff_sum {s : SkipList} {chain : List Ref} (h : s.Chained chain) :
  s.Accounted ↔ s.sizeBytes.toNat = totalSize (s.versions chain)
  := by
  constructor
  · rintro ⟨es, hflush, hsize, -⟩
    obtain rfl := Except.ok.inj (hflush.symm.trans h.flush_eq)
    apply hsize
  · intro hsize
    refine ⟨_, h.flush_eq, hsize, ?_⟩
    rw [← totalSize_eq_zero_iff, ← hsize, ← UInt64.toNat_inj]
    exact Iff.rfl

/-- A call on a chained list does to the versions and to the counter what it does to them
alone. -/
theorem Chained.perform_eq {s : SkipList} {chain : List Ref} (h : s.Chained chain)
    (flips : List Bool) (c : SkipListCall) :
  ∃ s' chain', s.perform flips c = .ok s' ∧ s'.Chained chain' ∧
    s'.versions chain' = performVersions (s.versions chain) c ∧
    s'.sizeBytes = performSize s.sizeBytes (s.versions chain) c
  := by
  cases c with
  | put key value trancId => exact h.put_eq flips key value trancId
  | remove key => exact h.remove_eq key
  | clear => exact ⟨s.clear, [], rfl, h.clear, rfl, rfl⟩

/-- If a list is accounted for, it is so after a call if and only if the call is counted. -/
theorem Chained.accounted_perform_iff {s : SkipList} {chain : List Ref} (h : s.Chained chain)
    (hacc : s.Accounted) (flips : List Bool) (c : SkipListCall) :
  ∃ s' chain', s.perform flips c = .ok s' ∧ s'.Chained chain' ∧
    (s'.Accounted ↔ c.Counted (s.versions chain))
  := by
  obtain ⟨s', chain', hperform, hchained, hversions, hsize⟩ := h.perform_eq flips c
  refine ⟨s', chain', hperform, hchained, ?_⟩
  rw [hchained.accounted_iff_sum, hversions, hsize]
  exact performSize_eq_iff h.sorted_versions (h.accounted_iff_sum.mp hacc) c

theorem performAll_concat (c : SkipListCall) :
  ∀ (s : SkipList) (flips : ℕ → List Bool) (cs : List SkipListCall),
    s.performAll flips (cs ++ [c]) =
      (do
        let s' ← s.performAll flips cs
        s'.perform (flips cs.length) c)
  | s, flips, [] => by
      change (s.perform (flips 0) c >>= fun s' => .ok s') = s.perform (flips 0) c
      cases s.perform (flips 0) c <;> rfl
  | s, flips, c' :: cs => by
      rw [List.cons_append, performAll, performAll]
      cases s.perform (flips 0) c' with
      | error e => rfl
      | ok s₁ => apply performAll_concat c s₁ (fun i => flips (i + 1)) cs

theorem chained_performAll {maxLvl : ℕ} (hmax : 0 < maxLvl) (flips : ℕ → List Bool)
    (cs : List SkipListCall) :
  ∃ s chain, (empty maxLvl).performAll flips cs = .ok s ∧ s.Chained chain
  := by
  have hempty : (empty maxLvl).Holds [] (fun _ => []) := ⟨chained_empty hmax, fun _ => rfl⟩
  obtain ⟨s, chain, hperform, hholds⟩ := hempty.performAll_eq flips cs
  exact ⟨s, chain, hperform, hholds.chained⟩

/-- Whatever the calls on the empty list and the coin flips: the size is right in every state of
the run if and only if every call is counted in the state it finds. -/
theorem accounted_iff {maxLvl : ℕ} (hmax : 0 < maxLvl) (flips : ℕ → List Bool)
    (cs : List SkipListCall) :
  (∀ n ≤ cs.length, ∃ s, (empty maxLvl).performAll flips (cs.take n) = .ok s ∧ s.Accounted) ↔
    ∀ n c, cs[n]? = some c → ∃ s es, (empty maxLvl).performAll flips (cs.take n) = .ok s ∧
      s.flush = .ok es ∧ c.Counted es
  := by
  -- the state after one more call
  have hstep : ∀ n c s chain, cs[n]? = some c →
      (empty maxLvl).performAll flips (cs.take n) = .ok s → s.Chained chain → s.Accounted →
      ∃ s', (empty maxLvl).performAll flips (cs.take (n + 1)) = .ok s' ∧
        (s'.Accounted ↔ c.Counted (s.versions chain)) := by
    intro n c s chain hc hs hchained hacc
    obtain ⟨s', -, hperform, -, hiff⟩ :=
      hchained.accounted_perform_iff hacc (flips (cs.take n).length) c
    refine ⟨s', ?_, hiff⟩
    rw [List.take_add_one, hc, Option.toList_some, performAll_concat, Except.bind_eq_of_ok _ hs,
      hperform]
  constructor
  · intro h n c hc
    have hlt := (List.getElem?_eq_some_iff.mp hc).1
    obtain ⟨s, chain, hs, hchained⟩ := chained_performAll hmax flips (cs.take n)
    refine ⟨s, _, hs, hchained.flush_eq, ?_⟩
    obtain ⟨t, ht, hacc⟩ := h n hlt.le
    obtain rfl := Except.ok.inj (hs.symm.trans ht)
    obtain ⟨s', hs', hiff⟩ := hstep n c s chain hc hs hchained hacc
    obtain ⟨t', ht', hacc'⟩ := h (n + 1) hlt
    obtain rfl := Except.ok.inj (hs'.symm.trans ht')
    exact hiff.mp hacc'
  · intro h n
    induction n with
    | zero =>
        intro _
        have hempty := (chained_empty hmax).accounted_iff_sum.mpr rfl
        exact ⟨empty maxLvl, rfl, hempty⟩
    | succ n ih =>
        intro hlt
        obtain ⟨s, hs, hacc⟩ := ih (Nat.le_of_succ_le hlt)
        obtain ⟨t, chain, ht, hchained⟩ := chained_performAll hmax flips (cs.take n)
        obtain rfl := Except.ok.inj (hs.symm.trans ht)
        have hc : cs[n]? = some cs[n] := List.getElem?_eq_getElem hlt
        obtain ⟨s', hs', hiff⟩ := hstep n cs[n] s chain hc hs hchained hacc
        obtain ⟨t, es, ht, hflush, hcounted⟩ := h n cs[n] hc
        obtain rfl := Except.ok.inj (hs.symm.trans ht)
        obtain rfl := Except.ok.inj (hflush.symm.trans hchained.flush_eq)
        exact ⟨s', hs', hiff.mpr hcounted⟩

theorem accounted_iff_put :
  (∀ n ≤ 1, ∃ s, (empty 16).performAll (fun _ => []) ([SkipListCall.put [1] [7] 1].take n) = .ok s ∧
      s.Accounted) ↔
    ∀ n c, [SkipListCall.put [1] [7] 1][n]? = some c →
      ∃ s es, (empty 16).performAll (fun _ => []) ([SkipListCall.put [1] [7] 1].take n) = .ok s ∧
        s.flush = .ok es ∧ c.Counted es
  := accounted_iff (by decide) (fun _ => []) [.put [1] [7] 1]

/-- Putting a version with a value of nine bytes three times leaves the size at zero. -/
theorem not_accounted_replacing :
  ¬ ∀ (flips : ℕ → List Bool) (cs : List SkipListCall),
    ∃ s, empty.performAll flips cs = .ok s ∧ s.Accounted
  := by
  intro h
  let put := SkipListCall.put [1] (List.replicate 9 7) 1
  obtain ⟨s, hs, es, hflush, -, hzero⟩ := h (fun _ => []) [put, put, put]
  have hsize : empty.performAll (fun _ => []) [put, put, put] >>= (fun s => .ok s.getSize) =
      .ok 0 := by decide
  have hdata : empty.performAll (fun _ => []) [put, put, put] >>= flush =
      .ok [⟨[1], List.replicate 9 7, 1⟩] := by decide
  rw [Except.bind_eq_of_ok _ hs] at hsize hdata
  obtain rfl := Except.ok.inj (hflush.symm.trans hdata)
  exact List.cons_ne_nil _ _ (hzero.mp (Except.ok.inj hsize))

end SkipList

end TinyLsm
