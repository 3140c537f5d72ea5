import Mathlib.Data.List.Basic
import Mathlib.Data.List.Nodup
import Mathlib.Data.List.Induction
import Mathlib.Order.Nat

/-!
# Replacement by the `k`-th access

A cache of bounded capacity holds residents, each with a key, a value, the number of its accesses
since it entered, and the time of the last one.  A hit and a put are accesses.  A put of a key that
is not resident evicts a resident if the cache is full: of those with less than `k` accesses the
least recently accessed one, and the least recently accessed one of all if there are none.

The residents are listed from the most recently accessed one on.
-/

namespace LruK

structure Resident (κ ν : Type*) where
  key : κ
  value : ν
  accesses : ℕ
  lastAccess : ℕ

/-- A call on a cache. -/
inductive Call (κ ν : Type*) where
  | get (key : κ)
  | put (key : κ) (value : ν)

structure Cache (κ ν : Type*) where
  now : ℕ
  residents : List (Resident κ ν)

variable {κ ν : Type*} [DecidableEq κ]

def find (key : κ) (R : List (Resident κ ν)) : Option (Resident κ ν) :=
  R.find? (fun r => r.key = key)

def without (key : κ) (R : List (Resident κ ν)) : List (Resident κ ν) :=
  R.filter (fun r => r.key ≠ key)

/-- The resident to be evicted. -/
def victim (k : ℕ) (R : List (Resident κ ν)) : Option (Resident κ ν) :=
  (R.filter (fun r => r.accesses < k)).getLast?.or R.getLast?

/-- The residents once there is room for one more. -/
def makeRoom (capacity k : ℕ) (R : List (Resident κ ν)) : List (Resident κ ν) :=
  if R.length < capacity then R
  else match victim k R with
    | some r => without r.key R
    | none => R

def step (capacity k : ℕ) (s : Cache κ ν) : Call κ ν → Cache κ ν
  | .get key =>
      match find key s.residents with
      | some r => ⟨s.now + 1, ⟨key, r.value, r.accesses + 1, s.now⟩ :: without key s.residents⟩
      | none => ⟨s.now + 1, s.residents⟩
  | .put key value =>
      match find key s.residents with
      | some r => ⟨s.now + 1, ⟨key, value, r.accesses + 1, s.now⟩ :: without key s.residents⟩
      | none => ⟨s.now + 1, ⟨key, value, 1, s.now⟩ :: makeRoom capacity k s.residents⟩

/-- The cache after the calls. -/
def run (capacity k : ℕ) (calls : List (Call κ ν)) : Cache κ ν :=
  calls.foldl (step capacity k) ⟨0, []⟩

/-! ### What is asked of a cache -/

/-- A resident that may be evicted: the least recently accessed one of those with less than `k`
accesses, or of all if there are none. -/
def IsVictim (k : ℕ) (R : List (Resident κ ν)) (r : Resident κ ν) : Prop :=
  r ∈ R ∧
    ((r.accesses < k ∧ ∀ r' ∈ R, r'.accesses < k → r.lastAccess ≤ r'.lastAccess) ∨
      ((∀ r' ∈ R, k ≤ r'.accesses) ∧ ∀ r' ∈ R, r.lastAccess ≤ r'.lastAccess))

/-- The value of the last put of a key after a call, from the one before it: none once the key is
evicted. -/
def standingAfter (capacity k : ℕ) (key : κ) (s : Cache κ ν) (value : Option ν)
    (call : Call κ ν) : Option ν :=
  let evicted := key ∈ s.residents.map Resident.key ∧
    key ∉ (step capacity k s call).residents.map Resident.key
  match call with
  | .put key' value' => if key' = key then some value' else if evicted then none else value
  | .get _ => if evicted then none else value

/-- The value of the last put of a key in the calls, unless the key was evicted since. -/
def standing (capacity k : ℕ) (key : κ) (calls : List (Call κ ν)) : Option ν :=
  (calls.foldl (fun (p : Cache κ ν × Option ν) call =>
    (step capacity k p.1 call, standingAfter capacity k key p.1 p.2 call)) (⟨0, []⟩, none)).2

/-! ### Residents -/

theorem find_eq_some {key : κ} {R : List (Resident κ ν)} {r : Resident κ ν}
    (h : find key R = some r) :
  r ∈ R ∧ r.key = key
  := by
  have hkey := List.find?_some h
  exact ⟨List.mem_of_find?_eq_some h, of_decide_eq_true hkey⟩

theorem find_eq_none {key : κ} {R : List (Resident κ ν)} :
  find key R = none ↔ key ∉ R.map Resident.key
  := by
  simp [find]

theorem find_cons_self (r : Resident κ ν) (R : List (Resident κ ν)) :
  find r.key (r :: R) = some r
  := List.find?_cons_of_pos (decide_eq_true rfl)

theorem find_without_of_ne {key key' : κ} (hne : key ≠ key') (R : List (Resident κ ν)) :
  find key (without key' R) = find key R
  := by
  rw [find, without, List.find?_filter]
  apply congrArg (R.find? ·)
  funext r
  by_cases h : r.key = key
  · simp [h, hne]
  · simp [h]

theorem find_without (key : κ) (R : List (Resident κ ν)) :
  find key (without key R) = none
  := by
  rw [find_eq_none]
  simp [without]

theorem map_key_without (key : κ) (R : List (Resident κ ν)) :
  (without key R).map Resident.key = (R.map Resident.key).filter (· ≠ key)
  := by
  rw [without, List.filter_map]
  rfl

omit [DecidableEq κ] in
/-- The last one of a list in order comes after all others. -/
theorem le_of_getLast?_eq_some {R : List (Resident κ ν)}
    (h : R.Pairwise (fun r r' => r'.lastAccess < r.lastAccess)) {r : Resident κ ν}
    (hlast : R.getLast? = some r) :
  ∀ r' ∈ R, r.lastAccess ≤ r'.lastAccess
  := by
  obtain ⟨R', rfl⟩ := List.getLast?_eq_some_iff.mp hlast
  intro r' hr'
  rcases List.mem_append.mp hr' with hr' | hr'
  · exact ((List.pairwise_append.mp h).2.2 r' hr' r (List.mem_singleton_self r)).le
  · rw [List.mem_singleton.mp hr']

omit [DecidableEq κ] in
theorem isVictim_of_victim {k : ℕ} {R : List (Resident κ ν)}
    (h : R.Pairwise (fun r r' => r'.lastAccess < r.lastAccess)) {r : Resident κ ν}
    (hvictim : victim k R = some r) :
  IsVictim k R r
  := by
  rcases Option.or_eq_some_iff.mp hvictim with hfew | ⟨hnone, hlast⟩
  · have hmem := List.mem_filter.mp (List.mem_of_getLast? hfew)
    refine ⟨hmem.1, .inl ⟨of_decide_eq_true hmem.2, ?_⟩⟩
    intro r' hr' hlt
    apply le_of_getLast?_eq_some (h.sublist List.filter_sublist) hfew
    exact List.mem_filter.mpr ⟨hr', decide_eq_true hlt⟩
  · refine ⟨List.mem_of_getLast? hlast, .inr ⟨?_, le_of_getLast?_eq_some h hlast⟩⟩
    intro r' hr'
    have hfilter := List.filter_eq_nil_iff.mp (List.getLast?_eq_none_iff.mp hnone)
    simpa using hfilter r' hr'

omit [DecidableEq κ] in
theorem exists_victim (k : ℕ) {R : List (Resident κ ν)} (hR : R ≠ []) :
  ∃ r, victim k R = some r
  := by
  apply Option.isSome_iff_exists.mp
  rw [victim, Option.isSome_or, List.getLast?_eq_some_getLast hR, Option.isSome_some, Bool.or_true]

/-! ### The invariant -/

/-- The residents are distinct, in the order of their last access, and not too many. -/
structure WellFormed (capacity : ℕ) (s : Cache κ ν) : Prop where
  nodup : (s.residents.map Resident.key).Nodup
  sorted : s.residents.Pairwise (fun r r' => r'.lastAccess < r.lastAccess)
  lt_now : ∀ r ∈ s.residents, r.lastAccess < s.now
  length_le : s.residents.length ≤ capacity

omit [DecidableEq κ] in
/-- An access puts a resident at the front of some of the others. -/
theorem WellFormed.access {capacity : ℕ} {s : Cache κ ν} (h : WellFormed capacity s) {key : κ}
    {R : List (Resident κ ν)} (hR : R.Sublist s.residents) (hkey : key ∉ R.map Resident.key)
    (hlength : R.length < capacity) (value : ν) (accesses : ℕ) :
  WellFormed capacity ⟨s.now + 1, ⟨key, value, accesses, s.now⟩ :: R⟩
  where
  nodup := List.nodup_cons.mpr ⟨hkey, h.nodup.sublist (hR.map _)⟩
  sorted := List.pairwise_cons.mpr
    ⟨fun r hr => h.lt_now r (hR.subset hr), h.sorted.sublist hR⟩
  lt_now := by
    intro r hr
    rcases List.mem_cons.mp hr with rfl | hr
    · exact Nat.lt_succ_self s.now
    · exact (h.lt_now r (hR.subset hr)).trans (Nat.lt_succ_self s.now)
  length_le := hlength

theorem length_without_lt {key : κ} {R : List (Resident κ ν)} {r : Resident κ ν} (hr : r ∈ R)
    (hkey : r.key = key) :
  (without key R).length < R.length
  := by
  apply List.length_filter_lt_length_iff_exists.mpr
  exact ⟨r, hr, by simp [hkey]⟩

theorem makeRoom_cases (capacity k : ℕ) {R : List (Resident κ ν)} (hcapacity : 1 ≤ capacity) :
  (R.length < capacity ∧ makeRoom capacity k R = R) ∨
    ∃ r, capacity ≤ R.length ∧ victim k R = some r ∧ makeRoom capacity k R = without r.key R
  := by
  rw [makeRoom]
  split
  next hlt => exact .inl ⟨hlt, rfl⟩
  next hlt =>
    have hR : R ≠ [] := by
      rintro rfl
      exact hlt hcapacity
    obtain ⟨r, hr⟩ := exists_victim k hR
    exact .inr ⟨r, Nat.le_of_not_lt hlt, hr, by rw [hr]⟩

theorem wellFormed_step {capacity : ℕ} (hcapacity : 1 ≤ capacity) (k : ℕ) {s : Cache κ ν}
    (h : WellFormed capacity s) (call : Call κ ν) :
  WellFormed capacity (step capacity k s call)
  := by
  have hit (key : κ) (value : ν) (r : Resident κ ν) (hfind : find key s.residents = some r) :
      WellFormed capacity
        ⟨s.now + 1, ⟨key, value, r.accesses + 1, s.now⟩ :: without key s.residents⟩ := by
    have hr := find_eq_some hfind
    apply h.access List.filter_sublist (find_eq_none.mp (find_without key s.residents))
    exact lt_of_lt_of_le (length_without_lt hr.1 hr.2) h.length_le
  cases call with
  | get key =>
      rw [step]
      split
      next r hfind => exact hit key r.value r hfind
      next =>
        exact ⟨h.nodup, h.sorted, fun r hr => (h.lt_now r hr).trans (Nat.lt_succ_self _),
          h.length_le⟩
  | put key value =>
      rw [step]
      split
      next r hfind => exact hit key value r hfind
      next hfind =>
        have hkey := find_eq_none.mp hfind
        rcases makeRoom_cases capacity k (R := s.residents) hcapacity with
          ⟨hlt, hroom⟩ | ⟨r, hfull, hvictim, hroom⟩
        · rw [hroom]
          exact h.access (List.Sublist.refl _) hkey hlt value 1
        · have hr := (isVictim_of_victim h.sorted hvictim).1
          rw [hroom]
          apply h.access List.filter_sublist _ _ value 1
          · exact fun hmem => hkey (List.mem_of_mem_filter (map_key_without r.key _ ▸ hmem))
          · exact lt_of_lt_of_le (length_without_lt hr rfl) h.length_le

theorem wellFormed_run {capacity : ℕ} (hcapacity : 1 ≤ capacity) (k : ℕ)
    (calls : List (Call κ ν)) :
  WellFormed capacity (run capacity k calls)
  := by
  induction calls using List.reverseRecOn with
  | nil => exact ⟨List.nodup_nil, .nil, by simp [run], Nat.zero_le _⟩
  | append_singleton calls call ih =>
      rw [run, List.foldl_append]
      apply wellFormed_step hcapacity k ih

/-! ### The last puts -/

/-- Of what stays of the residents the value is the same. -/
theorem find_rest {key key' : κ} (hne : key' ≠ key) {R R' : List (Resident κ ν)}
    (hR : R' = R ∨ ∃ gone, R' = without gone R) (value : ν) (accesses now : ℕ) :
  (find key (⟨key', value, accesses, now⟩ :: R')).map Resident.value =
    if key ∈ R.map Resident.key ∧
        key ∉ (⟨key', value, accesses, now⟩ :: R').map Resident.key then none
    else (find key R).map Resident.value
  := by
  have hhead : find key (⟨key', value, accesses, now⟩ :: R') = find key R' :=
    List.find?_cons_of_neg (by simpa using hne)
  have hmem : key ∉ (⟨key', value, accesses, now⟩ :: R').map Resident.key ↔
      key ∉ R'.map Resident.key := by
    simp [hne.symm]
  rw [hhead]
  simp only [hmem]
  split
  next hgone => rw [find_eq_none.mpr hgone.2, Option.map_none]
  next hstays =>
    rcases hR with rfl | ⟨gone, rfl⟩
    · rfl
    · by_cases hgone : key = gone
      · have hnot : key ∉ (without gone R).map Resident.key :=
          hgone ▸ find_eq_none.mp (find_without key R)
        have hnone : key ∉ R.map Resident.key := fun h => hstays ⟨h, hnot⟩
        rw [find_eq_none.mpr hnone, find_eq_none.mpr hnot]
      · rw [find_without_of_ne hgone]

/-- The residents hold the value of the last put of each key. -/
theorem find_step {capacity : ℕ} (hcapacity : 1 ≤ capacity) (k : ℕ) (key : κ) (s : Cache κ ν)
    (call : Call κ ν) :
  (find key (step capacity k s call).residents).map Resident.value =
    standingAfter capacity k key s ((find key s.residents).map Resident.value) call
  := by
  cases call with
  | get key' =>
      cases hfind : find key' s.residents with
      | none =>
          simp only [standingAfter, step, hfind]
          rw [if_neg (fun h => h.2 h.1)]
      | some r =>
          simp only [standingAfter, step, hfind]
          by_cases hkey : key' = key
          · subst hkey
            rw [if_neg (fun h => h.2 List.mem_cons_self), hfind]
            have hself : find key' (⟨key', r.value, r.accesses + 1, s.now⟩ ::
                without key' s.residents) = some ⟨key', r.value, r.accesses + 1, s.now⟩ :=
              find_cons_self _ _
            rw [hself]
            rfl
          · apply find_rest hkey (.inr ⟨key', rfl⟩)
  | put key' value =>
      rw [standingAfter]
      cases hfind : find key' s.residents with
      | none =>
          simp only [step, hfind]
          split
          next hkey =>
            subst hkey
            exact congrArg _ (find_cons_self ⟨key', value, 1, s.now⟩ _)
          next hkey =>
            apply find_rest hkey
            rcases makeRoom_cases capacity k (R := s.residents) hcapacity with
              ⟨-, hroom⟩ | ⟨r, -, -, hroom⟩
            · exact .inl hroom
            · exact .inr ⟨r.key, hroom⟩
      | some r =>
          simp only [step, hfind]
          split
          next hkey =>
            subst hkey
            exact congrArg _ (find_cons_self ⟨key', value, r.accesses + 1, s.now⟩ _)
          next hkey => apply find_rest hkey (.inr ⟨key', rfl⟩)

theorem find_run {capacity : ℕ} (hcapacity : 1 ≤ capacity) (k : ℕ) (key : κ)
    (calls : List (Call κ ν)) :
  (find key (run capacity k calls).residents).map Resident.value = standing capacity k key calls
  := by
  have hfold : ∀ (calls : List (Call κ ν)) (s : Cache κ ν) (value : Option ν),
      (find key s.residents).map Resident.value = value →
      (find key (calls.foldl (step capacity k) s).residents).map Resident.value =
        (calls.foldl (fun (p : Cache κ ν × Option ν) call =>
          (step capacity k p.1 call, standingAfter capacity k key p.1 p.2 call)) (s, value)).2 := by
    intro calls
    induction calls with
    | nil => intro s value h; exact h
    | cons call calls ih =>
        intro s value h
        apply ih
        rw [find_step hcapacity, h]
  exact hfold calls ⟨0, []⟩ none rfl

end LruK
