import Mathlib.Data.List.Nodup

/-!
# Maps in the order of insertion

A map is the list of its keys with their values, in the order in which the keys were inserted.
Assigning to a key that is there leaves it in its place, and a new key comes last.
-/

namespace InsertionOrder

variable {κ ν : Type*} [DecidableEq κ]

def keys (m : List (κ × ν)) : List κ := m.map Prod.fst

def lookup : List (κ × ν) → κ → Option ν
  | [], _ => none
  | p :: m, k => if p.1 = k then some p.2 else lookup m k

def assign : List (κ × ν) → κ → ν → List (κ × ν)
  | [], k, v => [(k, v)]
  | p :: m, k, v => if p.1 = k then (k, v) :: m else p :: assign m k v

/-- Assign pairs, one after another. -/
def assignAll (m : List (κ × ν)) (ps : List (κ × ν)) : List (κ × ν) :=
  ps.foldl (fun m p => assign m p.1 p.2) m

def erase : List (κ × ν) → κ → List (κ × ν)
  | [], _ => []
  | p :: m, k => if p.1 = k then m else p :: erase m k

omit [DecidableEq κ] in
@[simp]
theorem keys_cons (p : κ × ν) (m : List (κ × ν)) : keys (p :: m) = p.1 :: keys m
  := rfl

theorem lookup_eq_none_iff {m : List (κ × ν)} {k : κ} : lookup m k = none ↔ k ∉ keys m
  := by
  induction m with
  | nil => exact iff_of_true rfl List.not_mem_nil
  | cons p m ih =>
      rw [lookup, keys_cons, List.mem_cons, not_or, ← ih]
      split
      next heq => exact iff_of_false nofun (fun h => h.1 heq.symm)
      next hne => exact (and_iff_right (Ne.symm hne)).symm

theorem lookup_assign (m : List (κ × ν)) (k : κ) (v : ν) (k' : κ) :
  lookup (assign m k v) k' = if k' = k then some v else lookup m k'
  := by
  induction m with
  | nil =>
      rw [assign, lookup]
      exact if_congr eq_comm rfl rfl
  | cons p m ih =>
      rw [assign]
      split
      next heq =>
        rw [lookup, lookup]
        dsimp only
        split
        next h => rw [if_pos h.symm]
        next h => rw [if_neg (Ne.symm h), if_neg (fun h' => h (heq ▸ h'))]
      next hne =>
        rw [lookup, lookup, ih]
        split
        next heq => rw [if_neg (fun h => hne (heq.trans h))]
        next => rfl

theorem keys_assign (m : List (κ × ν)) (k : κ) (v : ν) :
  keys (assign m k v) = if k ∈ keys m then keys m else keys m ++ [k]
  := by
  induction m with
  | nil => rfl
  | cons p m ih =>
      rw [assign, keys_cons]
      split
      next heq => rw [if_pos (heq ▸ List.mem_cons_self), keys_cons, heq]
      next hne =>
        rw [keys_cons, ih]
        split
        next hmem => rw [if_pos (List.mem_cons_of_mem _ hmem)]
        next hmem =>
          rw [if_neg (fun h => (List.mem_cons.mp h).elim (Ne.symm hne) hmem), List.cons_append]

theorem nodup_keys_assign {m : List (κ × ν)} (h : (keys m).Nodup) (k : κ) (v : ν) :
  (keys (assign m k v)).Nodup
  := by
  rw [keys_assign]
  split
  next => apply h
  next hmem =>
    rw [List.nodup_append_comm]
    exact List.nodup_cons.mpr ⟨hmem, h⟩

theorem mem_assign {m : List (κ × ν)} {k : κ} {v : ν} {p : κ × ν} (h : p ∈ assign m k v) :
  p = (k, v) ∨ p ∈ m
  := by
  induction m with
  | nil => exact .inl (List.mem_singleton.mp h)
  | cons q m ih =>
      rw [assign] at h
      split at h
      next =>
        rcases List.mem_cons.mp h with rfl | h
        · exact .inl rfl
        · exact .inr (List.mem_cons_of_mem q h)
      next =>
        rcases List.mem_cons.mp h with rfl | h
        · exact .inr List.mem_cons_self
        · exact (ih h).imp id (List.mem_cons_of_mem q)

theorem assign_ne_nil (m : List (κ × ν)) (k : κ) (v : ν) : assign m k v ≠ []
  := by
  cases m with
  | nil => exact List.cons_ne_nil _ _
  | cons p m =>
      rw [assign]
      split
      · exact List.cons_ne_nil _ _
      · exact List.cons_ne_nil _ _

theorem assignAll_ne_nil {ps : List (κ × ν)} (h : ps ≠ []) :
  ∀ (m : List (κ × ν)), assignAll m ps ≠ []
  := by
  induction ps with
  | nil => exact absurd rfl h
  | cons p ps ih =>
      intro m
      rw [assignAll, List.foldl_cons, ← assignAll]
      cases ps with
      | nil => apply assign_ne_nil
      | cons q ps => exact ih (List.cons_ne_nil q ps) _

theorem keys_erase [BEq κ] [LawfulBEq κ] (m : List (κ × ν)) (k : κ) :
  keys (erase m k) = (keys m).erase k
  := by
  induction m with
  | nil => rfl
  | cons p m ih =>
      rw [erase, keys_cons, List.erase_cons]
      simp only [beq_iff_eq]
      split
      next => rfl
      next => rw [keys_cons, ih]

theorem erase_of_notMem {m : List (κ × ν)} {k : κ} (h : k ∉ keys m) : erase m k = m
  := by
  induction m with
  | nil => rfl
  | cons p m ih =>
      rw [keys_cons, List.mem_cons, not_or] at h
      rw [erase, if_neg (Ne.symm h.1), ih h.2]

theorem lookup_erase {m : List (κ × ν)} (h : (keys m).Nodup) (k k' : κ) :
  lookup (erase m k) k' = if k' = k then none else lookup m k'
  := by
  induction m with
  | nil => rw [erase, lookup, ite_self]
  | cons p m ih =>
      rw [keys_cons, List.nodup_cons] at h
      rw [erase]
      split
      next heq =>
        split
        next heq' => rw [lookup_eq_none_iff, heq', ← heq]; exact h.1
        next hne => rw [lookup, if_neg (fun h' => hne (h'.symm.trans heq))]
      next hne =>
        rw [lookup, lookup, ih h.2]
        split
        next heq => rw [if_neg (fun h' => hne (heq.trans h'))]
        next => rfl

theorem mem_of_mem_erase {m : List (κ × ν)} {k : κ} {p : κ × ν} (h : p ∈ erase m k) : p ∈ m
  := by
  induction m with
  | nil => cases h
  | cons q m ih =>
      rw [erase] at h
      split at h
      next => exact List.mem_cons_of_mem q h
      next =>
        rcases List.mem_cons.mp h with rfl | h
        · exact List.mem_cons_self
        · exact List.mem_cons_of_mem q (ih h)

end InsertionOrder
