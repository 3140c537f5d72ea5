import Mathlib.Logic.Function.Basic

/-!
# An index of scores

Members have scores, and an index has a member stored under the key of a score.  An entry of the
index is stale if the member that it names does not have a score with that key; the index is
complete if each member is found under the key of its score.

The keys of different scores may be the same, and the index may be unable to store a member.
-/

/-- The scores of the members, and the entries of the index. -/
@[ext]
structure Index (μ σ ι : Type*) where
  score : μ → Option σ
  entry : ι → Option μ

namespace Index

variable {μ σ ι : Type*} [DecidableEq μ] [DecidableEq ι]
variable {key : σ → ι} {named : μ → Option μ} {x : Index μ σ ι}

/-- Each entry names a member that has a score with its key. -/
def NoStale (key : σ → ι) (x : Index μ σ ι) : Prop :=
  ∀ i m, x.entry i = some m → ∃ s, x.score m = some s ∧ key s = i

/-- Each member is found under the key of its score. -/
def Complete (key : σ → ι) (x : Index μ σ ι) : Prop :=
  ∀ m s, x.score m = some s → x.entry (key s) = some m

/-- Give a member a score, and store under the key of the score what names the member. -/
def assign (key : σ → ι) (named : μ → Option μ) (x : Index μ σ ι) (m : μ) (s : σ) : Index μ σ ι :=
  ⟨Function.update x.score m (some s), Function.update x.entry (key s) (named m)⟩

/-- Take a member with its score out. -/
def remove (key : σ → ι) (x : Index μ σ ι) (m : μ) (s : σ) : Index μ σ ι :=
  ⟨Function.update x.score m none, Function.update x.entry (key s) none⟩

/-- Take an entry out of the index. -/
def unlist (x : Index μ σ ι) (i : ι) : Index μ σ ι :=
  ⟨x.score, Function.update x.entry i none⟩

theorem score_assign (m m' : μ) (s : σ) :
  (x.assign key named m s).score m' = if m' = m then some s else x.score m'
  := Function.update_apply x.score m (some s) m'

theorem entry_assign (m : μ) (s : σ) (i : ι) :
  (x.assign key named m s).entry i = if i = key s then named m else x.entry i
  := Function.update_apply x.entry (key s) (named m) i

theorem score_remove (m m' : μ) (s : σ) :
  (x.remove key m s).score m' = if m' = m then none else x.score m'
  := Function.update_apply x.score m none m'

theorem entry_remove (m : μ) (s : σ) (i : ι) :
  (x.remove key m s).entry i = if i = key s then none else x.entry i
  := Function.update_apply x.entry (key s) none i

omit [DecidableEq μ] in
theorem entry_unlist (i i' : ι) :
  (x.unlist i).entry i' = if i' = i then none else x.entry i'
  := Function.update_apply x.entry i none i'

/-- Assign scores to members, one after another. -/
def assignAll (key : σ → ι) (named : μ → Option μ) (x : Index μ σ ι) (ps : List (σ × μ)) :
    Index μ σ ι :=
  ps.foldl (fun x p => x.assign key named p.2 p.1) x

theorem assignAll_append (ps qs : List (σ × μ)) :
  x.assignAll key named (ps ++ qs) = (x.assignAll key named ps).assignAll key named qs
  := List.foldl_append

/-- Members that have no scores yet get the ones that are assigned to them. -/
theorem score_assignAll {ps : List (σ × μ)} (hnodup : (ps.map Prod.snd).Nodup) :
  ∀ {x : Index μ σ ι}, (∀ p ∈ ps, x.score p.2 = none) → ∀ m s,
    (x.assignAll key named ps).score m = some s ↔ x.score m = some s ∨ (s, m) ∈ ps
  := by
  induction ps with
  | nil =>
      intro x _ m s
      rw [or_iff_left List.not_mem_nil]
      rfl
  | cons p ps ih =>
      intro x hnone m s
      obtain ⟨hp, hnodup⟩ := List.nodup_cons.mp hnodup
      have hother : ∀ q ∈ ps, q.2 ≠ p.2 :=
        fun q hq heq => hp (List.mem_map.mpr ⟨q, hq, heq⟩)
      rw [assignAll, List.foldl_cons, ← assignAll, ih hnodup, score_assign, List.mem_cons,
        Prod.ext_iff]
      · split
        next heq =>
          rw [heq, hnone p List.mem_cons_self, Option.some.injEq, and_iff_left rfl,
            eq_comm, or_iff_right (a := none = some s) nofun]
        next hne => rw [or_iff_right (a := _ ∧ _) (fun h => hne h.2)]
      · intro q hq
        rw [score_assign, if_neg (hother q hq), hnone q (List.mem_cons_of_mem p hq)]

/-- Take members out, one after another, as far as they are there. -/
def removeAll (key : σ → ι) (x : Index μ σ ι) (ms : List μ) : Index μ σ ι :=
  ms.foldl (fun x m => (x.score m).elim x (x.remove key m)) x

/-- What taking out one member that is there preserves, taking out several does too. -/
theorem removeAll_induction {P : Index μ σ ι → Prop}
    (hremove : ∀ {x : Index μ σ ι} {m s}, P x → x.score m = some s → P (x.remove key m s))
    (ms : List μ) :
  ∀ {x : Index μ σ ι}, P x → P (x.removeAll key ms)
  := by
  induction ms with
  | nil => exact fun h => h
  | cons m ms ih =>
      intro x h
      rw [removeAll, List.foldl_cons, ← removeAll]
      apply ih
      cases hscore : x.score m with
      | none => apply h
      | some s => apply hremove h hscore

/-- Give a member a score after its old entry has been taken out. -/
def reassign (key : σ → ι) (named : μ → Option μ) (x : Index μ σ ι) (m : μ) (s : σ) :
    Index μ σ ι :=
  ((x.score m).elim x (fun t => x.unlist (key t))).assign key named m s

namespace NoStale

/-- A member may be given a score if the index names it under no other key. -/
theorem assign (h : NoStale key x) (hnamed : ∀ m m', named m = some m' → m' = m) {m : μ} {s : σ}
    (hother : ∀ i, x.entry i = some m → i = key s) :
  NoStale key (x.assign key named m s)
  := by
  intro i m' hentry
  rw [entry_assign] at hentry
  rw [score_assign]
  split at hentry
  next heq =>
    obtain rfl := hnamed m m' hentry
    exact ⟨s, if_pos rfl, heq.symm⟩
  next hne =>
    have hm' : m' ≠ m := by
      rintro rfl
      exact hne (hother i hentry)
    rw [if_neg hm']
    apply h i m' hentry

/-- A member that has a score with the key already may be assigned to. -/
theorem assign_of_same (h : NoStale key x) (hnamed : ∀ m m', named m = some m' → m' = m) {m : μ}
    {s : σ} (hsame : ∀ t, x.score m = some t → key t = key s) :
  NoStale key (x.assign key named m s)
  := by
  apply h.assign hnamed
  intro i hentry
  obtain ⟨t, hscore, rfl⟩ := h i m hentry
  apply hsame t hscore

theorem remove (h : NoStale key x) {m : μ} {s : σ} (hscore : x.score m = some s) :
  NoStale key (x.remove key m s)
  := by
  intro i m' hentry
  rw [entry_remove] at hentry
  rw [score_remove]
  split at hentry
  next => cases hentry
  next hne =>
    obtain ⟨t, hscore', rfl⟩ := h i m' hentry
    have hm' : m' ≠ m := by
      rintro rfl
      obtain rfl := Option.some.inj (hscore.symm.trans hscore')
      exact hne rfl
    exact ⟨t, by rw [if_neg hm', hscore'], rfl⟩

theorem removeAll (ms : List μ) :
  ∀ {x : Index μ σ ι}, NoStale key x → NoStale key (x.removeAll key ms)
  := removeAll_induction (fun h hscore => h.remove hscore) ms

/-- A member whose old entry is taken out may be given any score. -/
theorem reassign (h : NoStale key x) (hnamed : ∀ m m', named m = some m' → m' = m) (m : μ) (s : σ) :
  NoStale key (x.reassign key named m s)
  := by
  rw [Index.reassign]
  cases hscore : x.score m with
  | none =>
      apply h.assign hnamed
      intro i hentry
      obtain ⟨t, hscore', -⟩ := h i m hentry
      rw [hscore] at hscore'
      cases hscore'
  | some t =>
      have hunlist : NoStale key (x.unlist (key t)) := by
        intro i m' hentry
        rw [entry_unlist] at hentry
        split at hentry
        next => cases hentry
        next => apply h i m' hentry
      apply hunlist.assign hnamed
      intro i hentry
      rw [entry_unlist] at hentry
      split at hentry
      next => cases hentry
      next hne =>
        obtain ⟨t', hscore', rfl⟩ := h i m hentry
        obtain rfl := Option.some.inj (hscore.symm.trans hscore')
        exact absurd rfl hne

/-- Scores may be assigned if the members have no scores with other keys, neither from before nor
among the assigned ones. -/
theorem assignAll (hnamed : ∀ m m', named m = some m' → m' = m) {ps : List (σ × μ)} :
  ∀ {x : Index μ σ ι}, NoStale key x → (∀ p ∈ ps, ∀ t, x.score p.2 = some t → key t = key p.1) →
    ps.Pairwise (fun p q => p.2 = q.2 → key p.1 = key q.1) → NoStale key (x.assignAll key named ps)
  := by
  induction ps with
  | nil => exact fun h _ _ => h
  | cons p ps ih =>
      intro x h hsame hpairwise
      obtain ⟨hp, hpairwise⟩ := List.pairwise_cons.mp hpairwise
      rw [Index.assignAll, List.foldl_cons, ← Index.assignAll]
      apply ih (h.assign_of_same hnamed (hsame p List.mem_cons_self)) _ hpairwise
      intro q hq t hscore
      rw [score_assign] at hscore
      split at hscore
      next heq =>
        obtain rfl := Option.some.inj hscore
        exact hp q hq heq.symm
      next => apply hsame q (List.mem_cons_of_mem p hq) t hscore

end NoStale

namespace Complete

/-- A member may be given a score whose key no other member has. -/
theorem assign (h : Complete key x) {m : μ} {s : σ} (hnamed : named m = some m)
    (hfree : ∀ m' t, m' ≠ m → x.score m' = some t → key t ≠ key s) :
  Complete key (x.assign key named m s)
  := by
  intro m' t hscore
  rw [score_assign] at hscore
  rw [entry_assign]
  split at hscore
  next heq =>
    obtain rfl := Option.some.inj hscore
    rw [if_pos rfl, hnamed, heq]
  next hne =>
    rw [if_neg (hfree m' t hne hscore)]
    apply h m' t hscore

theorem remove (h : Complete key x) {m : μ} {s : σ} (hscore : x.score m = some s) :
  Complete key (x.remove key m s)
  := by
  intro m' t hscore'
  rw [score_remove] at hscore'
  rw [entry_remove]
  split at hscore'
  next => cases hscore'
  next hne =>
    have hkey : key t ≠ key s := by
      intro heq
      have hentry := h m' t hscore'
      rw [heq, h m s hscore] at hentry
      exact hne (Option.some.inj hentry).symm
    rw [if_neg hkey]
    apply h m' t hscore'

theorem removeAll (ms : List μ) :
  ∀ {x : Index μ σ ι}, Complete key x → Complete key (x.removeAll key ms)
  := removeAll_induction (fun h hscore => h.remove hscore) ms

/-- A member whose old entry is taken out may be given a score whose key no other member has. -/
theorem reassign (h : Complete key x) {m : μ} {s : σ} (hnamed : named m = some m)
    (hfree : ∀ m' t, m' ≠ m → x.score m' = some t → key t ≠ key s) :
  Complete key (x.reassign key named m s)
  := by
  rw [Index.reassign]
  cases hscore : x.score m with
  | none => apply h.assign hnamed hfree
  | some t =>
      intro m' t' hscore'
      have hremoved := h.remove hscore
      rw [Option.elim_some, score_assign] at hscore'
      rw [Option.elim_some, entry_assign]
      split at hscore'
      next heq =>
        obtain rfl := Option.some.inj hscore'
        rw [if_pos rfl, hnamed, heq]
      next hne =>
        rw [if_neg (hfree m' t' hne hscore')]
        apply hremoved m' t'
        rw [score_remove, if_neg hne]
        apply hscore'

/-- Scores may be assigned if no other member has one with the same key, neither from before nor
among the assigned ones. -/
theorem assignAll {ps : List (σ × μ)} (hnamed : ∀ p ∈ ps, named p.2 = some p.2) :
  ∀ {x : Index μ σ ι}, Complete key x →
    (∀ p ∈ ps, ∀ m t, m ≠ p.2 → x.score m = some t → key t ≠ key p.1) →
    ps.Pairwise (fun p q => p.2 ≠ q.2 → key p.1 ≠ key q.1) → Complete key (x.assignAll key named ps)
  := by
  induction ps with
  | nil => exact fun h _ _ => h
  | cons p ps ih =>
      intro x h hfree hpairwise
      obtain ⟨hp, hpairwise⟩ := List.pairwise_cons.mp hpairwise
      obtain ⟨hnamedp, hnamed⟩ := List.forall_mem_cons.mp hnamed
      rw [Index.assignAll, List.foldl_cons, ← Index.assignAll]
      apply ih hnamed (h.assign hnamedp (hfree p List.mem_cons_self)) _ hpairwise
      intro q hq m t hne hscore
      rw [score_assign] at hscore
      split at hscore
      next heq =>
        obtain rfl := Option.some.inj hscore
        exact hp q hq (heq ▸ hne)
      next => apply hfree q (List.mem_cons_of_mem p hq) m t hne hscore

end Complete

end Index
