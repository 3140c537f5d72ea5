import Mathlib.Data.List.Induction
import Mathlib.Order.Lattice

/-!
# Histories of versions

Versions of keys, the newest first, each with an id.  Some writers check, before they write a
version, that the newest one of the key has no greater id.  When the newest version of a key
has a small id, a version with a greater id has been overwritten by a writer that does not
check: the first of the small ids after it did not come from a check.
-/

namespace VersionHistory

variable {α κ ι : Type*} [DecidableEq κ] [LinearOrder ι] {key : α → κ} {id : α → ι}
  {Checked : α → Prop}

/-- The newest version of a key. -/
def newest (key : α → κ) (k : κ) (log : List α) : Option α :=
  log.find? (fun a => decide (key a = k))

/-- Every version that was checked has an id no smaller than the newest one before it. -/
def Ordered (key : α → κ) (id : α → ι) (Checked : α → Prop) (log : List α) : Prop :=
  ∀ newer a older, log = newer ++ a :: older → Checked a →
    ∀ b, newest key (key a) older = some b → id b ≤ id a

omit [LinearOrder ι] in
theorem newest_cons (k : κ) (a : α) (log : List α) :
  newest key k (a :: log) = if key a = k then some a else newest key k log
  := by
  rw [newest, List.find?_cons]
  by_cases h : key a = k
  · rw [if_pos h, decide_eq_true h]
  · rw [if_neg h, decide_eq_false h]
    rfl

/-- It is enough that those versions were checked that count as such. -/
theorem Ordered.mono {log : List α} (h : Ordered key id Checked log) {Checked' : α → Prop}
    (hchecked : ∀ a ∈ log, Checked' a → Checked a) :
  Ordered key id Checked' log
  := by
  intro newer a older hlog ha
  apply h newer a older hlog (hchecked a _ ha)
  rw [hlog]
  apply List.mem_append_right newer List.mem_cons_self

theorem Ordered.cons {log : List α} (h : Ordered key id Checked log) {a : α}
    (ha : Checked a → ∀ b, newest key (key a) log = some b → id b ≤ id a) :
  Ordered key id Checked (a :: log)
  := by
  intro newer a' older hlog
  cases newer with
  | nil =>
      obtain ⟨rfl, rfl⟩ := List.cons.inj hlog
      apply ha
  | cons b newer =>
      rw [List.cons_append] at hlog
      apply h newer a' older (List.cons.inj hlog).2

/-- Versions with one id may be added together, if each of them may be added. -/
theorem Ordered.append {log : List α} (h : Ordered key id Checked log) {i : ι} :
  ∀ {as : List α}, (∀ a ∈ as, id a = i) →
    (∀ a ∈ as, Checked a → ∀ b, newest key (key a) log = some b → id b ≤ i) →
    Ordered key id Checked (as ++ log)
  | [], _, _ => h
  | a :: as, hid, has => by
      have ih := h.append (fun a' ha' => hid a' (List.mem_cons_of_mem a ha'))
        (fun a' ha' => has a' (List.mem_cons_of_mem a ha'))
      apply ih.cons
      intro hchecked b hb
      rw [newest, List.find?_append] at hb
      rw [hid a List.mem_cons_self]
      rcases Option.or_eq_some_iff.mp hb with hb | ⟨-, hb⟩
      · exact (hid b (List.mem_cons_of_mem a (List.mem_of_find?_eq_some hb))).le
      · apply has a List.mem_cons_self hchecked b hb

/-- A version with a greater id than the newest one of its key has been overwritten without a
check by a version with a small id. -/
theorem Ordered.exists_unchecked {log : List α} (h : Ordered key id Checked log) {k : κ} {i : ι}
    (hnewest : ∀ b, newest key k log = some b → id b ≤ i) {newer older : List α} {a : α}
    (hlog : log = newer ++ a :: older) (hkey : key a = k) (hlt : i < id a) :
  ∃ b ∈ newer, key b = k ∧ id b ≤ i ∧ ¬ Checked b
  := by
  -- going back from the newest version, the newest one of the key stays great until an
  -- unchecked one is found
  have hback : ∀ (newer rest : List α) (a : α), log = newer ++ rest →
      newest key k rest = some a → i < id a →
      ∃ b ∈ newer, key b = k ∧ id b ≤ i ∧ ¬ Checked b := by
    intro newer
    induction newer using List.reverseRecOn with
    | nil =>
        intro rest a hlog ha hlt
        rw [List.nil_append] at hlog
        rw [← hlog] at ha
        exact absurd (hnewest a ha) (not_le_of_gt hlt)
    | append_singleton newer b ih =>
        intro rest a hlog ha hlt
        rw [List.append_assoc, List.singleton_append] at hlog
        by_cases hb : key b = k
        · have hnew : newest key k (b :: rest) = some b := by
            rw [newest_cons, if_pos hb]
          by_cases hle : id b ≤ i
          · refine ⟨b, List.mem_append_right newer List.mem_cons_self, hb, hle, ?_⟩
            intro hchecked
            subst hb
            exact absurd (h newer b rest hlog hchecked a ha) (not_le_of_gt (hle.trans_lt hlt))
          · obtain ⟨c, hc, hrest⟩ := ih (b :: rest) b hlog hnew (lt_of_not_ge hle)
            exact ⟨c, List.mem_append_left _ hc, hrest⟩
        · have hold : newest key k (b :: rest) = some a := by
            rw [newest_cons, if_neg hb, ha]
          obtain ⟨c, hc, hrest⟩ := ih (b :: rest) a hlog hold hlt
          exact ⟨c, List.mem_append_left _ hc, hrest⟩
  apply hback newer (a :: older) a hlog _ hlt
  rw [newest_cons, if_pos hkey]

end VersionHistory
