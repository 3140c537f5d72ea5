import TinyLsm.Library.OrderedSet

/-!
# Compressing a set of ids

`compressSet` replaces the run of consecutive numbers that a set starts with by the last of
them.  It keeps the greatest element, and what the set covers, of which it leaves the only form
that can be compressed no further: `compressSet_canonical`.
-/

namespace TinyLsm

/-- Drop a number as long as its successor follows. -/
def compressFrom (last : ℕ) : List ℕ → List ℕ
  | [] => [last]
  | b :: bs => if b = last + 1 then compressFrom b bs else last :: b :: bs

theorem compressFrom_sublist :
  ∀ (last : ℕ) (bs : List ℕ), (compressFrom last bs).Sublist (last :: bs)
  | last, [] => List.Sublist.refl _
  | last, b :: bs => by
      rw [compressFrom]
      split
      · exact (compressFrom_sublist b bs).trans (List.sublist_cons_self last _)
      · apply List.Sublist.refl _

theorem getLast?_compressFrom :
  ∀ (last : ℕ) (bs : List ℕ), (compressFrom last bs).getLast? = (last :: bs).getLast?
  | last, [] => rfl
  | last, b :: bs => by
      rw [compressFrom]
      split
      · rw [getLast?_compressFrom b bs, List.getLast?_cons_cons]
      · rfl

/-- The elements of a compressed set. -/
def compressElems : List ℕ → List ℕ
  | [] => []
  | a :: as => compressFrom a as

theorem compressElems_sublist : ∀ as : List ℕ, (compressElems as).Sublist as
  | [] => List.Sublist.refl _
  | a :: as => compressFrom_sublist a as

def compressSet (s : OrderedSet ℕ) : OrderedSet ℕ :=
  ⟨compressElems s.elems, s.ascending.sublist (compressElems_sublist s.elems)⟩

/-- Compressing keeps the greatest element. -/
theorem max?_compressSet (s : OrderedSet ℕ) : (compressSet s).max? = s.max?
  := by
  change (compressElems s.elems).getLast? = s.elems.getLast?
  cases s.elems with
  | nil => rfl
  | cons a as => apply getLast?_compressFrom a as

theorem exists_ge_compressSet {s : OrderedSet ℕ} {a : ℕ} :
  (∃ b ∈ compressSet s, a ≤ b) ↔ ∃ b ∈ s, a ≤ b
  := by
  rw [OrderedSet.exists_ge_iff, OrderedSet.exists_ge_iff, max?_compressSet]

/-- A list that begins with a number covers what is at most that, and the rest of it. -/
theorem covers_cons {a b : ℕ} {bs : List ℕ} (h : (b :: bs).Pairwise (· < ·)) :
  (⟨b :: bs, h⟩ : OrderedSet ℕ).Covers a ↔ a ≤ b ∨ a ∈ bs
  := by
  change (∃ m, some b = some m ∧ a ≤ m) ∨ a ∈ b :: bs ↔ _
  simp only [Option.some.injEq, exists_eq_left', List.mem_cons]
  rw [← or_assoc]
  apply or_congr_left
  omega

theorem covers_compressFrom {a : ℕ} :
  ∀ {last : ℕ} {bs : List ℕ} (h : (compressFrom last bs).Pairwise (· < ·)),
    (⟨compressFrom last bs, h⟩ : OrderedSet ℕ).Covers a ↔ a ≤ last ∨ a ∈ bs
  | _, [], h => covers_cons h
  | last, b :: bs, h => by
      by_cases heq : b = last + 1
      · have hfrom : compressFrom last (b :: bs) = compressFrom b bs := if_pos heq
        simp only [hfrom] at h ⊢
        rw [covers_compressFrom h, List.mem_cons, ← or_assoc]
        apply or_congr_left
        omega
      · have hfrom : compressFrom last (b :: bs) = last :: b :: bs := if_neg heq
        simp only [hfrom] at h ⊢
        apply covers_cons h

/-- Compressing keeps what a set covers. -/
theorem covers_compressSet {s : OrderedSet ℕ} {a : ℕ} :
  (compressSet s).Covers a ↔ s.Covers a
  := by
  obtain ⟨elems, ascending⟩ := s
  cases elems with
  | nil => rfl
  | cons b bs =>
      rw [covers_cons]
      apply covers_compressFrom

/-! ### What is left of a set -/

/-- What is left of an ascending list is what it covers up to the first number that it does not
cover, of this the last only, and what comes behind. -/
theorem mem_compressFrom_iff {a : ℕ} :
  ∀ {last : ℕ} {bs : List ℕ}, (last :: bs).Pairwise (· < ·) →
    (a ∈ compressFrom last bs ↔
      (a ≤ last ∨ a ∈ bs) ∧ ∃ b ≤ a + 1, ¬ (b ≤ last ∨ b ∈ bs))
  | last, [], _ => by
      rw [compressFrom, List.mem_singleton]
      constructor
      · rintro rfl
        refine ⟨.inl le_rfl, a + 1, le_rfl, ?_⟩
        exact fun h => h.elim (Nat.not_succ_le_self a) nofun
      · rintro ⟨hle | hmem, b, hb, hnot⟩
        · have hlt : last < b := Nat.lt_of_not_le (fun hle => hnot (.inl hle))
          omega
        · nomatch hmem
  | last, b :: bs, h => by
      obtain ⟨hless, hbs⟩ := List.pairwise_cons.mp h
      have hb := hless b List.mem_cons_self
      rw [compressFrom]
      split
      next heq =>
        have hcovered : ∀ c, c ≤ b ∨ c ∈ bs ↔ c ≤ last ∨ c ∈ b :: bs := by
          intro c
          rw [List.mem_cons, ← or_assoc]
          apply or_congr_left
          omega
        rw [mem_compressFrom_iff hbs]
        simp only [hcovered]
      next hne =>
        -- the successor of `last` is not covered
        have hgap : ¬ (last + 1 ≤ last ∨ last + 1 ∈ b :: bs) := by
          rintro (hle | hmem)
          · omega
          · rcases List.mem_cons.mp hmem with heq | hmem
            · exact hne heq.symm
            · have hlt := (List.pairwise_cons.mp hbs).1 _ hmem
              omega
        constructor
        · intro hmem
          rcases List.mem_cons.mp hmem with rfl | hmem
          · exact ⟨.inl le_rfl, a + 1, le_rfl, hgap⟩
          · have hlt := hless a hmem
            exact ⟨.inr hmem, last + 1, by omega, hgap⟩
        · rintro ⟨hle | hmem, c, hc, hnot⟩
          · have hlt : last < c := Nat.lt_of_not_le (fun hle => hnot (.inl hle))
            have heq : a = last := by omega
            exact heq ▸ List.mem_cons_self
          · exact List.mem_cons_of_mem last hmem

/-- A number is left if it is covered, and not everything up to its successor is. -/
theorem mem_compressSet_iff {s : OrderedSet ℕ} {a : ℕ} :
  a ∈ compressSet s ↔ s.Covers a ∧ ∃ b ≤ a + 1, ¬ s.Covers b
  := by
  obtain ⟨elems, ascending⟩ := s
  cases elems with
  | nil =>
      apply iff_of_false nofun
      rintro ⟨hcovers, -⟩
      obtain ⟨m, hm⟩ := hcovers.nonempty
      nomatch hm
  | cons b bs =>
      simp only [covers_cons ascending]
      exact mem_compressFrom_iff ascending

/-- What is left of a set depends on what it covers only. -/
theorem compressSet_congr {s t : OrderedSet ℕ} (h : ∀ a, s.Covers a ↔ t.Covers a) :
  compressSet s = compressSet t
  := by
  apply OrderedSet.eq_of_mem_iff
  intro a
  simp only [mem_compressSet_iff, h]

theorem compressSet_idem (s : OrderedSet ℕ) : compressSet (compressSet s) = compressSet s
  := compressSet_congr (fun _ => covers_compressSet)

/-- Nothing that is left can be left out. -/
theorem eq_compressSet_of_subset {s t : OrderedSet ℕ} (hsub : ∀ a ∈ t, a ∈ compressSet s)
    (hcovers : ∀ a, t.Covers a ↔ s.Covers a) :
  t = compressSet s
  := by
  apply OrderedSet.eq_of_mem_iff
  refine fun a => ⟨hsub a, fun ha => ?_⟩
  obtain ⟨hcovered, b, hb, hnot⟩ := mem_compressSet_iff.mp ha
  rcases (hcovers a).mpr hcovered with ⟨m, hm, hle⟩ | hmem
  · rcases Nat.eq_or_lt_of_le hle with rfl | hlt
    · exact OrderedSet.min?_mem hm
    · exact absurd ((hcovers b).mp (.inl ⟨m, hm, hb.trans hlt⟩)) hnot
  · exact hmem

theorem compressSet_elems_eq_nil_iff {s : OrderedSet ℕ} :
  (compressSet s).elems = [] ↔ s.elems = []
  := by
  rw [← List.getLast?_eq_none_iff, ← List.getLast?_eq_none_iff]
  exact iff_of_eq (congrArg (· = none) (max?_compressSet s))

/-! ### Compressing after each insertion -/

/-- Insert numbers, and compress after each of them. -/
def insertCompressing (s : OrderedSet ℕ) (as : List ℕ) : OrderedSet ℕ :=
  as.foldl (fun t a => compressSet (t.insert a)) s

/-- Each of the numbers is above the least element of the set it is inserted into. -/
def AboveMinima (s : OrderedSet ℕ) : List ℕ → Prop
  | [] => True
  | a :: as => (∀ m, s.min? = some m → m < a) ∧ AboveMinima (compressSet (s.insert a)) as

/-- Inserting a number above it and compressing does not lower the least element. -/
theorem min?_compressSet_insert {s : OrderedSet ℕ} {a m m' : ℕ} (hm : s.min? = some m)
    (hlt : m < a) (hm' : (compressSet (s.insert a)).min? = some m') :
  m ≤ m'
  := by
  have hmem : m' ∈ s.insert a := (compressElems_sublist _).subset (OrderedSet.min?_mem hm')
  exact OrderedSet.min?_le (OrderedSet.min?_insert hm hlt.le) hmem

/-- The numbers are above the least element of the first set. -/
theorem AboveMinima.lt :
  ∀ {as : List ℕ} {s : OrderedSet ℕ} {m : ℕ}, AboveMinima s as → s.min? = some m →
    ∀ a ∈ as, m < a
  | b :: as, s, m, h, hm, a, ha => by
      have hlt := h.1 m hm
      rcases List.mem_cons.mp ha with rfl | ha
      · exact hlt
      · have hcovers : (compressSet (s.insert b)).Covers b :=
          covers_compressSet.mpr (.inr (OrderedSet.mem_insert.mpr (.inl rfl)))
        obtain ⟨m', hm'⟩ := hcovers.nonempty
        exact (min?_compressSet_insert hm hlt hm').trans_lt (AboveMinima.lt h.2 hm' a ha)

/-- Whether a set is compressed before numbers are inserted does not matter. -/
theorem compressSet_foldl_compressSet {s : OrderedSet ℕ} {as : List ℕ}
    (h : AboveMinima (compressSet s) as) :
  compressSet (as.foldl .insert (compressSet s)) = compressSet (as.foldl .insert s)
  := by
  cases hm' : (compressSet s).min? with
  | none =>
      have hnil : (compressSet s).elems = [] := List.head?_eq_none_iff.mp hm'
      have hsame : compressSet s = s := by
        apply OrderedSet.eq_of_mem_iff
        intro a
        rw [OrderedSet.mem_def, OrderedSet.mem_def, hnil, compressSet_elems_eq_nil_iff.mp hnil]
      rw [hsame]
  | some m' =>
      obtain ⟨m, hm⟩ := (covers_compressSet.mp (.inl ⟨m', hm', le_rfl⟩)).nonempty
      have hle : m ≤ m' :=
        OrderedSet.min?_le hm ((compressElems_sublist _).subset (OrderedSet.min?_mem hm'))
      have habove' : ∀ a ∈ as, m' ≤ a := fun a ha => (h.lt hm' a ha).le
      apply compressSet_congr
      intro a
      rw [OrderedSet.covers_foldl_insert hm' habove', covers_compressSet,
        OrderedSet.covers_foldl_insert hm (fun b hb => hle.trans (habove' b hb))]

theorem compressSet_insertCompressing :
  ∀ {as : List ℕ} {s : OrderedSet ℕ}, AboveMinima s as →
    compressSet (insertCompressing s as) = compressSet (as.foldl .insert s)
  | [], _, _ => rfl
  | a :: as, s, h => by
      have ih := compressSet_insertCompressing h.2
      rw [compressSet_foldl_compressSet h.2] at ih
      exact ih

/-- What is compressed last stays as it is when it is compressed. -/
theorem insertCompressing_cons :
  ∀ (as : List ℕ) (s : OrderedSet ℕ) (a : ℕ),
    compressSet (insertCompressing s (a :: as)) = insertCompressing s (a :: as)
  | [], s, a => compressSet_idem (s.insert a)
  | b :: as, s, a => insertCompressing_cons as (compressSet (s.insert a)) b

/-- Compressing keeps what a set covers, its greatest element and whether it is empty; it has
nothing to do the second time; nothing that it leaves can be left out; and compressing after each
insertion leaves what compressing after the last one does. -/
theorem compressSet_canonical (s : OrderedSet ℕ) :
  (∀ a, (compressSet s).Covers a ↔ s.Covers a) ∧
    (compressSet s).max? = s.max? ∧
    ((compressSet s).elems = [] ↔ s.elems = []) ∧
    compressSet (compressSet s) = compressSet s ∧
    (∀ t : OrderedSet ℕ, (∀ a ∈ t, a ∈ compressSet s) → (∀ a, t.Covers a ↔ s.Covers a) →
      t = compressSet s) ∧
    ∀ a as, AboveMinima s (a :: as) →
      insertCompressing s (a :: as) = compressSet ((a :: as).foldl .insert s)
  := by
  refine ⟨fun _ => covers_compressSet, max?_compressSet s, compressSet_elems_eq_nil_iff,
    compressSet_idem s, fun _ => eq_compressSet_of_subset, ?_⟩
  intro a as h
  rw [← insertCompressing_cons, compressSet_insertCompressing h]

end TinyLsm
