import Mathlib.Data.List.Basic

/-!
# Linked lists

The cells of a linked list are found by following links from a cell: `Links next p cs` says
that the links from `p` visit the cells `cs` and then end.  Reading a link may fail.  In a
doubly linked list the cells point back as well, `BackLinks prev p cs`.

Which links a list reads matters only at its cells, so a cell is linked in or out by
changing the links around it.
-/

namespace List

variable {φ ρ : Type}

/-- Following `next` from `p` visits the cells `cs` and then ends. -/
def Links (next : ρ → Except φ (Option ρ)) : ρ → List ρ → Prop
  | p, [] => next p = .ok none
  | p, c :: cs => next p = .ok (some c) ∧ Links next c cs

/-- Each of the cells `cs` points back to the one before it, the first of them to `p`. -/
def BackLinks (prev : ρ → Except φ (Option ρ)) : ρ → List ρ → Prop
  | _, [] => True
  | p, c :: cs => prev c = .ok (some p) ∧ BackLinks prev c cs

theorem getLastD_append_cons {α : Type} (a d : α) :
  ∀ (xs ys : List α), (xs ++ a :: ys).getLastD d = ys.getLastD a
  | [], _ => getLastD_cons
  | x :: xs, ys => by
      rw [cons_append, getLastD_cons, getLastD_append_cons a x xs ys]

variable {next next' : ρ → Except φ (Option ρ)}

/-- The link of the last of the cells `xs` leads to the first of the cells after them. -/
theorem Links.next_last :
  ∀ {p : ρ} {xs ys : List ρ}, Links next p (xs ++ ys) → next (xs.getLastD p) = .ok ys.head?
  | _, [], [], h => h
  | _, [], _ :: _, h => h.1
  | _, _ :: _, _, h => by
      rw [getLastD_cons]
      apply h.2.next_last

/-- The first of the cells is where the link leads, and its links visit the others. -/
theorem Links.next_head {p : ρ} {cs : List ρ} (h : Links next p cs) : next p = .ok cs.head?
  := @next_last _ _ next p [] cs h

/-- The links from the last of the cells `xs` visit the cells after them. -/
theorem Links.from_last :
  ∀ {p : ρ} {xs ys : List ρ}, Links next p (xs ++ ys) → Links next (xs.getLastD p) ys
  | _, [], _, h => h
  | _, _ :: _, _, h => by
      rw [getLastD_cons]
      apply h.2.from_last

/-- The links from any of the cells visit the cells after it. -/
theorem Links.from_mem :
  ∀ {pre suf : List ρ} {p c : ρ} {cs : List ρ}, Links next p cs → p :: cs = pre ++ c :: suf →
    Links next c suf
  | [], _, _, _, _, h, hsplit => by
      obtain ⟨rfl, rfl⟩ := cons.inj hsplit
      apply h
  | _ :: pre, _, _, _, [], _, hsplit => by
      obtain ⟨-, hnil⟩ := cons.inj hsplit
      exact absurd hnil.symm (append_ne_nil_of_right_ne_nil pre (cons_ne_nil _ _))
  | _ :: _, _, _, _, _ :: _, h, hsplit => h.2.from_mem (cons.inj hsplit).2

theorem Links.congr :
  ∀ {p : ρ} {cs : List ρ}, Links next p cs → (∀ c ∈ p :: cs, next' c = next c) →
    Links next' p cs
  | _, [], h, hsame => (hsame _ mem_cons_self).trans h
  | _, _ :: _, h, hsame =>
      ⟨(hsame _ mem_cons_self).trans h.1,
        h.2.congr (fun c hc => hsame c (mem_cons_of_mem _ hc))⟩

/-- Linking in a cell `c` after the cells `xs`: the last of `xs` gets a link to `c`, and `c`
the link it had. -/
theorem Links.insert {c : ρ} {ys : List ρ} :
  ∀ {p : ρ} {xs : List ρ}, Links next p (xs ++ ys) → (p :: (xs ++ ys)).Nodup →
    next' (xs.getLastD p) = .ok (some c) → next' c = next (xs.getLastD p) →
    (∀ r ∈ p :: (xs ++ ys), r ≠ xs.getLastD p → next' r = next r) →
    Links next' p (xs ++ c :: ys)
  | p, [], h, hnodup, hlast, hnew, hsame => by
      have hp : p ∉ ys := (nodup_cons.mp hnodup).1
      refine ⟨hlast, ?_⟩
      cases ys with
      | nil => apply hnew.trans h
      | cons y ys =>
          refine ⟨hnew.trans h.1, h.2.congr ?_⟩
          intro r hr
          apply hsame r (mem_cons_of_mem p hr)
          rintro rfl
          apply hp hr
  | p, x :: xs, h, hnodup, hlast, hnew, hsame => by
      obtain ⟨hp, hnodup'⟩ := nodup_cons.mp hnodup
      rw [getLastD_cons] at hlast hnew hsame
      have hne : p ≠ xs.getLastD x := by
        rintro rfl
        apply hp (mem_append_left ys getLastD_mem_cons)
      refine ⟨(hsame p mem_cons_self hne).trans h.1, ?_⟩
      apply h.2.insert hnodup' hlast hnew
      intro r hr
      apply hsame r (mem_cons_of_mem p hr)

/-- Linking out the cell `c` after the cells `xs`: the last of `xs` gets the link `c` has. -/
theorem Links.remove {c : ρ} {ys : List ρ} :
  ∀ {p : ρ} {xs : List ρ}, Links next p (xs ++ c :: ys) → (p :: (xs ++ c :: ys)).Nodup →
    next' (xs.getLastD p) = next c →
    (∀ r ∈ p :: (xs ++ c :: ys), r ≠ xs.getLastD p → next' r = next r) →
    Links next' p (xs ++ ys)
  | p, [], h, hnodup, hlast, hsame => by
      have hp : p ∉ c :: ys := (nodup_cons.mp hnodup).1
      cases ys with
      | nil => exact hlast.trans h.2
      | cons y ys =>
          refine ⟨hlast.trans h.2.1, h.2.2.congr ?_⟩
          intro r hr
          apply hsame r (mem_cons_of_mem p (mem_cons_of_mem c hr))
          rintro rfl
          apply hp (mem_cons_of_mem c hr)
  | p, x :: xs, h, hnodup, hlast, hsame => by
      obtain ⟨hp, hnodup'⟩ := nodup_cons.mp hnodup
      rw [getLastD_cons] at hlast hsame
      have hne : p ≠ xs.getLastD x := by
        rintro rfl
        apply hp (mem_append_left (c :: ys) getLastD_mem_cons)
      refine ⟨(hsame p mem_cons_self hne).trans h.1, ?_⟩
      apply h.2.remove hnodup' hlast
      intro r hr
      apply hsame r (mem_cons_of_mem p hr)

variable {prev prev' : ρ → Except φ (Option ρ)}

theorem BackLinks.congr :
  ∀ {p : ρ} {cs : List ρ}, BackLinks prev p cs → (∀ c ∈ cs, prev' c = prev c) →
    BackLinks prev' p cs
  | _, [], _, _ => trivial
  | _, _ :: _, h, hsame =>
      ⟨(hsame _ mem_cons_self).trans h.1,
        h.2.congr (fun c hc => hsame c (mem_cons_of_mem _ hc))⟩

/-- A cell points back to the one before it. -/
theorem BackLinks.getElem? :
  ∀ {p : ρ} {cs : List ρ} {i : ℕ} {c : ρ}, BackLinks prev p cs → cs[i]? = some c →
    prev c = .ok (p :: cs)[i]?
  | _, _ :: _, 0, _, h, hc => by
      obtain rfl := Option.some.inj hc
      exact h.1
  | _, _ :: _, i + 1, _, h, hc => h.2.getElem? hc

/-- Linking in a cell `c` after the cells `xs`: it points back to the last of `xs`, and the
first cell after it points back to `c`. -/
theorem BackLinks.insert {c : ρ} {ys : List ρ} :
  ∀ {p : ρ} {xs : List ρ}, BackLinks prev p (xs ++ ys) → (xs ++ ys).Nodup →
    prev' c = .ok (some (xs.getLastD p)) → (∀ y ∈ ys.head?, prev' y = .ok (some c)) →
    (∀ r ∈ xs ++ ys, r ∉ ys.head? → prev' r = prev r) →
    BackLinks prev' p (xs ++ c :: ys)
  | p, [], h, hnodup, hnew, hnext, hsame => by
      refine ⟨hnew, ?_⟩
      cases ys with
      | nil => trivial
      | cons y ys =>
          refine ⟨hnext y rfl, h.2.congr ?_⟩
          intro r hr
          apply hsame r (mem_cons_of_mem y hr)
          intro hry
          obtain rfl := Option.some.inj hry
          exact (nodup_cons.mp hnodup).1 hr
  | p, x :: xs, h, hnodup, hnew, hnext, hsame => by
      obtain ⟨hx, hnodup'⟩ := nodup_cons.mp hnodup
      rw [getLastD_cons] at hnew
      refine ⟨(hsame x mem_cons_self ?_).trans h.1, ?_⟩
      · intro hxy
        apply hx (mem_append_right xs (mem_of_mem_head? hxy))
      · apply h.2.insert hnodup' hnew hnext
        intro r hr
        apply hsame r (mem_cons_of_mem x hr)

/-- Linking out the cell `c` after the cells `xs`: the first cell after it points back to the
last of `xs`. -/
theorem BackLinks.remove {c : ρ} {ys : List ρ} :
  ∀ {p : ρ} {xs : List ρ}, BackLinks prev p (xs ++ c :: ys) → (xs ++ c :: ys).Nodup →
    (∀ y ∈ ys.head?, prev' y = .ok (some (xs.getLastD p))) →
    (∀ r ∈ xs ++ ys, r ∉ ys.head? → prev' r = prev r) →
    BackLinks prev' p (xs ++ ys)
  | p, [], h, hnodup, hnext, hsame => by
      cases ys with
      | nil => trivial
      | cons y ys =>
          refine ⟨hnext y rfl, h.2.2.congr ?_⟩
          intro r hr
          apply hsame r (mem_cons_of_mem y hr)
          intro hry
          obtain rfl := Option.some.inj hry
          exact (nodup_cons.mp (nodup_cons.mp hnodup).2).1 hr
  | p, x :: xs, h, hnodup, hnext, hsame => by
      obtain ⟨hx, hnodup'⟩ := nodup_cons.mp hnodup
      rw [getLastD_cons] at hnext
      refine ⟨(hsame x mem_cons_self ?_).trans h.1, ?_⟩
      · intro hxy
        apply hx (mem_append_right xs (mem_cons_of_mem c (mem_of_mem_head? hxy)))
      · apply h.2.remove hnodup' hnext
        intro r hr
        apply hsame r (mem_cons_of_mem x hr)

end List
