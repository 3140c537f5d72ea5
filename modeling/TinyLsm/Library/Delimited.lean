import Mathlib.Data.List.Basic

/-!
# Delimited lists

Splitting takes a list apart at its delimiters, as reading lines does: an empty list after the
last delimiter is not read.  It undoes joining lists with the delimiter between them, if none of
them contains it and the last is not empty.
-/

namespace Delimited

variable {α : Type} {d : α}

theorem intercalate_cons {x : List α} {xs : List (List α)} (h : xs ≠ []) :
  [d].intercalate (x :: xs) = x ++ d :: [d].intercalate xs
  := by
  rw [List.intercalate_cons_of_ne_nil h, List.append_assoc, List.singleton_append]

theorem intercalate_concat {x : List α} {xs : List (List α)} (h : xs ≠ []) :
  [d].intercalate (xs ++ [x]) = [d].intercalate xs ++ d :: x
  := by
  induction xs with
  | nil => exact absurd rfl h
  | cons y xs ih =>
      cases xs with
      | nil =>
          rw [List.singleton_append, intercalate_cons (List.cons_ne_nil x []),
            List.intercalate_singleton, List.intercalate_singleton]
      | cons z xs =>
          have hne : z :: xs ++ [x] ≠ [] := List.cons_ne_nil z (xs ++ [x])
          rw [List.cons_append, intercalate_cons hne, ih (List.cons_ne_nil z xs),
            intercalate_cons (List.cons_ne_nil z xs), List.append_assoc, List.cons_append]

variable [DecidableEq α]

/-- Split what is left, after the given part of a list has been read. -/
def splitFrom (d : α) (token : List α) : List α → List (List α)
  | [] => if token = [] then [] else [token]
  | a :: text =>
      if a = d then token :: splitFrom d [] text else splitFrom d (token ++ [a]) text

def split (d : α) (text : List α) : List (List α) := splitFrom d [] text

/-- What precedes the first delimiter is read along. -/
theorem splitFrom_append {token x : List α} (h : d ∉ x) (text : List α) :
  splitFrom d token (x ++ text) = splitFrom d (token ++ x) text
  := by
  induction x generalizing token with
  | nil => rw [List.nil_append, List.append_nil]
  | cons a x ih =>
      have hne : a ≠ d := fun heq => h (heq ▸ List.mem_cons_self)
      rw [List.cons_append, splitFrom, if_neg hne, ih (fun hx => h (List.mem_cons_of_mem a hx)),
        List.append_assoc, List.singleton_append]

/-- Lists that do not contain the delimiter, and of which the last is not empty, are split
into what they have been joined from. -/
theorem split_intercalate {xs : List (List α)} (h : ∀ x ∈ xs, d ∉ x)
    (hlast : ∀ x ∈ xs.getLast?, x ≠ []) :
  split d ([d].intercalate xs) = xs
  := by
  induction xs with
  | nil => rfl
  | cons x xs ih =>
      have hx := h x List.mem_cons_self
      have hxs := fun y hy => h y (List.mem_cons_of_mem x hy)
      cases xs with
      | nil =>
          have hne : x ≠ [] := hlast x rfl
          have hsplit : splitFrom d [] (x ++ []) = _ := splitFrom_append hx []
          rw [List.append_nil, List.nil_append, splitFrom, if_neg hne] at hsplit
          rw [List.intercalate_singleton]
          apply hsplit
      | cons y xs =>
          rw [intercalate_cons (List.cons_ne_nil y xs), split, splitFrom_append hx,
            List.nil_append, splitFrom, if_pos rfl]
          congr 1
          apply ih hxs
          intro z hz
          apply hlast z
          rw [List.getLast?_cons_cons]
          apply hz

theorem split_intercalate_of_ne_nil {xs : List (List α)} (h : ∀ x ∈ xs, x ≠ [] ∧ d ∉ x) :
  split d ([d].intercalate xs) = xs
  := by
  apply split_intercalate (fun x hx => (h x hx).2)
  intro x hx
  apply (h x (List.mem_of_getLast? hx)).1

/-- No part of a list that is split contains the delimiter. -/
theorem not_mem_of_mem_splitFrom {token text x : List α} (htoken : d ∉ token)
    (hx : x ∈ splitFrom d token text) :
  d ∉ x
  := by
  induction text generalizing token with
  | nil =>
      rw [splitFrom] at hx
      split at hx
      next => cases hx
      next => rwa [List.mem_singleton.mp hx]
  | cons a text ih =>
      rw [splitFrom] at hx
      split at hx
      next =>
        rcases List.mem_cons.mp hx with rfl | hx
        · apply htoken
        · exact ih List.not_mem_nil hx
      next hne =>
        apply ih _ hx
        intro hmem
        rcases List.mem_append.mp hmem with hmem | hmem
        · exact htoken hmem
        · exact hne (List.mem_singleton.mp hmem).symm

/-- An empty list at the end is dropped. -/
theorem split_intercalate_concat_nil {xs : List (List α)} (hne : xs ≠ [])
    (h : ∀ x ∈ xs, d ∉ x) :
  split d ([d].intercalate (xs ++ [[]])) = xs
  := by
  rw [intercalate_concat hne]
  induction xs with
  | nil => exact absurd rfl hne
  | cons x xs ih =>
      have hx := h x List.mem_cons_self
      cases xs with
      | nil =>
          rw [List.intercalate_singleton, split, splitFrom_append hx, List.nil_append, splitFrom,
            if_pos rfl]
          rfl
      | cons y xs =>
          rw [intercalate_cons (List.cons_ne_nil y xs), split, List.append_assoc,
            splitFrom_append hx, List.nil_append, List.cons_append, splitFrom, if_pos rfl]
          congr 1
          apply ih (List.cons_ne_nil y xs)
          intro z hz
          exact h z (List.mem_cons_of_mem x hz)

/-- The lists that are split into what they have been joined from. -/
theorem split_intercalate_iff {xs : List (List α)} (hne : xs ≠ []) :
  split d ([d].intercalate xs) = xs ↔ (∀ x ∈ xs, d ∉ x) ∧ ∀ x ∈ xs.getLast?, x ≠ []
  := by
  constructor
  · intro h
    have hmem : ∀ x ∈ xs, d ∉ x := by
      intro x hx
      rw [← h] at hx
      exact not_mem_of_mem_splitFrom List.not_mem_nil hx
    use hmem
    rintro x hlast rfl
    obtain ⟨ys, rfl⟩ := List.getLast?_eq_some_iff.mp hlast
    cases ys with
    | nil => exact absurd h (List.cons_ne_nil _ _).symm
    | cons y ys =>
        rw [split_intercalate_concat_nil (List.cons_ne_nil y ys)
          (fun z hz => hmem z (List.mem_append_left _ hz))] at h
        simpa using congrArg List.length h
  · rintro ⟨hmem, hlast⟩
    exact split_intercalate hmem hlast

end Delimited
