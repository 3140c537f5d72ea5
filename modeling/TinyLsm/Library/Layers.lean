import Mathlib.Data.List.Infix
import Mathlib.Order.Basic

/-!
# Reading layers from the top down

Layers are looked through from the top down, and the first that has an answer gives it.  The
answer of the top layer may change.  The others only move down: the top layer becomes the first
of the middle ones, and the last of the middle ones the first of those at the bottom.

A reader who looks at the top layer, later at the middle ones and last at those at the bottom
finds what was the first answer at a moment in between.  Nothing moves up, so that the layers
below him hold what was the answer when he began, or has been since: `was_found`.
-/

/-- The answers that layers have, if they have one. -/
structure Layers (V : Type*) where
  top : Option V
  middle : List (Option V)
  bottom : List (Option V)

namespace Layers

variable {V : Type*}

/-- The first answer of some layers. -/
def first (layers : List (Option V)) : Option V := layers.findSome? id

/-- The first answer from the top down. -/
def answer (l : Layers V) : Option V := first (l.top :: l.middle ++ l.bottom)

/-- How layers change: the answer of the top one does, or layers move down, or those at the
bottom are exchanged for others with the same first answer. -/
inductive Next : Layers V → Layers V → Prop
  | write {l : Layers V} (top : Option V) : Next l { l with top }
  | shift {l : Layers V} (top : Option V) : Next l { l with top, middle := l.top :: l.middle }
  | sink {l : Layers V} {middle : List (Option V)} {last : Option V} :
      l.middle = middle ++ [last] → Next l { l with middle, bottom := last :: l.bottom }
  | drop {l : Layers V} (top : Option V) :
      l.middle = [] → Next l { l with top, bottom := l.top :: l.bottom }
  | settle {l : Layers V} {bottom : List (Option V)} :
      first bottom = first l.bottom → Next l { l with bottom }

theorem first_append (layers layers' : List (Option V)) :
  first (layers ++ layers') = (first layers).or (first layers')
  := List.findSome?_append

theorem first_cons (layer : Option V) (layers : List (Option V)) :
  first (layer :: layers) = layer.or (first layers)
  := by
  cases layer with
  | none => rfl
  | some v => rfl

theorem answer_eq (l : Layers V) :
  l.answer = l.top.or ((first l.middle).or (first l.bottom))
  := by
  rw [answer, List.cons_append, first_cons, first_append]

/-- What is found from one of the lower layers on was found before from one of them on, the
same if it was all of the middle ones, or was the answer. -/
theorem Next.lower {l l' : Layers V} (h : Next l l') {layers : List (Option V)}
    (hlayers : layers <:+ l'.middle) :
  first (layers ++ l'.bottom) = l.answer ∨
    ∃ layers', layers' <:+ l.middle ∧ (layers = l'.middle → layers' = l.middle) ∧
      first (layers ++ l'.bottom) = first (layers' ++ l.bottom)
  := by
  cases h with
  | write top => exact .inr ⟨layers, hlayers, id, rfl⟩
  | shift top =>
      rcases List.suffix_cons_iff.mp hlayers with rfl | hsuffix
      · exact .inl rfl
      · refine .inr ⟨layers, hsuffix, fun heq => ?_, rfl⟩
        -- a suffix of the old middle layers is shorter than the new ones
        have hle := hsuffix.length_le
        rw [heq, List.length_cons] at hle
        exact absurd hle (Nat.not_succ_le_self _)
  | @sink middle last hmiddle =>
      obtain ⟨front, hfront⟩ := hlayers
      refine .inr ⟨layers ++ [last], ⟨front, ?_⟩, fun heq => ?_, ?_⟩
      · rw [← List.append_assoc, hfront, hmiddle]
      · rw [heq, hmiddle]
      · rw [List.append_assoc, List.singleton_append]
  | drop top hmiddle =>
      rw [hmiddle] at hlayers
      rw [List.suffix_nil.mp hlayers, answer, hmiddle]
      exact .inl rfl
  | settle hbottom =>
      refine .inr ⟨layers, hlayers, id, ?_⟩
      rw [first_append, first_append, hbottom]

section

variable {moment : ℕ → Layers V} (hnext : ∀ n, Next (moment n) (moment (n + 1))) {i : ℕ}

/-- An answer there was at a moment from one on up to another. -/
def Was (moment : ℕ → Layers V) (i k : ℕ) (v : Option V) : Prop :=
  ∃ n, i ≤ n ∧ n ≤ k ∧ v = (moment n).answer

theorem Was.le {k k' : ℕ} {v : Option V} (h : Was moment i k v) (hk : k ≤ k') :
  Was moment i k' v
  := by
  obtain ⟨n, hi, hn, hv⟩ := h
  exact ⟨n, hi, hn.trans hk, hv⟩

include hnext

/-- If the top layer had no answer, what is found later from the middle layers on was an
answer. -/
theorem was_middle (htop : (moment i).top = none) :
  ∀ d, Was moment i (i + d) (first ((moment (i + d)).middle ++ (moment (i + d)).bottom))
  | 0 => ⟨i, le_rfl, le_rfl, by rw [answer, htop]; rfl⟩
  | d + 1 => by
      rcases (hnext (i + d)).lower List.suffix_rfl with h | ⟨layers, -, hall, h⟩
      · exact ⟨i + d, Nat.le_add_right i d, Nat.le_succ _, h⟩
      · rw [hall rfl] at h
        rw [← Nat.add_assoc, h]
        exact (was_middle htop d).le (Nat.le_succ _)

/-- If besides the middle layers had no answer, what is found later from one of them on was an
answer. -/
theorem was_lower {j : ℕ} (hmiddle : first (moment j).middle = none)
    (hj : Was moment i j (first ((moment j).middle ++ (moment j).bottom))) (hij : i ≤ j) :
  ∀ d {layers : List (Option V)}, layers <:+ (moment (j + d)).middle →
    Was moment i (j + d) (first (layers ++ (moment (j + d)).bottom))
  | 0, layers, hlayers => by
      rw [Nat.add_zero] at hlayers ⊢
      obtain ⟨front, hfront⟩ := hlayers
      rw [← hfront, first_append, Option.or_eq_none_iff] at hmiddle
      rw [first_append, hmiddle.2, Option.none_or]
      rw [first_append, ← hfront, first_append, hmiddle.1, hmiddle.2] at hj
      exact hj
  | d + 1, layers, hlayers => by
      rcases (hnext (j + d)).lower hlayers with h | ⟨layers', hlayers', -, h⟩
      · exact ⟨j + d, hij.trans (Nat.le_add_right j d), Nat.le_succ _, h⟩
      · rw [← Nat.add_assoc, h]
        exact (was_lower hmiddle hj hij d hlayers').le (Nat.le_succ _)

/-- What is found in the top layer at one moment, or else in the middle ones at a later moment,
or else in those at the bottom at a still later one, was the answer at a moment in between. -/
theorem was_found {j k : ℕ} (hij : i ≤ j) (hjk : j ≤ k) :
  Was moment i k ((moment i).top.or ((first (moment j).middle).or (first (moment k).bottom)))
  := by
  cases htop : (moment i).top with
  | some v =>
      refine ⟨i, le_rfl, hij.trans hjk, ?_⟩
      rw [answer_eq, htop, Option.some_or, Option.some_or]
  | none =>
      have hmoment := was_middle hnext htop (j - i)
      rw [Nat.add_sub_of_le hij] at hmoment
      rw [Option.none_or]
      cases hmiddle : first (moment j).middle with
      | some v =>
          rw [first_append, hmiddle, Option.some_or] at hmoment
          exact hmoment.le hjk
      | none =>
          have hlower := was_lower hnext hmiddle hmoment hij (k - j) List.nil_suffix
          rw [Nat.add_sub_of_le hjk] at hlower
          exact hlower

end

end Layers
