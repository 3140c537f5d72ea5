import TinyLsm.Library.Cursor

/-!
# Cursors that hand over

What a cursor delivers from a state is a list, or a failure on the way.  A cursor may be a relay:
it steps another cursor until this one is at the end, and then hands over to a new state.  From a
state that is not at the end it delivers what the other cursor does, and then what it delivers from
the state it hands over to.
-/

namespace Cursor

variable {φ α σ τ : Type}

/-- From a state the cursor delivers a list, or fails, in at most a number of steps. -/
inductive Delivers (c : Cursor φ α σ) : σ → ℕ → Except φ (List α) → Prop
  | done {s : σ} {n : ℕ} : c.isEnd s = true → Delivers c s n (.ok [])
  | peekFault {s : σ} {n : ℕ} {e : φ} : c.isEnd s = false → c.peek s = .error e →
      Delivers c s n (.error e)
  | nextFault {s s' : σ} {x : α} {n : ℕ} {e : φ} : c.isEnd s = false → c.peek s = .ok (x, s') →
      c.next s' = .error e → Delivers c s n (.error e)
  | step {s s' s'' : σ} {x : α} {n : ℕ} {out : Except φ (List α)} : c.isEnd s = false →
      c.peek s = .ok (x, s') → c.next s' = .ok s'' → Delivers c s'' n out →
      Delivers c s (n + 1) (out.map (x :: ·))

theorem Delivers.mono {c : Cursor φ α σ} {s : σ} {n m : ℕ} {out : Except φ (List α)}
    (h : c.Delivers s n out) (hle : n ≤ m) :
  c.Delivers s m out
  := by
  induction h generalizing m with
  | done hend => exact .done hend
  | peekFault hend hpeek => exact .peekFault hend hpeek
  | nextFault hend hpeek hnext => exact .nextFault hend hpeek hnext
  | step hend hpeek hnext _ ih =>
      cases m with
      | zero => cases hle
      | succ m => exact .step hend hpeek hnext (ih (Nat.le_of_succ_le_succ hle))

/-- A cursor is drained to what it delivers, once the fuel exceeds the steps. -/
theorem drain_of_delivers {c : Cursor φ α σ} (stuck : φ) {s : σ} {n fuel : ℕ}
    {out : Except φ (List α)} (h : c.Delivers s n out) (hfuel : n < fuel) :
  c.drain stuck fuel s = out
  := by
  induction h generalizing fuel with
  | done hend =>
      cases fuel with
      | zero => cases hfuel
      | succ fuel =>
          rw [drain, if_pos hend]
  | peekFault hend hpeek =>
      cases fuel with
      | zero => cases hfuel
      | succ fuel =>
          rw [drain, hend, hpeek]
          rfl
  | nextFault hend hpeek hnext =>
      cases fuel with
      | zero => cases hfuel
      | succ fuel =>
          rw [drain, hend, if_neg Bool.false_ne_true, Except.bind_eq_of_ok _ hpeek]
          dsimp only
          rw [hnext]
          rfl
  | step hend hpeek hnext _ ih =>
      cases fuel with
      | zero => cases hfuel
      | succ fuel =>
          rw [drain, hend, if_neg Bool.false_ne_true, Except.bind_eq_of_ok _ hpeek]
          dsimp only
          rw [Except.bind_eq_of_ok _ hnext, ih (Nat.lt_of_succ_lt_succ hfuel)]
          rfl

/-- What a cursor delivers at the end is nothing. -/
theorem Delivers.eq_of_isEnd {c : Cursor φ α σ} {s : σ} {n : ℕ} {out : Except φ (List α)}
    (h : c.Delivers s n out) (hend : c.isEnd s = true) :
  out = .ok []
  := by
  cases h with
  | done => rfl
  | peekFault hend' => exact absurd (hend.symm.trans hend') (by decide)
  | nextFault hend' => exact absurd (hend.symm.trans hend') (by decide)
  | step hend' => exact absurd (hend.symm.trans hend') (by decide)

/-- What a cursor delivers elsewhere is something. -/
theorem Delivers.ne_of_not_isEnd {c : Cursor φ α σ} {s : σ} {n : ℕ} {out : Except φ (List α)}
    (h : c.Delivers s n out) (hend : c.isEnd s = false) :
  out ≠ .ok []
  := by
  cases h with
  | done hend' => exact absurd (hend'.symm.trans hend) (by decide)
  | peekFault => rintro ⟨⟩
  | nextFault => rintro ⟨⟩
  | @step _ _ _ _ _ out' =>
      match out' with
      | .error e => rintro ⟨⟩
      | .ok xs => rintro ⟨⟩

/-- The outer cursor steps the inner one, and hands over when this is at the end. -/
structure Relay (inner : Cursor φ α σ) (outer : Cursor φ α τ) where
  current : τ → σ
  withCurrent : τ → σ → τ
  handOver : τ → Except φ τ
  withCurrent_current : ∀ t, withCurrent t (current t) = t
  current_withCurrent : ∀ t s, current (withCurrent t s) = s
  withCurrent_withCurrent : ∀ t s s', withCurrent (withCurrent t s) s' = withCurrent t s'
  handOver_withCurrent : ∀ t s, handOver (withCurrent t s) = handOver t
  isEnd_eq : ∀ t, outer.isEnd t = inner.isEnd (current t)
  peek_eq : ∀ t, outer.peek t =
    (inner.peek (current t)).map (fun p => (p.1, withCurrent t p.2))
  next_eq : ∀ t, outer.next t = (inner.next (current t)).bind (fun s =>
    if inner.isEnd s then handOver t else .ok (withCurrent t s))

variable {inner : Cursor φ α σ} {outer : Cursor φ α τ}

/-- A relay delivers what the inner cursor does, and then what it delivers from where it hands over
to. -/
theorem Relay.delivers (r : Relay inner outer) {t t' : τ} {s : σ} {n m : ℕ}
    {out rest : Except φ (List α)} (h : inner.Delivers s n out) (hend : inner.isEnd s = false)
    (hover : r.handOver t = .ok t') (hrest : outer.Delivers t' m rest) :
  outer.Delivers (r.withCurrent t s) (n + m) (out.bind (fun xs => rest.map (xs ++ ·)))
  := by
  have hisEnd (s : σ) : outer.isEnd (r.withCurrent t s) = inner.isEnd s := by
    rw [r.isEnd_eq, r.current_withCurrent]
  have hpeek (s : σ) : outer.peek (r.withCurrent t s) =
      (inner.peek s).map (fun p => (p.1, r.withCurrent t p.2)) := by
    rw [r.peek_eq, r.current_withCurrent]
    simp only [r.withCurrent_withCurrent]
  have hnext (s : σ) : outer.next (r.withCurrent t s) = (inner.next s).bind (fun s' =>
      if inner.isEnd s' then .ok t' else .ok (r.withCurrent t s')) := by
    rw [r.next_eq, r.current_withCurrent]
    simp only [r.withCurrent_withCurrent, r.handOver_withCurrent, hover]
  induction h with
  | done hdone => exact absurd (hdone.symm.trans hend) (by decide)
  | peekFault _ hp =>
      apply Delivers.peekFault ((hisEnd _).trans hend)
      rw [hpeek, hp]
      rfl
  | nextFault _ hp hn =>
      apply Delivers.nextFault ((hisEnd _).trans hend) (by rw [hpeek, hp]; rfl)
      rw [hnext, hn]
      rfl
  | @step s s' s'' x n out _ hp hn hout ih =>
      have hp' : outer.peek (r.withCurrent t s) = .ok (x, r.withCurrent t s') := by
        rw [hpeek, hp]
        rfl
      have hn' : outer.next (r.withCurrent t s') =
          if inner.isEnd s'' then .ok t' else .ok (r.withCurrent t s'') := by
        rw [hnext, hn]
        rfl
      rw [Nat.add_right_comm]
      cases hend' : inner.isEnd s'' with
      | true =>
          rw [hend', if_pos rfl] at hn'
          obtain rfl := hout.eq_of_isEnd hend'
          apply Delivers.step ((hisEnd _).trans hend) hp' hn' (hrest.mono (Nat.le_add_left m n))
      | false =>
          rw [hend', if_neg Bool.false_ne_true] at hn'
          have hstep := Delivers.step ((hisEnd _).trans hend) hp' hn' (ih hend')
          cases out with
          | error e => exact hstep
          | ok xs =>
              cases rest with
              | error e => exact hstep
              | ok ys => exact hstep

/-! ### One after the other -/

variable {β : Type}

/-- What is delivered one after the other, up to something that delivers nothing. -/
def chained (f : β → Except φ (List α)) : List β → Except φ (List α)
  | [] => .ok []
  | b :: bs =>
      match f b with
      | .error e => .error e
      | .ok [] => .ok []
      | .ok (x :: xs) => (chained f bs).map (x :: xs ++ ·)

theorem chained_cons_of_eq {f : β → Except φ (List α)} {b : β} (h : f b = .ok []) (bs : List β) :
  chained f (b :: bs) = .ok []
  := by
  rw [chained, h]

theorem chained_cons_of_ne {f : β → Except φ (List α)} {b : β} (h : f b ≠ .ok []) (bs : List β) :
  chained f (b :: bs) = (f b).bind (fun xs => (chained f bs).map (xs ++ ·))
  := by
  rw [chained]
  cases hb : f b with
  | error e => rfl
  | ok xs =>
      cases xs with
      | nil => exact absurd hb h
      | cons x xs => rfl

/-- All that is delivered one after the other. -/
def concatenated (f : β → Except φ (List α)) (bs : List β) : Except φ (List α) :=
  (bs.mapM f).map List.flatten

theorem concatenated_cons (f : β → Except φ (List α)) (b : β) (bs : List β) :
  concatenated f (b :: bs) = (f b).bind (fun xs => (concatenated f bs).map (xs ++ ·))
  := by
  rw [concatenated, concatenated, List.mapM_cons]
  cases f b with
  | error e => rfl
  | ok xs =>
      change ((bs.mapM f).bind _).map _ = ((bs.mapM f).map _).map _
      cases bs.mapM f with
      | error e => rfl
      | ok xss => rfl

theorem concatenated_eq_nil_iff {f : β → Except φ (List α)} {bs : List β} :
  concatenated f bs = .ok [] ↔ ∀ b ∈ bs, f b = .ok []
  := by
  induction bs with
  | nil => exact iff_of_true rfl (by simp)
  | cons b bs ih =>
      rw [concatenated_cons, List.forall_mem_cons, ← ih]
      cases f b with
      | error e =>
          apply iff_of_false
          · rintro ⟨⟩
          · rintro ⟨⟨⟩, -⟩
      | ok xs =>
          change (concatenated f bs).map _ = _ ↔ _
          cases concatenated f bs with
          | error e =>
              apply iff_of_false
              · rintro ⟨⟩
              · rintro ⟨-, ⟨⟩⟩
          | ok ys =>
              change Except.ok (xs ++ ys) = _ ↔ _
              simp

theorem chained_eq_nil {f : β → Except φ (List α)} {bs : List β} (h : ∀ b ∈ bs, f b = .ok []) :
  chained f bs = .ok []
  := by
  cases bs with
  | nil => rfl
  | cons b bs => apply chained_cons_of_eq (h b List.mem_cons_self)

theorem map_append_injective (xs : List α) {out out' : Except φ (List α)}
    (h : out.map (xs ++ ·) = out'.map (xs ++ ·)) :
  out = out'
  := by
  cases out with
  | error e =>
      cases out' with
      | error e' => exact congrArg _ (Except.error.inj h)
      | ok ys' => cases h
  | ok ys =>
      cases out' with
      | error e' => cases h
      | ok ys' => exact congrArg _ (List.append_cancel_left (Except.ok.inj h))

/-- All is delivered exactly if nothing comes after what delivers nothing, where no failure comes
before. -/
theorem chained_eq_concatenated_iff {f : β → Except φ (List α)} {bs : List β} :
  chained f bs = concatenated f bs ↔
    ∀ before b after, bs = before ++ b :: after → (∀ b' ∈ before, ∃ xs, f b' = .ok xs) →
      f b = .ok [] → ∀ b' ∈ after, f b' = .ok []
  := by
  induction bs with
  | nil =>
      apply iff_of_true rfl
      intro before b after h
      cases before with
      | nil => cases h
      | cons => cases h
  | cons b bs ih =>
      -- splitting the list at its head, or after it
      have hsplit : (∀ before b' after, b :: bs = before ++ b' :: after →
            (∀ b'' ∈ before, ∃ xs, f b'' = .ok xs) → f b' = .ok [] →
            ∀ b'' ∈ after, f b'' = .ok []) ↔
          (f b = .ok [] → ∀ b' ∈ bs, f b' = .ok []) ∧
          ((∃ xs, f b = .ok xs) → ∀ before b' after, bs = before ++ b' :: after →
            (∀ b'' ∈ before, ∃ xs, f b'' = .ok xs) → f b' = .ok [] →
            ∀ b'' ∈ after, f b'' = .ok []) := by
        constructor
        · intro h
          refine ⟨h [] b bs rfl (by simp), ?_⟩
          intro hok before b' after hbs hbefore
          apply h (b :: before) b' after (congrArg _ hbs)
          exact List.forall_mem_cons.mpr ⟨hok, hbefore⟩
        · rintro ⟨hhead, htail⟩ before b' after hbs hbefore
          cases before with
          | nil =>
              cases hbs
              exact hhead
          | cons b₀ before =>
              cases hbs
              obtain ⟨hok, hbefore⟩ := List.forall_mem_cons.mp hbefore
              exact htail hok before b' after rfl hbefore
      rw [hsplit, ← ih, concatenated_cons, chained]
      cases hb : f b with
      | error e =>
          apply iff_of_true rfl
          refine ⟨?_, ?_⟩
          · rintro ⟨⟩
          · rintro ⟨xs, ⟨⟩⟩
      | ok xs =>
          cases xs with
          | nil =>
              have hmap : (concatenated f bs).map ([] ++ ·) = concatenated f bs := by
                cases concatenated f bs with
                | error e => rfl
                | ok ys => rfl
              change Except.ok [] = (concatenated f bs).map ([] ++ ·) ↔ _
              rw [hmap, eq_comm, concatenated_eq_nil_iff]
              constructor
              · intro hall
                refine ⟨fun _ => hall, fun _ => ?_⟩
                rw [chained_eq_nil hall, concatenated_eq_nil_iff.mpr hall]
              · intro h
                exact h.1 rfl
          | cons x xs =>
              change (chained f bs).map _ = (concatenated f bs).map _ ↔ _
              constructor
              · intro h
                refine ⟨?_, fun _ => map_append_injective _ h⟩
                rintro ⟨⟩
              · intro h
                rw [h.2 ⟨_, rfl⟩]

end Cursor
