import Mathlib.Data.List.Infix
import Mathlib.Logic.Relation

/-!
# Reading from a stream that comes in segments

A reader waits until what it has received is ready, and then takes a step on all of it: it gives a
reply and leaves a rest, from which the next read starts.  If no step would do anything else with
more in the buffer, the replies are the same however the stream is cut into segments.
-/

namespace Segments

/-- What a reader waits for, and the step it then takes, if any. -/
structure Reader (α σ ρ : Type*) where
  ready : List α → Prop
  decidableReady : DecidablePred ready
  step : σ → List α → Option (ρ × σ × List α)
  ready_append : ∀ {buffer : List α} (more : List α), ready buffer → ready (buffer ++ more)
  length_lt : ∀ {s s' : σ} {buffer rest : List α} {reply : ρ}, ready buffer →
    step s buffer = some (reply, s', rest) → rest.length < buffer.length

/-- What is received and not yet taken, and the segments to come. -/
structure Connection (α σ : Type*) where
  state : σ
  buffer : List α
  segments : List (List α)

variable {α σ ρ : Type*} (R : Reader α σ ρ)

/-- All that a connection still gives. -/
def Connection.stream (c : Connection α σ) : List α := c.buffer ++ c.segments.flatten

/-- A connection on which all has been received. -/
def Connection.whole (c : Connection α σ) : Connection α σ := ⟨c.state, c.stream, []⟩

instance : DecidablePred R.ready := R.decidableReady

/-- The buffer and the segments to come once the buffer is ready. -/
def Reader.receive : List α → List (List α) → Option (List α × List (List α))
  | buffer, [] => if R.ready buffer then some (buffer, []) else none
  | buffer, segment :: segments =>
      if R.ready buffer then some (buffer, segment :: segments)
      else receive (buffer ++ segment) segments

/-- A read: the reply and the connection after it. -/
def Reader.read (c : Connection α σ) : Option (ρ × Connection α σ) :=
  (R.receive c.buffer c.segments).bind (fun p =>
    (R.step c.state p.1).map (fun q => (q.1, ⟨q.2.1, q.2.2, p.2⟩)))

/-! ### Waiting -/

variable {R}

/-- What is received is a ready buffer, which some of the segments were added to. -/
theorem Reader.receive_eq_some :
  ∀ {segments : List (List α)} {buffer buffer' : List α} {segments' : List (List α)},
    R.receive buffer segments = some (buffer', segments') →
    R.ready buffer' ∧ ∃ taken, segments = taken ++ segments' ∧ buffer' = buffer ++ taken.flatten
  | [], buffer, buffer', segments', h => by
      rw [Reader.receive] at h
      split at h
      next hready =>
        cases h
        exact ⟨hready, [], rfl, by simp⟩
      next => cases h
  | segment :: segments, buffer, buffer', segments', h => by
      rw [Reader.receive] at h
      split at h
      next hready =>
        cases h
        exact ⟨hready, [], rfl, by simp⟩
      next =>
        obtain ⟨hready, taken, rfl, rfl⟩ := Reader.receive_eq_some h
        exact ⟨hready, segment :: taken, rfl, by simp⟩

/-- A reader that waits forever is never ready. -/
theorem Reader.not_ready_of_receive_eq_none :
  ∀ {segments : List (List α)} {buffer : List α},
    R.receive buffer segments = none → ¬ R.ready (buffer ++ segments.flatten)
  | [], buffer, h => by
      rw [Reader.receive] at h
      split at h
      next => cases h
      next hready => rwa [List.flatten_nil, List.append_nil]
  | segment :: segments, buffer, h => by
      rw [Reader.receive] at h
      split at h
      next => cases h
      next => rw [List.flatten_cons, ← List.append_assoc]; exact not_ready_of_receive_eq_none h

theorem Reader.read_eq_some {c c' : Connection α σ} {reply : ρ} (h : R.read c = some (reply, c')) :
  ∃ buffer, R.receive c.buffer c.segments = some (buffer, c'.segments) ∧
    R.step c.state buffer = some (reply, c'.state, c'.buffer)
  := by
  obtain ⟨⟨buffer, segments⟩, hreceive, h⟩ := Option.bind_eq_some_iff.mp h
  obtain ⟨⟨reply', s', rest⟩, hstep, h⟩ := Option.map_eq_some_iff.mp h
  cases h
  exact ⟨buffer, hreceive, hstep⟩

theorem Reader.read_of_receive {c : Connection α σ} {buffer : List α} {segments : List (List α)}
    (h : R.receive c.buffer c.segments = some (buffer, segments)) :
  R.read c = (R.step c.state buffer).map (fun q => (q.1, ⟨q.2.1, q.2.2, segments⟩))
  := by
  rw [Reader.read, h, Option.bind_some]

/-- A read takes something from the stream. -/
theorem Reader.length_stream_lt {c c' : Connection α σ} {reply : ρ}
    (h : R.read c = some (reply, c')) :
  c'.stream.length < c.stream.length
  := by
  obtain ⟨buffer, hreceive, hstep⟩ := Reader.read_eq_some h
  obtain ⟨hready, taken, hsegments, rfl⟩ := Reader.receive_eq_some hreceive
  have hlt := R.length_lt hready hstep
  rw [Connection.stream, Connection.stream, hsegments, List.flatten_append, ← List.append_assoc,
    List.length_append, List.length_append]
  omega

/-! ### Replies -/

variable (R)

/-- The replies of all reads. -/
def Reader.replies (c : Connection α σ) : List ρ :=
  match _h : R.read c with
  | none => []
  | some (reply, c') => reply :: replies c'
termination_by c.stream.length
decreasing_by exact R.length_stream_lt _h

variable {R}

theorem Reader.replies_eq_nil {c : Connection α σ} (h : R.read c = none) :
  R.replies c = []
  := by
  rw [Reader.replies]
  split
  next => rfl
  next heq => rw [h] at heq; cases heq

theorem Reader.replies_eq_cons {c c' : Connection α σ} {reply : ρ}
    (h : R.read c = some (reply, c')) :
  R.replies c = reply :: R.replies c'
  := by
  rw [Reader.replies]
  split
  next heq => rw [h] at heq; cases heq
  next heq => rw [h] at heq; cases heq; rfl

theorem Reader.head?_replies (c : Connection α σ) :
  (R.replies c).head? = (R.read c).map Prod.fst
  := by
  cases hread : R.read c with
  | none => rw [Reader.replies_eq_nil hread, List.head?_nil, Option.map_none]
  | some p => rw [Reader.replies_eq_cons hread, List.head?_cons, Option.map_some]

/-- The induction over the reads of a connection. -/
theorem Reader.induction {P : Connection α σ → Prop} (hnone : ∀ c, R.read c = none → P c)
    (hsome : ∀ c reply c', R.read c = some (reply, c') → P c' → P c) (c : Connection α σ) :
  P c
  := by
  induction hlength : c.stream.length using Nat.strong_induction_on generalizing c with
  | _ n ih =>
      subst hlength
      cases hread : R.read c with
      | none => exact hnone c hread
      | some p => exact hsome c p.1 p.2 hread (ih _ (Reader.length_stream_lt hread) p.2 rfl)

/-! ### Steps that see enough -/

/-- A connection is the other one after some reads. -/
def Reader.Reads (R : Reader α σ ρ) : Connection α σ → Connection α σ → Prop :=
  Relation.ReflTransGen (fun c c' => ∃ reply, R.read c = some (reply, c'))

/-- Every read of a connection takes its step in a state and on a buffer with a property. -/
def Reader.AtReads (R : Reader α σ ρ) (P : σ → List α → Prop) (c : Connection α σ) : Prop :=
  ∀ c', R.Reads c c' → ∀ buffer segments,
    R.receive c'.buffer c'.segments = some (buffer, segments) → P c'.state buffer

/-- A step does the same with more in the buffer, and leaves it. -/
def Reader.Settled (R : Reader α σ ρ) (s : σ) (buffer : List α) : Prop :=
  ∀ more, R.step s (buffer ++ more) =
    (R.step s buffer).map (fun q => (q.1, q.2.1, q.2.2 ++ more))

theorem Reader.AtReads.mono {P Q : σ → List α → Prop} (h : ∀ s buffer, P s buffer → Q s buffer)
    {c : Connection α σ} (hc : R.AtReads P c) :
  R.AtReads Q c
  := fun c' hreads buffer segments hreceive => h _ _ (hc c' hreads buffer segments hreceive)

theorem Reader.AtReads.of_read {P : σ → List α → Prop} {c c' : Connection α σ} {reply : ρ}
    (hc : R.AtReads P c) (h : R.read c = some (reply, c')) :
  R.AtReads P c'
  := fun c'' hreads => hc c'' (hreads.head ⟨reply, h⟩)

/-- What holds at first, and is preserved by reads, gives the property of every read. -/
theorem Reader.atReads_of_invariant {P : σ → List α → Prop} (Inv : Connection α σ → Prop)
    (hread : ∀ {c c' reply}, Inv c → R.read c = some (reply, c') → Inv c')
    (hbuffer : ∀ {c buffer segments}, Inv c →
      R.receive c.buffer c.segments = some (buffer, segments) → P c.state buffer)
    {c : Connection α σ} (hc : Inv c) :
  R.AtReads P c
  := by
  intro c' hreads buffer segments hreceive
  have hInv : Inv c' := by
    clear hreceive
    induction hreads with
    | refl => exact hc
    | tail _ hstep ih =>
        obtain ⟨reply, hstep⟩ := hstep
        exact hread ih hstep
  exact hbuffer hInv hreceive

/-- A connection on which all has been received is ready if the other one is at some time. -/
theorem Reader.read_whole {c : Connection α σ} {buffer : List α} {segments : List (List α)}
    (h : R.receive c.buffer c.segments = some (buffer, segments)) (hc : R.Settled c.state buffer) :
  R.read c.whole = (R.read c).map (fun q => (q.1, q.2.whole))
  := by
  obtain ⟨hready, taken, hsegments, hbuffer⟩ := Reader.receive_eq_some h
  have hstream : c.stream = buffer ++ segments.flatten := by
    rw [Connection.stream, hsegments, hbuffer, List.flatten_append, List.append_assoc]
  have hready' : R.ready c.stream := hstream ▸ R.ready_append _ hready
  have hwhole : R.receive c.whole.buffer c.whole.segments = some (c.stream, []) := if_pos hready'
  rw [Reader.read_of_receive hwhole, Reader.read_of_receive h, hstream]
  change (R.step c.state (buffer ++ segments.flatten)).map _ = _
  rw [hc]
  cases R.step c.state buffer with
  | none => rfl
  | some q => simp only [Option.map_some, Connection.whole, Connection.stream]

/-- If all steps are settled, the replies are those to the whole stream at once. -/
theorem Reader.replies_whole {c : Connection α σ} (hc : R.AtReads R.Settled c) :
  R.replies c.whole = R.replies c
  := by
  induction c using R.induction with
  | hnone c hread =>
      have hread' : R.read c.whole = none := by
        cases hreceive : R.receive c.buffer c.segments with
        | none =>
            have hnot : ¬ R.ready c.stream := Reader.not_ready_of_receive_eq_none hreceive
            have hwhole : R.receive c.whole.buffer c.whole.segments = none := if_neg hnot
            rw [Reader.read, hwhole, Option.bind_none]
        | some p => rw [Reader.read_whole hreceive (hc c .refl _ _ hreceive), hread, Option.map_none]
      rw [Reader.replies_eq_nil hread, Reader.replies_eq_nil hread']
  | hsome c reply c' hread ih =>
      obtain ⟨buffer, hreceive, -⟩ := Reader.read_eq_some hread
      have hread' : R.read c.whole = some (reply, c'.whole) := by
        rw [Reader.read_whole hreceive (hc c .refl _ _ hreceive), hread, Option.map_some]
      rw [Reader.replies_eq_cons hread, Reader.replies_eq_cons hread', ih (hc.of_read hread)]

/-- If all steps are settled, the replies do not depend on how the stream is cut. -/
theorem Reader.replies_eq_of_stream_eq {c c' : Connection α σ} (hstate : c.state = c'.state)
    (hstream : c.stream = c'.stream) (hc : R.AtReads R.Settled c) (hc' : R.AtReads R.Settled c') :
  R.replies c = R.replies c'
  := by
  rw [← Reader.replies_whole hc, ← Reader.replies_whole hc', Connection.whole, Connection.whole,
    hstate, hstream]

end Segments
