import TinyLsm.RedisWrapper.Commands

/-!
# The indices of a range

LRANGE and ZRANGE answer the elements between two positions, where a negative index counts from
the end.  The positions are `int`s, but the end is compared with the size as an unsigned number:
an end before the first element passes for one after the last element, and the range goes up to
the last element instead of being empty.
-/

namespace TinyLsm

namespace RedisWrapper

open TomlConfig

/-- The elements from a position up to another one, as far as there are any. -/
def between (elements : List Bytes) (first last : ℤ) : List Bytes :=
  (elements.take (last + 1).toNat).drop first.toNat

/-- The position that an index stands for. -/
def position (elements : List Bytes) (index : ℤ) : ℤ :=
  if index < 0 then index + elements.length else index

/-- The elements that two indices select. -/
def selected (elements : List Bytes) (start stop : ℤ) : List Bytes :=
  between elements (position elements start) (position elements stop)

section

variable {elements : List Bytes} {first last start stop : ℤ}

theorem between_eq_nil (h : last < max first 0) : between elements first last = []
  := by
  apply List.drop_eq_nil_of_le
  rw [List.length_take]
  omega

theorem length_between :
  (between elements first last).length = min (last + 1).toNat elements.length - first.toNat
  := by
  rw [between, List.length_drop, List.length_take]

/-- The end of the range, which is taken for one after the last element if it is negative. -/
def heldStop (elements : List Bytes) (stop : ℤ) : ℤ :=
  let held := toInt (position elements stop)
  if elements.length ≤ toSizeT held then toInt (elements.length - 1) else held

theorem heldStop_lt (elements : List Bytes) (stop : ℤ) : heldStop elements stop < 2 ^ 31
  := by
  rw [heldStop]
  split
  · apply toInt_lt
  · apply toInt_lt

theorem toInt_position (h : FitsSigned 32 start) :
  toInt (position elements start) = if start < 0 then toInt (start + elements.length) else start
  := by
  rw [position]
  split
  · rfl
  · exact toInt_of_fits h

/-- The reply has the elements between the positions as they are held, unless there is no `int`
after the end. -/
theorem rangeReply_eq_between (hstart : FitsSigned 32 start) (hstop : FitsSigned 32 stop) :
  rangeReply elements start stop =
    if heldStop elements stop = 2 ^ 31 - 1 then .error .undefinedBehavior
    else .ok (arrayReply
      (between elements (toInt (position elements start)) (heldStop elements stop)))
  := by
  have hfirst : rangeStart elements start = max (toInt (position elements start)) 0 := by
    rw [rangeStart, toInt_position hstart]
    omega
  have hlast : rangeStop elements stop = heldStop elements stop := by
    rw [rangeStop, heldStop, toInt_position hstop]
  have hfits := toInt_lt (position elements start)
  have hlt : 0 ≤ rangeStop elements stop → _ := rangeStop_lt hstop
  rw [rangeReply_eq, hfirst, hlast]
  rw [hlast] at hlt
  generalize toInt (position elements start) = first at hfits
  generalize heldStop elements stop = last at hlt
  split
  next hempty => rw [if_neg (by omega), between_eq_nil hempty]
  next hle =>
    split
    next => rfl
    next =>
      have hcount : (last - max first 0 + 1).toNat = (last + 1).toNat - first.toNat := by omega
      have hmax : (max first 0).toNat = first.toNat := by omega
      have hlength : ((between elements first last).length : ℤ) = last - max first 0 + 1 := by
        rw [length_between]
        omega
      dsimp only
      rw [hcount, hmax, arrayReply, hlength, between, List.drop_take]

theorem rangeReply_eq_selected_iff (hstart : FitsSigned 32 start) (hstop : FitsSigned 32 stop) :
  rangeReply elements start stop = .ok (arrayReply (selected elements start stop)) ↔
    heldStop elements stop ≠ 2 ^ 31 - 1 ∧
      between elements (toInt (position elements start)) (heldStop elements stop) =
        selected elements start stop
  := by
  rw [rangeReply_eq_between hstart hstop]
  split
  next heq => exact iff_of_false nofun (fun h => h.1 heq)
  next hne => rw [Except.ok.injEq, arrayReply_injective.eq_iff, and_iff_right hne]

/-- In a list whose size fits `int`, all positions do. -/
theorem fits_position (hlength : elements.length < 2 ^ 31) (h : FitsSigned 32 start) :
  FitsSigned 32 (position elements start)
  := by
  obtain ⟨hle, hlt⟩ := h
  rw [position]
  split
  · exact ⟨by omega, by omega⟩
  · exact ⟨hle, hlt⟩

/-- An end before the first element passes for one after the last element. -/
theorem heldStop_of_neg (hlength : elements.length < 2 ^ 31) (hstop : FitsSigned 32 stop)
    (h : position elements stop < 0) :
  heldStop elements stop = elements.length - 1
  := by
  have hfits := fits_position hlength hstop
  have hle := hfits.1
  have hsize : elements.length ≤ toSizeT (position elements stop) := by
    rw [toSizeT]
    omega
  rw [heldStop, toInt_of_fits hfits, if_pos hsize, toInt_of_fits ⟨by omega, by omega⟩]

/-- An end after the last element is the last element. -/
theorem heldStop_of_nonneg (hlength : elements.length < 2 ^ 31) (hstop : FitsSigned 32 stop)
    (h : 0 ≤ position elements stop) :
  heldStop elements stop = min (position elements stop) (elements.length - 1)
  := by
  have hfits := fits_position hlength hstop
  have hlt := hfits.2
  rw [heldStop, toInt_of_fits hfits, toInt_of_fits ⟨by omega, by omega⟩,
    toSizeT_of_nonneg h (by omega)]
  split
  · omega
  · omega

theorem between_min : between elements first (min last (elements.length - 1)) =
    between elements first last
  := by
  have hmin : (min last (elements.length - 1 : ℤ) + 1).toNat =
      min (last + 1).toNat elements.length := by
    omega
  rw [between, between, hmin, ← List.take_take, List.take_length]

/-- If all positions fit `int`, what is wrong is an end that is still negative. -/
theorem between_heldStop_eq_selected_iff (hne : elements ≠ []) (hlength : elements.length < 2 ^ 31)
    (hstart : FitsSigned 32 start) (hstop : FitsSigned 32 stop) :
  heldStop elements stop ≠ 2 ^ 31 - 1 ∧
      between elements (toInt (position elements start)) (heldStop elements stop) =
        selected elements start stop ↔
    -(elements.length : ℤ) ≤ stop ∨ elements.length ≤ start
  := by
  have hpos := List.length_pos_iff.mpr hne
  have hend : position elements stop < 0 ↔ ¬ -(elements.length : ℤ) ≤ stop := by
    rw [position]
    omega
  rw [toInt_of_fits (fits_position hlength hstart), selected]
  rcases lt_or_ge (position elements stop) 0 with hneg | hnonneg
  · -- nothing is selected, and the elements from the start on are answered
    have hnil : between elements (position elements start) (position elements stop) = [] :=
      between_eq_nil (by omega)
    have hfirst : elements.length ≤ (position elements start).toNat ↔
        elements.length ≤ start := by
      rw [position]
      omega
    rw [heldStop_of_neg hlength hstop hneg, hnil, ← List.length_eq_zero_iff, length_between]
    omega
  · rw [heldStop_of_nonneg hlength hstop hnonneg]
    exact iff_of_true ⟨by omega, between_min⟩ (by omega)

end

/-! ### The commands -/

/-- The elements between the indices are the ones between the positions as they are held. -/
structure HoldsRange (elements : List Bytes) (start stop : ℤ) : Prop where
  fits : elements.length < 2 ^ 31 → -(elements.length : ℤ) ≤ stop ∨ elements.length ≤ start
  wide : 2 ^ 31 ≤ elements.length → heldStop elements stop ≠ 2 ^ 31 - 1 ∧
    between elements (toInt (position elements start)) (heldStop elements stop) =
      selected elements start stop

inductive RangeCommand where
  | lrange
  | zrange

namespace RangeCommand

def command (key start stop : Bytes) : RangeCommand → Command
  | lrange => .lrange key start stop
  | zrange => .zrange key start stop

/-- The elements of the list, or of the sorted set. -/
def elements (key : Bytes) (lsm : LSM) : RangeCommand → List Bytes
  | lrange => split ((lsm.get key).getD []) getInstance.redisListSeparator
  | zrange => indexedElems key lsm

/-- The reply has the elements that the indices select. -/
def Selects [Doubles] (c : RangeCommand) (key : Bytes) (lsm : LSM) (now : ℤ)
    (startText stopText : Bytes) (start stop : ℤ) : Prop :=
  ((c.command key startText stopText).exec now lsm).1 =
    .ok (arrayReply (selected (c.elements key lsm) start stop))

instance [Doubles] (c : RangeCommand) (key : Bytes) (lsm : LSM) (now : ℤ)
    (startText stopText : Bytes) (start stop : ℤ) :
    Decidable (c.Selects key lsm now startText stopText start stop) :=
  inferInstanceAs (Decidable (_ = _))

theorem exec_command [Doubles] (c : RangeCommand) {key : Bytes} {lsm : LSM} {now : ℤ}
    (h : Unexpired key ⟨lsm, now⟩) {startText stopText : Bytes} {start stop : ℤ}
    (hstart : stoi startText = .ok start) (hstop : stoi stopText = .ok stop) :
  (c.command key startText stopText).exec now lsm =
    (if c.elements key lsm = [] then .ok (arrayReply [])
      else rangeReply (c.elements key lsm) start stop, lsm)
  := by
  cases c with
  | lrange =>
      rw [command, Command.exec, Command.program, run_lrange h, hstart, hstop]
      rfl
  | zrange =>
      rw [command, Command.exec, Command.program, run_redisZrange h, hstart, hstop]
      rfl

/-- The range is right, for a list and for a sorted set, if its end is not before the first element
or its start is after the last one, and the positions are held as they are. -/
theorem selects_iff [Doubles] (c : RangeCommand) {key : Bytes} {lsm : LSM} {now : ℤ}
    (h : Unexpired key ⟨lsm, now⟩) (hne : c.elements key lsm ≠ []) {startText stopText : Bytes}
    {start stop : ℤ} (hstart : stoi startText = .ok start) (hstop : stoi stopText = .ok stop) :
  c.Selects key lsm now startText stopText start stop ↔
    HoldsRange (c.elements key lsm) start stop
  := by
  have hfirst : FitsSigned 32 start := fits_of_readSigned hstart
  have hlast : FitsSigned 32 stop := fits_of_readSigned hstop
  rw [Selects, c.exec_command h hstart hstop, if_neg hne, rangeReply_eq_selected_iff hfirst hlast]
  rcases lt_or_ge (c.elements key lsm).length (2 ^ 31) with hlt | hwide
  · rw [between_heldStop_eq_selected_iff hne hlt hfirst hlast]
    exact ⟨fun hrange => ⟨fun _ => hrange, fun hle => absurd hlt (not_lt.mpr hle)⟩,
      fun hholds => hholds.fits hlt⟩
  · exact ⟨fun hrange => ⟨fun hlt => absurd hlt (not_lt.mpr hwide), fun _ => hrange⟩,
      fun hholds => hholds.wide hwide⟩

theorem selects_iff_pair :
  letI := Doubles.whole
  let lsm := LSM.empty.put (bytes "k") (bytes "a#b")
  lrange.Selects (bytes "k") lsm 0 (bytes "0") (bytes "-2") 0 (-2) ↔
    HoldsRange (lrange.elements (bytes "k") lsm) 0 (-2)
  := by
  let _ := Doubles.whole
  exact selects_iff _ (.inl (by decide)) (by decide) (by decide) (by decide)

/-- An end before the first element selects all elements. -/
theorem not_selects :
  letI := Doubles.whole
  let list := LSM.empty.put (bytes "k") (bytes "a#b")
  let zset :=
    ((Command.zadd (bytes "k") [(bytes "1", bytes "a"), (bytes "2", bytes "b")]).exec 0 .empty).2
  ¬ lrange.Selects (bytes "k") list 0 (bytes "0") (bytes "-100") 0 (-100) ∧
    ¬ zrange.Selects (bytes "k") zset 0 (bytes "0") (bytes "-100") 0 (-100) ∧
      ((Command.lrange (bytes "k") (bytes "0") (bytes "-100")).exec 0 list).1 =
        .ok (arrayReply [bytes "a", bytes "b"]) ∧
      ((Command.zrange (bytes "k") (bytes "0") (bytes "-100")).exec 0 zset).1 =
        .ok (arrayReply [bytes "a", bytes "b"])
  := by
  let _ := Doubles.whole
  decide +kernel

end RangeCommand

end RedisWrapper

end TinyLsm
