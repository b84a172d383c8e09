import JsonQuery.Proofs.Selection.Order
import JsonQuery.Proofs.Selection.Words

/-!
The places of a slice in three forms: as the search finds them, as words of 64 bits compute them,
and as the integers that Python's `range` lists between the bounds of Python's `slice`. The three
agree, so no bound and no stride leads to an overflow, and a search that ends where the next place
is no word leaves out none.
-/

namespace JsonQuery

namespace Slice

/-- The parts that are given are words. -/
structure InRange (slice : Slice) : Prop where
  start : ∀ n ∈ slice.start, Path.InIndexRange n
  stop : ∀ n ∈ slice.stop, Path.InIndexRange n
  stride : ∀ n ∈ slice.stride, Path.InIndexRange n

/-- Start and stop of a slice of a list, adjusted to the list where they are given. -/
def bounds (slice : Slice) (length : Int) : Int × Int :=
  if slice.stride.getD 1 < 0 then
    (slice.start.elim (length - 1) (adjusted length (-1) (length - 1)),
      slice.stop.elim (-1) (adjusted length (-1) (length - 1)))
  else
    (slice.start.elim 0 (adjusted length 0 length),
      slice.stop.elim length (adjusted length 0 length))

/-- The integers from `start` on, one stride after the other, as long as `stop` is not reached. -/
def integers (start stop stride : Int) : List Int :=
  let count :=
    if 0 < stride then strides (stop - start) stride else strides (start - stop) (-stride)
  (List.range count).map fun n : Nat => start + n * stride

theorem lt_strides_iff {distance stride : Int} (h : 0 < stride) (n : Nat) :
    n < strides distance stride ↔ n * stride < distance := by
  have hdiv := Int.le_ediv_iff_mul_le (a := (n : Int) + 1) (b := distance + stride - 1) h
  rw [Int.add_mul, Int.one_mul] at hdiv
  rw [strides]
  omega

theorem mem_integers_up {start stop stride i : Int} (h : 0 < stride)
    (hi : i ∈ integers start stop stride) : start ≤ i ∧ i < stop := by
  rw [integers, if_pos h] at hi
  obtain ⟨n, hn, rfl⟩ := List.mem_map.mp hi
  have hlt := (lt_strides_iff h n).mp (List.mem_range.mp hn)
  have hnonneg : 0 ≤ n * stride := Int.mul_nonneg (Int.natCast_nonneg n) (Int.le_of_lt h)
  omega

theorem mem_integers_down {start stop stride i : Int} (h : stride < 0)
    (hi : i ∈ integers start stop stride) : stop < i ∧ i ≤ start := by
  rw [integers, if_neg (by omega)] at hi
  obtain ⟨n, hn, rfl⟩ := List.mem_map.mp hi
  have hlt := (lt_strides_iff (by omega) n).mp (List.mem_range.mp hn)
  have hnonneg : 0 ≤ n * -stride := Int.mul_nonneg (Int.natCast_nonneg n) (by omega)
  rw [Int.mul_neg] at hlt hnonneg
  omega

theorem integers_zero (start stop : Int) : integers start stop 0 = [] := by
  simp [integers, strides]

/-- A bound stays in the interval that it is adjusted to. -/
theorem elim_adjusted_mem (length : Nat) {low high otherwise : Int} (hlow : low ≤ otherwise)
    (hhigh : otherwise ≤ high) (given : Option Int) :
    low ≤ given.elim otherwise (adjusted length low high) ∧
      given.elim otherwise (adjusted length low high) ≤ high := by
  rw [← clamp_bound hlow hhigh given, clamp]
  omega

/-- The integers of a slice of a list are places of the list. -/
theorem mem_integers_bounds {slice : Slice} {length : Nat} {i : Int}
    (hi : i ∈ integers (slice.bounds length).1 (slice.bounds length).2 (slice.stride.getD 1)) :
    0 ≤ i ∧ i < length := by
  rcases Int.lt_trichotomy (slice.stride.getD 1) 0 with hneg | hzero | hpos
  · rw [bounds, if_pos hneg] at hi
    have hlast : (-1 : Int) ≤ length - 1 := by omega
    have hmem := mem_integers_down hneg hi
    have hstart := elim_adjusted_mem length hlast (Int.le_refl _) slice.start
    have hstop := elim_adjusted_mem length (Int.le_refl _) hlast slice.stop
    omega
  · rw [hzero, integers_zero] at hi
    cases hi
  · rw [bounds, if_neg (by omega)] at hi
    have hlength : (0 : Int) ≤ length := Int.natCast_nonneg length
    have hmem := mem_integers_up hpos hi
    have hstart := elim_adjusted_mem length (Int.le_refl _) hlength slice.start
    have hstop := elim_adjusted_mem length hlength (Int.le_refl _) slice.stop
    omega

theorem places_eq_integers (slice : Slice) (length : Nat) :
    slice.places length =
      (integers (slice.bounds length).1 (slice.bounds length).2 (slice.stride.getD 1)).map
        Int.toNat := by
  rw [places_eq_range, range]
  rcases Int.lt_trichotomy (slice.stride.getD 1) 0 with hneg | hzero | hpos
  · rw [if_neg (by omega), if_pos hneg, bounds, if_pos hneg, integers, if_neg (by omega),
      List.map_map]
    rfl
  · rw [hzero, integers_zero]
    rfl
  · rw [if_pos hpos, bounds, if_neg (by omega), integers, if_pos hpos, List.map_map]
    rfl

end Slice

namespace Words

def clamp (low high n : Int) : Except Fault Int :=
  if low ≤ high then .ok (JsonQuery.clamp low high n) else .error .noInterval

/-- A bound of a slice of a list, moved into an interval. -/
def bound (size low high otherwise : Int) (given : Option Int) : Except Fault Int := do
  let place ← match given with
    | some n => fromStart size n
    | none => .ok otherwise
  clamp low high place

/-- The places from `place` up to `stop`, as long as the next place is a word. -/
def placesUp (stop stride : Int) (h : 0 < stride) (place : Int) : List Nat :=
  if place < stop then
    toPlace place ::
      if Path.InIndexRange (place + stride) then placesUp stop stride h (place + stride) else []
  else []
  termination_by (stop - place).toNat

/-- The places from `place` down to `stop`, as long as the next place is a word. -/
def placesDown (stop stride : Int) (h : stride < 0) (place : Int) : List Nat :=
  if stop < place then
    toPlace place ::
      if Path.InIndexRange (place + stride) then placesDown stop stride h (place + stride) else []
  else []
  termination_by (place - stop).toNat

/-- The places that a slice selects. A stride of zero selects none. -/
def places (slice : Slice) (length : Nat) : Except Fault (List Nat) := do
  let size := ofLength length
  let stride := slice.stride.getD 1
  if h : 0 < stride then
    let start ← bound size 0 size 0 slice.start
    let stop ← bound size 0 size size slice.stop
    return placesUp stop stride h start
  else if h : stride < 0 then
    let last ← sum size (-1)
    let start ← bound size (-1) last last slice.start
    let stop ← bound size (-1) last (-1) slice.stop
    return placesDown stop stride h start
  else
    return []

section Agreement

theorem placesUp_eq {stop stride : Int} (h : 0 < stride) (hstop : stop < 0x8000000000000000)
    {place : Int} (hplace : 0 ≤ place) :
    placesUp stop stride h place = JsonQuery.placesUp place stop stride := by
  fun_induction JsonQuery.placesUp place stop stride with
  | case1 place hlt ih =>
    rw [placesUp, if_pos hlt.1, toPlace_eq hplace (by omega)]
    split
    · rw [ih (by omega)]
    · rename_i hword
      rw [Path.InIndexRange] at hword
      rw [JsonQuery.placesUp, if_neg (by omega)]
  | case2 place hge => rw [placesUp, if_neg (by omega)]

theorem placesDown_eq {stop stride : Int} (h : stride < 0) (hstop : -1 ≤ stop) {place : Int}
    (hplace : place < 0x8000000000000000) :
    placesDown stop stride h place = JsonQuery.placesDown place stop stride := by
  fun_induction JsonQuery.placesDown place stop stride with
  | case1 place hlt ih =>
    rw [placesDown, if_pos hlt.1, toPlace_eq (by omega) hplace]
    split
    · rw [ih (by omega)]
    · rename_i hword
      rw [Path.InIndexRange] at hword
      rw [JsonQuery.placesDown, if_neg (by omega)]
  | case2 place hge => rw [placesDown, if_neg (by omega)]

variable {length : Nat} (hlength : length < 0x8000000000000000)
include hlength

theorem bound_eq {low high otherwise : Int} (h : low ≤ high) {given : Option Int}
    (hgiven : ∀ n ∈ given, Path.InIndexRange n) :
    bound length low high otherwise given =
      .ok (JsonQuery.clamp low high ((given.map (Value.fromStart length)).getD otherwise)) := by
  cases given with
  | none => exact if_pos h
  | some n =>
    rw [bound, fromStart_eq hlength (hgiven n rfl)]
    exact if_pos h

/-- Words compute the places of a slice without an overflow. -/
theorem places_eq {slice : Slice} (hslice : slice.InRange) :
    places slice length = .ok (slice.places length) := by
  rw [places, Slice.places, ofLength_eq hlength]
  rcases Int.lt_trichotomy (slice.stride.getD 1) 0 with hneg | hzero | hpos
  · have hlast : sum length (-1) = .ok ((length : Int) - 1) :=
      sum_eq_ok (by rw [Path.InIndexRange]; omega)
    have hinterval : (-1 : Int) ≤ length - 1 := by omega
    rw [dif_neg (by omega), dif_pos hneg, if_neg (by omega), if_pos hneg, hlast]
    simp only [bound_eq hlength hinterval hslice.start, bound_eq hlength hinterval hslice.stop,
      bind, Except.bind, pure, Except.pure]
    rw [placesDown_eq hneg]
    · exact Slice.le_clamp _ _ _
    · unfold JsonQuery.clamp
      omega
  · rw [hzero]
    rfl
  · rw [dif_pos hpos, if_pos hpos]
    simp only [bound_eq hlength (Int.natCast_nonneg length) hslice.start,
      bound_eq hlength (Int.natCast_nonneg length) hslice.stop, bind, Except.bind, pure,
      Except.pure]
    rw [placesUp_eq hpos]
    · unfold JsonQuery.clamp
      omega
    · exact Slice.le_clamp _ _ _

end Agreement

end Words

/-- The search finds the places that Python's `range` lists between the bounds of the slice, and
words compute the same places: no sum overflows. All places are in the list, and they go up with a
positive stride and down with a negative one. -/
theorem Slice.places_agree {slice : Slice} (hslice : slice.InRange) {length : Nat}
    (hlength : length < 0x8000000000000000) :
    Words.places slice length = .ok (slice.places length) ∧
      (slice.places length).map (fun place : Nat => (place : Int)) =
        integers (slice.bounds length).1 (slice.bounds length).2 (slice.stride.getD 1) ∧
      (∀ place ∈ slice.places length, place < length) ∧
      (0 < slice.stride.getD 1 → (slice.places length).Pairwise (· < ·)) ∧
      (slice.stride.getD 1 < 0 → (slice.places length).Pairwise (· > ·)) ∧
      (slice.stride = some 0 → slice.places length = []) := by
  have hintegers := slice.places_eq_integers length
  refine ⟨Words.places_eq hlength hslice, ?_, ?_, ?_, ?_, ?_⟩
  · rw [hintegers, List.map_map]
    refine (List.map_congr_left fun i hi => ?_).trans (List.map_id _)
    exact Int.toNat_of_nonneg (mem_integers_bounds hi).1
  · intro place hplace
    rw [hintegers] at hplace
    obtain ⟨i, hi, rfl⟩ := List.mem_map.mp hplace
    have hmem := mem_integers_bounds hi
    omega
  · intro hpos
    exact pairwise_places (Int.le_of_lt hpos) length
  · intro hneg
    exact pairwise_places_of_neg hneg length
  · intro hzero
    rw [hintegers, hzero, Option.getD_some, integers_zero, List.map_nil]

/-- From place 1 the greatest stride leads out of the words, and the search ends there. -/
theorem Slice.places_agree_overflow :
    let slice : Slice := ⟨some 1, none, some 0x7fffffffffffffff⟩
    (slice.InRange ∧ 3 < 0x8000000000000000) ∧
      ¬ Path.InIndexRange (1 + 0x7fffffffffffffff) ∧ Words.places slice 3 = .ok [1] ∧
      integers (slice.bounds 3).1 (slice.bounds 3).2 0x7fffffffffffffff = [1] := by
  intro slice
  have hslice : slice.InRange := by
    constructor
    · decide
    · decide
    · decide
  have hplaces : slice.places 3 = [1] := (slice.places_eq_range 3).trans (by decide)
  have hlength : 3 < 0x8000000000000000 := by decide
  obtain ⟨hwords, hintegers, -⟩ := places_agree hslice hlength
  rw [hplaces] at hwords hintegers
  exact ⟨⟨hslice, hlength⟩, by decide, hwords, hintegers.symm⟩

end JsonQuery
