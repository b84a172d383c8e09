import JsonQuery.Proofs.Number.Value
import JsonQuery.Proofs.Selection.Reference

/-!
Dynamic steps and unions. A dynamic step leads where the union of the selectors leads that the
computed values name, in their order. The test that a number is an index, and its conversion to a
word, are made in binary64 numbers; they let the indices below `2 ^ 63` through and keep them exact.
-/

namespace JsonQuery

namespace Number

/-- What stands before the point of a finite number. -/
def truncated (x : Number) : ℤ := Text.signed x.negative (x.units / unitsInOne)

/-- What stands behind the point of a finite number. -/
def fraction (x : Number) : ℚ := x.value - x.truncated

def magnitude (x : Number) : Number := { x with negative := false }

theorem value_magnitude (x : Number) : x.magnitude.value = |x.value| := by
  have habs : |(x.signedUnits : ℚ)| = x.units := by
    rw [← Int.cast_abs, Int.abs_eq_natAbs, signedUnits, Text.signed, natAbs_signed,
      Int.cast_natCast]
  rw [value, value, abs_div, habs, abs_of_pos unitsInOne_pos]
  rfl

theorem truncated_of_toInt?_eq_some {x : Number} {n : ℤ} (h : x.toInt? = some n) :
    x.truncated = n := by
  unfold toInt? at h
  split at h
  · exact Option.some.inj h
  · cases h

end Number

namespace Words

/-- The largest word as a number. It is rounded up, to a power of two. -/
def largest : Number := .ofInt 0x7FFFFFFFFFFFFFFF

theorem isFinite_largest : largest.IsFinite := by decide +kernel

theorem value_largest : largest.value = (2 ^ 63 : ℤ) := by
  rw [Number.value_eq_intCast_iff]
  decide +kernel

/-- A number as a word: cut off at the point and moved to the nearest word. What is no number
counts as zero. -/
def ofNumber (x : Number) : ℤ :=
  if x.IsNaN then 0
  else if x.IsFinite then clamp (-0x8000000000000000) 0x7FFFFFFFFFFFFFFF x.truncated
  else if x.negative then -0x8000000000000000
  else 0x7FFFFFFFFFFFFFFF

/-- The index that a number stands for. Infinite numbers have no fraction. -/
def index? (x : Number) : Option ℤ :=
  if x.IsFinite ∧ x.fraction = 0 ∧ x.magnitude.order largest = some .lt then
    some (ofNumber x)
  else
    none

/-- The selector that a computed value stands for. -/
def selector? : Value → Option Selector
  | .string s => some (.name s)
  | .number x => (index? x).map .index
  | _ => none

theorem order_largest_iff {x : Number} {n : ℤ} (hx : x.IsFinite) (hn : x.value = n) :
    x.magnitude.order largest = some .lt ↔ |n| < 2 ^ 63 := by
  rw [Number.order_eq_lt_iff (x := x.magnitude) hx isFinite_largest, Number.value_magnitude,
    value_largest, hn]
  exact_mod_cast Iff.rfl

theorem ofNumber_eq {x : Number} {n : ℤ} (h : x.toInt? = some n) (hn : |n| < 2 ^ 63) :
    ofNumber x = n := by
  have hx := (Number.toInt?_eq_some_iff.mp h).1
  have hbounds := abs_lt.mp hn
  rw [ofNumber, if_neg (Number.not_isNaN hx), if_pos hx, Number.truncated_of_toInt?_eq_some h,
    clamp]
  omega

theorem index?_eq_some_iff {x : Number} {n : ℤ} :
    index? x = some n ↔ x.IsFinite ∧ x.value = n ∧ |n| < 2 ^ 63 := by
  unfold index?
  constructor
  · intro h
    split at h
    · rename_i htest
      obtain ⟨hx, hfraction, hlt⟩ := htest
      have hvalue : x.value = x.truncated := sub_eq_zero.mp hfraction
      have hbound := (order_largest_iff hx hvalue).mp hlt
      have htruncated := ofNumber_eq (Number.toInt?_eq_some_iff.mpr ⟨hx, hvalue⟩) hbound
      rw [Option.some.injEq, htruncated] at h
      exact h ▸ ⟨hx, hvalue, hbound⟩
    · cases h
  · rintro ⟨hx, hvalue, hn⟩
    have hint := Number.toInt?_eq_some_iff.mpr ⟨hx, hvalue⟩
    have hfraction : x.fraction = 0 := by
      rw [Number.fraction, Number.truncated_of_toInt?_eq_some hint, hvalue, sub_self]
    rw [if_pos ⟨hx, hfraction, (order_largest_iff hx hvalue).mpr hn⟩, ofNumber_eq hint hn]

end Words

/-- A string names a member, and a whole number below `2 ^ 63` in magnitude an element. -/
inductive Value.Names : Value → Selector → Prop where
  | member (s : String) : Names (string s) (.name s)
  | element {x : Number} {i : ℤ} (hx : x.IsFinite) (hvalue : x.value = i) (hi : |i| < 2 ^ 63) :
      Names (number x) (.index i)

theorem Value.names_number_iff {x : Number} {selector : Selector} :
    (number x).Names selector ↔
      ∃ i : ℤ, selector = .index i ∧ x.IsFinite ∧ x.value = i ∧ |i| < 2 ^ 63 := by
  constructor
  · intro h
    cases h with
    | element hx hvalue hi => exact ⟨_, rfl, hx, hvalue, hi⟩
  · rintro ⟨i, rfl, hx, hvalue, hi⟩
    exact .element hx hvalue hi

theorem Selector.ofValue?_eq_some_iff {v : Value} {selector : Selector} :
    ofValue? v = some selector ↔ v.Names selector := by
  cases v with
  | string s =>
    constructor
    · rintro ⟨⟩
      exact .member s
    · rintro ⟨⟩
      rfl
  | number x =>
    rw [Value.names_number_iff, ofValue?, Option.map_eq_some_iff]
    refine exists_congr fun i => ?_
    rw [Option.filter_eq_some_iff, Number.toInt?_eq_some_iff, decide_eq_true_eq, Int.abs_eq_natAbs]
    constructor
    · rintro ⟨⟨⟨hx, hvalue⟩, hi⟩, rfl⟩
      exact ⟨rfl, hx, hvalue, by omega⟩
    · rintro ⟨rfl, hx, hvalue, hi⟩
      exact ⟨⟨⟨hx, hvalue⟩, by omega⟩, rfl⟩
  | _ =>
    constructor
    · rintro ⟨⟩
    · rintro ⟨⟩

theorem Words.selector?_eq (v : Value) : selector? v = Selector.ofValue? v := by
  cases v with
  | number x =>
    refine Option.ext fun selector => ?_
    rw [Selector.ofValue?_eq_some_iff, Value.names_number_iff, selector?, Option.map_eq_some_iff]
    refine exists_congr fun i => ?_
    rw [index?_eq_some_iff, and_comm, eq_comm]
  | _ => rfl

/-- An index that is no word is out of the range of every array. -/
theorem Selector.pick_index_of_le {i : ℤ} (hi : 2 ^ 63 ≤ |i|) {elements : List Value}
    (hlength : elements.length < 2 ^ 63) : (index i).pick (.array elements) = [] := by
  have hplace : Value.place? elements.length i = none := by
    rw [Value.place?, Value.fromStart]
    rw [Int.abs_eq_natAbs] at hi
    exact if_neg (by split <;> omega)
  rw [pick, hplace]
  rfl

theorem Stage.agrees_dynamic (root : Value) (stage : Stage) (inner : Path) :
    (advance root stage (.dynamic inner)).Agrees
      (advance root stage (.union ((evaluate root inner).values.filterMap Selector.ofValue?))) := by
  rw [advance, advance]
  exact ⟨rfl, rfl⟩

/-- A dynamic step, at any place of a path, has the matches of the union of the selectors that the
values of its inner path name. Only strings and whole numbers below `2 ^ 63` in magnitude name one,
the whole numbers exactly themselves; a whole number that is too large would pick nothing from an
array of a length that is a word. The tests in binary64 numbers and words come to the same. -/
theorem entries_evaluate_dynamic (root : Value) (path inner after : Path) :
    let selectors := (evaluate root inner).values.filterMap Selector.ofValue?
    (evaluate root (path ++ .dynamic inner :: after)).entries =
        (evaluate root (path ++ .union selectors :: after)).entries ∧
      (∀ v selector, Selector.ofValue? v = some selector ↔ v.Names selector) ∧
      (∀ (x : Number) (i : ℤ), x.IsFinite → x.value = i → Selector.ofValue? (.number x) = none →
        ∀ elements : List Value, elements.length < 2 ^ 63 →
          (Selector.index i).pick (.array elements) = []) ∧
      ∀ v, Words.selector? v = Selector.ofValue? v := by
  intro selectors
  refine ⟨?_, fun _ _ => Selector.ofValue?_eq_some_iff, ?_, Words.selector?_eq⟩
  · have hstep := Stage.agrees_dynamic root (run root .start path) inner
    have hafter : List.Forall₂ Step.SameChoice after after :=
      List.forall₂_same.mpr fun step _ => .refl step
    rw [evaluate, evaluate, run_append, run_append]
    exact (hstep.run hafter).entries_eq
  · intro x i hx hvalue hnone elements hlength
    have hi : 2 ^ 63 ≤ |i| := by
      by_contra hlt
      have hnames := Value.Names.element hx hvalue (not_le.mp hlt)
      rw [Selector.ofValue?_eq_some_iff.mpr hnames] at hnone
      cases hnone
    exact Selector.pick_index_of_le hi hlength

/-- A name, a negative zero and a number that is too large, below a descent. -/
theorem entries_evaluate_dynamic_keys :
    let large : Number := ⟨false, 0x43E0000000000000, by decide⟩
    let keys := Value.array [.string "list", .number ⟨true, 0, by decide⟩, .number large]
    let list := Value.array [.string "first"]
    let root := Value.object [("keys", keys), ("list", list)]
    (large.IsFinite ∧ large.value = (2 ^ 63 : ℤ) ∧ Selector.ofValue? (.number large) = none) ∧
      (evaluate root
          [.root, .descent, .dynamic [.root, .select (.name "keys"), .wildcard]]).entries =
        [([.key "list"], list), ([.key "keys", .index 0], .string "list"),
          ([.key "list", .index 0], .string "first")] ∧
      (Selector.index (2 ^ 63)).pick list = [] := by
  intro large keys list root
  have hroot : root.KeysDistinct := by
    simp [root, keys, list, Value.KeysDistinct, Value.MemberKeysDistinct,
      Value.ElementKeysDistinct]
  have hlarge : large.IsFinite := by decide
  have hvalue : large.value = (2 ^ 63 : ℤ) := by
    rw [Number.value_eq_intCast_iff]
    decide +kernel
  have hnone : Selector.ofValue? (.number large) = none := by decide +kernel
  obtain ⟨hentries, -, hsize, -⟩ := entries_evaluate_dynamic root [.root, .descent]
    [.root, .select (.name "keys"), .wildcard] []
  refine ⟨⟨hlarge, hvalue, hnone⟩, hentries.trans ?_, hsize large _ hlarge hvalue hnone _ ?_⟩
  · have hselectors : (evaluate root [.root, .select (.name "keys"), .wildcard]).values.filterMap
        Selector.ofValue? = [.name "list", .index 0] := by decide +kernel
    rw [hselectors]
    exact (entries_evaluate_eq_select root hroot _).trans rfl
  · decide

end JsonQuery
