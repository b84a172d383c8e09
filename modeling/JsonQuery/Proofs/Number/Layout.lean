import JsonQuery.Proofs.Json.Reading
import JsonQuery.Proofs.Number.Value
import JsonQuery.Proofs.Path.Canonical

/-!
What the text of a finite number looks like and what it denotes. Whole numbers of at most fifteen
digits are written exactly, all others as their shortest decimal. An exponent mark is written
exactly where the leading digit stands too far from the point, and both readers of numbers give the
number back.
-/

namespace JsonQuery

open Text (ofNat minusText)
open Numeral (NumeralText Ends ends_nil)

theorem Decimal.value_one (exponent : Int) : Decimal.value ⟨1, exponent⟩ = 10 ^ exponent := by
  rw [value, Nat.cast_one, one_mul]

theorem Decimal.value_pos {decimal : Decimal} (h : decimal.digits ≠ 0) : 0 < decimal.value :=
  mul_pos (Nat.cast_pos.mpr (Nat.pos_of_ne_zero h)) (zpow_pos (by norm_num) _)

theorem Text.ofNat_bounds {n : Nat} (h : n ≠ 0) :
    10 ^ ((ofNat n).length - 1) ≤ n ∧ n < 10 ^ (ofNat n).length := by
  have hpos : 0 < (ofNat n).length := Nat.length_toDigits_pos
  have hle (k : Nat) (hk : 0 < k) : (ofNat n).length ≤ k ↔ n < 10 ^ k :=
    Nat.length_toDigits_le_iff (by decide) hk
  refine ⟨?_, (hle _ hpos).mp le_rfl⟩
  by_cases hone : (ofNat n).length = 1
  · rw [hone]
    exact Nat.pos_of_ne_zero h
  · have hlonger : ¬ (ofNat n).length ≤ (ofNat n).length - 1 := by omega
    rw [hle _ (by omega)] at hlonger
    exact Nat.not_lt.mp hlonger

/-- The decimal exponent of a decimal is the place of its leading digit. -/
theorem Decimal.log_value {decimal : Decimal} (h : decimal.digits ≠ 0) :
    Int.log 10 decimal.value = decimal.exponent + (ofNat decimal.digits).length - 1 := by
  obtain ⟨hlow, hhigh⟩ := Text.ofNat_bounds h
  have hlength : 0 < (ofNat decimal.digits).length := Nat.length_toDigits_pos
  have hten : (10 : ℚ) ≠ 0 := by norm_num
  have hscale : (0 : ℚ) < 10 ^ decimal.exponent := zpow_pos (by norm_num) _
  have hpos := Decimal.value_pos h
  apply le_antisymm
  · rw [← Int.lt_add_one_iff, ← Int.lt_zpow_iff_log_lt (by decide) hpos]
    have hexponent : decimal.exponent + (ofNat decimal.digits).length - 1 + 1 =
        ((ofNat decimal.digits).length : ℤ) + decimal.exponent := by omega
    rw [hexponent, Nat.cast_ofNat, zpow_add₀ hten, zpow_natCast, value]
    exact mul_lt_mul_of_pos_right (by exact_mod_cast hhigh) hscale
  · rw [← Int.zpow_le_iff_le_log (by decide) hpos]
    have hexponent : decimal.exponent + (ofNat decimal.digits).length - 1 =
        ((ofNat decimal.digits).length - 1 : ℕ) + decimal.exponent := by omega
    rw [hexponent, Nat.cast_ofNat, zpow_add₀ hten, zpow_natCast, value]
    exact mul_le_mul_of_nonneg_right (by exact_mod_cast hlow) hscale.le

theorem Text.getLast?_ofNat (n : Nat) : (ofNat n).getLast? = some (n % 10).digitChar := by
  rw [ofNat, Nat.toDigits_eq_if (by decide)]
  split
  · rename_i h
    rw [Nat.mod_eq_of_lt h]
    rfl
  · rw [List.getLast?_concat]

theorem Decimal.digits_trim_mod {decimal : Decimal} (h : decimal.trim.digits ≠ 0) :
    decimal.trim.digits % 10 ≠ 0 := by
  fun_induction Decimal.trim decimal with
  | case1 decimal hzeros ih => exact ih h
  | case2 decimal hzeros => exact fun hmod => hzeros ⟨h, hmod⟩

namespace Number

theorem getLast?_shortest {x : Number} (h : x.shortest.digits ≠ 0) :
    ∀ c ∈ (ofNat x.shortest.digits).getLast?, c ≠ '0' := by
  intro c hc hzero
  rw [Text.getLast?_ofNat, Option.mem_some, hzero, Nat.digitChar_eq_zero] at hc
  exact Decimal.digits_trim_mod h hc

theorem nearestOnGrid?_of_units_eq_zero {x : Number} (h : x.units = 0) (exponent : Int) :
    x.nearestOnGrid? exponent = some ⟨0, exponent⟩ := by
  have hread : x.ReadsBack ⟨0, exponent⟩ := by
    rw [ReadsBack, ofDecimal_eq, units_eq_zero_iff.mp h, Nat.zero_mul, Nat.zero_mul,
      nearestRank_eq_zero (tenTo_pos _)]
    rfl
  have hden : ¬ unitsInOne * tenTo exponent.toNat ≤ 0 := by
    rw [unitsInOne_eq]
    exact Nat.not_le.mpr (Nat.mul_pos (Nat.two_pow_pos _) (tenTo_pos _))
  simp only [nearestOnGrid?, h, Nat.zero_mul, Nat.zero_div, Nat.zero_mod, Nat.mul_zero, hread, hden,
    and_false, if_true, if_false]

theorem digits_searchGrids_of_units_eq_zero {x : Number} (h : x.units = 0) (fineness : Nat) :
    (x.searchGrids fineness).digits = 0 := by
  cases fineness with
  | zero => rw [searchGrids, h, Nat.zero_mul, Nat.zero_div]
  | succ fineness => rw [searchGrids, nearestOnGrid?_of_units_eq_zero h, Option.getD_some]

theorem value_shortest_of_rank_eq_zero {x : Number} (h : x.rank = 0) : x.shortest.value = 0 := by
  rw [shortest, Decimal.value_trim, Decimal.value,
    digits_searchGrids_of_units_eq_zero (units_eq_zero_iff.mpr h), Nat.cast_zero, zero_mul]

theorem units_millionth_lt (negative : Bool) :
    (ofDecimal negative ⟨1, -6⟩).units < unitsInOne := by
  cases negative <;> decide +kernel

theorem units_tenTo_fifteen (negative : Bool) :
    (ofDecimal negative ⟨1, 15⟩).units = integerBound * unitsInOne := by
  cases negative <;> decide +kernel

section Whole

variable {x : Number} (hx : x.IsFinite) {n : ℤ} (hn : x.toInt? = some n)
include hx hn

theorem millionth_le_shortest (h0 : x.rank ≠ 0) : Decimal.value ⟨1, -6⟩ ≤ x.shortest.value := by
  by_contra hlt
  have hrank := rank_ofDecimal_mono x.negative (not_le.mp hlt).le
  rw [ofDecimal_shortest hx] at hrank
  have hone : unitsInOne ≤ x.units := by
    obtain ⟨hunits, -⟩ := toInt?_eq_some hn
    rw [hunits]
    apply Nat.le_mul_of_pos_left
    apply Nat.pos_of_ne_zero
    intro hzero
    rw [hzero, Nat.zero_mul, units_eq_zero_iff] at hunits
    exact h0 hunits
  have hunits := (units_millionth_lt x.negative).trans_le hone
  exact Nat.not_lt.mpr hrank (units_lt_iff.mp hunits)

theorem shortest_lt_tenTo_fifteen (hbound : n.natAbs < integerBound) :
    x.shortest.value < Decimal.value ⟨1, 15⟩ := by
  by_contra hle
  have hrank := rank_ofDecimal_mono x.negative (not_lt.mp hle)
  rw [ofDecimal_shortest hx] at hrank
  have hunits : x.units < (ofDecimal x.negative ⟨1, 15⟩).units := by
    rw [units_tenTo_fifteen, (toInt?_eq_some hn).1, unitsInOne_eq]
    exact Nat.mul_lt_mul_of_pos_right hbound (Nat.two_pow_pos _)
  exact Nat.not_lt.mpr hrank (units_lt_iff.mp hunits)

/-- The shortest decimal may differ from a whole number, but its leading digit does not stand
elsewhere. -/
theorem log_shortest_of_toInt? (hbound : n.natAbs < integerBound) :
    -6 ≤ Int.log 10 x.shortest.value ∧ Int.log 10 x.shortest.value < 15 := by
  by_cases h0 : x.rank = 0
  · rw [value_shortest_of_rank_eq_zero h0, Int.log_zero_right]
    decide
  · have hpos := Decimal.value_pos (digits_shortest_ne_zero hx h0)
    have hlow := millionth_le_shortest hx hn h0
    have hhigh := shortest_lt_tenTo_fifteen hx hn hbound
    rw [Decimal.value_one] at hlow hhigh
    exact ⟨(Int.zpow_le_iff_le_log (by decide) hpos).mp hlow,
      (Int.lt_zpow_iff_log_lt (by decide) hpos).mp hhigh⟩

end Whole

/-- No exponent mark stands in a plain decimal, and no plus sign. -/
def IsPlain (s : List Char) : Prop := ∀ c ∈ s, c = '-' ∨ c = '.' ∨ c.isDigit = true

theorem isPlain_append {s t : List Char} (hs : IsPlain s) (ht : IsPlain t) : IsPlain (s ++ t) :=
  List.forall_mem_append.mpr ⟨hs, ht⟩

theorem isPlain_digits {ds : List Char} (h : ∀ d ∈ ds, d.isDigit = true) : IsPlain ds :=
  fun d hd => .inr (.inr (h d hd))

theorem isPlain_point {ds : List Char} (h : ∀ d ∈ ds, d.isDigit = true) : IsPlain ('.' :: ds) :=
  List.forall_mem_cons.mpr ⟨.inr (.inl rfl), isPlain_digits h⟩

theorem isPlain_minusText (negative : Bool) : IsPlain (minusText negative) := by
  intro c hc
  unfold minusText at hc
  split at hc
  · exact .inl (List.mem_singleton.mp hc)
  · cases hc

theorem isPlain_ofInt (n : ℤ) : IsPlain (Text.ofInt n) := by
  rw [Numeral.ofInt_eq]
  exact isPlain_append (isPlain_minusText _) (isPlain_digits (Text.isDigits_ofNat _).2)

theorem not_isPlain_mark (s t : List Char) : ¬ IsPlain (s ++ 'e' :: t) := by
  intro h
  have he := h 'e' (List.mem_append_right s List.mem_cons_self)
  simp at he

section LayOut

variable {ds : List Char} (hd : ∀ d ∈ ds, d.isDigit = true) {exponent : ℤ}
include hd

theorem isPlain_split (places : Nat) : IsPlain (ds.take places ++ '.' :: ds.drop places) :=
  isPlain_append (isPlain_digits fun d h => hd d (List.mem_of_mem_take h))
    (isPlain_point fun d h => hd d (List.mem_of_mem_drop h))

theorem isPlain_layOut (h : -6 ≤ exponent ∧ exponent < 15) : IsPlain (layOut ds exponent) := by
  have hzeros (k : Nat) : IsPlain (List.replicate k '0') :=
    isPlain_digits fun _ => Text.isDigit_of_mem_zeros
  unfold layOut
  split
  · have hpoint : IsPlain "0.".toList := by
      intro c hc
      have hc : c = '0' ∨ c = '.' := by simpa using hc
      rcases hc with rfl | rfl
      · exact .inr (.inr rfl)
      · exact .inr (.inl rfl)
    exact isPlain_append (isPlain_append hpoint (hzeros _)) (isPlain_digits hd)
  · rw [if_pos (by omega)]
    simp only
    split
    · exact isPlain_split hd _
    · exact isPlain_append (isPlain_digits hd) (hzeros _)

theorem layOut_of_mark (h : ¬ (-6 ≤ exponent ∧ exponent < 15)) :
    ∃ s t, IsPlain s ∧ IsPlain t ∧ layOut ds exponent = s ++ 'e' :: t := by
  unfold layOut
  rw [if_neg (by omega), if_neg (by omega)]
  refine ⟨_, _, ?_, isPlain_ofInt exponent, rfl⟩
  split
  · exact isPlain_split hd 1
  · exact isPlain_digits hd

end LayOut

section Text

variable {x : Number} (hx : x.IsFinite)
include hx

/-- An exponent mark is written exactly where the leading digit of the shortest decimal stands more
than six places behind the point or more than fifteen before it. -/
theorem text_form :
    if -6 ≤ Int.log 10 x.shortest.value ∧ Int.log 10 x.shortest.value < 15 then IsPlain x.text
    else ∃ s t, IsPlain s ∧ IsPlain t ∧ x.text = s ++ 'e' :: t := by
  rcases text_cases hx with ⟨n, hn, hbound, htext⟩ | ⟨-, h0, htext⟩
  · rw [if_pos (log_shortest_of_toInt? hx hn hbound), htext]
    exact isPlain_ofInt n
  · have hdigits := (Text.isDigits_ofNat x.shortest.digits).2
    rw [Decimal.log_value (digits_shortest_ne_zero hx h0), htext, decimalText]
    split
    · rename_i hplain
      exact isPlain_append (isPlain_minusText _) (isPlain_layOut hdigits hplain)
    · rename_i hmark
      obtain ⟨s, t, hs, ht, hlay⟩ := layOut_of_mark hdigits hmark
      refine ⟨minusText x.negative ++ s, t, isPlain_append (isPlain_minusText _) hs, ht, ?_⟩
      rw [hlay, List.append_assoc]

theorem isPlain_text_iff :
    IsPlain x.text ↔ -6 ≤ Int.log 10 x.shortest.value ∧ Int.log 10 x.shortest.value < 15 := by
  have hform := text_form hx
  split at hform
  · rename_i hplain
    exact ⟨fun _ => hplain, fun _ => hform⟩
  · rename_i hmark
    obtain ⟨s, t, -, -, htext⟩ := hform
    rw [htext]
    exact ⟨fun h => absurd h (not_isPlain_mark s t), fun h => absurd h hmark⟩

theorem plus_notMem_text : '+' ∉ x.text := by
  have hplus {s : List Char} (hs : IsPlain s) : '+' ∉ s := by
    intro h
    have hc := hs '+' h
    simp at hc
  have hform := text_form hx
  split at hform
  · exact hplus hform
  · obtain ⟨s, t, hs, ht, htext⟩ := hform
    rw [htext, List.mem_append, List.mem_cons]
    rintro (h | h | h)
    · exact hplus hs h
    · cases h
    · exact hplus ht h

end Text

end Number

/-- The factor that a sign stands for. -/
def signOf (negative : Bool) : ℚ := if negative then -1 else 1

/-- The rational number that a numeral denotes. -/
def Numeral.value (n : Numeral) : ℚ := signOf n.negative * n.decimal.value

theorem Numeral.NumeralText.unique {s : List Char} {m n : Numeral} (hm : m.NumeralText s)
    (hn : n.NumeralText s) : m = n := by
  have hread := Numeral.numeral_append hm ends_nil
  rw [Numeral.numeral_append hn ends_nil] at hread
  cases hread
  rfl

namespace Number

/-- A whole number of at most fifteen digits. -/
def IsShortWhole (x : Number) : Prop := ∃ n : ℤ, x.value = n ∧ |n| < 10 ^ 15

theorem natAbs_lt_integerBound_iff {n : ℤ} : n.natAbs < integerBound ↔ |n| < 10 ^ 15 := by
  have hbound : integerBound = 10 ^ 15 := rfl
  rw [hbound, ← Int.natCast_natAbs]
  exact_mod_cast Iff.rfl

theorem signOf_mul_natAbs (n : ℤ) : signOf (n < 0) * (n.natAbs : ℚ) = n := by
  by_cases h : n < 0
  · have habs : (n.natAbs : ℤ) = -n := Int.ofNat_natAbs_of_nonpos h.le
    rw [decide_eq_true h, signOf, if_pos rfl, ← Int.cast_natCast, habs]
    simp
  · have habs : (n.natAbs : ℤ) = n := Int.natAbs_of_nonneg (not_lt.mp h)
    rw [decide_eq_false h, signOf, if_neg Bool.false_ne_true, ← Int.cast_natCast, habs, one_mul]

theorem value_ofInt (n : ℤ) : Numeral.value ⟨n < 0, ofNat n.natAbs, [], 0⟩ = n := by
  rw [Numeral.value, Numeral.decimal, List.append_nil, Text.natOfDigits_ofNat, Decimal.value]
  simpa using signOf_mul_natAbs n

section Denotation

variable {x : Number} (hx : x.IsFinite)
include hx

theorem isShortWhole_iff :
    x.IsShortWhole ↔ ∃ n, x.toInt? = some n ∧ n.natAbs < integerBound := by
  constructor
  · rintro ⟨n, hn, hbound⟩
    exact ⟨n, toInt?_eq_some_iff.mpr ⟨hx, hn⟩, natAbs_lt_integerBound_iff.mpr hbound⟩
  · rintro ⟨n, hn, hbound⟩
    exact ⟨n, (toInt?_eq_some_iff.mp hn).2, natAbs_lt_integerBound_iff.mp hbound⟩

theorem exists_numeral_text :
    ∃ n, NumeralText x.text n ∧ n.number = x.asWritten ∧ (∀ c ∈ n.fraction.getLast?, c ≠ '0') ∧
      (x.IsShortWhole → n.value = x.value) ∧
      (¬ x.IsShortWhole → n.value = signOf x.negative * x.shortest.value) := by
  rcases text_cases hx with ⟨n, hn, hbound, htext⟩ | ⟨hlong, h0, htext⟩
  · have hwhole : x.IsShortWhole := (isShortWhole_iff hx).mpr ⟨n, hn, hbound⟩
    have hvalue := (toInt?_eq_some_iff.mp hn).2
    rw [htext]
    refine ⟨_, Numeral.numeralText_ofInt n, number_numeral_ofInt hx hn, ?_, ?_, ?_⟩
    · intro c hc
      cases hc
    · intro _
      rw [hvalue, value_ofInt]
    · intro hnot
      exact absurd hwhole hnot
  · have hnot : ¬ x.IsShortWhole := by
      rw [isShortWhole_iff hx]
      rintro ⟨n, hn, hbound⟩
      exact Nat.not_le.mpr hbound (hlong n hn)
    have hdigits := digits_shortest_ne_zero hx h0
    obtain ⟨n, hn, hlays⟩ := numeralText_decimalText x.negative hdigits
    rw [htext]
    refine ⟨n, hn, ?_, ?_, ?_, ?_⟩
    · rw [hlays.number_eq, ofDecimal_shortest hx, asWritten_of_rank_ne_zero h0]
    · intro c hc
      exact getLast?_shortest hdigits c (hlays.last c hc)
    · intro hwhole
      exact absurd hwhole hnot
    · intro _
      rw [Numeral.value, hlays.sign, hlays.value]

/-- The text of a finite number is one number text. It denotes a whole number of at most fifteen
digits exactly and stands for the shortest decimal of any other, whose leading digit decides on the
exponent mark. Both readers give the number back, a zero without its sign. -/
theorem text_denotes :
    (∃ n, NumeralText x.text n ∧ (∀ m, NumeralText x.text m → m = n) ∧
      (∀ c ∈ n.fraction.getLast?, c ≠ '0') ∧
      (x.IsShortWhole → n.value = x.value) ∧
      (¬ x.IsShortWhole → n.value = signOf x.negative * x.shortest.value)) ∧
    '+' ∉ x.text ∧
    (IsPlain x.text ↔ -6 ≤ Int.log 10 x.shortest.value ∧ Int.log 10 x.shortest.value < 15) ∧
    Json.number x.text = .ok (x.asWritten, []) ∧
    Path.numberLiteral x.text = .ok (x.asWritten, []) := by
  obtain ⟨n, hn, hnumber, hlast, hwhole, hother⟩ := exists_numeral_text hx
  have hfinite : n.number.IsFinite := hnumber ▸ isFinite_asWritten hx
  have hdocument := Json.number_append hn hfinite ends_nil
  have hquery := Path.numberLiteral_append (Path.numberText_of_numeralText hn hfinite) ends_nil
  rw [List.append_nil, hnumber] at hdocument hquery
  exact ⟨⟨n, hn, fun m hm => hm.unique hn, hlast, hwhole, hother⟩, plus_notMem_text hx,
    isPlain_text_iff hx, hdocument, hquery⟩

end Denotation

/-- The number written `-1.5e-7`, beyond the plain layouts. -/
theorem text_denotes_mark :
    (ofDecimal true ⟨15, -8⟩).IsFinite ∧
      Json.number "-1.5e-7".toList = .ok (ofDecimal true ⟨15, -8⟩, []) ∧
      Path.numberLiteral "-1.5e-7".toList = .ok (ofDecimal true ⟨15, -8⟩, []) ∧
      ∃ n, NumeralText "-1.5e-7".toList n ∧ n.value = -15 / 10 ^ 8 := by
  have hx : (ofDecimal true ⟨15, -8⟩).IsFinite := by decide +kernel
  have htext : (ofDecimal true ⟨15, -8⟩).text = "-1.5e-7".toList := by decide +kernel
  have hwritten : (ofDecimal true ⟨15, -8⟩).asWritten = ofDecimal true ⟨15, -8⟩ := by
    decide +kernel
  have hshortest : (ofDecimal true ⟨15, -8⟩).shortest = ⟨15, -8⟩ := by decide +kernel
  have hsign : (ofDecimal true ⟨15, -8⟩).negative = true := by decide +kernel
  have hnone : (ofDecimal true ⟨15, -8⟩).toInt? = none := by decide +kernel
  have hlong : ¬ (ofDecimal true ⟨15, -8⟩).IsShortWhole := by
    rw [isShortWhole_iff hx, hnone]
    rintro ⟨n, hn, -⟩
    cases hn
  obtain ⟨⟨n, hn, -, -, -, hvalue⟩, -, -, hdocument, hquery⟩ := text_denotes hx
  rw [htext, hwritten] at hdocument hquery
  rw [htext] at hn
  have hfraction : n.value = -15 / 10 ^ 8 := by
    rw [hvalue hlong, hsign, hshortest, signOf, Decimal.value]
    norm_num
  exact ⟨hx, hdocument, hquery, n, hn, hfraction⟩

end Number

end JsonQuery
