import JsonQuery.Number.Text
import JsonQuery.Proofs.Number.Grammar
import JsonQuery.Proofs.Number.Rounding

/-!
The text of a finite number follows the grammar of number texts and denotes that number. The sign of
zero is not written.
-/

namespace JsonQuery

namespace Text

theorem natOfDigits_eq (ds : List Char) : natOfDigits ds = Nat.ofDigitChars 10 ds 0 :=
  Nat.ofDigitChars_eq_foldl.symm

theorem natOfDigits_ofNat (n : Nat) : natOfDigits (ofNat n) = n := by
  rw [natOfDigits_eq]
  exact Nat.ofDigitChars_ten_toDigits

theorem natOfDigits_zeros_append (k : Nat) (ds : List Char) :
    natOfDigits (List.replicate k '0' ++ ds) = natOfDigits ds := by
  rw [natOfDigits_eq, natOfDigits_eq, Nat.ofDigitChars_append, Nat.ofDigitChars_replicate_zero,
    Nat.mul_zero]

theorem natOfDigits_append_zeros (ds : List Char) (k : Nat) :
    natOfDigits (ds ++ List.replicate k '0') = natOfDigits ds * tenTo k := by
  rw [natOfDigits_eq, natOfDigits_eq, Nat.ofDigitChars_append, Nat.ofDigitChars_replicate_zero,
    Nat.mul_comm]
  rfl

theorem isDigits_ofNat (n : Nat) : IsDigits (ofNat n) :=
  ⟨Nat.toDigits_ne_nil, fun _ hd => Nat.isDigit_of_mem_toDigits (by decide) (by decide) hd⟩

theorem head?_ofNat_ne_zero {n : Nat} (h : n ≠ 0) : (ofNat n).head? ≠ some '0' := by
  induction n using Nat.strongRecOn with
  | ind n ih =>
    by_cases hn : n < 10
    · simp only [ofNat, Nat.toDigits_of_lt_base hn, List.head?_cons, ne_eq, Option.some.injEq,
        Nat.digitChar_eq_zero]
      exact h
    · have htail := ih (n / 10) (by omega) (by omega)
      rw [ofNat] at htail ⊢
      rw [Nat.toDigits_of_base_le (by decide) (by omega)]
      cases hds : Nat.toDigits 10 (n / 10) with
      | nil => exact absurd hds Nat.toDigits_ne_nil
      | cons d ds => simpa [hds] using htail

theorem isDigits_append {ds es : List Char} (hd : IsDigits ds)
    (he : ∀ e ∈ es, e.isDigit = true) : IsDigits (ds ++ es) := by
  refine ⟨by simp [hd.1], ?_⟩
  intro c hc
  rcases List.mem_append.mp hc with hc | hc
  · exact hd.2 c hc
  · exact he c hc

theorem isDigit_of_mem_zeros {k : Nat} {c : Char} (h : c ∈ List.replicate k '0') :
    c.isDigit = true := by
  rw [List.eq_of_mem_replicate h]
  rfl

end Text

namespace Numeral

open Text

theorem isWhole_ofNat (n : Nat) : IsWhole (ofNat n) := by
  by_cases h : n = 0
  · subst h
    exact .inl (Nat.toDigits_zero 10)
  · exact .inr ⟨isDigits_ofNat n, head?_ofNat_ne_zero h⟩

theorem ofInt_eq (n : Int) : Text.ofInt n = minusText (n < 0) ++ ofNat n.natAbs := by
  unfold Text.ofInt minusText
  by_cases h : n < 0 <;> simp [h]

theorem numeralText_ofInt (n : Int) :
    NumeralText (Text.ofInt n) ⟨n < 0, ofNat n.natAbs, [], 0⟩ := by
  have h := NumeralText.mk (decide (n < 0)) (isWhole_ofNat n.natAbs) .none .none
  rw [ofInt_eq]
  simpa only [List.append_nil] using h

theorem exponentText_ofInt (exponent : Int) :
    ExponentText ('e' :: Text.ofInt exponent) exponent := by
  have hd := isDigits_ofNat exponent.natAbs
  unfold Text.ofInt
  split
  · rename_i h
    have he := ExponentText.some (.inl rfl) .minus hd
    rw [natOfDigits_ofNat, signed, if_pos rfl] at he
    rwa [show -(exponent.natAbs : Int) = exponent by omega] at he
  · rename_i h
    have he := ExponentText.some (.inl rfl) .none hd
    rw [natOfDigits_ofNat, signed, if_neg (by simp)] at he
    rwa [Int.natAbs_of_nonneg (by omega)] at he

theorem number_eq (negative : Bool) (whole fraction : List Char) (exponent : Int) :
    Numeral.number ⟨negative, whole, fraction, exponent⟩ =
      Number.ofDecimal negative
        ⟨natOfDigits (whole ++ fraction), exponent - fraction.length⟩ := rfl

/-- A numeral for a decimal with a sign, written with the given digits: its fraction ends as they
do. -/
structure LaysOut (n : Numeral) (negative : Bool) (ds : List Char) (decimal : Decimal) : Prop where
  sign : n.negative = negative
  value : n.decimal.value = decimal.value
  last : ∀ c ∈ n.fraction.getLast?, c ∈ ds.getLast?

theorem LaysOut.number_eq {n : Numeral} {negative : Bool} {ds : List Char} {decimal : Decimal}
    (h : n.LaysOut negative ds decimal) : n.number = Number.ofDecimal negative decimal := by
  rw [number, h.sign]
  exact Number.ofDecimal_congr negative h.value

theorem getLast?_of_suffix {s t : List Char} (h : s <:+ t) : ∀ c ∈ s.getLast?, c ∈ t.getLast? := by
  intro c hc
  obtain ⟨p, rfl⟩ := h
  rw [List.getLast?_append, hc]
  rfl

section Layout

variable (negative : Bool) {ds : List Char} (hd : IsDigits ds) (hz : ds.head? ≠ some '0')
include hd

theorem numeralText_leadingZeros (k : Nat) :
    ∃ n, NumeralText (minusText negative ++ ('0' :: '.' :: (List.replicate k '0' ++ ds))) n ∧
      n.LaysOut negative ds ⟨natOfDigits ds, -(k + ds.length : Nat)⟩ := by
  have hf : IsDigits (List.replicate k '0' ++ ds) := by
    refine ⟨by simp [hd.1], ?_⟩
    intro c hc
    rcases List.mem_append.mp hc with hc | hc
    · exact isDigit_of_mem_zeros hc
    · exact hd.2 c hc
  refine ⟨⟨negative, ['0'], List.replicate k '0' ++ ds, 0⟩, ?_, rfl, ?_, ?_⟩
  · simpa only [List.append_nil, List.singleton_append] using
      NumeralText.mk negative (.inl rfl) (.some hf) .none
  · have hzeros : ['0'] ++ (List.replicate k '0' ++ ds) = List.replicate (k + 1) '0' ++ ds := by
      simp [List.replicate_succ]
    rw [decimal, hzeros, natOfDigits_zeros_append, List.length_append, List.length_replicate,
      Int.zero_sub]
  · intro c hc
    rwa [List.getLast?_append_of_ne_nil _ hd.1] at hc

include hz

theorem numeralText_point {places : Nat} (hpos : 0 < places) (hlt : places < ds.length) :
    ∃ n, NumeralText (minusText negative ++ (ds.take places ++ '.' :: ds.drop places)) n ∧
      n.LaysOut negative ds ⟨natOfDigits ds, -(ds.length - places : Nat)⟩ := by
  have htake : IsDigits (ds.take places) := by
    refine ⟨?_, fun c hc => hd.2 c (List.mem_of_mem_take hc)⟩
    rw [← List.length_pos_iff, List.length_take]
    omega
  have hdrop : IsDigits (ds.drop places) := by
    refine ⟨?_, fun c hc => hd.2 c (List.mem_of_mem_drop hc)⟩
    rw [← List.length_pos_iff, List.length_drop]
    omega
  have hhead : (ds.take places).head? ≠ some '0' := by
    rwa [List.head?_take, if_neg (by omega)]
  refine ⟨⟨negative, ds.take places, ds.drop places, 0⟩, ?_, rfl, ?_, ?_⟩
  · simpa only [List.append_nil] using
      NumeralText.mk negative (.inr ⟨htake, hhead⟩) (.some hdrop) .none
  · rw [decimal, List.take_append_drop, List.length_drop, Int.zero_sub]
  · exact getLast?_of_suffix (List.drop_suffix places ds)

theorem numeralText_trailingZeros (k : Nat) :
    ∃ n, NumeralText (minusText negative ++ (ds ++ List.replicate k '0')) n ∧
      n.LaysOut negative ds ⟨natOfDigits ds, k⟩ := by
  have hwhole : IsDigits (ds ++ List.replicate k '0') :=
    isDigits_append hd fun c hc => isDigit_of_mem_zeros hc
  have hhead : (ds ++ List.replicate k '0').head? ≠ some '0' := by
    rwa [List.head?_append_of_ne_nil _ hd.1]
  refine ⟨⟨negative, ds ++ List.replicate k '0', [], 0⟩, ?_, rfl, ?_, ?_⟩
  · simpa only [List.append_nil] using
      NumeralText.mk negative (.inr ⟨hwhole, hhead⟩) .none .none
  · rw [decimal, List.append_nil, natOfDigits_append_zeros, Decimal.value_mul_tenTo]
    congr 2
    simp only [List.length_nil]
    omega
  · intro c hc
    cases hc

theorem numeralText_mantissa (exponent : Int) :
    ∃ n, NumeralText (minusText negative ++
        ((if 1 < ds.length then ds.take 1 ++ '.' :: ds.drop 1 else ds) ++
          'e' :: Text.ofInt exponent)) n ∧
      n.LaysOut negative ds ⟨natOfDigits ds, exponent + 1 - ds.length⟩ := by
  obtain ⟨hne, hall⟩ := hd
  cases ds with
  | nil => exact absurd rfl hne
  | cons d ds =>
    have hwhole : IsWhole [d] :=
      .inr ⟨⟨by simp, by simpa using hall d List.mem_cons_self⟩, by simpa using hz⟩
    have hexponent := exponentText_ofInt exponent
    have hlays : LaysOut ⟨negative, [d], ds, exponent⟩ negative (d :: ds)
        ⟨natOfDigits (d :: ds), exponent + 1 - (d :: ds).length⟩ := by
      refine ⟨rfl, ?_, getLast?_of_suffix (List.suffix_cons d ds)⟩
      rw [decimal]
      congr 2
      simp only [List.length_cons]
      omega
    refine ⟨⟨negative, [d], ds, exponent⟩, ?_, hlays⟩
    cases ds with
    | nil => simpa using NumeralText.mk negative hwhole .none hexponent
    | cons d' ds =>
      have hf : IsDigits (d' :: ds) :=
        ⟨by simp, fun c hc => hall c (List.mem_cons_of_mem d hc)⟩
      simpa using NumeralText.mk negative hwhole (.some hf) hexponent

/-- Wherever the point goes, the digits denote one decimal. -/
theorem numeralText_layOut (exponent : Int) :
    ∃ n, NumeralText (minusText negative ++ Number.layOut ds exponent) n ∧
      n.LaysOut negative ds ⟨natOfDigits ds, exponent + 1 - ds.length⟩ := by
  unfold Number.layOut
  split
  · rename_i h
    have hexponent : exponent + 1 - ds.length = -((-exponent - 1).toNat + ds.length : Nat) := by
      omega
    rw [hexponent]
    exact numeralText_leadingZeros negative hd _
  · simp only
    split
    · rename_i h
      split
      · rename_i hlt
        have hexponent : exponent + 1 - ds.length = -(ds.length - (exponent.toNat + 1) : Nat) := by
          omega
        rw [hexponent]
        exact numeralText_point negative hd hz (Nat.succ_pos _) hlt
      · rename_i hle
        have hexponent : exponent + 1 - ds.length = (exponent.toNat + 1 - ds.length : Nat) := by
          omega
        rw [hexponent]
        exact numeralText_trailingZeros negative hd hz _
    · exact numeralText_mantissa negative hd hz exponent

end Layout

end Numeral

namespace Number

open Text Numeral

/-- The number that the text of `x` denotes: a zero has no sign. -/
def asWritten (x : Number) : Number := if x.rank = 0 then zero else x

theorem units_eq_zero_iff {x : Number} : x.units = 0 ↔ x.rank = 0 := by
  have hrank := x.scale_mul_add_significand
  rw [units_eq, Nat.mul_eq_zero]
  constructor
  · rintro (h | h)
    · rcases Nat.eq_zero_or_pos x.scale with hs | hs
      · rw [← hrank, hs, h, Nat.zero_mul]
      · have := le_significand hs
        omega
    · exact absurd h (Nat.two_pow_pos _).ne'
  · intro h
    exact .inl (by omega)

theorem toInt?_of_rank_eq_zero {x : Number} (h : x.rank = 0) : x.toInt? = some 0 := by
  have hx : x.IsFinite := by
    rw [IsFinite, h]
    decide
  simp only [toInt?, units_eq_zero_iff.mpr h, Nat.zero_mod, hx, and_self, if_true]
  split <;> rfl

theorem signed_lt_zero {negative : Bool} {ones : Nat}
    (h : (if negative then -(ones : Int) else ones) ≠ 0) :
    negative = decide ((if negative then -(ones : Int) else ones) < 0) := by
  cases negative with
  | false => simp
  | true =>
    simp at h ⊢
    omega

theorem natAbs_signed (negative : Bool) (ones : Nat) :
    (if negative then -(ones : Int) else ones).natAbs = ones := by
  cases negative <;> simp

theorem toInt?_eq_some {x : Number} {n : Int} (h : x.toInt? = some n) :
    x.units = n.natAbs * unitsInOne ∧ (n ≠ 0 → x.negative = decide (n < 0)) := by
  unfold toInt? at h
  split at h
  · rename_i hx
    have hunits := Nat.div_mul_cancel (Nat.dvd_of_mod_eq_zero hx.2)
    rw [← Int.natCast_ediv, Option.some.injEq] at h
    subst h
    refine ⟨?_, signed_lt_zero⟩
    rw [natAbs_signed, hunits]
  · cases h

theorem asWritten_of_rank_ne_zero {x : Number} (h : x.rank ≠ 0) : x.asWritten = x := if_neg h

theorem isFinite_asWritten {x : Number} (hx : x.IsFinite) : x.asWritten.IsFinite := by
  unfold asWritten
  split
  · decide
  · exact hx

theorem not_isNaN {x : Number} (hx : x.IsFinite) : ¬ x.IsNaN := Nat.not_lt.mpr (Nat.le_of_lt hx)

theorem same_self {x : Number} (hx : x.IsFinite) : x.same x = true := by
  simp only [same, order, not_isNaN hx, or_self, if_false, Std.ReflCmp.compare_self,
    beq_self_eq_true]

theorem same_asWritten {x : Number} (hx : x.IsFinite) : x.same x.asWritten = true := by
  by_cases h : x.rank = 0
  · have hzero : x.signedRank = 0 := by
      rw [signedRank, h]
      split <;> rfl
    have hwritten : x.asWritten = zero := if_pos h
    have hnan : ¬ zero.IsNaN := by decide
    have hzero' : zero.signedRank = 0 := rfl
    rw [hwritten]
    simp only [same, order, not_isNaN hx, hnan, or_self, if_false, hzero, hzero',
      Std.ReflCmp.compare_self, beq_self_eq_true]
  · rw [asWritten_of_rank_ne_zero h]
    exact same_self hx

theorem digits_shortest_ne_zero {x : Number} (hx : x.IsFinite) (h : x.rank ≠ 0) :
    x.shortest.digits ≠ 0 := by
  intro h0
  apply h
  have hread := congrArg Number.rank (ofDecimal_shortest hx)
  rw [ofDecimal_eq, h0, Nat.zero_mul, Nat.zero_mul, nearestRank_eq_zero (tenTo_pos _)] at hread
  exact hread.symm

theorem numeralText_decimalText (negative : Bool) {decimal : Decimal} (h : decimal.digits ≠ 0) :
    ∃ n, NumeralText (minusText negative ++ decimalText decimal) n ∧
      n.LaysOut negative (ofNat decimal.digits) decimal := by
  have hlay := numeralText_layOut negative (isDigits_ofNat decimal.digits) (head?_ofNat_ne_zero h)
    (decimal.exponent + (ofNat decimal.digits).length - 1)
  rw [natOfDigits_ofNat] at hlay
  simpa only [decimalText, Int.sub_add_cancel, Int.add_sub_cancel] using hlay

theorem number_numeral_ofInt {x : Number} (hx : x.IsFinite) {n : Int} (h : x.toInt? = some n) :
    Numeral.number ⟨n < 0, ofNat n.natAbs, [], 0⟩ = x.asWritten := by
  obtain ⟨hunits, hsign⟩ := toInt?_eq_some h
  rw [number_eq, List.append_nil, natOfDigits_ofNat]
  by_cases h0 : x.rank = 0
  · have hn : n = 0 := by
      rw [toInt?_of_rank_eq_zero h0] at h
      exact (Option.some.inj h).symm
    subst hn
    rw [asWritten, if_pos h0]
    rfl
  · have hn : n ≠ 0 := by
      rintro rfl
      exact h0 (units_eq_zero_iff.mp (by rw [hunits, Int.natAbs_zero, Nat.zero_mul]))
    rw [asWritten_of_rank_ne_zero h0, ← hsign hn]
    exact ofDecimal_of_units_eq hx hunits

theorem integerBound_pos : 0 < integerBound := tenTo_pos 15

/-- A whole number below the bound is written as an integer, any other one by its shortest
decimal. -/
theorem text_cases {x : Number} (hx : x.IsFinite) :
    (∃ n, x.toInt? = some n ∧ n.natAbs < integerBound ∧ x.text = Text.ofInt n) ∨
      ((∀ n, x.toInt? = some n → integerBound ≤ n.natAbs) ∧ x.rank ≠ 0 ∧
        x.text = minusText x.negative ++ decimalText x.shortest) := by
  unfold text
  rw [if_pos hx]
  split
  · rename_i n hn
    obtain ⟨hn, hbound⟩ := Option.filter_eq_some_iff.mp hn
    exact .inl ⟨n, hn, of_decide_eq_true hbound, rfl⟩
  · rename_i hnone
    have hbound : ∀ n, x.toInt? = some n → integerBound ≤ n.natAbs := by
      intro n hn
      rw [hn] at hnone
      simpa using hnone
    refine .inr ⟨hbound, fun h0 => ?_, rfl⟩
    have hzero := hbound 0 (toInt?_of_rank_eq_zero h0)
    rw [Int.natAbs_zero] at hzero
    exact absurd integerBound_pos (Nat.not_lt.mpr hzero)

/-- The text of a finite number is a number text and denotes that number. -/
theorem numeralText_text {x : Number} (hx : x.IsFinite) :
    ∃ n, NumeralText x.text n ∧ n.number = x.asWritten := by
  rcases text_cases hx with ⟨n, hn, -, htext⟩ | ⟨-, h0, htext⟩
  · rw [htext]
    exact ⟨_, numeralText_ofInt n, number_numeral_ofInt hx hn⟩
  · obtain ⟨n, hn, hlays⟩ := numeralText_decimalText x.negative (digits_shortest_ne_zero hx h0)
    rw [htext]
    refine ⟨n, hn, ?_⟩
    rw [hlays.number_eq, ofDecimal_shortest hx, asWritten_of_rank_ne_zero h0]

end Number

end JsonQuery
