import Mathlib
import JsonQuery.Number.Shortest

/-!
Rounding of decimals. The nearest rank depends on the value of a fraction alone and keeps the order
of fractions, and a fraction that is the magnitude of a finite number rounds to that number. Hence
decimals of one value are read as one number, greater ones never as a smaller magnitude, and the
shortest decimal of a finite number is read as that number.
-/

namespace JsonQuery

theorem tenTo_pos (e : Nat) : 0 < tenTo e := Nat.pow_pos (by decide)

theorem tenTo_zero : tenTo 0 = 1 := rfl

theorem tenTo_cast (e : Nat) : (tenTo e : ℚ) = 10 ^ e := Nat.cast_pow 10 e

theorem two_pow_dvd_tenTo (e : Nat) : 2 ^ e ∣ tenTo e :=
  ⟨5 ^ e, (Nat.mul_pow 2 5 e)⟩

theorem two_pow_le_tenTo (e : Nat) : 2 ^ (3 * e) ≤ tenTo e := by
  rw [Nat.pow_mul]
  exact Nat.pow_le_pow_left (by decide) e

theorem two_mul_lt_two_pow (n places : Nat) :
    2 * (n * 2 ^ places) < 2 ^ (n.log2 + 1 + (places + 1)) := by
  rw [Nat.pow_add, Nat.pow_succ 2 places, Nat.mul_comm 2, Nat.mul_assoc]
  exact Nat.mul_lt_mul_of_pos_right Nat.lt_log2_self
    (Nat.mul_pos (Nat.two_pow_pos _) Nat.two_pos)

/-- The rational number that a decimal is. -/
def Decimal.value (decimal : Decimal) : ℚ := decimal.digits * 10 ^ decimal.exponent

theorem Decimal.value_eq_div (decimal : Decimal) :
    decimal.value = (decimal.digits * tenTo decimal.exponent.toNat : ℕ) /
      (tenTo (-decimal.exponent).toNat : ℕ) := by
  have hpow : (10 : ℚ) ^ decimal.exponent =
      10 ^ decimal.exponent.toNat / 10 ^ (-decimal.exponent).toNat := by
    rw [← zpow_natCast, ← zpow_natCast, ← zpow_sub₀ (by norm_num), Int.toNat_sub_toNat_neg]
  rw [value, hpow, Nat.cast_mul, tenTo_cast, tenTo_cast, mul_div_assoc]

theorem Decimal.value_mul_tenTo (digits k : Nat) (exponent : Int) :
    Decimal.value ⟨digits * tenTo k, exponent⟩ = Decimal.value ⟨digits, exponent + k⟩ := by
  have hpow : (10 : ℚ) ^ (exponent + k) = 10 ^ k * 10 ^ exponent := by
    rw [zpow_add₀ (by norm_num), zpow_natCast, mul_comm]
  simp only [value, Nat.cast_mul, tenTo_cast, hpow, mul_assoc]

theorem Decimal.value_trim (decimal : Decimal) : decimal.trim.value = decimal.value := by
  fun_induction Decimal.trim decimal with
  | case1 decimal h ih =>
    have htens : decimal.digits / 10 * tenTo 1 = decimal.digits :=
      Nat.div_mul_cancel (Nat.dvd_of_mod_eq_zero h.2)
    rw [ih, ← Nat.cast_one, ← value_mul_tenTo, htens]
  | case2 => rfl

namespace Number

theorem unitsInOne_eq : unitsInOne = 2 ^ unitPlaces := Nat.one_shiftLeft unitPlaces

theorem unitsInOne_dvd : unitsInOne ∣ tenTo unitPlaces := by
  rw [unitsInOne_eq]
  exact two_pow_dvd_tenTo unitPlaces

theorem roundQuotient_mul_right (num den : Nat) {k : Nat} (hk : 0 < k) :
    roundQuotient (num * k) (den * k) = roundQuotient num den := by
  have hlt : den * k < 2 * (num % den * k) ↔ den < 2 * (num % den) := by
    rw [← Nat.mul_assoc]
    exact Nat.mul_lt_mul_right hk
  have heq : 2 * (num % den * k) = den * k ↔ 2 * (num % den) = den := by
    rw [← Nat.mul_assoc]
    exact Nat.mul_left_inj hk.ne'
  simp only [roundQuotient, Nat.mul_div_mul_right _ _ hk, Nat.mul_mod_mul_right, hlt, heq]

theorem nearestRank_mul_right (num den : Nat) {k : Nat} (hk : 0 < k) :
    nearestRank (num * k) (den * k) = nearestRank num den := by
  simp only [nearestRank, Nat.mul_div_mul_right _ _ hk]
  rw [Nat.shiftLeft_eq, Nat.shiftLeft_eq, Nat.mul_right_comm, roundQuotient_mul_right _ _ hk]

theorem roundQuotient_mul_self (n : Nat) {den : Nat} (hden : 0 < den) :
    roundQuotient (n * den) den = n := by
  simp only [roundQuotient, Nat.mul_div_cancel _ hden, Nat.mul_mod_left]
  rw [if_neg (by omega)]

theorem le_roundQuotient (num den : Nat) : num / den ≤ roundQuotient num den := by
  simp only [roundQuotient]
  split <;> omega

theorem roundQuotient_le (num den : Nat) : roundQuotient num den ≤ num / den + 1 := by
  simp only [roundQuotient]
  split <;> omega

theorem roundQuotient_le_roundQuotient {num num' : Nat} (h : num ≤ num') (den : Nat) :
    roundQuotient num den ≤ roundQuotient num' den := by
  rcases (Nat.div_le_div_right h : num / den ≤ num' / den).lt_or_eq with hlt | heq
  · exact (roundQuotient_le num den).trans (hlt.trans_le (le_roundQuotient num' den))
  · have hmod : num % den ≤ num' % den := by
      have hnum := Nat.div_add_mod num den
      have hnum' := Nat.div_add_mod num' den
      rw [heq] at hnum
      omega
    simp only [roundQuotient, heq]
    split <;> split <;> omega

theorem roundQuotient_le_of_scale (num den : Nat) :
    roundQuotient num (den <<< ((num / den).log2 - 52)) ≤ 2 ^ 53 := by
  have hlt : num / den / 2 ^ ((num / den).log2 - 52) < 2 ^ 53 := by
    rw [Nat.div_lt_iff_lt_mul (Nat.two_pow_pos _), ← Nat.pow_add]
    exact Nat.lt_log2_self.trans_le (Nat.pow_le_pow_right Nat.two_pos (by omega))
  rw [Nat.shiftLeft_eq]
  rw [Nat.div_div_eq_div_mul] at hlt
  exact (roundQuotient_le _ _).trans hlt

theorem le_roundQuotient_of_scale {num den : Nat} (h : 0 < (num / den).log2 - 52) :
    2 ^ 52 ≤ roundQuotient num (den <<< ((num / den).log2 - 52)) := by
  have hpos : num / den ≠ 0 := by
    intro h0
    rw [h0] at h
    cases h
  have hle : 2 ^ 52 ≤ num / den / 2 ^ ((num / den).log2 - 52) := by
    rw [Nat.le_div_iff_mul_le (Nat.two_pow_pos _), ← Nat.pow_add]
    exact (Nat.pow_le_pow_right Nat.two_pos (by omega)).trans (Nat.log2_self_le hpos)
  rw [Nat.shiftLeft_eq]
  rw [Nat.div_div_eq_div_mul] at hle
  exact hle.trans (le_roundQuotient _ _)

theorem nearestRank_le_nearestRank {num num' : Nat} (h : num ≤ num') (den : Nat) :
    nearestRank num den ≤ nearestRank num' den := by
  have hscale : (num / den).log2 - 52 ≤ (num' / den).log2 - 52 := by
    rw [Nat.log2_eq_log_two, Nat.log2_eq_log_two]
    exact Nat.sub_le_sub_right (Nat.log_mono_right (Nat.div_le_div_right h)) 52
  simp only [nearestRank]
  rcases hscale.lt_or_eq with hlt | heq
  · have hbelow := roundQuotient_le_of_scale num den
    have habove := le_roundQuotient_of_scale (Nat.zero_lt_of_lt hlt)
    simp only [ranksPerScale] at *
    omega
  · rw [heq]
    exact Nat.add_le_add_left (roundQuotient_le_roundQuotient h _) _

/-- Rounding keeps the order of fractions. -/
theorem nearestRank_mono {num den num' den' : Nat} (hden : 0 < den) (hden' : 0 < den')
    (h : num * den' ≤ num' * den) : nearestRank num den ≤ nearestRank num' den' := by
  rw [← nearestRank_mul_right num den hden', ← nearestRank_mul_right num' den' hden,
    Nat.mul_comm den' den]
  exact nearestRank_le_nearestRank h _

theorem scale_mul_add_significand (x : Number) :
    x.scale * ranksPerScale + x.significand = x.rank := by
  have := Nat.div_mul_le_self x.rank ranksPerScale
  have : x.scale * ranksPerScale ≤ x.rank / ranksPerScale * ranksPerScale :=
    Nat.mul_le_mul_right _ (Nat.sub_le _ _)
  simp only [significand]
  omega

theorem significand_lt (x : Number) : x.significand < 2 ^ 53 := by
  simp only [significand, scale, ranksPerScale]
  omega

theorem le_significand {x : Number} (h : 0 < x.scale) : 2 ^ 52 ≤ x.significand := by
  simp only [significand, scale, ranksPerScale] at *
  omega

theorem units_eq (x : Number) : x.units = x.significand * 2 ^ x.scale := Nat.shiftLeft_eq _ _

/-- The scale of a number is read off the length of its magnitude. -/
theorem log2_units (x : Number) : x.units.log2 - 52 = x.scale := by
  have hlt := x.significand_lt
  rcases Nat.eq_zero_or_pos x.scale with hs | hs
  · rw [units_eq, hs, Nat.pow_zero, Nat.mul_one]
    by_cases h0 : x.significand = 0
    · simp [h0]
    · have := (Nat.log2_lt h0).mpr hlt
      omega
  · have hle := le_significand hs
    have h0 : x.units ≠ 0 := by
      rw [units_eq]
      exact Nat.mul_ne_zero (by omega) (Nat.two_pow_pos _).ne'
    have hlog : x.units.log2 = 52 + x.scale := by
      rw [Nat.log2_eq_iff h0, units_eq, Nat.pow_add, Nat.add_right_comm, Nat.pow_add]
      exact ⟨Nat.mul_le_mul_right _ hle, Nat.mul_lt_mul_of_pos_right hlt (Nat.two_pow_pos _)⟩
    omega

/-- The magnitude of a number rounds to that number. -/
theorem nearestRank_units_mul (x : Number) {k : Nat} (hk : 0 < k) :
    nearestRank (x.units * k) k = x.rank := by
  have hnum : x.units * k = x.significand * (k <<< x.scale) := by
    rw [units_eq, Nat.shiftLeft_eq, Nat.mul_assoc, Nat.mul_comm k]
  have hpos : 0 < k <<< x.scale := by
    rw [Nat.shiftLeft_eq]
    exact Nat.mul_pos hk (Nat.two_pow_pos _)
  simp only [nearestRank, Nat.mul_div_cancel _ hk, log2_units]
  rw [hnum, roundQuotient_mul_self _ hpos, scale_mul_add_significand]

theorem ofRank_rank {x : Number} (hx : x.IsFinite) : ofRank x.negative x.rank = x := by
  simp only [ofRank, Nat.min_eq_left (Nat.le_of_lt hx)]

/-- Beyond the range of decimals the nearest rank is that of infinity or more. -/
theorem infinityRank_le_nearestRank {digits : Nat} {exponent : Int} (hd : digits ≠ 0)
    (he : (decimalRange : Int) < exponent) :
    infinityRank ≤ nearestRank (digits * tenTo exponent.toNat * unitsInOne) 1 := by
  -- a power of ten is at least the power of eight, which bounds the length of the numerator
  have hnum : 2 ^ (3 * exponent.toNat + unitPlaces) ≤
      digits * tenTo exponent.toNat * unitsInOne := by
    rw [unitsInOne_eq, Nat.pow_add]
    exact Nat.mul_le_mul_right _
      ((two_pow_le_tenTo _).trans (Nat.le_mul_of_pos_left _ (Nat.pos_of_ne_zero hd)))
  have hpos := Nat.lt_of_lt_of_le (Nat.two_pow_pos _) hnum
  have hlog := (Nat.le_log2 hpos.ne').mpr hnum
  have hplaces : unitPlaces = 1074 := rfl
  simp only [nearestRank, Nat.div_one, decimalRange, infinityRank, ranksPerScale] at *
  omega

theorem nearestRank_eq_zero {num den : Nat} (h : 2 * num < den) : nearestRank num den = 0 := by
  have hlt : num < den := by omega
  simp only [nearestRank, Nat.div_eq_of_lt hlt, Nat.log2_zero, Nat.zero_sub, Nat.zero_mul,
    Nat.zero_add, Nat.shiftLeft_zero, roundQuotient, Nat.mod_eq_of_lt hlt]
  rw [if_neg (by omega)]

/-- Below the range of decimals the nearest rank is that of zero. -/
theorem nearestRank_of_lt_range {digits : Nat} {exponent : Int}
    (he : exponent < -(digits.log2 + decimalRange : Nat)) :
    nearestRank (digits * tenTo exponent.toNat * unitsInOne) (tenTo (-exponent).toNat) = 0 := by
  have hpos : exponent.toNat = 0 := by omega
  have hexp : digits.log2 + 1 + (unitPlaces + 1) ≤ 3 * (-exponent).toNat := by
    have hplaces : unitPlaces = 1074 := rfl
    simp only [decimalRange] at he
    omega
  have hden := (Nat.pow_le_pow_right Nat.two_pos hexp).trans (two_pow_le_tenTo _)
  have hnum : 2 * (digits * tenTo exponent.toNat * unitsInOne) < tenTo (-exponent).toNat := by
    rw [hpos, tenTo_zero, Nat.mul_one, unitsInOne_eq]
    exact (two_mul_lt_two_pow digits unitPlaces).trans_le hden
  exact nearestRank_eq_zero hnum

theorem isFinite_ofDecimal_of_lt_range (negative : Bool) {digits : Nat} {exponent : Int}
    (he : exponent < -(digits.log2 + decimalRange : Nat)) :
    (ofDecimal negative ⟨digits, exponent⟩).IsFinite := by
  have hzero : (ofRank negative 0).IsFinite := by
    show min 0 infinityRank < infinityRank
    decide
  simp only [ofDecimal]
  split
  · exact hzero
  · rwa [if_neg (by omega)]

/-- The shortcuts for decimals that are far out change nothing. -/
theorem ofDecimal_eq (negative : Bool) (decimal : Decimal) :
    ofDecimal negative decimal =
      ofRank negative (nearestRank (decimal.digits * tenTo decimal.exponent.toNat * unitsInOne)
        (tenTo (-decimal.exponent).toNat)) := by
  obtain ⟨digits, exponent⟩ := decimal
  simp only [ofDecimal]
  split
  · rename_i h0
    rw [h0, Nat.zero_mul, Nat.zero_mul, nearestRank_eq_zero (tenTo_pos _)]
  · rename_i h0
    split
    · rename_i he
      have h := infinityRank_le_nearestRank h0 he
      rw [show (-exponent).toNat = 0 by simp only [decimalRange] at he; omega,
        tenTo_zero]
      simp only [ofRank, Nat.min_self, Nat.min_eq_right h]
    · split
      · rename_i he
        rw [nearestRank_of_lt_range he]
      · rfl

/-- A greater decimal is not read as a smaller magnitude. -/
theorem rank_ofDecimal_mono (negative : Bool) {decimal decimal' : Decimal}
    (h : decimal.value ≤ decimal'.value) :
    (ofDecimal negative decimal).rank ≤ (ofDecimal negative decimal').rank := by
  have hpos (e : Nat) : (0 : ℚ) < tenTo e := Nat.cast_pos.mpr (tenTo_pos e)
  rw [Decimal.value_eq_div, Decimal.value_eq_div, div_le_div_iff₀ (hpos _) (hpos _)] at h
  have hfraction :
      decimal.digits * tenTo decimal.exponent.toNat * tenTo (-decimal'.exponent).toNat ≤
        decimal'.digits * tenTo decimal'.exponent.toNat * tenTo (-decimal.exponent).toNat := by
    exact_mod_cast h
  have hrank : nearestRank (decimal.digits * tenTo decimal.exponent.toNat * unitsInOne)
        (tenTo (-decimal.exponent).toNat) ≤
      nearestRank (decimal'.digits * tenTo decimal'.exponent.toNat * unitsInOne)
        (tenTo (-decimal'.exponent).toNat) := by
    apply nearestRank_mono (tenTo_pos _) (tenTo_pos _)
    rw [Nat.mul_right_comm, Nat.mul_right_comm _ unitsInOne]
    exact Nat.mul_le_mul_right unitsInOne hfraction
  simp only [ofDecimal_eq, ofRank]
  exact min_le_min_right infinityRank hrank

theorem negative_ofDecimal (negative : Bool) (decimal : Decimal) :
    (ofDecimal negative decimal).negative = negative := by
  simp only [ofDecimal_eq, ofRank]

/-- Decimals of one value are read as one number. -/
theorem ofDecimal_congr (negative : Bool) {decimal decimal' : Decimal}
    (h : decimal.value = decimal'.value) :
    ofDecimal negative decimal = ofDecimal negative decimal' := by
  apply Number.ext
  · rw [negative_ofDecimal, negative_ofDecimal]
  · exact Nat.le_antisymm (rank_ofDecimal_mono negative h.le) (rank_ofDecimal_mono negative h.ge)

theorem ofDecimal_trim (negative : Bool) (decimal : Decimal) :
    ofDecimal negative decimal.trim = ofDecimal negative decimal :=
  ofDecimal_congr negative decimal.value_trim

/-- A whole number of ones is read as the number with that magnitude. -/
theorem ofDecimal_of_units_eq {x : Number} (hx : x.IsFinite) {n : Nat}
    (h : x.units = n * unitsInOne) : ofDecimal x.negative ⟨n, 0⟩ = x := by
  rw [ofDecimal_eq]
  simp only [Int.toNat_zero, Int.neg_zero, tenTo_zero, Nat.mul_one, ← h]
  rw [← Nat.mul_one x.units, nearestRank_units_mul x Nat.one_pos, ofRank_rank hx]

theorem readsBack_of_nearestOnGrid? {x : Number} {exponent : Int} {decimal : Decimal}
    (h : x.nearestOnGrid? exponent = some decimal) : x.ReadsBack decimal := by
  rw [nearestOnGrid?] at h
  split at h
  · rename_i hl
    simp only [Option.some.injEq] at h
    subst h
    split
    · rename_i hu
      exact hu.1
    · exact hl
  · split at h
    · rename_i hu
      simp only [Option.some.injEq] at h
      exact h ▸ hu
    · cases h

/-- The last grid holds the number itself. -/
theorem readsBack_searchGrids_zero {x : Number} (hx : x.IsFinite) :
    x.ReadsBack (x.searchGrids 0) := by
  have hdigits : x.units * tenTo unitPlaces / unitsInOne * unitsInOne =
      x.units * tenTo unitPlaces :=
    Nat.div_mul_cancel (Nat.dvd_mul_left_of_dvd unitsInOne_dvd x.units)
  have hexp : (-(unitPlaces : Int)).toNat = 0 := by omega
  rw [searchGrids, ReadsBack, ofDecimal_eq]
  simp only [hexp, Int.neg_neg, Int.toNat_natCast, tenTo_zero, Nat.mul_one, hdigits,
    nearestRank_units_mul x (tenTo_pos _), ofRank_rank hx]

theorem readsBack_searchGrids {x : Number} (hx : x.IsFinite) (fineness : Nat) :
    x.ReadsBack (x.searchGrids fineness) := by
  induction fineness with
  | zero => exact readsBack_searchGrids_zero hx
  | succ fineness ih =>
    rw [searchGrids]
    cases h : x.nearestOnGrid? ((fineness + 1 : Nat) - unitPlaces) with
    | none => exact ih
    | some decimal => exact readsBack_of_nearestOnGrid? h

/-- The shortest decimal of a finite number is read as that number. -/
theorem ofDecimal_shortest {x : Number} (hx : x.IsFinite) :
    ofDecimal x.negative x.shortest = x := by
  rw [shortest, ofDecimal_trim]
  exact Number.ext (negative_ofDecimal _ _) (readsBack_searchGrids hx _)

end Number

end JsonQuery
