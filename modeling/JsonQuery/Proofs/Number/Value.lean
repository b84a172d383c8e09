import JsonQuery.Proofs.Number.Written

/-!
The rational number that a number stands for. Finite numbers are ordered as their values are, and
a number is whole exactly if its value is an integer.
-/

namespace JsonQuery.Number

open Text

theorem units_lt_of_scale_lt {x y : Number} (h : x.scale < y.scale) : x.units < y.units := by
  rw [units_eq, units_eq]
  calc x.significand * 2 ^ x.scale
      < 2 ^ 53 * 2 ^ x.scale :=
        Nat.mul_lt_mul_of_pos_right x.significand_lt (Nat.two_pow_pos _)
    _ = 2 ^ 52 * 2 ^ (x.scale + 1) := by ring
    _ ≤ 2 ^ 52 * 2 ^ y.scale := Nat.mul_le_mul_left _ (Nat.pow_le_pow_right Nat.two_pos h)
    _ ≤ y.significand * 2 ^ y.scale :=
        Nat.mul_le_mul_right _ (le_significand (Nat.zero_lt_of_lt h))

theorem units_lt {x y : Number} (h : x.rank < y.rank) : x.units < y.units := by
  have hscale : x.scale ≤ y.scale := by
    unfold scale
    have := Nat.div_le_div_right (c := ranksPerScale) h.le
    omega
  rcases hscale.lt_or_eq with hlt | heq
  · exact units_lt_of_scale_lt hlt
  · have hx := x.scale_mul_add_significand
    have hy := y.scale_mul_add_significand
    rw [heq] at hx
    rw [units_eq, units_eq, heq]
    exact Nat.mul_lt_mul_of_pos_right (by omega) (Nat.two_pow_pos _)

theorem units_lt_iff {x y : Number} : x.units < y.units ↔ x.rank < y.rank := by
  constructor
  · intro h
    by_contra hle
    rcases (Nat.not_lt.mp hle).lt_or_eq with hlt | heq
    · exact absurd (units_lt hlt) (Nat.lt_asymm h)
    · have hsame : y.units = x.units := by
        simp only [units, significand, scale, heq]
      omega
  · exact units_lt

/-- The value of a finite number counted in least units. -/
def signedUnits (x : Number) : ℤ := signed x.negative x.units

/-- The rational number that a finite number stands for. -/
def value (x : Number) : ℚ := x.signedUnits / unitsInOne

theorem signedUnits_lt_iff {x y : Number} :
    x.signedUnits < y.signedUnits ↔ x.signedRank < y.signedRank := by
  have hlt := units_lt_iff (x := x) (y := y)
  have hgt := units_lt_iff (x := y) (y := x)
  have hx := units_eq_zero_iff (x := x)
  have hy := units_eq_zero_iff (x := y)
  unfold signedUnits signed signedRank
  cases x.negative <;> cases y.negative <;> simp only [Bool.false_eq_true, if_true, if_false] <;>
    omega

theorem unitsInOne_pos : (0 : ℚ) < unitsInOne := by
  rw [unitsInOne_eq]
  exact Nat.cast_pos.mpr (Nat.two_pow_pos _)

theorem value_lt_iff {x y : Number} : x.value < y.value ↔ x.signedRank < y.signedRank := by
  rw [value, value, div_lt_div_iff_of_pos_right unitsInOne_pos, Int.cast_lt, signedUnits_lt_iff]

theorem value_eq_iff {x y : Number} : x.value = y.value ↔ x.signedRank = y.signedRank := by
  have hlt := value_lt_iff (x := x) (y := y)
  have hgt := value_lt_iff (x := y) (y := x)
  constructor
  · intro h
    rw [h] at hlt hgt
    simp only [lt_irrefl, false_iff] at hlt hgt
    omega
  · intro h
    rw [h] at hlt hgt
    simp only [lt_irrefl, iff_false] at hlt hgt
    exact le_antisymm (not_lt.mp hgt) (not_lt.mp hlt)

section Finite

variable {x y : Number} (hx : x.IsFinite) (hy : y.IsFinite)
include hx hy

theorem order_eq : x.order y = some (compare x.signedRank y.signedRank) := by
  rw [order, if_neg (not_or.mpr ⟨not_isNaN hx, not_isNaN hy⟩)]

theorem order_eq_lt_iff : x.order y = some .lt ↔ x.value < y.value := by
  rw [order_eq hx hy, Option.some.injEq, compare_lt_iff_lt, value_lt_iff]

theorem order_eq_eq_iff : x.order y = some .eq ↔ x.value = y.value := by
  rw [order_eq hx hy, Option.some.injEq, compare_eq_iff_eq, value_eq_iff]

theorem order_eq_gt_iff : x.order y = some .gt ↔ y.value < x.value := by
  rw [order_eq hx hy, Option.some.injEq, compare_gt_iff_gt, value_lt_iff]

theorem same_iff_value_eq : x.same y = true ↔ x.value = y.value := by
  rw [same, beq_iff_eq, order_eq_eq_iff hx hy]

end Finite

theorem signed_mul (negative : Bool) (n k : Nat) :
    signed negative (n * k) = signed negative n * k := by
  cases negative <;> simp [signed]

theorem value_eq_intCast_iff {x : Number} {n : ℤ} :
    x.value = n ↔ x.signedUnits = n * unitsInOne := by
  rw [value, div_eq_iff unitsInOne_pos.ne']
  exact_mod_cast Iff.rfl

theorem toInt?_eq_some_iff {x : Number} {n : ℤ} :
    x.toInt? = some n ↔ x.IsFinite ∧ x.value = n := by
  have hpos : 0 < unitsInOne := by
    rw [unitsInOne_eq]
    exact Nat.two_pow_pos _
  rw [value_eq_intCast_iff]
  constructor
  · intro h
    unfold toInt? at h
    split at h
    · rename_i hx
      refine ⟨hx.1, ?_⟩
      have hunits := Nat.div_mul_cancel (Nat.dvd_of_mod_eq_zero hx.2)
      have hn : signed x.negative (x.units / unitsInOne) = n := Option.some.inj h
      rw [← hn, ← signed_mul, hunits, signedUnits]
    · cases h
  · rintro ⟨hx, hn⟩
    have hunits : x.units = n.natAbs * unitsInOne := by
      have := congrArg Int.natAbs hn
      rwa [signedUnits, signed, natAbs_signed, Int.natAbs_mul, Int.natAbs_natCast] at this
    have hsigned : signed x.negative n.natAbs * unitsInOne = n * unitsInOne := by
      rw [← hn, signedUnits, hunits, signed_mul]
    have hcancel : signed x.negative n.natAbs = n :=
      mul_right_cancel₀ (by exact_mod_cast hpos.ne') hsigned
    have hwhole : x.units % unitsInOne = 0 := by rw [hunits, Nat.mul_mod_left]
    have hdiv : x.units / unitsInOne = n.natAbs := by rw [hunits, Nat.mul_div_cancel _ hpos]
    rw [toInt?, if_pos ⟨hx, hwhole⟩]
    exact congrArg some (hcancel ▸ congrArg (signed x.negative) hdiv)

end JsonQuery.Number
