import JsonQuery.Proofs.Json.Grammar
import JsonQuery.Proofs.Number.Value
import JsonQuery.Proofs.Selection.Locality
import JsonQuery.Proofs.Selection.Reference
import JsonQuery.Proofs.Text.Order
import JsonQuery.Proofs.Value.Equality

/-!
Comparisons in conditions. Numbers are compared by their values and strings by their code points,
which is also the order of their bytes; nothing else is ordered. The sides of a comparison can be
swapped along with the direction of its mark.
-/

namespace JsonQuery

namespace Comparison

/-- The comparison that asks the same with the sides swapped. -/
def mirror : Comparison → Comparison
  | eq => eq
  | ne => ne
  | lt => gt
  | le => ge
  | gt => lt
  | ge => le

/-- One of less, equal and greater holds, and no other; the rest are told by these. -/
structure Trichotomous (answer : Comparison → Bool) : Prop where
  one : [lt, eq, gt].countP answer = 1
  le : answer le = (answer lt || answer eq)
  ge : answer ge = (answer gt || answer eq)

/-- The six comparisons are answered as an order places `a` and `b`. -/
structure Places {α : Type} [LinearOrder α] (answer : Comparison → Bool) (a b : α) : Prop where
  eq : answer eq = true ↔ a = b
  ne : answer ne = true ↔ a ≠ b
  lt : answer lt = true ↔ a < b
  le : answer le = true ↔ a ≤ b
  gt : answer gt = true ↔ b < a
  ge : answer ge = true ↔ b ≤ a

section Places

variable {α β : Type} [LinearOrder α] [LinearOrder β] {answer : Comparison → Bool} {a b : α}

theorem Places.trichotomous (h : Places answer a b) : Trichotomous answer := by
  have hle : answer .le = true ↔ answer .lt = true ∨ answer .eq = true := by
    rw [h.le, h.lt, h.eq, le_iff_lt_or_eq]
  have hge : answer .ge = true ↔ answer .gt = true ∨ answer .eq = true := by
    rw [h.ge, h.gt, h.eq, le_iff_lt_or_eq, eq_comm]
  refine ⟨?_, Bool.eq_iff_iff.mpr ?_, Bool.eq_iff_iff.mpr ?_⟩
  · rcases lt_trichotomy a b with hlt | heq | hgt
    · simp [h.lt, h.eq, h.gt, hlt, hlt.ne, hlt.asymm]
    · simp [h.lt, h.eq, h.gt, heq]
    · simp [h.lt, h.eq, h.gt, hgt, hgt.ne', hgt.asymm]
  · rw [Bool.or_eq_true, hle]
  · rw [Bool.or_eq_true, hge]

theorem Places.congr (h : Places answer a b) {c d : β} (hlt : c < d ↔ a < b)
    (hgt : d < c ↔ b < a) : Places answer c d := by
  have hle : c ≤ d ↔ a ≤ b := by rw [← not_lt, ← not_lt, hgt]
  have hge : d ≤ c ↔ b ≤ a := by rw [← not_lt, ← not_lt, hlt]
  have heq : c = d ↔ a = b := by rw [le_antisymm_iff, le_antisymm_iff, hle, hge]
  exact ⟨by rw [h.eq, heq], by rw [h.ne, ne_eq, ne_eq, heq], by rw [h.lt, hlt],
    by rw [h.le, hle], by rw [h.gt, hgt], by rw [h.ge, hge]⟩

theorem places_of_order? {v w : Value} {o : Ordering} (ho : v.order? w = some o)
    (hlt : o = .lt ↔ a < b) (heq : o = .eq ↔ a = b) (hgt : o = .gt ↔ b < a)
    (hsame : v.same w = true ↔ a = b) : Places (fun c => c.holds v w) a b where
  eq := hsame
  ne := by rw [holds, Bool.not_eq_true', ← Bool.not_eq_true, hsame]
  lt := by rw [holds, ho, beq_iff_eq, Option.some.injEq, hlt]
  le := by
    rw [holds, ho, Bool.or_eq_true, beq_iff_eq, beq_iff_eq, Option.some.injEq, Option.some.injEq,
      hlt, heq, le_iff_lt_or_eq]
  gt := by rw [holds, ho, beq_iff_eq, Option.some.injEq, hgt]
  ge := by
    rw [holds, ho, Bool.or_eq_true, beq_iff_eq, beq_iff_eq, Option.some.injEq, Option.some.injEq,
      hgt, heq, le_iff_lt_or_eq, eq_comm]

end Places

theorem places_number {x y : Number} (hx : x.IsFinite) (hy : y.IsFinite) :
    Places (fun c => c.holds (.number x) (.number y)) x.value y.value := by
  have horder := Number.order_eq hx hy
  refine places_of_order? horder ?_ ?_ ?_ (Number.same_iff_value_eq hx hy)
  · rw [← Number.order_eq_lt_iff hx hy, horder, Option.some.injEq]
  · rw [← Number.order_eq_eq_iff hx hy, horder, Option.some.injEq]
  · rw [← Number.order_eq_gt_iff hx hy, horder, Option.some.injEq]

theorem places_string (s t : String) :
    Places (fun c => c.holds (.string s) (.string t)) s t :=
  places_of_order? rfl compare_lt_iff_lt compare_eq_iff_eq compare_gt_iff_gt beq_iff_eq

theorem places_codePoints (s t : String) :
    Places (fun c => c.holds (.string s) (.string t)) (Text.codePoints s) (Text.codePoints t) :=
  (places_string s t).congr Text.codePoints_lt_iff Text.codePoints_lt_iff

theorem places_byteValues (s t : String) :
    Places (fun c => c.holds (.string s) (.string t)) (Text.byteValues s) (Text.byteValues t) :=
  (places_string s t).congr Text.byteValues_lt_iff Text.byteValues_lt_iff

end Comparison

/-- Two numbers, or two strings. -/
inductive Value.Comparable : Value → Value → Prop where
  | numbers (x y : Number) : Comparable (number x) (number y)
  | strings (s t : String) : Comparable (string s) (string t)

theorem Value.order?_eq_none {v w : Value} (h : ¬ v.Comparable w) : v.order? w = none := by
  unfold order?
  split
  · exact absurd (.numbers _ _) h
  · exact absurd (.strings _ _) h
  · rfl

theorem Comparison.holds_eq_false {v w : Value} (h : ¬ v.Comparable w) {comparison : Comparison}
    (hcomparison : comparison ∈ [lt, le, gt, ge]) : comparison.holds v w = false := by
  have horder := Value.order?_eq_none h
  simp only [List.mem_cons, List.not_mem_nil, or_false] at hcomparison
  rcases hcomparison with rfl | rfl | rfl | rfl <;> simp only [holds, horder] <;> rfl

theorem Number.order_swap (x y : Number) : y.order x = (x.order y).map Ordering.swap := by
  rw [order, order]
  by_cases h : x.IsNaN ∨ y.IsNaN
  · rw [if_pos h, if_pos h.symm]
    rfl
  · rw [if_neg h, if_neg fun h' => h h'.symm, Option.map_some, Int.compare_swap]

theorem Value.order?_swap (v w : Value) : w.order? v = (v.order? w).map Ordering.swap := by
  by_cases h : v.Comparable w
  · cases h with
    | numbers x y => exact x.order_swap y
    | strings s t => exact congrArg some Std.OrientedCmp.eq_swap
  · have hswapped : ¬ w.Comparable v := by
      rintro ⟨⟩
      · exact h (.numbers _ _)
      · exact h (.strings _ _)
    rw [order?_eq_none h, order?_eq_none hswapped]
    rfl

theorem Comparison.holds_mirror {v w : Value} (hv : v.KeysDistinct) (hw : w.KeysDistinct)
    (comparison : Comparison) : comparison.mirror.holds w v = comparison.holds v w := by
  have hsame : w.same v = v.same w :=
    Bool.eq_iff_iff.mpr ⟨Value.same_symm hw hv, Value.same_symm hv hw⟩
  have horder := v.order?_swap w
  cases comparison with
  | eq => exact hsame
  | ne => exact congrArg (!·) hsame
  | _ =>
    simp only [mirror, holds, horder]
    cases v.order? w with
    | none => rfl
    | some o => cases o <;> rfl

/-- A literal has distinct keys and finite numbers. -/
def Operand.Sound : Operand → Prop
  | reference _ => True
  | literal v => Json.Sound v

theorem Selector.sound_of_follow? {selectors : List Selector} {v w : Value}
    (h : follow? selectors v = some w) (hv : Json.Sound v) : Json.Sound w := by
  induction selectors generalizing v with
  | nil =>
    cases h
    exact hv
  | cons selector selectors ih =>
    obtain ⟨u, hu, h⟩ := Option.bind_eq_some_iff.mp h
    exact ih h (hv.part (mem_parts_of_child? hu))

section Operands

variable {root current : Value} (hroot : Json.Sound root) (hcurrent : Json.Sound current)
include hroot hcurrent

theorem Operand.sound_of_value? {operand : Operand} (h : operand.Sound) {v : Value}
    (hv : operand.value? root current = some v) : Json.Sound v := by
  cases operand with
  | literal w =>
    cases hv
    exact h
  | reference r =>
    rw [value?, r.resolve?_eq] at hv
    refine Selector.sound_of_follow? hv ?_
    cases r.anchor with
    | current => exact hcurrent
    | root => exact hroot

theorem Condition.holds_compare_mirror {left right : Operand} (hleft : left.Sound)
    (hright : right.Sound) (comparison : Comparison) :
    (compare right comparison.mirror left).holds root current =
      (compare left comparison right).holds root current := by
  rw [holds, holds]
  cases hl : left.value? root current with
  | none => cases right.value? root current <;> rfl
  | some v =>
    cases hr : right.value? root current with
    | none => rfl
    | some w =>
      have hv := Operand.sound_of_value? hroot hcurrent hleft hl
      have hw := Operand.sound_of_value? hroot hcurrent hright hr
      exact Comparison.holds_mirror hv.keys hw.keys comparison

end Operands

/-- The conditions differ in comparisons with swapped sides and mirrored marks at most. -/
inductive Condition.Turned : Condition → Condition → Prop where
  | refl (condition : Condition) : Turned condition condition
  | swap {left right : Operand} (hleft : left.Sound) (hright : right.Sound)
      (comparison : Comparison) :
      Turned (compare left comparison right) (compare right comparison.mirror left)
  | and {left left' right right' : Condition} (hleft : Turned left left')
      (hright : Turned right right') : Turned (and left right) (and left' right')
  | or {left left' right right' : Condition} (hleft : Turned left left')
      (hright : Turned right right') : Turned (or left right) (or left' right')
  | not {inner inner' : Condition} (hinner : Turned inner inner') :
      Turned (not inner) (not inner')

section Turned

variable {root : Value} (hroot : Json.Sound root) {condition condition' : Condition}
  (h : condition.Turned condition')
include hroot h

theorem Condition.Turned.holds_eq {current : Value} (hcurrent : Json.Sound current) :
    condition'.holds root current = condition.holds root current := by
  induction h with
  | refl => rfl
  | swap hleft hright comparison =>
    exact holds_compare_mirror hroot hcurrent hleft hright comparison
  | and _ _ ihl ihr => rw [holds, holds, ihl, ihr]
  | or _ _ ihl ihr => rw [holds, holds, ihl, ihr]
  | not _ ih => rw [holds, holds, ih]

theorem Condition.Turned.selectStep_eq {nodes : List Node} (hnodes : ∀ n ∈ nodes, Json.Sound n.2) :
    selectStep root nodes (.filter condition') = selectStep root nodes (.filter condition) := by
  rw [selectStep, selectStep]
  refine List.flatMap_congr fun n hn => ?_
  refine congrArg (List.map n.child) (List.filter_congr fun c hc => ?_)
  exact h.holds_eq hroot ((hnodes n hn).part (Value.mem_parts_of_mem_children hc))

theorem Condition.Turned.entries_eq (before after : Path) :
    (evaluate root (before ++ .filter condition' :: after)).entries =
      (evaluate root (before ++ .filter condition :: after)).entries := by
  have hnodes : ∀ n ∈ select root [] before, Json.Sound n.2 :=
    forall_select (P := fun n => Json.Sound n.2)
      (fun _ hn _ hc => hn.part (Value.mem_parts_of_mem_children hc)) hroot (by simp) before
  rw [entries_evaluate_eq_select root hroot.keys, entries_evaluate_eq_select root hroot.keys,
    select_append, select_append, select, select, h.selectStep_eq hroot hnodes]

end Turned

theorem Condition.holds_compare_eq_false {root current : Value} {left right : Operand}
    (h : left.value? root current = none ∨ right.value? root current = none)
    (comparison : Comparison) : (compare left comparison right).holds root current = false := by
  rcases h with hnone | hnone
  · simp only [holds, hnone]
  · simp only [holds, hnone]
    cases left.value? root current <;> rfl

theorem Condition.holds_compare_eq {root current v w : Value} {left right : Operand}
    (hl : left.value? root current = some v) (hr : right.value? root current = some w)
    (comparison : Comparison) :
    (compare left comparison right).holds root current = comparison.holds v w := by
  simp only [holds, hl, hr]

/-- How a comparison of two operands is answered. A side that leads nowhere makes all comparisons
false. Otherwise unequal is the negation of equal. Numbers are compared by their values, strings by
their code points and likewise by their bytes, and of less, equal and greater exactly one holds;
other values are never ordered. Swapping the sides of comparisons, with their marks mirrored,
anywhere in a filter changes none of the matches. -/
theorem Condition.holds_compare_cases {root current : Value} {left right : Operand}
    (hroot : Json.Sound root) (hcurrent : Json.Sound current) (hleft : left.Sound)
    (hright : right.Sound) :
    let answer := fun comparison => (Condition.compare left comparison right).holds root current
    (left.value? root current = none ∨ right.value? root current = none →
        ∀ comparison, answer comparison = false) ∧
      (∀ v w, left.value? root current = some v → right.value? root current = some w →
        answer .ne = (!answer .eq) ∧
          (v.Comparable w → Comparison.Trichotomous answer) ∧
          (∀ x y, v = .number x → w = .number y → Comparison.Places answer x.value y.value) ∧
          (∀ s t, v = .string s → w = .string t →
            Comparison.Places answer (Text.codePoints s) (Text.codePoints t) ∧
              Comparison.Places answer (Text.byteValues s) (Text.byteValues t)) ∧
          (¬ v.Comparable w → ∀ comparison ∈ [Comparison.lt, .le, .gt, .ge],
            answer comparison = false)) ∧
      ∀ condition condition', Condition.Turned condition condition' → ∀ before after : Path,
        (evaluate root (before ++ .filter condition' :: after)).entries =
          (evaluate root (before ++ .filter condition :: after)).entries := by
  intro answer
  refine ⟨holds_compare_eq_false, fun v w hl hr => ?_,
    fun _ _ hturned before after => hturned.entries_eq hroot before after⟩
  have hv := Operand.sound_of_value? hroot hcurrent hleft hl
  have hw := Operand.sound_of_value? hroot hcurrent hright hr
  have hanswer : answer = fun comparison => comparison.holds v w :=
    funext fun comparison => holds_compare_eq hl hr comparison
  rw [hanswer]
  refine ⟨rfl, ?_, ?_, ?_, fun hincomparable _ => Comparison.holds_eq_false hincomparable⟩
  · rintro ⟨⟩
    · exact (Comparison.places_number (hv.finite.self _ rfl) (hw.finite.self _ rfl)).trichotomous
    · exact (Comparison.places_string _ _).trichotomous
  · rintro x y rfl rfl
    exact Comparison.places_number (hv.finite.self x rfl) (hw.finite.self y rfl)
  · rintro s t rfl rfl
    exact ⟨Comparison.places_codePoints s t, Comparison.places_byteValues s t⟩

/-- A character beyond the first plane is greater than one at its end, though its first unit of 16
bits is smaller; and a filter asks the same from the other side. -/
theorem Condition.holds_compare_cases_planes :
    let v := Value.string "\uFF5E"
    let root := Value.array [v, .null]
    let left := Operand.reference ⟨.current, []⟩
    let right := Operand.literal (.string "😀")
    (Json.Sound root ∧ Json.Sound v ∧ left.Sound ∧ right.Sound) ∧
      (Condition.compare left .lt right).holds root v = true ∧
      (Condition.compare left .ge right).holds root v = false ∧
      (evaluate root [.root, .filter (.compare right .gt left)]).entries = [([.index 0], v)] := by
  intro v root left right
  have hv : Json.Sound v := sound_string _
  have hroot : Json.Sound root := Json.sound_array (by simp [hv, sound_null])
  have hleft : left.Sound := trivial
  have hright : right.Sound := sound_string _
  obtain ⟨-, hanswers, hturned⟩ := Condition.holds_compare_cases hroot hv hleft hright
  obtain ⟨-, -, -, hstring, -⟩ := hanswers v (.string "😀") rfl rfl
  have hplaces := (hstring _ _ rfl rfl).1
  have hlt : Text.codePoints "\uFF5E" < Text.codePoints "😀" := by decide
  refine ⟨⟨hroot, hv, hleft, hright⟩, hplaces.lt.mpr hlt, ?_, ?_⟩
  · rw [← Bool.not_eq_true]
    exact fun hge => not_le.mpr hlt (hplaces.ge.mp hge)
  · have hswapped := hturned _ _ (.swap hleft hright .lt) [.root] []
    exact hswapped.trans ((entries_evaluate_eq_select root hroot.keys _).trans rfl)

end JsonQuery
