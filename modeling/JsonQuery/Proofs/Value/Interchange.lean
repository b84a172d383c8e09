import JsonQuery.Proofs.Number.Value
import JsonQuery.Proofs.Value.Sorted

/-!
Exchanging a value and taking it back. What comes back has the text of the value with the members of
every object in the order of their keys, and where all numbers are finite it is equal to the value:
a whole number comes back from an integer without the sign of zero, any other one as it was.
-/

namespace JsonQuery

theorem Number.ofInt_eq_asWritten {x : Number} (hx : x.IsFinite) {n : Int}
    (h : x.toInt? = some n) : ofInt n = x.asWritten := by
  have hread := number_numeral_ofInt hx h
  rw [Numeral.number_eq, List.append_nil, Text.natOfDigits_ofNat] at hread
  exact hread

namespace Exchanged

variable {x : Number}

/-- Whole numbers below the bound are exchanged as integers, other finite numbers as reals, and the
rest as null. -/
theorem ofNumber_cases (x : Number) :
    (∃ n, x.toInt? = some n ∧ n.natAbs < integerBound ∧ ofNumber x = integer n) ∨
      (x.IsFinite ∧ x.rank ≠ 0 ∧ ofNumber x = real x) ∨ (¬ x.IsFinite ∧ ofNumber x = null) := by
  unfold ofNumber
  split
  · rename_i n hn
    obtain ⟨hn, hbound⟩ := Option.filter_eq_some_iff.mp hn
    exact .inl ⟨n, hn, of_decide_eq_true hbound, rfl⟩
  · rename_i hnone
    apply Or.inr
    by_cases hx : x.IsFinite
    · refine .inl ⟨hx, fun h0 => ?_, if_pos hx⟩
      rw [Number.toInt?_of_rank_eq_zero h0, Option.filter_some] at hnone
      have hpos : 0 < integerBound := tenTo_pos 15
      simp [hpos] at hnone
    · exact .inr ⟨hx, if_neg hx⟩

theorem value_ofNumber (hx : x.IsFinite) : (ofNumber x).value = .number x.asWritten := by
  rcases ofNumber_cases x with ⟨n, hn, -, h⟩ | ⟨-, h0, h⟩ | ⟨hnot, -⟩
  · rw [h, value, Number.ofInt_eq_asWritten hx hn]
  · rw [h, value, Number.asWritten_of_rank_ne_zero h0]
  · exact absurd hx hnot

theorem value_ofNumber_of_not (hx : ¬ x.IsFinite) : (ofNumber x).value = .null := by
  rcases ofNumber_cases x with ⟨n, hn, -⟩ | ⟨hfinite, -⟩ | ⟨-, h⟩
  · exact absurd (Number.toInt?_eq_some_iff.mp hn).1 hx
  · exact absurd hfinite hx
  · rw [h, value]

theorem keepsText_value_ofNumber : Value.KeepsText fun x => (ofNumber x).value := by
  intro layout depth x
  by_cases hx : x.IsFinite
  · show (ofNumber x).value.textAt layout depth = x.text
    rw [value_ofNumber hx]
    exact x.text_asWritten
  · show (ofNumber x).value.textAt layout depth = x.text
    rw [value_ofNumber_of_not hx, Value.textAt, Number.text, if_neg hx]

theorem elementValues_eq (elements : List Exchanged) :
    elementValues elements = elements.map value := by
  induction elements with
  | nil => rfl
  | cons e elements ih => rw [elementValues, ih, List.map_cons]

theorem memberValues_eq (members : List (String × Exchanged)) :
    memberValues members = members.map fun m => (m.1, m.2.value) := by
  induction members with
  | nil => rfl
  | cons m members ih => rw [memberValues, ih, List.map_cons]

end Exchanged

namespace Value

theorem exchangeElements_eq (elements : List Value) :
    exchangeElements elements = elements.map exchange := by
  induction elements with
  | nil => rfl
  | cons v elements ih => rw [exchangeElements, ih, List.map_cons]

theorem exchangeMembers_eq (members : List (String × Value)) :
    exchangeMembers members = members.map fun m => (m.1, m.2.exchange) := by
  induction members with
  | nil => rfl
  | cons m members ih => rw [exchangeMembers, ih, List.map_cons]

theorem ofMembers_eq {members : List (String × Value)} (h : (members.map (·.1)).Nodup) :
    ofMembers members = object members := by
  rw [ofMembers, foldl_put_eq_merged, merged_eq_self h]

/-- Only numbers and the order of members change. -/
theorem value_exchange (v : Value) :
    v.exchange.value = v.sorted.mapNumbers fun x => (Exchanged.ofNumber x).value := by
  induction v using parts_induction with
  | h v ih =>
    cases v with
    | array elements =>
      rw [exchange, Exchanged.value, exchangeElements_eq, Exchanged.elementValues_eq, List.map_map,
        sorted, elementsSorted_eq, mapNumbers, mapElementNumbers_eq, List.map_map]
      exact congrArg array (List.map_congr_left ih)
    | object members =>
      rw [exchange, Exchanged.value, exchangeMembers_eq, Exchanged.memberValues_eq,
        ← sortMembers_map, List.map_map, ofMembers_eq (keysAscend_sortMembers _).nodup, sorted,
        membersSorted_eq, mapNumbers, mapMemberNumbers_eq, ← sortMembers_map, List.map_map]
      refine congrArg (fun ms => object (sortMembers ms)) (List.map_congr_left fun m hm => ?_)
      exact congrArg (m.1, ·) (ih m.2 (List.mem_map_of_mem hm))
    | _ => rfl

theorem write_exchange (v : Value) (layout : Layout) :
    v.exchange.value.write layout = v.sorted.write layout := by
  rw [← String.toList_inj, toList_write, toList_write, value_exchange]
  exact textAt_mapNumbers Exchanged.keepsText_value_ofNumber layout 0 v.sorted

/-- The second value is the first one with the members of every object in the order of their
keys. -/
inductive SortsTo : Value → Value → Prop where
  | leaf {v : Value} (h : v.parts = []) : SortsTo v v
  | array {vs ws : List Value} (h : List.Forall₂ SortsTo vs ws) : SortsTo (array vs) (array ws)
  | object {ms ms' ns : List (String × Value)} (hperm : ms.Perm ms')
      (hkeys : ms'.map (·.1) = ns.map (·.1))
      (h : List.Forall₂ SortsTo (ms'.map (·.2)) (ns.map (·.2))) (hascend : KeysAscend ns) :
      SortsTo (object ms) (object ns)

theorem sortsTo_sorted {v : Value} (h : v.KeysDistinct) : v.SortsTo v.sorted := by
  induction v using parts_induction with
  | h v ih =>
    cases v with
    | array elements =>
      rw [sorted, elementsSorted_eq]
      apply SortsTo.array
      rw [List.forall₂_map_right_iff, List.forall₂_same]
      exact fun v hv => ih v hv (h.part hv)
    | object members =>
      have hperm := perm_sortMembers h.1
      rw [sorted, membersSorted_eq, sortMembers_map]
      apply SortsTo.object hperm.symm
      · rw [List.map_map]
        rfl
      · rw [List.map_map, List.forall₂_map_left_iff, List.forall₂_map_right_iff, List.forall₂_same]
        intro m hm
        have hpart : m.2 ∈ (Value.object members).parts :=
          List.mem_map_of_mem (hperm.mem_iff.mp hm)
        exact ih m.2 hpart (h.part hpart)
      · rw [← sortMembers_map]
        exact keysAscend_sortMembers _
    | _ => exact .leaf rfl

theorem exchange_eq_normal {v : Value} (h : Json.Sound v) : v.exchange.value = v.normal := by
  rw [value_exchange, normal, asWritten_eq_mapNumbers]
  exact mapNumbers_congr (fun _ hx => Exchanged.value_ofNumber hx) (sound_sorted h).finite

theorem normal_same {v : Value} (h : Json.Sound v) : v.normal.same v = true := by
  induction v using parts_induction with
  | h v ih =>
    cases v with
    | null => rfl
    | boolean b => exact beq_self_eq_true b
    | number x => exact Number.same_symm (Number.same_asWritten (h.finite.self x rfl))
    | string s => exact beq_self_eq_true s
    | array elements =>
      rw [normal_array, same, sameElements_iff, List.forall₂_map_left_iff, List.forall₂_same]
      exact fun v hv => ih v hv (h.part hv)
    | object members =>
      obtain ⟨ms, hnormal, hascend, hperm⟩ := normal_object h.keys.1
      rw [hnormal, same_object_iff hascend.nodup h.keys.1, Matched, Multiset.coe_eq_coe.mpr hperm]
      apply Matched.of_forall₂
      rw [List.forall₂_map_left_iff, List.forall₂_same]
      intro m hm
      have hpart : m.2 ∈ (object members).parts := List.mem_map_of_mem hm
      exact ⟨rfl, ih m.2 hpart (h.part hpart)⟩

/-- A value with distinct keys that is exchanged and taken back has, in every layout, the text of
the value with the members of every object in the order of their keys. If its numbers are finite,
what comes back is equal to it. -/
theorem write_exchange_eq_sorted {v : Value} (hkeys : v.KeysDistinct) :
    (∃ w, v.SortsTo w ∧ ∀ layout : Layout, v.exchange.value.write layout = w.write layout) ∧
      (v.NumbersFinite → v.exchange.value.same v = true) := by
  refine ⟨⟨v.sorted, sortsTo_sorted hkeys, write_exchange v⟩, fun hfinite => ?_⟩
  rw [exchange_eq_normal ⟨hkeys, hfinite⟩]
  exact normal_same ⟨hkeys, hfinite⟩

/-- Keys out of order at two depths, a negative zero, and a whole number at the bound from which on
numbers are exchanged as reals. -/
theorem write_exchange_eq_sorted_nested :
    let bound := Number.ofInt Exchanged.integerBound
    let v := object [("b", array [number ⟨true, 0, by decide⟩, number bound]),
      ("a", object [("y", boolean true), ("x", null)])]
    v.KeysDistinct ∧
      (∃ w, v.SortsTo w ∧ ∀ layout : Layout, v.exchange.value.write layout = w.write layout) ∧
      v.NumbersFinite ∧ v.exchange.value.same v = true := by
  intro bound v
  have hnumbers : Json.Sound (array [number ⟨true, 0, by decide⟩, number bound]) :=
    Json.sound_array (by
      have hminus : Number.IsFinite ⟨true, 0, by decide⟩ := by decide
      have hbound : bound.IsFinite := by decide +kernel
      simp [Json.sound_number hminus, Json.sound_number hbound])
  have hv : Json.Sound v := Json.sound_object (by decide) (by
    simp [hnumbers, Json.sound_object, sound_null, sound_boolean])
  obtain ⟨htext, hsame⟩ := write_exchange_eq_sorted hv.keys
  exact ⟨hv.keys, htext, hv.finite, hsame hv.finite⟩

end Value

end JsonQuery
