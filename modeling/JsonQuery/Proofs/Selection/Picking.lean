import JsonQuery.Proofs.Selection.Nodes
import JsonQuery.Proofs.Value.Members

/-!
What selectors and slices pick, said of the children of a value: a selector picks the child that it
names, and a slice the children at the places of Python's slice.
-/

namespace JsonQuery

namespace Slice

/-- A bound is Python's, also where it is not given. -/
theorem clamp_bound {length : Nat} {low high otherwise : Int} (hlow : low ≤ otherwise)
    (hhigh : otherwise ≤ high) (given : Option Int) :
    clamp low high ((given.map (Value.fromStart length)).getD otherwise) =
      given.elim otherwise (adjusted length low high) := by
  cases given with
  | none =>
    simp only [Option.map_none, Option.getD_none, Option.elim_none, clamp]
    omega
  | some bound =>
    simp only [Option.map_some, Option.getD_some, Option.elim_some, clamp, Value.fromStart,
      adjusted]
    omega

theorem strides_of_nonpos {distance stride : Int} (hs : 0 < stride) (hd : distance ≤ 0) :
    strides distance stride = 0 := by
  have h : (distance + stride - 1) / stride < 1 := Int.ediv_lt_of_lt_mul hs (by omega)
  simp only [strides]
  omega

theorem strides_of_pos {distance stride : Int} (hs : 0 < stride) (hd : 0 < distance) :
    strides distance stride = strides (distance - stride) stride + 1 := by
  have hstep : (distance + stride - 1) / stride = (distance - 1) / stride + 1 := by
    rw [show distance + stride - 1 = distance - 1 + 1 * stride by omega,
      Int.add_mul_ediv_right _ _ (by omega)]
  have hpos : 0 ≤ (distance - 1) / stride := Int.ediv_nonneg (by omega) (by omega)
  simp only [strides, hstep, show distance - stride + stride - 1 = distance - 1 by omega]
  omega

/-- The first stride begins at the start, and the others one stride later. -/
theorem map_range_strides {distance stride : Int} (hs : 0 < stride) (hd : 0 < distance)
    (place step : Int) :
    ((List.range (strides distance stride)).map fun n : Nat => (place + n * step).toNat) =
      place.toNat :: (List.range (strides (distance - stride) stride)).map
        fun n : Nat => (place + step + n * step).toNat := by
  rw [strides_of_pos hs hd, List.range_succ_eq_map, List.map_cons, List.map_map]
  refine List.cons_eq_cons.mpr ⟨by simp, List.map_congr_left fun n _ => ?_⟩
  simp only [Function.comp_apply, Nat.succ_eq_add_one, Int.natCast_add, Int.add_mul]
  congr 1
  omega

theorem placesUp_eq {stride : Int} (hs : 0 < stride) (place stop : Int) :
    placesUp place stop stride =
      (List.range (strides (stop - place) stride)).map
        fun n : Nat => (place + n * stride).toNat := by
  fun_induction placesUp place stop stride with
  | case1 place h ih =>
    rw [map_range_strides hs (by omega), ih, Int.sub_sub]
  | case2 place h => rw [strides_of_nonpos hs (by omega)]; rfl

theorem placesDown_eq {stride : Int} (hs : stride < 0) (place stop : Int) :
    placesDown place stop stride =
      (List.range (strides (place - stop) (-stride))).map
        fun n : Nat => (place + n * stride).toNat := by
  fun_induction placesDown place stop stride with
  | case1 place h ih =>
    rw [map_range_strides (by omega) (by omega), ih,
      show place - stop - -stride = place + stride - stop by omega]
  | case2 place h => rw [strides_of_nonpos (by omega) (by omega)]; rfl

/-- The places of a slice are those of Python's slice. -/
theorem places_eq_range (slice : Slice) (length : Nat) :
    slice.places length = slice.range length := by
  simp only [places, range]
  split
  · rename_i hs
    rw [placesUp_eq hs, clamp_bound (by omega) (by omega), clamp_bound (by omega) (by omega)]
  · split
    · rename_i hs
      rw [placesDown_eq hs, clamp_bound (by omega) (by omega), clamp_bound (by omega) (by omega)]
    · rfl

end Slice

section Names

variable (k k' : String) (i : Int) (size place : Nat)

@[simp] theorem Selector.names_name_key : (name k).names size (.key k') = (k' == k) := rfl

@[simp] theorem Selector.names_name_index : (name k).names size (.index place) = false := rfl

@[simp] theorem Selector.names_index_key : (index i).names size (.key k) = false := rfl

@[simp] theorem Selector.names_index_index :
    (index i).names size (.index place) = ((place : Int) == i || (place : Int) == size + i) := rfl

end Names

theorem Value.filter_zipIdx (elements : List Value) (first place : Nat) :
    (elements.zipIdx first).filter (fun c => c.2 == first + place) =
      (elements[place]?.map (·, first + place)).toList := by
  induction elements generalizing first place with
  | nil => rfl
  | cons v elements ih =>
    rw [List.zipIdx_cons]
    cases place with
    | zero =>
      have hnone : (elements.zipIdx (first + 1)).filter (fun c => c.2 == first) = [] := by
        rw [List.filter_eq_nil_iff]
        intro c hc hplace
        have := List.le_snd_of_mem_zipIdx hc
        have := beq_iff_eq.mp hplace
        omega
      simp only [Nat.add_zero, List.filter_cons, beq_self_eq_true, if_true, hnone]
      rfl
    | succ place =>
      have hrest := ih (first + 1) place
      rw [show first + 1 + place = first + (place + 1) by omega] at hrest
      simpa using hrest

/-- An element index names the one element that stands at that place. -/
theorem Value.filter_children_array (elements : List Value) (place : Nat) :
    (array elements).children.filter (fun c => c.1 == .index place) =
      (elements[place]?.map (Element.index place, ·)).toList := by
  have hplace := filter_zipIdx elements 0 place
  rw [Nat.zero_add] at hplace
  have hbeq : ((fun c : Element × Value => c.1 == .index place) ∘
      fun c : Value × Nat => (Element.index c.2, c.1)) = fun c => c.2 == place := by
    funext c
    rw [Bool.eq_iff_iff]
    simp
  rw [children, List.filter_map, hbeq, hplace]
  cases elements[place]? <;> rfl

theorem Value.mem_children_array {elements : List Value} {c : Element × Value}
    (h : c ∈ (array elements).children) : ∃ place < elements.length, c.1 = .index place := by
  obtain ⟨⟨v, place⟩, hmem, rfl⟩ := List.mem_map.mp h
  exact ⟨place, by simpa using List.snd_lt_of_mem_zipIdx hmem, rfl⟩

theorem Value.mem_children_object {members : List (String × Value)} {c : Element × Value}
    (h : c ∈ (object members).children) : ∃ k, c.1 = .key k := by
  obtain ⟨⟨k, v⟩, -, rfl⟩ := List.mem_map.mp h
  exact ⟨k, rfl⟩

theorem Value.filter_name_array (elements : List Value) (k : String) (size : Nat) :
    (array elements).children.filter (fun c => (Selector.name k).names size c.1) = [] := by
  rw [List.filter_eq_nil_iff]
  intro c hc
  obtain ⟨place, -, hplace⟩ := mem_children_array hc
  simp [hplace]

theorem Value.filter_index_object (members : List (String × Value)) (i : Int) (size : Nat) :
    (object members).children.filter (fun c => (Selector.index i).names size c.1) = [] := by
  rw [List.filter_eq_nil_iff]
  intro c hc
  obtain ⟨k, hk⟩ := mem_children_object hc
  simp [hk]

theorem Value.filter_place_object (members : List (String × Value)) (place : Nat) :
    (object members).children.filter (fun c => c.1 == .index place) = [] := by
  rw [List.filter_eq_nil_iff]
  intro c hc
  obtain ⟨k, hk⟩ := mem_children_object hc
  simp [hk]

theorem Selector.pick_name {v : Value} (h : v.KeysDistinct) (k : String) :
    (name k).pick v = v.children.filter fun c => (name k).names v.size c.1 := by
  cases v with
  | object members =>
    have hmembers := Keyed.filter_eq_find? h.1 k
    rw [Value.children, List.filter_map]
    have hnames : ((fun c : Element × Value => (name k).names (Value.object members).size c.1) ∘
        fun m : String × Value => (Element.key m.1, m.2)) = fun m => m.1 == k := rfl
    rw [hnames, hmembers, pick, Value.member?]
    cases Keyed.find? k members <;> rfl
  | array elements => exact (Value.filter_name_array elements k _).symm
  | _ => rfl

theorem Value.place?_natCast (length place : Nat) :
    place? length place = if place < length then some place else none := by
  have hstart : fromStart length place = place := by
    rw [fromStart, if_neg (by omega)]
  rw [place?, hstart, Int.toNat_natCast]
  exact if_congr (by omega) rfl rfl

/-- The element that an index names is the one at the place that the index comes to. -/
theorem Selector.names_index_iff (i : Int) {size place : Nat} (h : place < size) :
    (index i).names size (.index place) = true ↔ Value.place? size i = some place := by
  simp only [names_index_index, Bool.or_eq_true, beq_iff_eq, Value.place?, Value.fromStart]
  split
  · split
    · simp only [Option.some.injEq]
      omega
    · simp only [reduceCtorEq, iff_false]
      omega
  · split
    · simp only [Option.some.injEq]
      omega
    · simp only [reduceCtorEq, iff_false]
      omega

theorem Selector.pick_index (v : Value) (i : Int) :
    (index i).pick v = v.children.filter fun c => (index i).names v.size c.1 := by
  cases v with
  | array elements =>
    rw [pick]
    cases hplace : Value.place? elements.length i with
    | none =>
      have hnone : ∀ c ∈ (Value.array elements).children,
          ¬ (index i).names (Value.array elements).size c.1 = true := by
        intro c hc hnames
        obtain ⟨place, hlt, hplace'⟩ := Value.mem_children_array hc
        rw [hplace', Value.size, names_index_iff i hlt, hplace] at hnames
        cases hnames
      rw [List.filter_eq_nil_iff.mpr hnone]
      rfl
    | some place =>
      have hcongr : ∀ c ∈ (Value.array elements).children,
          (index i).names (Value.array elements).size c.1 = (c.1 == .index place) := by
        intro c hc
        obtain ⟨place', hlt, hplace'⟩ := Value.mem_children_array hc
        rw [hplace', Value.size, Bool.eq_iff_iff, names_index_iff i hlt, hplace, beq_iff_eq,
          Option.some.injEq, Element.index.injEq, eq_comm]
      rw [List.filter_congr hcongr, Value.filter_children_array]
      rfl
  | object members => exact (Value.filter_index_object members i _).symm
  | _ => rfl

theorem Selector.pick_eq {v : Value} (h : v.KeysDistinct) (selector : Selector) :
    selector.pick v = v.children.filter fun c => selector.names v.size c.1 := by
  cases selector with
  | name k => exact pick_name h k
  | index i => exact pick_index v i

theorem Slice.pick_eq (slice : Slice) (v : Value) :
    slice.pick v =
      (slice.range v.size).flatMap fun place => v.children.filter fun c => c.1 == .index place := by
  cases v with
  | array elements =>
    simp only [pick, places_eq_range, Value.filter_children_array, Value.size,
      List.getElem?_toArray]
    induction slice.range elements.length with
    | nil => rfl
    | cons place places ih =>
      rw [List.filterMap_cons, List.flatMap_cons, ih]
      cases elements[place]? <;> rfl
  | object members =>
    simp [pick, Value.filter_place_object]
  | _ => simp [pick, Value.children]

/-- What leads to a child picks this child. -/
theorem Element.pick_selector {v : Value} (h : v.KeysDistinct) {c : Element × Value}
    (hc : c ∈ v.children) : c.1.selector.pick v = [c] := by
  cases v with
  | array elements =>
    obtain ⟨⟨element, place⟩, hmem, rfl⟩ := List.mem_map.mp hc
    have hget : elements[place]? = some element := List.mk_mem_zipIdx_iff_getElem?.mp hmem
    have hlt : place < elements.length := (List.getElem?_eq_some_iff.mp hget).1
    have hplace : Value.place? elements.length place = some place := by
      rw [Value.place?_natCast, if_pos hlt]
    simp [selector, Selector.pick, hplace, hget]
  | object members =>
    obtain ⟨⟨k, w⟩, hmem, rfl⟩ := List.mem_map.mp hc
    have hfind := Keyed.find?_of_mem h.1 hmem
    simp [selector, Selector.pick, Value.member?, hfind]
  | _ => cases hc

end JsonQuery
