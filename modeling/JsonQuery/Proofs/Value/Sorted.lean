import JsonQuery.Proofs.Json.Writing
import JsonQuery.Proofs.Value.Equality
import JsonQuery.Value.Interchange

/-!
Values with the members of every object in the order of their keys. Where no number is a NaN, two
values are equal exactly if sorting makes them one, up to the sign of zero. So equality is an
equivalence there, and finite values are equal exactly if their sorted texts are the same.
-/

namespace JsonQuery

section SortMembers

variable {α : Type} {members others : List (String × α)}

/-- The keys ascend, each key standing once. -/
def KeysAscend (members : List (String × α)) : Prop :=
  members.Pairwise fun m n => m.1 < n.1

theorem KeysAscend.eq_of_perm (h : KeysAscend members) (h' : KeysAscend others)
    (hperm : members.Perm others) : members = others :=
  hperm.eq_of_pairwise (fun _ _ _ _ hmn hnm => absurd hnm hmn.asymm) h h'

theorem KeysAscend.nodup (h : KeysAscend members) : (members.map (·.1)).Nodup :=
  List.pairwise_map.mpr (h.imp ne_of_lt)

theorem mem_of_mem_putSorted {k : String} {a : α} {m : String × α}
    (h : m ∈ putSorted k a members) : m = (k, a) ∨ m ∈ members := by
  induction members with
  | nil => exact .inl (List.mem_singleton.mp h)
  | cons n members ih =>
    rw [putSorted] at h
    split at h
    · exact List.mem_cons.mp h
    · split at h
      · exact (List.mem_cons.mp h).imp_right (List.mem_cons_of_mem n)
      · rcases List.mem_cons.mp h with rfl | h
        · exact .inr List.mem_cons_self
        · exact (ih h).imp_right (List.mem_cons_of_mem n)

theorem keysAscend_putSorted (k : String) (a : α) (h : KeysAscend members) :
    KeysAscend (putSorted k a members) := by
  induction members with
  | nil => exact List.pairwise_singleton _ _
  | cons n members ih =>
    obtain ⟨hn, hmembers⟩ := List.pairwise_cons.mp h
    rw [putSorted]
    split
    · rename_i hlt
      refine List.pairwise_cons.mpr ⟨fun m hm => ?_, h⟩
      rcases List.mem_cons.mp hm with rfl | hm
      · exact hlt
      · exact hlt.trans (hn m hm)
    · rename_i hle
      split
      · rename_i heq
        subst heq
        exact List.pairwise_cons.mpr ⟨hn, hmembers⟩
      · rename_i hne
        refine List.pairwise_cons.mpr ⟨fun m hm => ?_, ih hmembers⟩
        rcases mem_of_mem_putSorted hm with rfl | hm
        · exact lt_of_le_of_ne (not_lt.mp hle) (Ne.symm hne)
        · exact hn m hm

theorem perm_putSorted {k : String} (a : α) (h : k ∉ members.map (·.1)) :
    (putSorted k a members).Perm ((k, a) :: members) := by
  induction members with
  | nil => exact .refl _
  | cons n members ih =>
    rw [List.map_cons, List.mem_cons, not_or] at h
    rw [putSorted]
    split
    · exact .refl _
    · rw [if_neg h.1]
      exact ((ih h.2).cons n).trans (.swap (k, a) n members)

theorem sortMembers_concat (members : List (String × α)) (m : String × α) :
    sortMembers (members ++ [m]) = putSorted m.1 m.2 (sortMembers members) := by
  rw [sortMembers, List.foldl_append]
  rfl

theorem putSorted_map {β : Type} (f : α → β) (k : String) (a : α) (members : List (String × α)) :
    putSorted k (f a) (members.map fun m => (m.1, f m.2)) =
      (putSorted k a members).map fun m => (m.1, f m.2) := by
  induction members with
  | nil => rfl
  | cons n members ih =>
    rw [List.map_cons, putSorted, putSorted]
    split
    · rfl
    · split
      · rfl
      · rw [ih, List.map_cons]

/-- Only keys decide the order. -/
theorem sortMembers_map {β : Type} (f : α → β) (members : List (String × α)) :
    sortMembers (members.map fun m => (m.1, f m.2)) =
      (sortMembers members).map fun m => (m.1, f m.2) := by
  induction members using List.reverseRecOn with
  | nil => rfl
  | append_singleton members m ih =>
    rw [List.map_append, List.map_singleton, sortMembers_concat, sortMembers_concat, ih]
    exact putSorted_map f m.1 m.2 _

theorem keysAscend_sortMembers (members : List (String × α)) :
    KeysAscend (sortMembers members) := by
  induction members using List.reverseRecOn with
  | nil => exact .nil
  | append_singleton members m ih =>
    rw [sortMembers_concat]
    exact keysAscend_putSorted m.1 m.2 ih

theorem perm_sortMembers (h : (members.map (·.1)).Nodup) :
    (sortMembers members).Perm members := by
  induction members using List.reverseRecOn with
  | nil => exact .refl _
  | append_singleton members m ih =>
    rw [List.map_append, List.nodup_append] at h
    have hsorted := ih h.1
    have hnotMem : m.1 ∉ (sortMembers members).map (·.1) := fun hmem =>
      h.2.2 m.1 ((hsorted.map (·.1)).mem_iff.mp hmem) m.1 (List.mem_singleton_self _) rfl
    rw [sortMembers_concat]
    exact (perm_putSorted m.2 hnotMem).trans
      ((hsorted.cons m).trans (List.perm_append_singleton m members).symm)

end SortMembers

namespace Value

mutual

def sorted : Value → Value
  | array elements => array (elementsSorted elements)
  | object members => object (sortMembers (membersSorted members))
  | v => v

def elementsSorted : List Value → List Value
  | [] => []
  | v :: elements => v.sorted :: elementsSorted elements

def membersSorted : List (String × Value) → List (String × Value)
  | [] => []
  | (k, v) :: members => (k, v.sorted) :: membersSorted members

end

theorem elementsSorted_eq (elements : List Value) :
    elementsSorted elements = elements.map sorted := by
  induction elements with
  | nil => rfl
  | cons v elements ih => rw [elementsSorted, ih, List.map_cons]

theorem membersSorted_eq (members : List (String × Value)) :
    membersSorted members = members.map fun m => (m.1, m.2.sorted) := by
  induction members with
  | nil => rfl
  | cons m members ih => rw [membersSorted, ih, List.map_cons]

theorem sorted_object {members : List (String × Value)} (h : (members.map (·.1)).Nodup) :
    ∃ ms, (object members).sorted = object ms ∧ KeysAscend ms ∧
      ms.Perm (members.map fun m => (m.1, m.2.sorted)) := by
  have hkeys : ((membersSorted members).map (·.1)).Nodup := by
    rwa [membersSorted_eq, List.map_map]
  refine ⟨_, rfl, keysAscend_sortMembers _, ?_⟩
  rw [← membersSorted_eq]
  exact perm_sortMembers hkeys

/-- The value with the members of every object in the order of their keys, and zeros without a
sign. -/
def normal (v : Value) : Value := v.sorted.asWritten

theorem normal_number (x : Number) : (number x).normal = number x.asWritten := rfl

theorem normal_array (elements : List Value) :
    (array elements).normal = array (elements.map normal) := by
  rw [normal, sorted, asWritten, elementsAsWritten_eq, elementsSorted_eq, List.map_map]
  rfl

theorem normal_object {members : List (String × Value)} (h : (members.map (·.1)).Nodup) :
    ∃ ms, (object members).normal = object ms ∧ KeysAscend ms ∧
      ms.Perm (members.map fun m => (m.1, m.2.normal)) := by
  obtain ⟨ms, hsorted, hascend, hperm⟩ := sorted_object h
  refine ⟨ms.map fun m => (m.1, m.2.asWritten), ?_, ?_, ?_⟩
  · rw [normal, hsorted, asWritten, membersAsWritten_eq]
  · exact List.pairwise_map.mpr hascend
  · have hwritten := hperm.map fun m => (m.1, m.2.asWritten)
    rwa [List.map_map] at hwritten

theorem normal_object_eq_iff {ms ns : List (String × Value)} (hms : (ms.map (·.1)).Nodup)
    (hns : (ns.map (·.1)).Nodup) :
    (object ms).normal = (object ns).normal ↔
      Matched (fun m n : String × Value => m.1 = n.1 ∧ m.2.normal = n.2.normal) ms ns := by
  obtain ⟨ms', heq, hascend, hperm⟩ := normal_object hms
  obtain ⟨ns', heq', hascend', hperm'⟩ := normal_object hns
  have hmap : Matched (fun m n : String × Value => m.1 = n.1 ∧ m.2.normal = n.2.normal) ms ns ↔
      Matched (· = ·) (ms.map fun m => (m.1, m.2.normal)) (ns.map fun m => (m.1, m.2.normal)) := by
    simp only [Matched, ← Multiset.map_coe, Multiset.rel_map, Prod.mk.injEq]
  rw [heq, heq', object.injEq, hmap]
  constructor
  · rintro rfl
    exact .of_perm (hperm.symm.trans hperm')
  · intro h
    exact hascend.eq_of_perm hascend' (hperm.trans (h.perm.trans hperm'.symm))

/-- Keys are distinct, and no number is a NaN. -/
structure Regular (v : Value) : Prop where
  keys : v.KeysDistinct
  numbers : v.NumbersDefined

theorem Regular.part {v w : Value} (h : v.Regular) (hw : w ∈ v.parts) : w.Regular :=
  ⟨h.keys.part hw, h.numbers.part hw⟩

theorem regular_of_sound {v : Value} (h : Json.Sound v) : v.Regular :=
  ⟨h.keys, h.finite.mono fun _ hx x heq => Number.not_isNaN (hx x heq)⟩

theorem same_iff_normal_eq {v w : Value} (hv : v.Regular) (hw : w.Regular) :
    v.same w = true ↔ v.normal = w.normal := by
  induction v using parts_induction generalizing w with
  | h v ih =>
    cases v <;> cases w
    case number.number x y =>
      rw [same, Number.same_iff, normal_number, normal_number, number.injEq,
        Number.asWritten_eq_iff]
      exact ⟨fun h => h.2.2, fun h => ⟨hv.numbers.self x rfl, hw.numbers.self y rfl, h⟩⟩
    case array.array xs ys =>
      rw [same, sameElements_iff, normal_array, normal_array, array.injEq, ← List.forall₂_eq_eq_eq,
        List.forall₂_map_left_iff, List.forall₂_map_right_iff]
      exact forall₂_congr fun x hx y hy => ih x hx (hv.part hx) (hw.part hy)
    case object.object ms ns =>
      rw [same_object_iff hv.keys.1 hw.keys.1, normal_object_eq_iff hv.keys.1 hw.keys.1]
      refine Matched.congr fun m hm n hn => and_congr_right fun _ => ?_
      have hm' : m.2 ∈ (object ms).parts := List.mem_map_of_mem hm
      have hn' : n.2 ∈ (object ns).parts := List.mem_map_of_mem hn
      exact ih m.2 hm' (hv.part hm') (hw.part hn')
    all_goals simp [same, normal, sorted, asWritten]

theorem sound_sorted {v : Value} (h : Json.Sound v) : Json.Sound v.sorted := by
  induction v using parts_induction with
  | h v ih =>
    cases v with
    | array elements =>
      rw [sorted, elementsSorted_eq]
      refine Json.sound_array (List.forall_mem_map.mpr fun v hv => ?_)
      exact ih v hv (h.part hv)
    | object members =>
      obtain ⟨ms, hsorted, hascend, hperm⟩ := sorted_object h.keys.1
      rw [hsorted]
      refine Json.sound_object hascend.nodup fun m hm => ?_
      obtain ⟨n, hn, rfl⟩ := List.mem_map.mp (hperm.mem_iff.mp hm)
      have hpart : n.2 ∈ (object members).parts := List.mem_map_of_mem hn
      exact ih n.2 hpart (h.part hpart)
    | _ => exact h

/-- Equality is an equivalence of values with distinct keys and without NaN. It holds between two of
them exactly if they are one once sorted, up to the sign of zero; and if they are finite, exactly if
they have one text once sorted, in any layout. -/
theorem same_iff_sorted :
    Equivalence (fun v w : {v : Value // v.Regular} => v.1.same w.1 = true) ∧
      (∀ v w : Value, v.Regular → w.Regular →
        (v.same w = true ↔ v.sorted.asWritten = w.sorted.asWritten)) ∧
      ∀ v w : Value, Json.Sound v → Json.Sound w → ∀ layout : Layout,
        (v.same w = true ↔ v.sorted.write layout = w.sorted.write layout) := by
  refine ⟨⟨fun v => ?_, fun {v w} h => ?_, fun h h' => same_trans h h'⟩, fun v w hv hw => ?_,
    fun v w hv hw layout => ?_⟩
  · exact (same_iff_normal_eq v.2 v.2).mpr rfl
  · exact same_symm v.2.keys w.2.keys h
  · exact same_iff_normal_eq hv hw
  · rw [write_eq_write_iff (sound_sorted hv) (sound_sorted hw)]
    exact same_iff_normal_eq (regular_of_sound hv) (regular_of_sound hw)

/-- Members in another order at two depths, and a negative zero. -/
theorem same_iff_sorted_nested :
    let v := object [("b", array [number ⟨true, 0, by decide⟩]),
      ("a", object [("y", boolean true), ("x", null)])]
    let w := object [("a", object [("x", null), ("y", boolean true)]), ("b", array [number .zero])]
    ((v.Regular ∧ w.Regular) ∧ Json.Sound v ∧ Json.Sound w) ∧ v.same w = true ∧
      v.sorted.asWritten = w.sorted.asWritten ∧
        v.sorted.write .compact = w.sorted.write .compact := by
  intro v w
  have hnumber : ∀ x : Number, x.IsFinite → Json.Sound (array [number x]) := fun _ hx =>
    Json.sound_array (by simpa using Json.sound_number hx)
  have hminus := hnumber ⟨true, 0, by decide⟩ (by decide)
  have hzero := hnumber .zero (by decide)
  have hv : Json.Sound v := Json.sound_object (by decide) (by
    simp [hminus, Json.sound_object, sound_null, sound_boolean])
  have hw : Json.Sound w := Json.sound_object (by decide) (by
    simp [hzero, Json.sound_object, sound_null, sound_boolean])
  have hsame : v.same w = true := by rfl
  obtain ⟨-, htree, htext⟩ := same_iff_sorted
  exact ⟨⟨⟨regular_of_sound hv, regular_of_sound hw⟩, hv, hw⟩, hsame,
    (htree v w (regular_of_sound hv) (regular_of_sound hw)).mp hsame,
    (htext v w hv hw .compact).mp hsame⟩

end Value

end JsonQuery
