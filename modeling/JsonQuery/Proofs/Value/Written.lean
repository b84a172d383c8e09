import JsonQuery.Proofs.Number.Written
import JsonQuery.Proofs.Value.Members
import JsonQuery.Proofs.Value.Parts
import JsonQuery.Value.Equality
import JsonQuery.Value.Writing

/-!
What the text of a value keeps. The only thing that is lost is the sign of zero: the value as
written is equal to the value, with the members of every object in the same order, and has the same
text. Writing from the list of pending pieces gives the text that recursion gives.
-/

namespace JsonQuery

theorem Number.text_asWritten (x : Number) : x.asWritten.text = x.text := by
  by_cases h : x.rank = 0
  · have hfinite : x.IsFinite := by
      rw [IsFinite, h]
      decide
    have hzero : x.asWritten = zero := if_pos h
    rw [hzero, text, text, if_pos hfinite, toInt?_of_rank_eq_zero h,
      toInt?_of_rank_eq_zero (x := zero) rfl, if_pos (by decide)]
    have hbelow : (some (0 : Int)).filter (·.natAbs < integerBound) = some 0 := by
      simp [integerBound, tenTo_pos]
    simp only [hbelow]
  · rw [asWritten_of_rank_ne_zero h]

namespace Value

open Keyed

mutual

/-- The value with every number as its text denotes it. -/
def asWritten : Value → Value
  | number x => number x.asWritten
  | array elements => array (elementsAsWritten elements)
  | object members => object (membersAsWritten members)
  | v => v

def elementsAsWritten : List Value → List Value
  | [] => []
  | v :: elements => v.asWritten :: elementsAsWritten elements

def membersAsWritten : List (String × Value) → List (String × Value)
  | [] => []
  | (k, v) :: members => (k, v.asWritten) :: membersAsWritten members

end

theorem elementsAsWritten_eq (elements : List Value) :
    elementsAsWritten elements = elements.map asWritten := by
  induction elements with
  | nil => rfl
  | cons v elements ih => rw [elementsAsWritten, ih, List.map_cons]

theorem membersAsWritten_eq (members : List (String × Value)) :
    membersAsWritten members = members.map fun m => (m.1, m.2.asWritten) := by
  induction members with
  | nil => rfl
  | cons m members ih => rw [membersAsWritten, ih, List.map_cons]

@[simp] theorem map_fst_membersAsWritten (members : List (String × Value)) :
    (membersAsWritten members).map (·.1) = members.map (·.1) := by
  rw [membersAsWritten_eq, List.map_map]
  rfl

mutual

def mapNumbers (f : Number → Value) : Value → Value
  | number x => f x
  | array elements => array (mapElementNumbers f elements)
  | object members => object (mapMemberNumbers f members)
  | v => v

def mapElementNumbers (f : Number → Value) : List Value → List Value
  | [] => []
  | v :: elements => v.mapNumbers f :: mapElementNumbers f elements

def mapMemberNumbers (f : Number → Value) : List (String × Value) → List (String × Value)
  | [] => []
  | (k, v) :: members => (k, v.mapNumbers f) :: mapMemberNumbers f members

end

section MapNumbers

variable {f g : Number → Value}

theorem mapElementNumbers_eq (elements : List Value) :
    mapElementNumbers f elements = elements.map (mapNumbers f) := by
  induction elements with
  | nil => rfl
  | cons v elements ih => rw [mapElementNumbers, ih, List.map_cons]

theorem mapMemberNumbers_eq (members : List (String × Value)) :
    mapMemberNumbers f members = members.map fun m => (m.1, m.2.mapNumbers f) := by
  induction members with
  | nil => rfl
  | cons m members ih => rw [mapMemberNumbers, ih, List.map_cons]

theorem mapNumbers_congr {P : Number → Prop} (hfg : ∀ x, P x → f x = g x) {v : Value}
    (hv : Everywhere (fun w => ∀ x, w = number x → P x) v) : v.mapNumbers f = v.mapNumbers g := by
  induction v using parts_induction with
  | h v ih =>
    cases v with
    | number x => exact hfg x (hv.self x rfl)
    | array elements =>
      rw [mapNumbers, mapNumbers, mapElementNumbers_eq, mapElementNumbers_eq]
      exact congrArg array (List.map_congr_left fun v h => ih v h (hv.part h))
    | object members =>
      rw [mapNumbers, mapNumbers, mapMemberNumbers_eq, mapMemberNumbers_eq]
      refine congrArg object (List.map_congr_left fun m hm => ?_)
      have hpart : m.2 ∈ (object members).parts := List.mem_map_of_mem hm
      rw [ih m.2 hpart (hv.part hpart)]
    | _ => rfl

/-- Every number is replaced by what has the same text. -/
def KeepsText (f : Number → Value) : Prop :=
  ∀ layout depth x, (f x).textAt layout depth = x.text

mutual

theorem textAt_mapNumbers (hf : KeepsText f) (layout : Layout) (depth : Nat) :
    (v : Value) → (v.mapNumbers f).textAt layout depth = v.textAt layout depth
  | null => rfl
  | boolean _ => rfl
  | string _ => rfl
  | number x => hf layout depth x
  | array [] => rfl
  | array (v :: elements) => by
    simp only [mapNumbers, mapElementNumbers, textAt, textAt_mapNumbers hf layout (depth + 1) v,
      moreElements_mapNumbers hf layout (depth + 1) elements]
  | object [] => rfl
  | object ((_, v) :: members) => by
    simp only [mapNumbers, mapMemberNumbers, textAt, textAt_mapNumbers hf layout (depth + 1) v,
      moreMembers_mapNumbers hf layout (depth + 1) members]

theorem moreElements_mapNumbers (hf : KeepsText f) (layout : Layout) (depth : Nat) :
    (elements : List Value) →
      moreElements layout depth (mapElementNumbers f elements) = moreElements layout depth elements
  | [] => rfl
  | v :: elements => by
    simp only [mapElementNumbers, moreElements, textAt_mapNumbers hf layout depth v,
      moreElements_mapNumbers hf layout depth elements]

theorem moreMembers_mapNumbers (hf : KeepsText f) (layout : Layout) (depth : Nat) :
    (members : List (String × Value)) →
      moreMembers layout depth (mapMemberNumbers f members) = moreMembers layout depth members
  | [] => rfl
  | (_, v) :: members => by
    simp only [mapMemberNumbers, moreMembers, textAt_mapNumbers hf layout depth v,
      moreMembers_mapNumbers hf layout depth members]

end

end MapNumbers

theorem asWritten_eq_mapNumbers (v : Value) :
    v.asWritten = v.mapNumbers fun x => number x.asWritten := by
  induction v using parts_induction with
  | h v ih =>
    cases v with
    | array elements =>
      rw [asWritten, mapNumbers, elementsAsWritten_eq, mapElementNumbers_eq]
      exact congrArg array (List.map_congr_left ih)
    | object members =>
      rw [asWritten, mapNumbers, membersAsWritten_eq, mapMemberNumbers_eq]
      refine congrArg object (List.map_congr_left fun m hm => ?_)
      rw [ih m.2 (List.mem_map_of_mem hm)]
    | _ => rfl

/-- The value as written has the same text. -/
theorem textAt_asWritten (layout : Layout) (depth : Nat) (v : Value) :
    v.asWritten.textAt layout depth = v.textAt layout depth := by
  rw [asWritten_eq_mapNumbers]
  apply textAt_mapNumbers
  intro _ _ x
  exact x.text_asWritten

theorem sameElements_map {f : Value → Value} {elements : List Value}
    (h : ∀ v ∈ elements, v.same (f v) = true) :
    sameElements elements (elements.map f) = true := by
  induction elements with
  | nil => rfl
  | cons v elements ih =>
    rw [List.map_cons, sameElements, h v List.mem_cons_self, Bool.true_and]
    exact ih fun w hw => h w (List.mem_cons_of_mem v hw)

theorem sameMembers_of_find? {members others : List (String × Value)}
    (h : ∀ m ∈ members, ∃ other, find? m.1 others = some other ∧ m.2.same other = true) :
    sameMembers members others = true := by
  induction members with
  | nil => rfl
  | cons m members ih =>
    obtain ⟨other, hfind, hsame⟩ := h m List.mem_cons_self
    rw [sameMembers, hfind]
    simp only [hsame, Bool.true_and]
    exact ih fun m' hm => h m' (List.mem_cons_of_mem m hm)

theorem same_asWritten {v : Value} (hkeys : v.KeysDistinct) (hfinite : v.NumbersFinite) :
    v.same v.asWritten = true := by
  induction v using parts_induction with
  | h v ih =>
    cases v with
    | null => rfl
    | boolean b => exact beq_self_eq_true b
    | number x => exact Number.same_asWritten (hfinite.self x rfl)
    | string s => exact beq_self_eq_true s
    | array elements =>
      rw [asWritten, same, elementsAsWritten_eq]
      exact sameElements_map fun v hv => ih v hv (hkeys.part hv) (hfinite.part hv)
    | object members =>
      have hnodup : ((membersAsWritten members).map (·.1)).Nodup := by
        rw [map_fst_membersAsWritten]
        exact hkeys.1
      rw [asWritten, same, membersAsWritten_eq, List.length_map, beq_self_eq_true, Bool.true_and]
      rw [membersAsWritten_eq] at hnodup
      refine sameMembers_of_find? fun m hm => ⟨m.2.asWritten, ?_, ?_⟩
      · exact find?_of_mem hnodup (List.mem_map_of_mem (f := fun m => (m.1, m.2.asWritten)) hm)
      · have hpart : m.2 ∈ (object members).parts := List.mem_map_of_mem hm
        exact ih m.2 hpart (hkeys.part hpart) (hfinite.part hpart)

def Piece.text (layout : Layout) : Piece → List Char
  | chars cs => cs
  | lineBreak depth => layout.lineBreak depth
  | key name => Text.jsonString name ++ layout.colon
  | value v depth => v.textAt layout depth

theorem text_morePieces (layout : Layout) (depth : Nat) (elements : List Value) :
    (morePieces depth elements).flatMap (Piece.text layout) =
      moreElements layout depth elements := by
  induction elements with
  | nil => rfl
  | cons v elements ih => simp [morePieces, Piece.text, moreElements, ih]

theorem text_moreMemberPieces (layout : Layout) (depth : Nat) (members : List (String × Value)) :
    (moreMemberPieces depth members).flatMap (Piece.text layout) =
      moreMembers layout depth members := by
  induction members with
  | nil => rfl
  | cons m members ih => simp [moreMemberPieces, Piece.text, moreMembers, ih]

/-- The pending pieces are written one after the other. -/
theorem toList_writePieces (layout : Layout) (out : String) (work : List Piece) :
    (writePieces layout out work).toList = out.toList ++ work.flatMap (Piece.text layout) := by
  fun_induction writePieces layout out work with
  | case10 _ b => cases b <;> simp_all [Piece.text, textAt]
  | _ => simp_all [Piece.text, textAt, closing, text_morePieces, text_moreMemberPieces]

theorem toList_writeTo (layout : Layout) (out : String) (v : Value) :
    (v.writeTo layout out).toList = out.toList ++ v.text layout := by
  rw [writeTo, toList_writePieces]
  simp [Piece.text, text]

theorem toList_writeArrayTo (layout : Layout) (out : String) (elements : List Value) :
    (writeArrayTo layout out elements).toList = out.toList ++ (array elements).text layout := by
  cases elements with
  | nil => simp [writeArrayTo, text, textAt]
  | cons v elements =>
    rw [writeArrayTo, toList_writePieces]
    simp [Piece.text, text, textAt, closing, text_morePieces]

/-- The text of a value is the one that recursion gives. -/
theorem toList_write (layout : Layout) (v : Value) :
    (v.write layout).toList = v.text layout := by
  rw [write, toList_writeTo, String.toList_empty, List.nil_append]

theorem toList_writeArray (layout : Layout) (elements : List Value) :
    (writeArray layout elements).toList = (array elements).text layout := by
  rw [writeArray, toList_writeArrayTo, String.toList_empty, List.nil_append]

end Value

end JsonQuery
