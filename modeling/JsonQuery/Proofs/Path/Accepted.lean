import JsonQuery.Proofs.Path.Grammar
import JsonQuery.Proofs.Path.WellFormed

/-!
Whatever a query text derives is well formed, at any depth.
-/

namespace JsonQuery

namespace Path

theorem IntegerText.inRange {s : List Char} {n : Int} (h : IntegerText s n) : InIndexRange n := by
  cases h with
  | mk _ _ hn => exact hn

theorem NumberText.isFinite {s : List Char} {x : Number} (h : NumberText s x) : x.IsFinite := by
  cases h with
  | mk _ _ _ _ hn => exact hn

theorem SelectorText.inRange {s : List Char} {selector : Selector}
    (h : SelectorText s selector) : selector.InRange := by
  cases h with
  | name _ => trivial
  | index hs => exact hs.inRange

theorem MoreSelectors.inRange {s : List Char} {selectors : List Selector}
    (h : MoreSelectors s selectors) : ∀ selector ∈ selectors, selector.InRange := by
  induction h with
  | nil => simp
  | cons _ _ hs _ ih => exact List.forall_mem_cons.mpr ⟨hs.inRange, ih⟩

theorem BoundText.inRange {s : List Char} {bound : Option Int} (h : BoundText s bound) :
    ∀ n ∈ bound, InIndexRange n := by
  cases h with
  | none => simp
  | some hs =>
    rintro _ ⟨⟩
    exact hs.inRange

theorem SliceText.wellFormed {s : List Char} {slice : Slice} (h : SliceText s slice) :
    slice.WellFormed := by
  cases h with
  | bounds hs _ _ ht => exact ⟨hs.inRange, ht.inRange, by simp, by simp⟩
  | stride hs _ _ ht _ _ hw hzero => exact ⟨hs.inRange, ht.inRange, hw.inRange, hzero⟩

theorem SegmentText.inRange {s : List Char} {selector : Selector} (h : SegmentText s selector) :
    selector.InRange := by
  cases h with
  | name _ => trivial
  | bracket _ hs _ => exact hs.inRange

theorem SegmentsText.inRange {s : List Char} {selectors : List Selector}
    (h : SegmentsText s selectors) : ∀ selector ∈ selectors, selector.InRange := by
  induction h with
  | nil => simp
  | cons hs _ ih => exact List.forall_mem_cons.mpr ⟨hs.inRange, ih⟩

theorem OperandText.wellFormed {s : List Char} {o : Operand} (h : OperandText s o) :
    o.WellFormed := by
  cases h with
  | reference _ hs => exact hs.inRange
  | number hs => exact hs.isFinite
  | _ => trivial

theorem ComparingText.wellFormed {s : List Char} {c : Condition} (h : ComparingText s c) :
    c.WellFormed := by
  cases h with
  | present hs => exact hs.wellFormed
  | compare _ hs _ _ ht => exact ⟨hs.wellFormed, ht.wellFormed⟩

mutual

theorem UnaryText.wellFormed : {depth : Nat} → {s : List Char} → {c : Condition} →
    UnaryText depth s c → c.WellFormed
  | _, _, _, .comparing hs => ComparingText.wellFormed hs
  | _, _, _, .not _ hs =>
    have hinner := UnaryText.wellFormed hs
    hinner
  | _, _, _, .group _ hs _ => DisjunctionText.wellFormed hs

theorem ConjunctionText.wellFormed : {depth : Nat} → {s : List Char} → {c : Condition} →
    ConjunctionText depth s c → c.WellFormed
  | _, _, _, .unary hs => UnaryText.wellFormed hs
  | _, _, _, .and hs _ _ ht => ⟨ConjunctionText.wellFormed hs, UnaryText.wellFormed ht⟩

theorem DisjunctionText.wellFormed : {depth : Nat} → {s : List Char} → {c : Condition} →
    DisjunctionText depth s c → c.WellFormed
  | _, _, _, .conjunction hs => ConjunctionText.wellFormed hs
  | _, _, _, .or hs _ _ ht => ⟨DisjunctionText.wellFormed hs, ConjunctionText.wellFormed ht⟩

end

theorem Arranged.cons_picks {step : Step} (hs : step.Picks) {path : Path} (h : Arranged path) :
    Arranged (step :: path) := by
  refine ⟨?_, ?_, h⟩
  · rintro rfl
    exact hs
  · rintro rfl
    exact hs.elim

theorem Arranged.cons_descent {step : Step} (hs : step.Picks) {path : Path} (h : Arranged path) :
    Arranged (.descent :: step :: path) :=
  ⟨Step.noConfusion, fun _ => ⟨step, rfl, hs⟩, h.cons_picks hs⟩

theorem MemberText.wellFormed {s : List Char} {step : Step} (h : MemberText s step) :
    step.Picks ∧ StepWellFormed step := by
  cases h with
  | name _ => exact ⟨trivial, trivial⟩
  | wildcard => exact ⟨trivial, trivial⟩

mutual

theorem ContentText.wellFormed : {depth : Nat} → {s : List Char} → {step : Step} →
    ContentText depth s step → step.Picks ∧ StepWellFormed step
  | _, _, _, .wildcard => ⟨trivial, trivial⟩
  | _, _, _, .filter _ hs => ⟨trivial, hs.wellFormed⟩
  | _, _, _, .path hs => ⟨trivial, StepsText.wellFormed hs⟩
  | _, _, _, .slice hs => ⟨trivial, hs.wellFormed⟩
  | _, _, _, .selector hs => ⟨trivial, hs.inRange⟩
  | _, _, _, .union hs ht =>
    ⟨trivial, Nat.le_add_left .., List.forall_mem_cons.mpr ⟨hs.inRange, ht.inRange⟩⟩

theorem BracketText.wellFormed : {depth : Nat} → {s : List Char} → {step : Step} →
    BracketText depth s step → step.Picks ∧ StepWellFormed step
  | _, _, _, .mk _ hs _ => ContentText.wellFormed hs

theorem StepText.wellFormed : {depth : Nat} → {s : List Char} → {step : Path} →
    StepText depth s step → {path : Path} → Arranged path ∧ StepsWellFormed path →
      Arranged (step ++ path) ∧ StepsWellFormed (step ++ path)
  | _, _, _, .dot _ hs, _, h =>
    ⟨h.1.cons_picks hs.wellFormed.1, hs.wellFormed.2, h.2⟩
  | _, _, _, .dots _ hs, _, h =>
    ⟨h.1.cons_descent hs.wellFormed.1, trivial, hs.wellFormed.2, h.2⟩
  | _, _, _, .dotsBracket _ hs, _, h =>
    have hstep := BracketText.wellFormed hs
    ⟨h.1.cons_descent hstep.1, trivial, hstep.2, h.2⟩
  | _, _, _, .bracket hs, _, h =>
    have hstep := BracketText.wellFormed hs
    ⟨h.1.cons_picks hstep.1, hstep.2, h.2⟩

theorem StepsText.wellFormed : {depth : Nat} → {s : List Char} → {path : Path} →
    StepsText depth s path → Arranged path ∧ StepsWellFormed path
  | _, _, _, .blanks _ => ⟨trivial, trivial⟩
  | _, _, _, .step _ hs ht => StepText.wellFormed hs (StepsText.wellFormed ht)

end

theorem QueryText.wellFormed {depth : Nat} {s : List Char} {path : Path}
    (h : QueryText depth s path) : WellFormed path := by
  cases h with
  | mk _ hs => exact hs.wellFormed

end Path

end JsonQuery
