import JsonQuery.Proofs.Selection.Locality
import JsonQuery.Proofs.Selection.Singular
import Mathlib.Data.List.Nodup
import Mathlib.Data.List.Pairwise

/-!
The order of matches. Each value of a document comes before all that is below it, and that before
the next child. Steps that pick no child twice lead from distinct nodes to distinct nodes; a
descent does so from nodes of one depth, since no such node is below another. Where no step goes
back, the matches stand in the order of the document.
-/

namespace JsonQuery

namespace Value

/-- Among the children, `c` stands before `d`. -/
def ChildBefore (v : Value) (c d : Element × Value) : Prop := [c, d].Sublist v.children

/-- The order of the locations of a document. -/
inductive Precedes : Value → Location → Location → Prop where
  | ancestor {v : Value} (e : Element) (l : Location) : Precedes v [] (e :: l)
  | child {v : Value} {c : Element × Value} {l m : Location} (hc : c ∈ v.children)
      (h : Precedes c.2 l m) : Precedes v (c.1 :: l) (c.1 :: m)
  | sibling {v : Value} {c d : Element × Value} (h : v.ChildBefore c d) (l m : Location) :
      Precedes v (c.1 :: l) (d.1 :: m)

theorem nodup_children {v : Value} (h : v.KeysDistinct) : (v.children.map (·.1)).Nodup := by
  cases v with
  | array elements =>
    have hplaces : (array elements).children.map (·.1) =
        (elements.zipIdx.map (·.2)).map Element.index := by
      rw [children, List.map_map, List.map_map]
      rfl
    rw [hplaces, List.zipIdx_map_snd]
    exact List.Nodup.map (fun _ _ heq => Element.index.inj heq) List.nodup_range'
  | object members =>
    have hkeys : (object members).children.map (·.1) = (members.map (·.1)).map Element.key := by
      rw [children, List.map_map, List.map_map]
      rfl
    rw [hkeys]
    exact List.Nodup.map (fun _ _ heq => Element.key.inj heq) h.1
  | _ => exact .nil

theorem ChildBefore.ne {v : Value} (hv : v.KeysDistinct) {c d : Element × Value}
    (h : v.ChildBefore c d) : c.1 ≠ d.1 :=
  List.pairwise_iff_forall_sublist.mp (List.pairwise_map.mp (nodup_children hv)) h

section Precedes

variable {v : Value} {l m : Location}

/-- No location comes before itself. -/
theorem Precedes.ne (hv : v.KeysDistinct) (h : v.Precedes l m) : l ≠ m := by
  induction h with
  | ancestor e l => nofun
  | child hc _ ih =>
    intro heq
    exact ih (hv.part (mem_parts_of_mem_children hc)) (List.cons.inj heq).2
  | sibling h l m =>
    intro heq
    exact h.ne hv (List.cons.inj heq).1

/-- Where neither of two locations is below the other, their order is that of all that is below
them. -/
theorem Precedes.append (h : v.Precedes l m) (hlength : l.length = m.length) (a b : Location) :
    v.Precedes (l ++ a) (m ++ b) := by
  induction h with
  | ancestor e l => cases hlength
  | child hc _ ih => exact .child hc (ih (Nat.succ.inj hlength))
  | sibling h l m => exact .sibling h (l ++ a) (m ++ b)

end Precedes

theorem pairwise_children (v : Value) : v.children.Pairwise v.ChildBefore :=
  List.pairwise_iff_forall_sublist.mpr fun h => h

/-- A descent lists the values in the order of the document. -/
theorem pairwise_descent (v : Value) :
    ((descent [] v).map (·.1)).Pairwise v.Precedes := by
  rw [List.pairwise_map]
  induction v using parts_induction with
  | h v ih =>
    rw [descent_root_eq, List.pairwise_cons]
    constructor
    · intro n hn
      obtain ⟨c, -, hn⟩ := List.mem_flatMap.mp hn
      obtain ⟨m, -, rfl⟩ := List.mem_map.mp hn
      exact .ancestor c.1 m.1
    · rw [List.pairwise_flatMap]
      constructor
      · intro c hc
        rw [List.pairwise_map]
        exact (ih c.2 (mem_parts_of_mem_children hc)).imp fun h => .child hc h
      · refine v.pairwise_children.imp fun {c d} hcd => ?_
        intro n hn m hm
        obtain ⟨n', -, rfl⟩ := List.mem_map.mp hn
        obtain ⟨m', -, rfl⟩ := List.mem_map.mp hm
        exact .sibling hcd n'.1 m'.1

theorem nodup_descent {v : Value} (hv : v.KeysDistinct) :
    ((descent [] v).map (·.1)).Nodup :=
  v.pairwise_descent.imp fun h => h.ne hv

end Value

namespace Slice

theorem le_of_mem_placesUp {place stop stride : Int} {p : Nat}
    (h : p ∈ placesUp place stop stride) : place ≤ p := by
  fun_induction placesUp place stop stride with
  | case1 place hlt ih =>
    rcases List.mem_cons.mp h with rfl | h
    · omega
    · have := ih h
      omega
  | case2 place => cases h

theorem pairwise_placesUp {place stop stride : Int} (h : 0 ≤ place) :
    (placesUp place stop stride).Pairwise (· < ·) := by
  fun_induction placesUp place stop stride with
  | case1 place hlt ih =>
    refine List.pairwise_cons.mpr ⟨fun p hp => ?_, ih (by omega)⟩
    have := le_of_mem_placesUp hp
    omega
  | case2 place => exact .nil

theorem le_of_mem_placesDown {place stop stride : Int} (hstop : -1 ≤ stop) {p : Nat}
    (h : p ∈ placesDown place stop stride) : p ≤ place := by
  fun_induction placesDown place stop stride with
  | case1 place hlt ih =>
    rcases List.mem_cons.mp h with rfl | h
    · omega
    · have := ih h
      omega
  | case2 place => cases h

theorem pairwise_placesDown {place stop stride : Int} (hstop : -1 ≤ stop) :
    (placesDown place stop stride).Pairwise (· > ·) := by
  fun_induction placesDown place stop stride with
  | case1 place hlt ih =>
    refine List.pairwise_cons.mpr ⟨fun p hp => ?_, ih⟩
    have := le_of_mem_placesDown hstop hp
    omega
  | case2 place => exact .nil

theorem le_clamp (low high n : Int) : low ≤ clamp low high n := by
  unfold clamp
  omega

/-- A slice that does not go back selects places in ascending order. -/
theorem pairwise_places {slice : Slice} (h : 0 ≤ slice.stride.getD 1) (length : Nat) :
    (slice.places length).Pairwise (· < ·) := by
  simp only [places]
  split
  · exact pairwise_placesUp (le_clamp _ _ _)
  · rw [if_neg (by omega)]
    exact .nil

/-- A slice that goes back selects places in descending order. -/
theorem pairwise_places_of_neg {slice : Slice} (h : slice.stride.getD 1 < 0) (length : Nat) :
    (slice.places length).Pairwise (· > ·) := by
  rw [places, if_neg (by omega), if_pos h]
  exact pairwise_placesDown (le_clamp _ _ _)

theorem nodup_places (slice : Slice) (length : Nat) : (slice.places length).Nodup := by
  by_cases h : 0 ≤ slice.stride.getD 1
  · exact (pairwise_places h length).imp fun hlt => by omega
  · exact (pairwise_places_of_neg (by omega) length).imp fun hlt => by omega

end Slice

theorem Value.getElem?_children_array {elements : List Value} {place : Nat} {v : Value}
    (h : elements[place]? = some v) :
    (array elements).children[place]? = some (.index place, v) := by
  simp [children, h]

theorem Value.childBefore_of_lt {v : Value} {i j : Nat} {c d : Element × Value}
    (hc : v.children[i]? = some c) (hd : v.children[j]? = some d) (hlt : i < j) :
    v.ChildBefore c d := by
  obtain ⟨hi, rfl⟩ := List.getElem?_eq_some_iff.mp hc
  obtain ⟨hj, rfl⟩ := List.getElem?_eq_some_iff.mp hd
  exact List.pairwise_iff_getElem.mp v.pairwise_children i j hi hj hlt

theorem Slice.pairwise_pick {slice : Slice} (h : 0 ≤ slice.stride.getD 1) (v : Value) :
    (slice.pick v).Pairwise v.ChildBefore := by
  cases v with
  | array elements =>
    rw [pick, List.pairwise_filterMap]
    refine (pairwise_places h elements.length).imp fun {i j} hlt => ?_
    intro c hc d hd
    obtain ⟨v, hv, rfl⟩ := Option.map_eq_some_iff.mp hc
    obtain ⟨w, hw, rfl⟩ := Option.map_eq_some_iff.mp hd
    rw [List.getElem?_toArray] at hv hw
    exact Value.childBefore_of_lt (Value.getElem?_children_array hv)
      (Value.getElem?_children_array hw) hlt
  | _ => exact .nil

theorem Slice.nodup_pick (slice : Slice) (v : Value) : ((slice.pick v).map (·.1)).Nodup := by
  cases v with
  | array elements =>
    rw [pick, List.Nodup, List.pairwise_map, List.pairwise_filterMap]
    refine (slice.nodup_places elements.length).imp fun {i j} hne => ?_
    intro c hc d hd
    obtain ⟨v, -, rfl⟩ := Option.map_eq_some_iff.mp hc
    obtain ⟨w, -, rfl⟩ := Option.map_eq_some_iff.mp hd
    exact fun heq => hne (Element.index.inj heq)
  | _ => exact .nil

namespace Step

/-- The step picks no child of a value twice. -/
def PicksOnce : Step → Prop
  | .union _ => False
  | .dynamic path => Path.singular path = true
  | _ => True

/-- The step leads to children only and does not go back among them. -/
def Ascends : Step → Prop
  | .descent => False
  | .slice s => 0 ≤ s.stride.getD 1
  | _ => True

def isDescent : Step → Bool
  | .descent => true
  | _ => false

end Step

/-- The children of a value that a step picks in the document `root`. -/
def picked (root v : Value) : Step → List (Element × Value)
  | .select selector => selector.pick v
  | .wildcard => v.children
  | .slice slice => slice.pick v
  | .filter condition => v.children.filter fun c => condition.holds root c.2
  | .union selectors => selectors.flatMap (·.pick v)
  | .dynamic path =>
    (((select root [] path).map (·.2)).filterMap Selector.ofValue?).flatMap (·.pick v)
  | _ => []

theorem selectStep_eq_picked (root : Value) {nodes : List Node}
    (hkeys : ∀ n ∈ nodes, n.2.KeysDistinct) {step : Step} (hroot : step ≠ .root)
    (hdescent : step ≠ .descent) :
    selectStep root nodes step = nodes.flatMap fun n => (picked root n.2 step).map n.child := by
  cases step with
  | root => exact absurd rfl hroot
  | descent => exact absurd rfl hdescent
  | wildcard => rfl
  | filter condition => rfl
  | select selector =>
    exact List.flatMap_congr fun n hn => (selector.map_pick (hkeys n hn)).symm
  | slice slice => exact List.flatMap_congr fun n _ => (slice.map_pick n).symm
  | union selectors =>
    exact List.flatMap_congr fun n hn => (Selector.map_flatMap_pick (hkeys n hn) selectors).symm
  | dynamic path =>
    exact List.flatMap_congr fun n hn => (Selector.map_flatMap_pick (hkeys n hn) _).symm

theorem Selector.pick_sublist {v : Value} (h : v.KeysDistinct) (selector : Selector) :
    (selector.pick v).Sublist v.children := by
  rw [selector.pick_eq h]
  exact List.filter_sublist

/-- One computed selector at most picks one child at most. -/
theorem Selector.flatMap_pick_sublist {v : Value} (h : v.KeysDistinct) {selectors : List Selector}
    (hlength : selectors.length ≤ 1) : (selectors.flatMap (·.pick v)).Sublist v.children := by
  match selectors with
  | [] => exact List.nil_sublist _
  | [selector] =>
    rw [List.flatMap_singleton]
    exact selector.pick_sublist h

section Picked

variable {root v : Value} (hroot : root.KeysDistinct) (hv : v.KeysDistinct) {step : Step}
  (h : step.PicksOnce)
include hroot hv h

theorem pairwise_picked (hascends : step.Ascends) :
    (picked root v step).Pairwise v.ChildBefore := by
  cases step with
  | slice slice => exact slice.pairwise_pick hascends v
  | root => exact .nil
  | descent => exact .nil
  | union selectors => cases h
  | wildcard => exact v.pairwise_children
  | filter condition => exact v.pairwise_children.sublist List.filter_sublist
  | select selector => exact v.pairwise_children.sublist (selector.pick_sublist hv)
  | dynamic path =>
    have hcomputed : (select root [] path).length ≤ 1 :=
      length_select_le hroot path h (Nat.zero_le 1) (by simp)
    exact v.pairwise_children.sublist
      (Selector.flatMap_pick_sublist hv (Nat.le_trans (length_computed_le _) hcomputed))

theorem nodup_picked : ((picked root v step).map (·.1)).Nodup := by
  by_cases hascends : step.Ascends
  · rw [List.Nodup, List.pairwise_map]
    exact (pairwise_picked hroot hv h hascends).imp fun hcd => hcd.ne hv
  · cases step with
    | slice slice => exact slice.nodup_pick v
    | descent => exact .nil
    | _ => exact absurd True.intro hascends

end Picked

/-- No location comes twice among the nodes. -/
def Distinct (nodes : List Node) : Prop := (nodes.map (·.1)).Nodup

/-- The nodes are at one depth. -/
def OneDepth (nodes : List Node) : Prop := ∃ depth, ∀ n ∈ nodes, n.1.length = depth

/-- The node stands in the document: an order below it is an order there. -/
def Node.Within (root : Value) (n : Node) : Prop :=
  ∀ l m, n.2.Precedes l m → root.Precedes (n.1 ++ l) (n.1 ++ m)

theorem Node.Within.child {root : Value} {n : Node} (h : n.Within root) {c : Element × Value}
    (hc : c ∈ n.2.children) : (n.child c).Within root := by
  intro l m hlm
  have hbelow := h _ _ (.child hc hlm)
  rw [Node.child]
  simpa using hbelow

section Steps

variable {root : Value} {nodes : List Node}

theorem distinct_root (root : Value) : Distinct [([], root)] := List.nodup_singleton _

theorem oneDepth_root (root : Value) : OneDepth [([], root)] :=
  ⟨0, fun n hn => by rw [List.mem_singleton.mp hn]; rfl⟩

/-- Distinct nodes have distinct children. -/
theorem Distinct.flatMap_child (h : Distinct nodes) {pick : Node → List (Element × Value)}
    (hpick : ∀ n ∈ nodes, ((pick n).map (·.1)).Nodup) :
    Distinct (nodes.flatMap fun n => (pick n).map n.child) := by
  rw [Distinct, List.Nodup, List.pairwise_map] at h ⊢
  rw [List.pairwise_flatMap]
  constructor
  · intro n hn
    have hn := hpick n hn
    rw [List.Nodup, List.pairwise_map] at hn
    rw [List.pairwise_map]
    refine hn.imp fun hne heq => hne ?_
    simpa [Node.child] using heq
  · refine h.imp fun hne => ?_
    intro a ha b hb heq
    obtain ⟨c, -, rfl⟩ := List.mem_map.mp ha
    obtain ⟨d, -, rfl⟩ := List.mem_map.mp hb
    exact hne (List.append_inj_left' heq rfl)

theorem OneDepth.flatMap_child (h : OneDepth nodes) (pick : Node → List (Element × Value)) :
    OneDepth (nodes.flatMap fun n => (pick n).map n.child) := by
  obtain ⟨depth, hdepth⟩ := h
  refine ⟨depth + 1, fun m hm => ?_⟩
  obtain ⟨n, hn, hm⟩ := List.mem_flatMap.mp hm
  obtain ⟨c, -, rfl⟩ := List.mem_map.mp hm
  rw [Node.child, List.length_append, hdepth n hn, List.length_singleton]

/-- Nodes of one depth have nothing below them in common. -/
theorem Distinct.flatMap_descent (h : Distinct nodes) (honeDepth : OneDepth nodes)
    (hkeys : ∀ n ∈ nodes, n.2.KeysDistinct) :
    Distinct (nodes.flatMap fun n => descent n.1 n.2) := by
  obtain ⟨depth, hdepth⟩ := honeDepth
  have hunder : ∀ n : Node, descent n.1 n.2 = (descent [] n.2).map (Node.under n.1) := by
    intro n
    have hn := descent_under n.1 n.2 []
    rwa [List.append_nil] at hn
  simp only [hunder]
  rw [Distinct, List.Nodup, List.pairwise_map] at h ⊢
  rw [List.pairwise_flatMap]
  constructor
  · intro n hn
    have hn := Value.nodup_descent (hkeys n hn)
    rw [List.Nodup, List.pairwise_map] at hn
    rw [List.pairwise_map]
    exact hn.imp fun hne heq => hne (List.append_cancel_left heq)
  · refine h.imp_of_mem fun {n m} hn hm hne => ?_
    intro a ha b hb heq
    obtain ⟨a', -, rfl⟩ := List.mem_map.mp ha
    obtain ⟨b', -, rfl⟩ := List.mem_map.mp hb
    exact hne (List.append_inj_left heq ((hdepth n hn).trans (hdepth m hm).symm))

/-- Children that are picked in order from nodes that stand in order stand in order. -/
theorem pairwise_flatMap_child (h : nodes.Pairwise fun n m => root.Precedes n.1 m.1)
    (honeDepth : OneDepth nodes) (hwithin : ∀ n ∈ nodes, n.Within root)
    {pick : Node → List (Element × Value)}
    (hpick : ∀ n ∈ nodes, (pick n).Pairwise n.2.ChildBefore) :
    (nodes.flatMap fun n => (pick n).map n.child).Pairwise fun n m => root.Precedes n.1 m.1 := by
  obtain ⟨depth, hdepth⟩ := honeDepth
  rw [List.pairwise_flatMap]
  constructor
  · intro n hn
    rw [List.pairwise_map]
    exact (hpick n hn).imp fun hcd => hwithin n hn _ _ (.sibling hcd [] [])
  · refine h.imp_of_mem fun {n m} hn hm hnm => ?_
    intro a ha b hb
    obtain ⟨c, -, rfl⟩ := List.mem_map.mp ha
    obtain ⟨d, -, rfl⟩ := List.mem_map.mp hb
    exact hnm.append ((hdepth n hn).trans (hdepth m hm).symm) [c.1] [d.1]

end Steps

/-- The nodes are distinct, and at one depth where a descent is still to come. -/
def Apart (descents : Nat) (nodes : List Node) : Prop :=
  Distinct nodes ∧ (0 < descents → OneDepth nodes)

section Paths

variable {root : Value} (hroot : root.KeysDistinct)
include hroot

/-- Behind a descent nodes may be below others, so no second one may follow. -/
theorem Apart.selectStep {step : Step} (hpicks : step.PicksOnce) {path : Path}
    (hdescents : (step :: path).countP Step.isDescent ≤ 1) {nodes : List Node}
    (hkeys : ∀ n ∈ nodes, n.2.KeysDistinct)
    (h : Apart ((step :: path).countP Step.isDescent) nodes) :
    Apart (path.countP Step.isDescent) (selectStep root nodes step) := by
  cases hstep : step.isDescent with
  | true =>
    cases step with
    | descent =>
      rw [List.countP_cons_of_pos hstep] at h hdescents
      exact ⟨h.1.flatMap_descent (h.2 (Nat.succ_pos _)) hkeys, fun hlt => by omega⟩
    | _ => cases hstep
  | false =>
    rw [List.countP_cons_of_neg (by simp [hstep])] at h
    by_cases hfresh : step = .root
    · subst hfresh
      exact ⟨distinct_root root, fun _ => oneDepth_root root⟩
    · have hdescent : step ≠ .descent := by
        rintro rfl
        cases hstep
      rw [selectStep_eq_picked root hkeys hfresh hdescent]
      refine ⟨h.1.flatMap_child fun n hn => ?_, fun hlt => (h.2 hlt).flatMap_child _⟩
      exact nodup_picked hroot (hkeys n hn) hpicks

theorem Apart.select {path : Path} (hpicks : ∀ step ∈ path, step.PicksOnce)
    (hdescents : path.countP Step.isDescent ≤ 1) {nodes : List Node}
    (hkeys : ∀ n ∈ nodes, n.2.KeysDistinct) (h : Apart (path.countP Step.isDescent) nodes) :
    Distinct (select root nodes path) := by
  induction path generalizing nodes with
  | nil => exact h.1
  | cons step path ih =>
    obtain ⟨hstep, hpicks⟩ := List.forall_mem_cons.mp hpicks
    have hrest : path.countP Step.isDescent ≤ 1 :=
      Nat.le_trans (List.Sublist.countP_le (List.sublist_cons_self step path)) hdescents
    exact ih hpicks hrest (keysDistinct_selectStep hroot hkeys step)
      (h.selectStep hroot hstep hdescents hkeys)

/-- The nodes stand in the order of the document, at one depth. -/
structure Ordered (root : Value) (nodes : List Node) : Prop where
  precedes : nodes.Pairwise fun n m => root.Precedes n.1 m.1
  oneDepth : OneDepth nodes
  within : ∀ n ∈ nodes, n.Within root
  keys : ∀ n ∈ nodes, n.2.KeysDistinct

theorem Ordered.selectStep {step : Step} (hpicks : step.PicksOnce) (hascends : step.Ascends)
    {nodes : List Node} (h : Ordered root nodes) : Ordered root (selectStep root nodes step) := by
  have hwithin := forall_selectStep (P := Node.Within root) (fun n hn c hc => hn.child hc)
    (fun l m hlm => hlm) h.within step
  have hkeys := keysDistinct_selectStep hroot h.keys step
  by_cases hfresh : step = .root
  · subst hfresh
    exact ⟨List.pairwise_singleton _ _, oneDepth_root root, hwithin, hkeys⟩
  · have hdescent : step ≠ .descent := by
      rintro rfl
      cases hascends
    rw [selectStep_eq_picked root h.keys hfresh hdescent] at hwithin hkeys ⊢
    exact ⟨pairwise_flatMap_child h.precedes h.oneDepth h.within
      fun n hn => pairwise_picked hroot (h.keys n hn) hpicks hascends,
      h.oneDepth.flatMap_child _, hwithin, hkeys⟩

theorem Ordered.select {path : Path} (hpicks : ∀ step ∈ path, step.PicksOnce)
    (hascends : ∀ step ∈ path, step.Ascends) {nodes : List Node} (h : Ordered root nodes) :
    Ordered root (select root nodes path) := by
  induction path generalizing nodes with
  | nil => exact h
  | cons step path ih =>
    obtain ⟨hpick, hpicks⟩ := List.forall_mem_cons.mp hpicks
    obtain ⟨hascend, hascends⟩ := List.forall_mem_cons.mp hascends
    exact ih hpicks hascends (h.selectStep hroot hpick hascend)

/-- A path without unions, whose dynamic steps are of singular shape and which has one descent at
most, matches no location twice. Where it has no descent and no slice goes back, the matches come
in the order of the document. -/
theorem nodup_entries_evaluate {path : Path} (hpicks : ∀ step ∈ path, step.PicksOnce)
    (hdescents : path.countP Step.isDescent ≤ 1) :
    ((evaluate root path).entries.map (·.1)).Nodup ∧
      ((∀ step ∈ path, step.Ascends) →
        ((evaluate root path).entries.map (·.1)).Pairwise root.Precedes) := by
  rw [(shows_evaluate hroot path).entries_eq]
  have hapart : Apart (path.countP Step.isDescent) [] := ⟨.nil, fun _ => ⟨0, by simp⟩⟩
  have hordered : Ordered root [] := ⟨.nil, ⟨0, by simp⟩, by simp, by simp⟩
  refine ⟨hapart.select hroot hpicks hdescents (by simp), fun hascends => ?_⟩
  rw [List.pairwise_map]
  exact (hordered.select hroot hpicks hascends).precedes

end Paths

/-- Every second element of two arrays, in the order of the document. -/
theorem nodup_entries_evaluate_slice :
    let root := Value.object
      [("a", .array [.null, .boolean true, .null]), ("b", .array [.boolean false])]
    let path : Path := [.root, .wildcard, .slice ⟨none, none, some 2⟩]
    let locations : List Location :=
      [[.key "a", .index 0], [.key "a", .index 2], [.key "b", .index 0]]
    (root.KeysDistinct ∧ (∀ step ∈ path, step.PicksOnce) ∧ path.countP Step.isDescent ≤ 1 ∧
      ∀ step ∈ path, step.Ascends) ∧
      (evaluate root path).entries.map (·.1) = locations ∧ locations.Nodup ∧
        locations.Pairwise root.Precedes := by
  intro root path locations
  have hroot : root.KeysDistinct := by
    simp [root, Value.KeysDistinct, Value.MemberKeysDistinct, Value.ElementKeysDistinct]
  have hpicks : ∀ step ∈ path, step.PicksOnce := by simp [path, Step.PicksOnce]
  have hascends : ∀ step ∈ path, step.Ascends := by simp [path, Step.Ascends]
  have hdescents : path.countP Step.isDescent ≤ 1 := by decide
  have hlocations : (evaluate root path).entries.map (·.1) = locations :=
    (congrArg _ (shows_evaluate hroot path).entries_eq).trans (by decide)
  have hentries := nodup_entries_evaluate hroot hpicks hdescents
  rw [hlocations] at hentries
  exact ⟨⟨hroot, hpicks, hdescents, hascends⟩, hlocations, hentries.1, hentries.2 hascends⟩

end JsonQuery
