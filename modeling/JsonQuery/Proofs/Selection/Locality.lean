import JsonQuery.Proofs.Selection.Evaluation
import Mathlib.Data.List.Basic

/-!
Locality. Steps that do not go back to the root find below a node what they find in the value of
that node as a document of its own, with the location of the node in front. What a document holds
elsewhere has no part in it.
-/

namespace JsonQuery

/-- The reference starts at the child under test. -/
def Reference.Local (r : Reference) : Prop := r.anchor = .current

def Operand.Local : Operand → Prop
  | .reference r => r.Local
  | .literal _ => True

def Condition.Local : Condition → Prop
  | .present r => r.Local
  | .compare left _ right => left.Local ∧ right.Local
  | .and left right => left.Local ∧ right.Local
  | .or left right => left.Local ∧ right.Local
  | .not inner => inner.Local

def Step.Local : Step → Prop
  | .root => False
  | .dynamic _ => False
  | .filter condition => condition.Local
  | _ => True

/-- No step goes back to the root, computes a selector or has a condition that refers to the
root. -/
def Path.Local (path : Path) : Prop := ∀ step ∈ path, step.Local

section Conditions

variable (root other current : Value)

theorem Reference.Local.resolve?_eq {r : Reference} (h : r.Local) :
    r.resolve? root current = r.resolve? other current := by
  rw [Reference.Local] at h
  simp only [resolve?, h]

theorem Operand.Local.value?_eq {operand : Operand} (h : operand.Local) :
    operand.value? root current = operand.value? other current := by
  cases operand with
  | reference r => exact Reference.Local.resolve?_eq root other current h
  | literal v => rfl

/-- A local condition holds of a value in every document or in none. -/
theorem Condition.Local.holds_eq {condition : Condition} (h : condition.Local) :
    condition.holds root current = condition.holds other current := by
  induction condition with
  | present r => simp only [holds, Reference.Local.resolve?_eq root other current h]
  | compare left comparison right =>
    simp only [holds, Operand.Local.value?_eq root other current h.1,
      Operand.Local.value?_eq root other current h.2]
  | and left right ihl ihr => simp only [holds, ihl h.1, ihr h.2]
  | or left right ihl ihr => simp only [holds, ihl h.1, ihr h.2]
  | not inner ih => simp only [holds, ih h]

end Conditions

namespace Node

/-- The node of a value that has been put at a location. -/
def under (location : Location) (n : Node) : Node := (location ++ n.1, n.2)

theorem under_root (n : Node) : under n.1 ([], n.2) = n := by
  rw [under, List.append_nil]

theorem child_under (location : Location) (n : Node) (c : Element × Value) :
    (n.under location).child c = (n.child c).under location := by
  simp only [child, under, List.append_assoc]

theorem childrenWhere_under (location : Location) (n : Node) (test : Element × Value → Bool) :
    (n.under location).childrenWhere test = (n.childrenWhere test).map (under location) := by
  rw [childrenWhere, childrenWhere, List.map_map]
  exact List.map_congr_left fun c _ => child_under location n c

theorem children_under (location : Location) (n : Node) :
    (n.under location).children = n.children.map (under location) := by
  rw [children, children, List.map_map]
  exact List.map_congr_left fun c _ => child_under location n c

end Node

theorem Selector.nodes_under (location : Location) (n : Node) (selector : Selector) :
    selector.nodes (n.under location) = (selector.nodes n).map (Node.under location) :=
  Node.childrenWhere_under location n _

theorem Slice.nodes_under (location : Location) (n : Node) (slice : Slice) :
    slice.nodes (n.under location) = (slice.nodes n).map (Node.under location) := by
  simp only [nodes, Node.childrenWhere_under, List.map_flatMap]
  rfl

theorem descent_under (location : Location) (v : Value) (below : Location) :
    descent (location ++ below) v = (descent below v).map (Node.under location) := by
  induction v using Value.parts_induction generalizing below with
  | h v ih =>
    -- the location below grows on the way down, so it is general in the induction
    rw [descent_eq (location ++ below, v), descent_eq (below, v), List.map_cons, List.map_flatMap]
    refine List.cons_eq_cons.mpr ⟨rfl, ?_⟩
    have hchildren := Node.children_under location (below, v)
    rw [show (location ++ below, v) = Node.under location (below, v) from rfl, hchildren,
      List.flatMap_map]
    refine List.flatMap_congr fun n hn => ?_
    obtain ⟨c, hc, rfl⟩ := List.mem_map.mp hn
    exact ih _ (Value.mem_parts_of_mem_children hc) _

/-- A descent from the root goes through the children, each a root of what is below it. -/
theorem descent_root_eq (v : Value) :
    descent [] v =
      ([], v) :: v.children.flatMap fun c => (descent [] c.2).map (Node.under [c.1]) := by
  have hbelow : ∀ c : Element × Value,
      descent [c.1] c.2 = (descent [] c.2).map (Node.under [c.1]) :=
    fun c => descent_under [c.1] c.2 []
  rw [descent_eq ([], v), Node.children, List.flatMap_map]
  simp only [Node.child, List.nil_append, hbelow]

/-- A local step leads from every node on its own, and from a node in a larger document as from the
same node in a smaller one. -/
theorem selectStep_local (root other : Value) (location : Location) {step : Step}
    (h : step.Local) (nodes : List Node) :
    selectStep root (nodes.map (Node.under location)) step =
      (selectStep other nodes step).map (Node.under location) := by
  cases step with
  | root => cases h
  | dynamic path => cases h
  | select selector =>
    simp only [selectStep, List.flatMap_map, List.map_flatMap, Selector.nodes_under]
  | wildcard => simp only [selectStep, List.flatMap_map, List.map_flatMap, Node.children_under]
  | descent =>
    simp only [selectStep, List.flatMap_map, List.map_flatMap, Node.under, descent_under]
  | slice slice => simp only [selectStep, List.flatMap_map, List.map_flatMap, Slice.nodes_under]
  | filter condition =>
    simp only [selectStep, List.flatMap_map, List.map_flatMap, Node.childrenWhere_under,
      Condition.Local.holds_eq root other _ h]
  | union selectors =>
    simp only [selectStep, List.flatMap_map, List.map_flatMap, Selector.nodes_under]

theorem selectStep_append (root : Value) {step : Step} (h : step.Local) (nodes more : List Node) :
    selectStep root (nodes ++ more) step =
      selectStep root nodes step ++ selectStep root more step := by
  cases step with
  | root => cases h
  | _ => simp only [selectStep, List.flatMap_append]

theorem select_local (root other : Value) (location : Location) {path : Path} (h : path.Local)
    (nodes : List Node) :
    select root (nodes.map (Node.under location)) path =
      (select other nodes path).map (Node.under location) := by
  induction path generalizing nodes with
  | nil => rfl
  | cons step path ih =>
    have hstep := selectStep_local root other location (h step List.mem_cons_self) nodes
    simp only [select, hstep]
    exact ih (fun step' hmem => h step' (List.mem_cons_of_mem step hmem)) _

theorem select_nil_nodes (root : Value) {path : Path} (h : path.Local) :
    select root [] path = [] := by
  induction path with
  | nil => rfl
  | cons step path ih =>
    have hstep : selectStep root [] step = [] := by
      have hlocal := h step List.mem_cons_self
      cases step with
      | root => cases hlocal
      | _ => rfl
    rw [select, hstep]
    exact ih fun step' hmem => h step' (List.mem_cons_of_mem step hmem)

theorem select_append_nodes (root : Value) {path : Path} (h : path.Local)
    (nodes more : List Node) :
    select root (nodes ++ more) path = select root nodes path ++ select root more path := by
  induction path generalizing nodes more with
  | nil => rfl
  | cons step path ih =>
    simp only [select, selectStep_append root (h step List.mem_cons_self)]
    exact ih (fun step' hmem => h step' (List.mem_cons_of_mem step hmem)) _ _

/-- Local steps lead from some nodes to what they find in each of their values. -/
theorem select_eq_flatMap (root : Value) {path : Path} (h : path.Local) (nodes : List Node) :
    select root nodes path =
      nodes.flatMap fun n => (select n.2 [([], n.2)] path).map (Node.under n.1) := by
  induction nodes with
  | nil => exact select_nil_nodes root h
  | cons n nodes ih =>
    have hn := select_local root n.2 n.1 h [([], n.2)]
    rw [List.map_singleton, Node.under_root] at hn
    rw [← List.singleton_append, select_append_nodes root h, hn, ih]
    rfl

/-- A path leads from the root to values with distinct keys. -/
theorem keysDistinct_select {root : Value} (hroot : root.KeysDistinct) (path : Path) :
    ∀ n ∈ select root [] path, n.2.KeysDistinct :=
  forall_select (P := fun n => n.2.KeysDistinct)
    (fun _ hn _ hc => hn.part (Value.mem_parts_of_mem_children hc)) hroot (by simp) path

/-- What local steps find below the matches of a path is, match for match, what they find from the
root of the matched value, with the location of the match in front. -/
theorem entries_evaluate_append (root : Value) (hroot : root.KeysDistinct) (path : Path)
    {steps : Path} (hsteps : steps.Local) :
    (evaluate root (path ++ steps)).entries =
      (evaluate root path).entries.flatMap fun n =>
        (evaluate n.2 (.root :: steps)).entries.map fun m => (n.1 ++ m.1, m.2) := by
  have hbelow : ∀ n ∈ select root [] path,
      (evaluate n.2 (.root :: steps)).entries = select n.2 [([], n.2)] steps := fun n hn =>
    (shows_evaluate (keysDistinct_select hroot path n hn) _).entries_eq
  rw [(shows_evaluate hroot path).entries_eq, (shows_evaluate hroot (path ++ steps)).entries_eq,
    select_append, select_eq_flatMap root hsteps]
  refine List.flatMap_congr fun n hn => ?_
  rw [hbelow n hn]
  rfl

/-- A filter below a descent, on a document where the same shape stands at two places. -/
theorem entries_evaluate_append_filter :
    let steps : Path := [.filter (.compare (.reference ⟨.current, [.name "a"]⟩) .eq
      (.literal (.boolean true)))]
    let inner := Value.object [("a", .boolean true)]
    let root := Value.object [("x", .array [inner]), ("y", .array [inner, .null])]
    (root.KeysDistinct ∧ steps.Local) ∧
      (evaluate root ([.root, .descent] ++ steps)).entries =
        (evaluate root [.root, .descent]).entries.flatMap fun n =>
          (evaluate n.2 (.root :: steps)).entries.map fun m => (n.1 ++ m.1, m.2) := by
  intro steps inner root
  have hroot : root.KeysDistinct := by
    simp [root, inner, Value.KeysDistinct, Value.MemberKeysDistinct, Value.ElementKeysDistinct]
  have hsteps : steps.Local := by
    simp [steps, Path.Local, Step.Local, Condition.Local, Operand.Local, Reference.Local]
  exact ⟨⟨hroot, hsteps⟩, entries_evaluate_append root hroot _ hsteps⟩

end JsonQuery
