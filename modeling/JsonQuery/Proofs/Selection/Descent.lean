import JsonQuery.Proofs.Selection.Lookup
import JsonQuery.Proofs.Selection.Order
import Mathlib.Data.List.Flatten

/-!
What a descent finds. From the root it leads to every node of the document, so that a step behind it
picks among the children of all nodes. A descent that is put into a path anywhere only adds matches:
those of the path without it stay, in their order.
-/

namespace JsonQuery

theorem select_root_descent (root : Value) (path : Path) :
    select root [] (.root :: .descent :: path) = select root (descent [] root) path := by
  rw [select, select, selectStep, selectStep, List.flatMap_singleton]

theorem mem_descent_of_leads {v : Value} {n : Node} (h : n.Leads v) : n ∈ descent [] v := by
  obtain ⟨location, w⟩ := n
  rw [descent_root_eq]
  induction location generalizing v with
  | nil =>
    cases h
    exact List.mem_cons_self
  | cons e location ih =>
    obtain ⟨u, hu, hw⟩ := Node.leads_cons_iff.mp h
    have hbelow := ih hw
    rw [← descent_root_eq] at hbelow
    apply List.mem_cons_of_mem
    rw [List.mem_flatMap]
    refine ⟨(e, u), Element.mem_children_of_child? hu, ?_⟩
    rw [List.mem_map]
    exact ⟨(location, w), hbelow, rfl⟩

theorem Selector.nodes_name (k : String) (n : Node) :
    (Selector.name k).nodes n = n.childrenWhere fun c => c.1 == .key k := by
  have hnames : ∀ e : Element, (Selector.name k).names n.2.size e = (e == .key k) := by
    intro e
    rw [Bool.eq_iff_iff]
    cases e <;> simp
  simp only [Selector.nodes, hnames]

theorem Node.children_eq (n : Node) : n.children = n.childrenWhere fun _ => true := by
  rw [childrenWhere, List.filter_true]
  rfl

section Descent

variable {root : Value} (hroot : root.KeysDistinct)
include hroot

/-- A descent from the root leads to the nodes of the document. -/
theorem mem_descent_iff (n : Node) : n ∈ descent [] root ↔ n.Leads root := by
  constructor
  · intro hn
    apply leads_of_mem_select hroot [.root, .descent]
    rwa [select_root_descent]
  · exact mem_descent_of_leads

theorem keysDistinct_descent : ∀ n ∈ descent [] root, n.2.KeysDistinct := by
  intro n hn
  apply keysDistinct_select hroot [.root, .descent]
  rwa [select_root_descent]

/-- Behind a descent a test of elements finds the nodes whose location ends with such an element. -/
theorem mem_childrenWhere_descent_iff (test : Element → Bool) (m : Node) :
    m ∈ (descent [] root).flatMap (Node.childrenWhere fun c => test c.1) ↔
      m.Leads root ∧ ∃ e ∈ m.1.getLast?, test e = true := by
  constructor
  · intro hm
    obtain ⟨n, hn, hm⟩ := List.mem_flatMap.mp hm
    obtain ⟨c, hc, rfl⟩ := List.mem_map.mp hm
    obtain ⟨hchild, htest⟩ := List.mem_filter.mp hc
    have hleads := (mem_descent_iff hroot n).mp hn
    refine ⟨hleads.child (keysDistinct_descent hroot n hn) hchild, c.1, ?_, htest⟩
    exact List.getLast?_concat
  · obtain ⟨location, w⟩ := m
    rintro ⟨hleads, e, he, htest⟩
    obtain ⟨front, rfl⟩ := List.getLast?_eq_some_iff.mp he
    obtain ⟨v, hv, hw⟩ := Node.leads_concat_iff.mp hleads
    rw [List.mem_flatMap]
    refine ⟨(front, v), mem_descent_of_leads hv, ?_⟩
    have hchild := Element.mem_children_of_child? hw
    exact List.mem_map.mpr ⟨(e, w), List.mem_filter.mpr ⟨hchild, htest⟩, rfl⟩

/-- Behind one descent a step that picks no child twice finds no node twice. -/
theorem nodup_select_descent {step : Step} (hpicks : step.PicksOnce)
    (hdescent : step.isDescent = false) :
    ((select root [] [.root, .descent, step]).map (·.1)).Nodup := by
  show Distinct (select root [] [.root, .descent, step])
  apply Apart.select hroot
  · intro step' hstep'
    simp only [List.mem_cons, List.not_mem_nil, or_false] at hstep'
    rcases hstep' with rfl | rfl | rfl
    · trivial
    · trivial
    · exact hpicks
  · have hrest : ¬ step.isDescent = true := by
      rw [hdescent]
      exact Bool.false_ne_true
    rw [List.countP_cons_of_neg Bool.false_ne_true, List.countP_cons_of_pos rfl,
      List.countP_cons_of_neg hrest]
    exact Nat.le_refl 1
  · simp
  · exact ⟨.nil, fun _ => ⟨0, by simp⟩⟩

/-- The members of one name stand in the order of the objects that hold them. -/
theorem pairwise_descent_name (k : String) :
    ((descent [] root).flatMap (Selector.name k).nodes).Pairwise
      fun n m => root.Precedes n.1.dropLast m.1.dropLast := by
  have hparent : ∀ n : Node, ∀ m ∈ (Selector.name k).nodes n, m.1.dropLast = n.1 := by
    intro n m hm
    obtain ⟨c, -, rfl⟩ := List.mem_map.mp hm
    exact List.dropLast_concat
  have horder := root.pairwise_descent
  rw [List.pairwise_map] at horder
  rw [List.pairwise_flatMap]
  constructor
  · intro n hn
    exact pairwise_of_length_le_one
      (Selector.length_nodes_le (keysDistinct_descent hroot n hn) (.name k))
  · refine horder.imp ?_
    intro n m hnm a ha b hb
    rw [hparent n a ha, hparent m b hb]
    exact hnm

/-- Behind a descent a name finds the nodes whose location ends with it, each once and in the order
of the objects they stand in, and the matches without the descent come first. A wildcard finds all
nodes but the root, each once. -/
theorem entries_evaluate_descent_name (k : String) :
    let named := (evaluate root [.root, .descent, .select (.name k)]).entries
    let below := (evaluate root [.root, .descent, .wildcard]).entries
    (∀ n : Node, n ∈ named ↔ n.Leads root ∧ n.1.getLast? = some (.key k)) ∧
      (named.map (·.1)).Nodup ∧
      named.Pairwise (fun n m => root.Precedes n.1.dropLast m.1.dropLast) ∧
      (evaluate root [.root, .select (.name k)]).entries <+: named ∧
      (∀ n : Node, n ∈ below ↔ n.Leads root ∧ n.1 ≠ []) ∧
      (below.map (·.1)).Nodup := by
  intro named below
  have hnodup : ∀ {step : Step}, step.PicksOnce → step.isDescent = false →
      ((evaluate root [.root, .descent, step]).entries.map (·.1)).Nodup := by
    intro step hpicks hdescent
    rw [(shows_evaluate hroot _).entries_eq]
    exact nodup_select_descent hroot hpicks hdescent
  have hnamed : named = (descent [] root).flatMap (Selector.name k).nodes := by
    rw [show named = _ from (shows_evaluate hroot _).entries_eq, select_root_descent]
    rfl
  have hbelow : below = (descent [] root).flatMap Node.children := by
    rw [show below = _ from (shows_evaluate hroot _).entries_eq, select_root_descent]
    rfl
  refine ⟨?_, hnodup trivial rfl, ?_, ?_, ?_, hnodup trivial rfl⟩
  · intro n
    rw [hnamed, funext (Selector.nodes_name k),
      mem_childrenWhere_descent_iff hroot fun e => e == .key k]
    simp
  · rw [hnamed]
    exact pairwise_descent_name hroot k
  · rw [hnamed, (shows_evaluate hroot _).entries_eq, descent_root_eq, List.flatMap_cons]
    rw [select, select, select, selectStep, selectStep, List.flatMap_singleton]
    exact List.prefix_append _ _
  · intro n
    rw [hbelow, funext Node.children_eq, mem_childrenWhere_descent_iff hroot fun _ => true,
      ← List.getLast?_isSome, Option.isSome_iff_exists]
    simp

end Descent

/-- A name that stands in an object, in one of its members and in an element of an array. -/
theorem entries_evaluate_descent_name_nested :
    let inner := Value.object [("x", .null)]
    let root := Value.object [("y", .array [inner]), ("x", inner)]
    let named := (evaluate root [.root, .descent, .select (.name "x")]).entries
    let locations : List Location :=
      [[.key "x"], [.key "y", .index 0, .key "x"], [.key "x", .key "x"]]
    root.KeysDistinct ∧ named.map (·.1) = locations ∧ locations.Nodup ∧
      locations.Pairwise (fun l m => root.Precedes l.dropLast m.dropLast) ∧
      Node.Leads root ([.key "x", .key "x"], .null) ∧
      ([.key "x", .key "x"], .null) ∈ named := by
  intro inner root named locations
  have hroot : root.KeysDistinct := by
    simp [root, inner, Value.KeysDistinct, Value.MemberKeysDistinct, Value.ElementKeysDistinct]
  have hlocations : named.map (·.1) = locations :=
    (congrArg _ (shows_evaluate hroot _).entries_eq).trans (by decide)
  obtain ⟨hmem, hnodup, horder, -⟩ := entries_evaluate_descent_name hroot "x"
  rw [← List.pairwise_map (f := fun n : Node => n.1)
    (R := fun l m => root.Precedes l.dropLast m.dropLast)] at horder
  rw [hlocations] at hnodup horder
  have hleads : Node.Leads root ([.key "x", .key "x"], .null) := rfl
  exact ⟨hroot, hlocations, hnodup, horder, hleads, (hmem _).mpr ⟨hleads, rfl⟩⟩

namespace Stage

/-- The nodes of a stage are among those of another, in the same order. -/
def Among (stage other : Stage) : Prop :=
  ∃ nodes more, stage.Shows nodes ∧ other.Shows more ∧ nodes.Sublist more

theorem Among.entries_sublist {stage other : Stage} (h : stage.Among other) :
    stage.entries.Sublist other.entries := by
  obtain ⟨nodes, more, hnodes, hmore, hsublist⟩ := h
  rw [hnodes.entries_eq, hmore.entries_eq]
  exact hsublist

theorem Among.advance {stage other : Stage} (h : stage.Among other) (root : Value) (step : Step) :
    (advance root stage step).Among (JsonQuery.advance root other step) := by
  obtain ⟨nodes, more, hnodes, hmore, hsublist⟩ := h
  by_cases hstep : step = .root
  · subst hstep
    exact ⟨_, _, shows_root root stage, shows_root root other, .refl _⟩
  · obtain ⟨nodesOf, hadvance⟩ := exists_shows_advance root hstep
    exact ⟨_, _, hadvance hnodes, hadvance hmore, hsublist.flatMap nodesOf⟩

theorem Among.run {stage other : Stage} (h : stage.Among other) (root : Value) (path : Path) :
    (run root stage path).Among (JsonQuery.run root other path) := by
  induction path generalizing stage other with
  | nil => exact h
  | cons step path ih => exact ih (h.advance root step)

/-- Each node comes first in its own descent. -/
theorem Shows.among_descent {stage : Stage} {nodes : List Node} (h : stage.Shows nodes)
    (root : Value) : stage.Among (JsonQuery.advance root stage .descent) := by
  refine ⟨nodes, _, h, shows_moveTo (adds_descend ⟨stage.trail, []⟩ h), ?_⟩
  have hfirst : ∀ n ∈ nodes, [n].Sublist (descent n.1 n.2) := by
    intro n _
    rw [descent_eq]
    exact .cons_cons n (List.nil_sublist _)
  have hnodes := List.Sublist.flatMap_right nodes hfirst
  rwa [List.flatMap_singleton'] at hnodes

end Stage

/-- A descent put into a path anywhere takes no match away and keeps the order of matches. The
steps in front of it and behind it are any steps. -/
theorem entries_evaluate_sublist_descent (root : Value) (path more : Path) :
    (evaluate root (path ++ more)).entries.Sublist
      (evaluate root (path ++ .descent :: more)).entries := by
  have hstart : Stage.start.Among Stage.start :=
    ⟨[], [], Stage.shows_start, Stage.shows_start, .refl _⟩
  obtain ⟨nodes, -, hnodes, -⟩ := hstart.run root path
  have hmore := (hnodes.among_descent root).run root more
  have hdescent : run root .start (path ++ .descent :: more) =
      run root (advance root (run root .start path) .descent) more := by
    rw [run_append, run]
  rw [← run_append, ← hdescent] at hmore
  exact hmore.entries_sublist

end JsonQuery
