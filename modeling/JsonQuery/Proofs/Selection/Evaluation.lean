import JsonQuery.Proofs.Selection.Picking
import JsonQuery.Proofs.Selection.Trail
import JsonQuery.Proofs.Value.Parts

/-!
Evaluation finds exactly the nodes that a path selects, in the same order and as often: the trail
and the list of pending values are no more than a way to compute them.
-/

namespace JsonQuery

namespace Value

/-- The children of a value are its parts. -/
theorem mem_parts_of_mem_children {v : Value} {c : Element × Value} (h : c ∈ v.children) :
    c.2 ∈ v.parts := by
  cases v with
  | array elements =>
    obtain ⟨⟨element, place⟩, hmem, rfl⟩ := List.mem_map.mp h
    exact List.fst_mem_of_mem_zipIdx hmem
  | object members =>
    obtain ⟨m, hm, rfl⟩ := List.mem_map.mp h
    exact List.mem_map_of_mem hm
  | _ => cases h

end Value

section Invariant

variable {P : Node → Prop} (hchild : ∀ n, P n → ∀ c ∈ n.2.children, P (n.child c))
include hchild

theorem forall_descent (v : Value) (location : Location) (h : P (location, v)) :
    ∀ n ∈ descent location v, P n := by
  induction v using Value.parts_induction generalizing location with
  | h v ih =>
    rw [descent_eq (location, v)]
    intro n hn
    rcases List.mem_cons.mp hn with rfl | hn
    · exact h
    · obtain ⟨m, hm, hn⟩ := List.mem_flatMap.mp hn
      obtain ⟨c, hc, rfl⟩ := List.mem_map.mp hm
      exact ih _ (Value.mem_parts_of_mem_children hc) _ (hchild _ h c hc) n hn

theorem forall_childrenWhere {n : Node} (h : P n) (test : Element × Value → Bool) :
    ∀ m ∈ n.childrenWhere test, P m := by
  intro m hm
  obtain ⟨c, hc, rfl⟩ := List.mem_map.mp hm
  exact hchild n h c (List.mem_filter.mp hc).1

variable {root : Value} (hroot : P ([], root))
include hroot

/-- What holds of the root and passes from nodes to their children holds of every node that a step
leads to. -/
theorem forall_selectStep {nodes : List Node} (h : ∀ n ∈ nodes, P n) (step : Step) :
    ∀ n ∈ selectStep root nodes step, P n := by
  intro n hn
  cases step with
  | root =>
    rw [List.mem_singleton.mp hn]
    exact hroot
  | select selector =>
    obtain ⟨m, hm, hn⟩ := List.mem_flatMap.mp hn
    exact forall_childrenWhere hchild (h m hm) _ n hn
  | wildcard =>
    obtain ⟨m, hm, hn⟩ := List.mem_flatMap.mp hn
    obtain ⟨c, hc, rfl⟩ := List.mem_map.mp hn
    exact hchild m (h m hm) c hc
  | descent =>
    obtain ⟨m, hm, hn⟩ := List.mem_flatMap.mp hn
    exact forall_descent hchild m.2 m.1 (h m hm) n hn
  | slice slice =>
    obtain ⟨m, hm, hn⟩ := List.mem_flatMap.mp hn
    obtain ⟨place, -, hn⟩ := List.mem_flatMap.mp hn
    exact forall_childrenWhere hchild (h m hm) _ n hn
  | filter condition =>
    obtain ⟨m, hm, hn⟩ := List.mem_flatMap.mp hn
    exact forall_childrenWhere hchild (h m hm) _ n hn
  | union selectors =>
    obtain ⟨m, hm, hn⟩ := List.mem_flatMap.mp hn
    obtain ⟨selector, -, hn⟩ := List.mem_flatMap.mp hn
    exact forall_childrenWhere hchild (h m hm) _ n hn
  | dynamic path =>
    obtain ⟨m, hm, hn⟩ := List.mem_flatMap.mp hn
    obtain ⟨selector, -, hn⟩ := List.mem_flatMap.mp hn
    exact forall_childrenWhere hchild (h m hm) _ n hn

theorem forall_select {nodes : List Node} (h : ∀ n ∈ nodes, P n) (path : Path) :
    ∀ n ∈ select root nodes path, P n := by
  induction path generalizing nodes with
  | nil => exact h
  | cons step path ih => exact ih (forall_selectStep hchild hroot h step)

end Invariant

theorem Findings.Adds.shows {trail : Trail} {nodes : List Node} {later : Findings}
    (h : Findings.Adds ⟨trail, []⟩ nodes later) : later.trail.Shows later.hits.reverse nodes := by
  obtain ⟨added, hhits, hshows⟩ := h.hits
  rw [hhits, List.append_nil, List.reverse_reverse]
  exact hshows

namespace Stage

/-- The matches of the stage are the given nodes in the given order. -/
def Shows (stage : Stage) (nodes : List Node) : Prop := stage.trail.Shows stage.found nodes

theorem shows_start : start.Shows [] := Trail.shows_nil _

theorem shows_moveTo {stage : Stage} {step : Step} {nodes : List Node} {findings : Findings}
    (h : Findings.Adds ⟨stage.trail, []⟩ nodes findings) :
    (stage.moveTo step findings).Shows nodes :=
  h.shows

variable {stage : Stage} {nodes : List Node}

theorem Shows.entries_eq (h : stage.Shows nodes) : stage.entries = nodes := h.nodes_eq

theorem Shows.note (h : stage.Shows nodes) (events : List Event) :
    (stage.note events).Shows nodes := h

theorem Shows.values_eq (h : stage.Shows nodes) : stage.values = nodes.map (·.2) := by
  rw [← h.nodes_eq, List.map_map]
  rfl

theorem adds_pick (h : stage.Shows nodes) {pick : Value → List (Element × Value)}
    {nodesOf : Node → List Node} (hpick : ∀ n ∈ nodes, (pick n.2).map n.child = nodesOf n) :
    Findings.Adds ⟨stage.trail, []⟩ (nodes.flatMap nodesOf) (stage.pick pick) := by
  have hadds : Findings.Adds ⟨stage.trail, []⟩ (nodes.flatMap fun n => (pick n.2).map n.child)
      (stage.pick pick) :=
    Findings.adds_foldl (fun findings m hm => findings.adds_visitAll hm (pick m.value)) h
  rw [List.flatMap_def, List.map_congr_left hpick, ← List.flatMap_def] at hadds
  exact hadds

theorem adds_pickWhere (h : stage.Shows nodes) (test : Value → Bool) :
    Findings.Adds ⟨stage.trail, []⟩ (nodes.flatMap (Node.childrenWhere fun c => test c.2))
      (stage.pickWhere test) :=
  Findings.adds_foldl (fun findings _ hm => findings.adds_visitWhere test hm) h

end Stage

/-- The root step leads to the root from any stage. -/
theorem Stage.shows_root (root : Value) (stage : Stage) :
    (advance root stage .root).Shows [([], root)] := by
  refine shows_moveTo ⟨.refl _, [⟨root, Trail.root⟩], rfl, ?_, ?_⟩
  · intro m hm
    rw [List.mem_singleton.mp hm]
    exact Nat.succ_pos _
  · exact congrArg (fun location => [(location, root)]) (Trail.locate_root _)

theorem Selector.map_pick {n : Node} (h : n.2.KeysDistinct) (selector : Selector) :
    (selector.pick n.2).map n.child = selector.nodes n := by
  rw [selector.pick_eq h]
  rfl

theorem Slice.map_pick (slice : Slice) (n : Node) :
    (slice.pick n.2).map n.child = slice.nodes n := by
  rw [slice.pick_eq, List.map_flatMap]
  rfl

theorem Selector.map_flatMap_pick {n : Node} (h : n.2.KeysDistinct) (selectors : List Selector) :
    (selectors.flatMap (·.pick n.2)).map n.child = selectors.flatMap (·.nodes n) := by
  simp only [List.map_flatMap, map_pick h]

theorem run_append (root : Value) (stage : Stage) (path more : Path) :
    run root stage (path ++ more) = run root (run root stage path) more := by
  induction path generalizing stage with
  | nil => rfl
  | cons step path ih => rw [List.cons_append, run, run, ih]

theorem Stage.Shows.shows_pick {stage : Stage} {nodes : List Node} (h : stage.Shows nodes)
    (step : Step) (pick : Value → List (Element × Value)) :
    (stage.moveTo step (stage.pick pick)).Shows
      (nodes.flatMap fun n => (pick n.2).map n.child) :=
  shows_moveTo (adds_pick h fun _ _ => rfl)

/-- Where a step leads from a node does not depend on the nodes beside it. -/
theorem exists_shows_advance (root : Value) {step : Step} (hstep : step ≠ .root) :
    ∃ nodesOf : Node → List Node, ∀ {stage : Stage} {nodes : List Node}, stage.Shows nodes →
      (advance root stage step).Shows (nodes.flatMap nodesOf) := by
  cases step with
  | root => exact absurd rfl hstep
  | select selector => exact ⟨_, fun h => h.shows_pick _ _⟩
  | wildcard => exact ⟨_, fun h => h.shows_pick _ _⟩
  | descent => exact ⟨_, fun h => Stage.shows_moveTo (adds_descend ⟨_, []⟩ h)⟩
  | slice slice => exact ⟨_, fun h => h.shows_pick _ _⟩
  | filter condition => exact ⟨_, fun h => Stage.shows_moveTo (Stage.adds_pickWhere h _)⟩
  | union selectors => exact ⟨_, fun h => h.shows_pick _ _⟩
  | dynamic path =>
    let computed := (run root .start path).finish path
    exact ⟨_, fun h => (h.note computed.events).shows_pick _ _⟩

section Run

variable {root : Value}

/-- A step leads from values with distinct keys to such values. -/
theorem keysDistinct_selectStep (hroot : root.KeysDistinct) {nodes : List Node}
    (h : ∀ n ∈ nodes, n.2.KeysDistinct) (step : Step) :
    ∀ n ∈ selectStep root nodes step, n.2.KeysDistinct :=
  forall_selectStep (P := fun n => n.2.KeysDistinct)
    (fun _ hn _ hc => hn.part (Value.mem_parts_of_mem_children hc)) hroot h step

mutual

theorem shows_run (hroot : root.KeysDistinct) (path : Path) {stage : Stage} {nodes : List Node}
    (h : stage.Shows nodes) (hkeys : ∀ n ∈ nodes, n.2.KeysDistinct) :
    (run root stage path).Shows (select root nodes path) :=
  match path with
  | [] => h
  | step :: path =>
    shows_run hroot path (shows_advance hroot step h hkeys)
      (keysDistinct_selectStep hroot hkeys step)

/-- One step of an evaluation leads from nodes to those that the step selects. -/
theorem shows_advance (hroot : root.KeysDistinct) (step : Step) {stage : Stage}
    {nodes : List Node} (h : stage.Shows nodes) (hkeys : ∀ n ∈ nodes, n.2.KeysDistinct) :
    (advance root stage step).Shows (selectStep root nodes step) :=
  match step with
  | .root => Stage.shows_root root stage
  | .select selector =>
    Stage.shows_moveTo (Stage.adds_pick h fun n hn => selector.map_pick (hkeys n hn))
  | .wildcard => Stage.shows_moveTo (Stage.adds_pick h fun _ _ => rfl)
  | .descent => Stage.shows_moveTo (adds_descend ⟨stage.trail, []⟩ h)
  | .slice slice => Stage.shows_moveTo (Stage.adds_pick h fun n _ => slice.map_pick n)
  | .filter condition => Stage.shows_moveTo (Stage.adds_pickWhere h (condition.holds root))
  | .union selectors =>
    Stage.shows_moveTo (Stage.adds_pick h fun n hn => Selector.map_flatMap_pick (hkeys n hn) _)
  | .dynamic path => by
    have hcomputed := (shows_run hroot path Stage.shows_start (by simp)).values_eq
    have hnoted := h.note ((run root .start path).finish path).events
    rw [advance, selectStep]
    simp only [hcomputed]
    exact Stage.shows_moveTo
      (Stage.adds_pick hnoted fun n hn => Selector.map_flatMap_pick (hkeys n hn) _)

end

/-- An evaluation finds the nodes that its path selects. -/
theorem shows_evaluate (hroot : root.KeysDistinct) (path : Path) :
    (evaluate root path).Shows (select root [] path) :=
  shows_run hroot path Stage.shows_start (by simp)

end Run

/-- The entries of an evaluation are the nodes that its path selects, in order and as often as they
are selected. The path is any list of steps. -/
theorem entries_evaluate_eq_select (root : Value) (hroot : root.KeysDistinct) (path : Path) :
    (evaluate root path).entries = select root [] path :=
  (shows_evaluate hroot path).entries_eq

/-- A descent, a union that picks one child twice, and a dynamic step whose inner path names a
member. -/
theorem entries_evaluate_descent_union_dynamic :
    let inner := Value.object [("a", .boolean true)]
    let root := Value.object [("k", .string "a"), ("a", .array [inner])]
    root.KeysDistinct ∧
      (evaluate root [.root, .descent, .union [.index 0, .index (-1)],
        .dynamic [.root, .select (.name "k")]]).entries =
        [([.key "a", .index 0, .key "a"], .boolean true),
          ([.key "a", .index 0, .key "a"], .boolean true)] := by
  intro inner root
  have hroot : root.KeysDistinct := by
    simp [root, inner, Value.KeysDistinct, Value.MemberKeysDistinct, Value.ElementKeysDistinct]
  exact ⟨hroot, (entries_evaluate_eq_select root hroot _).trans rfl⟩

end JsonQuery
