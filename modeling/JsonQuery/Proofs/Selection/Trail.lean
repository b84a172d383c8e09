import JsonQuery.Proofs.Selection.Nodes

/-!
What a trail records. A visited child lies at the location of its container and one element more,
and no later visit changes the location of a number that has been given out. Findings grow by
nodes: `Adds` says which nodes a part of an evaluation adds, and in which order.
-/

namespace JsonQuery

namespace Trail

/-- `later` continues `trail`. -/
def Within (trail later : Trail) : Prop := trail.links.toList <+: later.links.toList

theorem Within.refl (trail : Trail) : trail.Within trail := List.prefix_rfl

theorem Within.trans {first second third : Trail} (h : first.Within second)
    (h' : second.Within third) : first.Within third := List.IsPrefix.trans h h'

theorem within_push (trail : Trail) (container : Nat) (element : Element) :
    trail.Within (trail.push container element) := by
  simp [Within, push]

theorem Within.next_le {trail later : Trail} (h : trail.Within later) :
    trail.next ≤ later.next := by
  have := h.length_le
  simp only [Array.length_toList] at this
  simp only [next]
  omega

theorem Within.link?_eq {trail later : Trail} (h : trail.Within later) {number : Nat}
    (hn : number < trail.next) : later.link? number = trail.link? number := by
  cases number with
  | zero => rfl
  | succ i =>
    obtain ⟨links, hlinks⟩ := h
    have hi : i < trail.links.toList.length := by
      simp only [next, Array.length_toList] at hn ⊢
      omega
    simp only [link?, ← Array.getElem?_toList, ← hlinks, List.getElem?_append_left hi]

theorem link?_push (trail : Trail) (container : Nat) (element : Element) :
    (trail.push container element).link? trail.next = some ⟨container, element⟩ := by
  simp [link?, push, next]

theorem wayTo_eq (trail : Trail) (number : Nat) (after : Location) :
    trail.wayTo number after = trail.locate number ++ after := by
  induction number using Nat.strongRecOn generalizing after with
  | ind number ih =>
    rw [locate, wayTo, wayTo]
    cases trail.link? number with
    | none => rfl
    | some link =>
      by_cases hlt : link.container < number
      · simp only [hlt, if_true]
        rw [ih _ hlt, ih _ hlt [link.element], List.append_assoc, List.singleton_append]
      · simp only [hlt, if_false, List.singleton_append]

theorem Within.locate_eq {trail later : Trail} (h : trail.Within later) {number : Nat}
    (hn : number < trail.next) : later.locate number = trail.locate number := by
  induction number using Nat.strongRecOn with
  | ind number ih =>
    rw [locate, locate, wayTo, wayTo, h.link?_eq hn]
    cases trail.link? number with
    | none => rfl
    | some link =>
      by_cases hlt : link.container < number
      · simp only [hlt, if_true]
        rw [wayTo_eq, wayTo_eq, ih _ hlt (Nat.lt_trans hlt hn)]
      · simp only [hlt, if_false]

/-- A visited child lies one element below its container. -/
theorem locate_push {trail : Trail} {container : Nat} (hc : container < trail.next)
    (element : Element) :
    (trail.push container element).locate trail.next = trail.locate container ++ [element] := by
  have hstays := (trail.within_push container element).locate_eq hc
  rw [locate, wayTo, link?_push]
  simp only [hc, if_true, wayTo_eq, hstays]

theorem locate_root (trail : Trail) : trail.locate root = [] := by
  rw [locate, wayTo]
  rfl

/-- The node that was found. -/
def node (trail : Trail) (m : Match) : Node := (trail.locate m.number, m.value)

/-- The matches have been recorded, and they are the given nodes in the given order. -/
structure Shows (trail : Trail) (found : List Match) (nodes : List Node) : Prop where
  recorded : ∀ m ∈ found, m.number < trail.next
  nodes_eq : found.map trail.node = nodes

theorem shows_nil (trail : Trail) : trail.Shows [] [] := ⟨by simp, rfl⟩

section Shows

variable {trail later : Trail} {found more : List Match} {nodes others : List Node}

theorem Within.node_eq (h : trail.Within later) {m : Match} (hm : m.number < trail.next) :
    later.node m = trail.node m := by
  rw [node, node, h.locate_eq hm]

theorem Shows.mono (hs : trail.Shows found nodes) (h : trail.Within later) :
    later.Shows found nodes := by
  refine ⟨fun m hm => Nat.lt_of_lt_of_le (hs.recorded m hm) h.next_le, ?_⟩
  rw [← hs.nodes_eq]
  exact List.map_congr_left fun m hm => h.node_eq (hs.recorded m hm)

theorem Shows.append (hs : trail.Shows found nodes) (hm : trail.Shows more others) :
    trail.Shows (found ++ more) (nodes ++ others) := by
  refine ⟨?_, ?_⟩
  · intro m hmem
    rcases List.mem_append.mp hmem with hmem | hmem
    · exact hs.recorded m hmem
    · exact hm.recorded m hmem
  · rw [List.map_append, hs.nodes_eq, hm.nodes_eq]

theorem Shows.reverse (hs : trail.Shows found nodes) :
    trail.Shows found.reverse nodes.reverse := by
  refine ⟨fun m hm => hs.recorded m (List.mem_reverse.mp hm), ?_⟩
  rw [List.map_reverse, hs.nodes_eq]

/-- A test of values picks among the nodes as among the matches. -/
theorem Shows.filter (hs : trail.Shows found nodes) (test : Value → Bool) :
    trail.Shows (found.filter fun m => test m.value) (nodes.filter fun n => test n.2) := by
  refine ⟨fun m hm => hs.recorded m (List.mem_filter.mp hm).1, ?_⟩
  rw [← hs.nodes_eq, List.filter_map]
  rfl

end Shows

end Trail

namespace Findings

/-- `later` has what `earlier` has found, and then the given nodes in the given order. -/
structure Adds (earlier : Findings) (nodes : List Node) (later : Findings) : Prop where
  within : earlier.trail.Within later.trail
  hits : ∃ added, later.hits = added.reverse ++ earlier.hits ∧ later.trail.Shows added nodes

theorem adds_nil (findings : Findings) : findings.Adds [] findings :=
  ⟨.refl _, [], rfl, Trail.shows_nil _⟩

theorem Adds.append {first second third : Findings} {nodes more : List Node}
    (h : first.Adds nodes second) (h' : second.Adds more third) :
    first.Adds (nodes ++ more) third := by
  obtain ⟨added, hhits, hshows⟩ := h.hits
  obtain ⟨added', hhits', hshows'⟩ := h'.hits
  refine ⟨h.within.trans h'.within, added ++ added', ?_, (hshows.mono h'.within).append hshows'⟩
  rw [hhits', hhits, List.reverse_append, List.append_assoc]

theorem adds_visit (findings : Findings) {container : Match}
    (hc : container.number < findings.trail.next) (c : Element × Value) :
    findings.Adds [(findings.trail.node container).child c]
      (findings.visit container.number c) := by
  refine ⟨findings.trail.within_push _ _, [⟨c.2, findings.trail.next⟩], rfl, ?_, ?_⟩
  · intro m hm
    rw [List.mem_singleton.mp hm]
    simp [visit, Trail.next, Trail.push]
  · exact congrArg (fun location => [(location, c.2)]) (Trail.locate_push hc c.1)

/-- A part of an evaluation that adds nodes for one match adds them for many in turn. -/
theorem adds_foldl {add : Findings → Match → Findings} {nodesOf : Node → List Node}
    (hadd : ∀ (findings : Findings) (m : Match), m.number < findings.trail.next →
      findings.Adds (nodesOf (findings.trail.node m)) (add findings m))
    {findings : Findings} {found : List Match} {nodes : List Node}
    (hs : findings.trail.Shows found nodes) :
    findings.Adds (nodes.flatMap nodesOf) (found.foldl add findings) := by
  obtain ⟨hrecorded, rfl⟩ := hs
  induction found generalizing findings with
  | nil => exact adds_nil findings
  | cons m found ih =>
    have hm := hadd findings m (hrecorded m List.mem_cons_self)
    have hlater : (add findings m).trail.Shows found (found.map findings.trail.node) :=
      Trail.Shows.mono ⟨fun m' h => hrecorded m' (List.mem_cons_of_mem m h), rfl⟩ hm.within
    have hrest := ih hlater.recorded
    rw [hlater.nodes_eq] at hrest
    simpa only [List.map_cons, List.flatMap_cons, List.foldl_cons] using hm.append hrest

theorem adds_visitAll (findings : Findings) {container : Match}
    (hc : container.number < findings.trail.next) (children : List (Element × Value)) :
    findings.Adds (children.map (findings.trail.node container).child)
      (findings.visitAll container children) := by
  induction children generalizing findings with
  | nil => exact adds_nil findings
  | cons c children ih =>
    have hvisit := adds_visit findings hc c
    have hrest := ih (findings.visit container.number c)
      (Nat.lt_of_lt_of_le hc hvisit.within.next_le)
    rw [hvisit.within.node_eq hc] at hrest
    exact hvisit.append hrest

theorem adds_visitWhere (test : Value → Bool) (findings : Findings) {container : Match}
    (hc : container.number < findings.trail.next) :
    findings.Adds ((findings.trail.node container).childrenWhere fun c => test c.2)
      (findings.visitWhere test container) := by
  obtain ⟨hwithin, added, hhits, hshows⟩ :=
    adds_visitAll ⟨findings.trail, []⟩ hc container.value.children
  refine ⟨hwithin, added.filter fun m => test m.value, ?_, ?_⟩
  · simp only [visitWhere, hhits, List.append_nil, List.filter_reverse]
  · have hfilter := hshows.filter test
    rw [List.filter_map] at hfilter
    exact hfilter

end Findings

theorem elementDescent_eq (location : Location) (place : Nat) (elements : List Value) :
    elementDescent location place elements =
      (elements.zipIdx place).flatMap fun c => descent (location ++ [.index c.2]) c.1 := by
  induction elements generalizing place with
  | nil => rfl
  | cons v elements ih => simp only [elementDescent, ih, List.zipIdx_cons, List.flatMap_cons]

theorem memberDescent_eq (location : Location) (members : List (String × Value)) :
    memberDescent location members =
      members.flatMap fun m => descent (location ++ [.key m.1]) m.2 := by
  induction members with
  | nil => rfl
  | cons m members ih => simp only [memberDescent, ih, List.flatMap_cons]

/-- The descent into a node is the node and then the descents into its children in order. -/
theorem descent_eq (n : Node) :
    descent n.1 n.2 = n :: n.children.flatMap fun c => descent c.1 c.2 := by
  obtain ⟨location, v⟩ := n
  cases v with
  | array elements =>
    simp only [descent, elementDescent_eq, Node.children, Value.children, List.map_map,
      List.flatMap_map]
    rfl
  | object members =>
    simp only [descent, memberDescent_eq, Node.children, Value.children, List.map_map,
      List.flatMap_map]
    rfl
  | _ => rfl

/-- The pending values of a descent, each with all that is below it, are added in order. -/
theorem adds_descend (findings : Findings) {pending : List Match} {nodes : List Node}
    (hs : findings.trail.Shows pending nodes) :
    findings.Adds (nodes.flatMap fun n => descent n.1 n.2) (descend findings pending) := by
  fun_induction descend findings pending generalizing nodes with
  | case1 findings =>
    rw [← hs.nodes_eq]
    exact findings.adds_nil
  | case2 trail hits m pending below =>
    rename_i ih
    obtain ⟨hrecorded, rfl⟩ := hs
    have hm := hrecorded m List.mem_cons_self
    obtain ⟨hwithin, added, hhits, hshows⟩ :=
      Findings.adds_visitAll ⟨trail, []⟩ hm m.value.children.reverse
    -- the children were visited last to first, so they are pending in order
    have hbelow : below.trail.Shows below.hits (trail.node m).children := by
      have hreverse := hshows.reverse
      rw [List.map_reverse, List.reverse_reverse] at hreverse
      rw [List.append_nil] at hhits
      rw [show below.hits = added.reverse from hhits]
      exact hreverse
    have hpending : below.trail.Shows pending (pending.map trail.node) :=
      Trail.Shows.mono ⟨fun m' h => hrecorded m' (List.mem_cons_of_mem m h), rfl⟩ hwithin
    have hnode : Findings.Adds ⟨trail, hits⟩ [trail.node m] ⟨below.trail, m :: hits⟩ :=
      ⟨hwithin, [m], rfl, Trail.Shows.mono ⟨by simpa using hm, rfl⟩ hwithin⟩
    have hrest := hnode.append (ih (hbelow.append hpending))
    rw [List.map_cons, List.flatMap_cons, descent_eq]
    simpa only [List.flatMap_append, List.cons_append, List.nil_append] using hrest

end JsonQuery
