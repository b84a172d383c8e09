import JsonQuery.Proofs.Selection.Evaluation

/-!
A path of singular shape selects one node at most, its dynamic steps included: what such a step
computes is one selector at most.
-/

namespace JsonQuery

theorem length_flatMap_le_one {α β : Type} {f : α → List β} {l : List α} (hl : l.length ≤ 1)
    (hf : ∀ a ∈ l, (f a).length ≤ 1) : (l.flatMap f).length ≤ 1 := by
  match l with
  | [] => exact Nat.zero_le 1
  | [a] =>
    rw [List.flatMap_cons, List.flatMap_nil, List.append_nil]
    exact hf a List.mem_cons_self
  | _ :: _ :: _ =>
    simp only [List.length_cons] at hl
    omega

theorem pairwise_of_length_le_one {α : Type} {R : α → α → Prop} {l : List α} (h : l.length ≤ 1) :
    l.Pairwise R := by
  match l with
  | [] => exact .nil
  | [a] => exact List.pairwise_singleton R a
  | _ :: _ :: _ =>
    simp only [List.length_cons] at h
    omega

theorem Selector.length_pick_le (selector : Selector) (v : Value) :
    (selector.pick v).length ≤ 1 := by
  unfold pick
  split
  · exact Option.length_toList_le
  · exact Option.length_toList_le
  · exact Nat.zero_le 1

theorem Selector.length_nodes_le {n : Node} (h : n.2.KeysDistinct) (selector : Selector) :
    (selector.nodes n).length ≤ 1 := by
  rw [← map_pick h, List.length_map]
  exact selector.length_pick_le n.2

/-- Nodes compute at most as many selectors as they are. -/
theorem length_computed_le (nodes : List Node) :
    ((nodes.map (·.2)).filterMap Selector.ofValue?).length ≤ nodes.length := by
  have hlength := List.length_filterMap_le Selector.ofValue? (nodes.map (·.2))
  rw [List.length_map] at hlength
  exact hlength

section Singular

variable {root : Value}

mutual

theorem length_select_le (hroot : root.KeysDistinct) (path : Path) (h : path.singular = true)
    {nodes : List Node} (hnodes : nodes.length ≤ 1) (hkeys : ∀ n ∈ nodes, n.2.KeysDistinct) :
    (select root nodes path).length ≤ 1 :=
  match path with
  | [] => hnodes
  | step :: path => by
    rw [Path.singular, Bool.and_eq_true] at h
    exact length_select_le hroot path h.2 (length_selectStep_le hroot step h.1 hnodes hkeys)
      (keysDistinct_selectStep hroot hkeys step)

/-- A step of singular shape leads from one node to one node at most. -/
theorem length_selectStep_le (hroot : root.KeysDistinct) (step : Step)
    (h : Path.singularStep step = true) {nodes : List Node} (hnodes : nodes.length ≤ 1)
    (hkeys : ∀ n ∈ nodes, n.2.KeysDistinct) : (selectStep root nodes step).length ≤ 1 :=
  match step with
  | .root => Nat.le_refl 1
  | .select selector =>
    length_flatMap_le_one hnodes fun n hn => selector.length_nodes_le (hkeys n hn)
  | .dynamic path => by
    have hcomputed : (select root [] path).length ≤ 1 :=
      length_select_le hroot path h (Nat.zero_le 1) (by simp)
    refine length_flatMap_le_one hnodes fun n hn => length_flatMap_le_one ?_ fun selector _ =>
      selector.length_nodes_le (hkeys n hn)
    exact Nat.le_trans (length_computed_le _) hcomputed

end

theorem length_entries_le (hroot : root.KeysDistinct) {path : Path}
    (h : path.singular = true) : (evaluate root path).entries.length ≤ 1 := by
  rw [(shows_evaluate hroot path).entries_eq]
  exact length_select_le hroot path h (Nat.zero_le 1) (by simp)

end Singular

end JsonQuery
