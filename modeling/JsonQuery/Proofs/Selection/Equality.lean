import JsonQuery.Proofs.Selection.Lookup
import JsonQuery.Proofs.Selection.Singular
import JsonQuery.Proofs.Value.Equality

/-!
Evaluation on equal documents. The order of members shows in the order of matches and nowhere else:
on equal documents a path leads to the same locations, each as often, and to equal values there.
-/

namespace JsonQuery

/-- A child has a partner under the same key or at the same place. -/
def Value.ChildAlike (c d : Element × Value) : Prop := c.1 = d.1 ∧ c.2.Alike d.2

theorem Value.forall₂_zipIdx {R : Value → Value → Prop} {xs ys : List Value}
    (h : List.Forall₂ R xs ys) (place : Nat) :
    List.Forall₂ (fun c d : Value × Nat => c.2 = d.2 ∧ R c.1 d.1) (xs.zipIdx place)
      (ys.zipIdx place) := by
  induction h generalizing place with
  | nil => exact .nil
  | cons hxy _ ih => exact .cons ⟨rfl, hxy⟩ (ih (place + 1))

/-- The children of equal values can be matched up. -/
theorem Value.Alike.matched_children {v w : Value} (h : v.Alike w) :
    Matched ChildAlike v.children w.children := by
  have hparts : Matched (fun c d : Element × Value => c.1 = d.1 ∧ c.2.same d.2 = true)
      v.children w.children := by
    cases same_iff_equal.mp h.same with
    | array hxs =>
      apply (Matched.of_forall₂ (forall₂_zipIdx hxs 0)).map
      rintro c d ⟨hplace, hsame⟩
      exact ⟨congrArg Element.index hplace, hsame⟩
    | object hlength hms =>
      apply (matched_members (R := fun v w => v.same w = true) h.left.1 h.right.1 hlength hms).map
      rintro m n ⟨hkey, hsame⟩
      exact ⟨congrArg Element.key hkey, hsame⟩
    | _ => exact .zero
  refine Multiset.Rel.mono hparts fun c hc d hd hcd => ⟨hcd.1, hcd.2, ?_, ?_⟩
  · exact h.left.part (mem_parts_of_mem_children hc)
  · exact h.right.part (mem_parts_of_mem_children hd)

/-- The nodes have one location and equal values. -/
def Node.Alike (n m : Node) : Prop := n.1 = m.1 ∧ n.2.Alike m.2

section Nodes

variable {n m : Node} (h : n.Alike m)
include h

theorem Node.Alike.child {c d : Element × Value} (hcd : Value.ChildAlike c d) :
    (n.child c).Alike (m.child d) :=
  ⟨by rw [Node.child, Node.child, h.1, hcd.1], hcd.2⟩

theorem Node.Alike.matched_children : Matched Node.Alike n.children m.children :=
  h.2.matched_children.map fun _ _ hcd => h.child hcd

theorem Node.Alike.matched_childrenWhere {test test' : Element × Value → Bool}
    (htest : ∀ c d, Value.ChildAlike c d → test c = test' d) :
    Matched Node.Alike (n.childrenWhere test) (m.childrenWhere test') :=
  (h.2.matched_children.filter htest).map fun _ _ hcd => h.child hcd

theorem Selector.matched_nodes (selector : Selector) :
    Matched Node.Alike (selector.nodes n) (selector.nodes m) := by
  apply h.matched_childrenWhere
  intro c d hcd
  rw [hcd.1, h.2.size_eq]

theorem Slice.matched_nodes (slice : Slice) :
    Matched Node.Alike (slice.nodes n) (slice.nodes m) := by
  rw [nodes, nodes, h.2.size_eq]
  refine (Matched.of_perm (.refl _)).flatMap fun place _ _ _ hplace => ?_
  apply h.matched_childrenWhere
  intro c d hcd
  rw [hcd.1, hplace]

theorem Selector.matched_flatMap_nodes {selectors selectors' : List Selector}
    (hselectors : selectors.Perm selectors') :
    Matched Node.Alike (selectors.flatMap (·.nodes n)) (selectors'.flatMap (·.nodes m)) := by
  refine (Matched.of_perm hselectors).flatMap fun selector _ _ _ heq => ?_
  rw [← heq]
  exact selector.matched_nodes h

end Nodes

theorem matched_descent {v w : Value} (h : v.Alike w) (location : Location) :
    Matched Node.Alike (descent location v) (descent location w) := by
  induction v using Value.parts_induction generalizing w location with
  | h v ih =>
    have hnode : Node.Alike (location, v) (location, w) := ⟨rfl, h⟩
    rw [descent_eq (location, v), descent_eq (location, w)]
    refine .cons hnode (hnode.matched_children.flatMap fun c hc d _ hcd => ?_)
    obtain ⟨child, hchild, rfl⟩ := List.mem_map.mp hc
    rw [← hcd.1]
    exact ih _ (Value.mem_parts_of_mem_children hchild) hcd.2 _

section Run

variable {root other : Value}

mutual

theorem matched_select (hroot : root.Alike other) (path : Path) {nodes nodes' : List Node}
    (h : Matched Node.Alike nodes nodes') :
    Matched Node.Alike (select root nodes path) (select other nodes' path) :=
  match path with
  | [] => h
  | step :: path => matched_select hroot path (matched_selectStep hroot step h)

/-- A step leads from matching nodes to matching nodes. -/
theorem matched_selectStep (hroot : root.Alike other) (step : Step) {nodes nodes' : List Node}
    (h : Matched Node.Alike nodes nodes') :
    Matched Node.Alike (selectStep root nodes step) (selectStep other nodes' step) :=
  match step with
  | .root => .cons ⟨rfl, hroot⟩ .zero
  | .select selector => h.flatMap fun _ _ _ _ hnm => selector.matched_nodes hnm
  | .wildcard => h.flatMap fun _ _ _ _ hnm => hnm.matched_children
  | .descent => h.flatMap fun n _ m _ hnm => hnm.1 ▸ matched_descent hnm.2 n.1
  | .slice slice => h.flatMap fun _ _ _ _ hnm => slice.matched_nodes hnm
  | .filter condition => h.flatMap fun _ _ _ _ hnm =>
    hnm.matched_childrenWhere fun _ _ hcd => condition.holds_alike hroot hcd.2
  | .union selectors => h.flatMap fun _ _ _ _ hnm => Selector.matched_flatMap_nodes hnm (.refl _)
  | .dynamic path => by
    have hcomputed : Matched Node.Alike (select root [] path) (select other [] path) :=
      matched_select hroot path .zero
    have hvalues : Matched Value.Alike ((select root [] path).map (·.2))
        ((select other [] path).map (·.2)) := hcomputed.map fun _ _ hnm => hnm.2
    have hselectors := (hvalues.filterMap fun _ _ hvw => option_rel_of_eq hvw.ofValue?_eq).perm
    exact h.flatMap fun _ _ _ _ hnm => Selector.matched_flatMap_nodes hnm hselectors

end

end Run

/-- On equal documents a path leads to the same locations, each as often, and to equal values at
each of them; a path of singular shape leads to them as one list. The order of members and the sign
of a zero do not matter, at any depth; equal documents hold no NaN. -/
theorem entries_evaluate_of_same {root other : Value} (hroot : root.KeysDistinct)
    (hother : other.KeysDistinct) (hsame : root.same other = true) (path : Path) :
    ((evaluate root path).entries.map (·.1)).Perm ((evaluate other path).entries.map (·.1)) ∧
      (∀ n ∈ (evaluate root path).entries, ∀ m ∈ (evaluate other path).entries, n.1 = m.1 →
        n.2.same m.2 = true) ∧
      (path.singular = true →
        List.Forall₂ (fun n m => n.1 = m.1 ∧ n.2.same m.2 = true)
          (evaluate root path).entries (evaluate other path).entries) := by
  have halike : root.Alike other := ⟨hsame, hroot, hother⟩
  have hmatched : Matched Node.Alike (select root [] path) (select other [] path) :=
    matched_select halike path .zero
  rw [(shows_evaluate hroot path).entries_eq, (shows_evaluate hother path).entries_eq]
  refine ⟨?_, ?_, ?_⟩
  · exact (hmatched.map fun _ _ hnm => hnm.1).perm
  · intro n hn m hm hlocation
    have hn := leads_of_mem_select hroot path n hn
    have hm := leads_of_mem_select hother path m hm
    obtain ⟨b, hb, hnb⟩ := halike.follow? hn
    rw [Node.Leads, ← hlocation] at hm
    rw [hm] at hb
    cases hb
    exact hnb.same
  · intro hsingular
    have hlength : (select root [] path).length ≤ 1 :=
      length_select_le hroot path hsingular (Nat.zero_le 1) (by simp)
    exact (hmatched.forall₂_of_length_le hlength).imp fun _ _ hnm => ⟨hnm.1, hnm.2.same⟩

/-- The same object with its members in the other order and with a negative zero, under a filter
for zeros. -/
theorem entries_evaluate_of_same_zeros :
    let root := Value.object [("a", .number .zero), ("b", .array [.number .zero])]
    let other := Value.object [("b", .array [.number .zero]), ("a", .number ⟨true, 0, by decide⟩)]
    let path : Path := [.root, .descent,
      .filter (.compare (.reference ⟨.current, []⟩) .eq (.literal (.number .zero)))]
    (root.KeysDistinct ∧ other.KeysDistinct ∧ root.same other = true) ∧
      ((evaluate root path).entries.map (·.1)).Perm ((evaluate other path).entries.map (·.1)) ∧
      ∀ n ∈ (evaluate root path).entries, ∀ m ∈ (evaluate other path).entries, n.1 = m.1 →
        n.2.same m.2 = true := by
  intro root other path
  have hroot : root.KeysDistinct := by
    simp [root, Value.KeysDistinct, Value.MemberKeysDistinct, Value.ElementKeysDistinct]
  have hother : other.KeysDistinct := by
    simp [other, Value.KeysDistinct, Value.MemberKeysDistinct, Value.ElementKeysDistinct]
  have hsame : root.same other = true := by decide
  have hentries := entries_evaluate_of_same hroot hother hsame path
  exact ⟨⟨hroot, hother, hsame⟩, hentries.1, hentries.2.1⟩

end JsonQuery
