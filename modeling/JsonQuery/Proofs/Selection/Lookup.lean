import JsonQuery.Proofs.Selection.Evaluation

/-!
Looking values up along their locations. Selectors that are followed one after the other find what
a path of selecting steps finds, and the location of a node leads back to its value.
-/

namespace JsonQuery

theorem Selector.map_snd_pick (selector : Selector) (v : Value) :
    (selector.pick v).map (·.2) = (selector.child? v).toList := by
  cases selector with
  | name k =>
    rw [pick, child?]
    cases v.member? k <;> rfl
  | index i =>
    cases v with
    | array elements =>
      rw [pick, child?, Value.element?]
      cases Value.place? elements.length i with
      | none => rfl
      | some place =>
        rw [Option.bind_some, Option.bind_some]
        cases elements[place]? <;> rfl
    | _ => rfl

theorem Element.child?_selector {v : Value} (h : v.KeysDistinct) {c : Element × Value}
    (hc : c ∈ v.children) : c.1.selector.child? v = some c.2 := by
  have hpick := c.1.selector.map_snd_pick v
  rw [pick_selector h hc] at hpick
  exact Option.mem_toList.mp (hpick ▸ List.mem_singleton_self c.2)

theorem Element.mem_children_of_child? {v w : Value} {e : Element}
    (h : e.selector.child? v = some w) : (e, w) ∈ v.children := by
  cases e with
  | key k =>
    cases v with
    | object members =>
      exact List.mem_map.mpr ⟨(k, w), Keyed.mem_of_find?_eq_some h, rfl⟩
    | _ => cases h
  | index place =>
    cases v with
    | array elements =>
      obtain ⟨place', hplace, hw⟩ := Option.bind_eq_some_iff.mp h
      rw [Value.place?_natCast] at hplace
      split at hplace
      · cases hplace
        exact List.mem_map.mpr ⟨(w, place), List.mk_mem_zipIdx_iff_getElem?.mpr hw, rfl⟩
      · cases hplace
    | _ => cases h

theorem Selector.mem_parts_of_child? {v w : Value} {selector : Selector}
    (h : selector.child? v = some w) : w ∈ v.parts := by
  cases selector with
  | name k =>
    cases v with
    | object members => exact List.mem_map.mpr ⟨(k, w), Keyed.mem_of_find?_eq_some h, rfl⟩
    | _ => cases h
  | index i =>
    cases v with
    | array elements =>
      obtain ⟨place, -, hw⟩ := Option.bind_eq_some_iff.mp h
      exact List.mem_of_getElem? hw
    | _ => cases h

theorem Selector.follow?_append (selectors more : List Selector) (v : Value) :
    follow? (selectors ++ more) v = (follow? selectors v).bind (follow? more) := by
  induction selectors generalizing v with
  | nil => rfl
  | cons selector selectors ih =>
    rw [List.cons_append, follow?, follow?, Option.bind_assoc]
    exact congrArg _ (funext ih)

/-- The location of the node leads from the root to its value. -/
def Node.Leads (root : Value) (n : Node) : Prop :=
  Selector.follow? (n.1.map Element.selector) root = some n.2

section Leads

variable {root w : Value} {e : Element} {location : Location}

theorem Node.leads_cons_iff :
    Node.Leads root (e :: location, w) ↔
      ∃ v, e.selector.child? root = some v ∧ Node.Leads v (location, w) :=
  Option.bind_eq_some_iff

theorem Node.leads_concat_iff :
    Node.Leads root (location ++ [e], w) ↔
      ∃ v, Node.Leads root (location, v) ∧ e.selector.child? v = some w := by
  rw [Leads, List.map_append, Selector.follow?_append, Option.bind_eq_some_iff]
  simp only [Leads, List.map_singleton, Selector.follow?, Option.bind_fun_some]

end Leads

theorem Node.Leads.child {root : Value} {n : Node} (h : n.Leads root) (hn : n.2.KeysDistinct)
    {c : Element × Value} (hc : c ∈ n.2.children) : (n.child c).Leads root :=
  leads_concat_iff.mpr ⟨n.2, h, Element.child?_selector hn hc⟩

/-- The nodes that a path selects are nodes of the document. -/
theorem leads_of_mem_select {root : Value} (hroot : root.KeysDistinct) (path : Path) :
    ∀ n ∈ select root [] path, n.Leads root := by
  have hchild : ∀ n : Node, n.2.KeysDistinct ∧ n.Leads root → ∀ c ∈ n.2.children,
      (n.child c).2.KeysDistinct ∧ (n.child c).Leads root := by
    intro n hn c hc
    exact ⟨hn.1.part (Value.mem_parts_of_mem_children hc), hn.2.child hn.1 hc⟩
  intro n hn
  exact (forall_select (P := fun n => n.2.KeysDistinct ∧ n.Leads root) hchild ⟨hroot, rfl⟩
    (by simp) path n hn).2

end JsonQuery
