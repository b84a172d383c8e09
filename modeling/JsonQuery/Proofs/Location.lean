import JsonQuery.Proofs.Answer
import JsonQuery.Proofs.Path.Depth

/-!
Locations as queries. The normalized path of a match is a query of singular shape that selects this
match and no other, so matches are told apart by their normalized paths.
-/

namespace JsonQuery

theorem Element.inRange_selector {v : Value} (h : v.ArraysBelow (2 ^ 63)) {c : Element × Value}
    (hc : c ∈ v.children) : c.1.selector.InRange := by
  cases v with
  | array elements =>
    have hlength := h.self elements rfl
    obtain ⟨place, hlt, hplace⟩ := Value.mem_children_array hc
    rw [hplace, selector, Selector.InRange, Path.InIndexRange]
    omega
  | object members =>
    obtain ⟨k, hk⟩ := Value.mem_children_object hc
    rw [hk]
    trivial
  | _ => cases hc

namespace Location

/-- The steps of a normalized path behind its root. -/
def steps (location : Location) : Path := location.map fun e => .select e.selector

theorem text_steps (location : Location) :
    Path.text location.steps = location.flatMap fun e => e.selector.segment := by
  induction location with
  | nil => rfl
  | cons e location ih =>
    rw [steps, List.map_cons, Path.text, ← steps, ih, List.flatMap_cons, Path.stepText]

theorem singular_steps (location : Location) : location.steps.singular = true := by
  induction location with
  | nil => rfl
  | cons e location ih => exact ih

theorem asWritten_steps (location : Location) :
    Path.asWritten location.steps = location.steps := by
  induction location with
  | nil => rfl
  | cons e location ih => exact congrArg (Step.select e.selector :: ·) ih

theorem nesting_steps (location : Location) : Path.nesting location.steps = 0 := by
  induction location with
  | nil => rfl
  | cons e location ih =>
    rw [steps, List.map_cons, Path.nesting, ← steps, ih, Path.stepNesting]
    · rfl
    · nofun
    · nofun

theorem wellFormed_steps {location : Location} (h : ∀ e ∈ location, e.selector.InRange) :
    Path.Arranged location.steps ∧ Path.StepsWellFormed location.steps := by
  induction location with
  | nil => exact ⟨trivial, trivial⟩
  | cons e location ih =>
    obtain ⟨he, hmore⟩ := List.forall_mem_cons.mp h
    have hpicks : (Step.select e.selector).Picks := trivial
    exact ⟨(ih hmore).1.cons_picks hpicks, he, (ih hmore).2⟩

/-- A normalized path is a query for its steps. -/
theorem parse_normalized {location : Location} (h : ∀ e ∈ location, e.selector.InRange) :
    Path.parse location.text = .ok (.root :: location.steps) := by
  have htext : location.text = Path.text (.root :: location.steps) := by
    rw [Path.text, text_steps]
    rfl
  have hdepth : Path.nesting (.root :: location.steps) ≤ Path.maxDepth := by
    rw [Path.nesting_root, nesting_steps]
    exact Nat.zero_le _
  have hwell : Path.WellFormed (.root :: location.steps) := wellFormed_steps h
  rw [htext, Path.parse, Path.parseWithin_text hwell hdepth, Path.asWritten, asWritten_steps]
  rfl

end Location

/-- A node of a document: the way to it is a way of singular steps that leads to it alone. -/
structure Node.InDocument (root : Value) (n : Node) : Prop where
  keys : n.2.KeysDistinct
  arrays : n.2.ArraysBelow (2 ^ 63)
  inRange : ∀ e ∈ n.1, e.selector.InRange
  select_steps : select root [([], root)] n.1.steps = [n]

theorem Node.InDocument.child {root : Value} {n : Node} (h : Node.InDocument root n)
    {c : Element × Value} (hc : c ∈ n.2.children) : Node.InDocument root (n.child c) where
  keys := h.keys.part (Value.mem_parts_of_mem_children hc)
  arrays := h.arrays.part (Value.mem_parts_of_mem_children hc)
  inRange := List.forall_mem_append.mpr
    ⟨h.inRange, List.forall_mem_singleton.mpr (Element.inRange_selector h.arrays hc)⟩
  select_steps := by
    have hsteps : Location.steps (n.child c).1 = n.1.steps ++ [.select c.1.selector] :=
      List.map_append
    have hpick : c.1.selector.nodes n = [n.child c] := by
      rw [← Selector.map_pick h.keys, Element.pick_selector h.keys hc]
      rfl
    rw [hsteps, select_append, h.select_steps, select, select, selectStep, List.flatMap_singleton,
      hpick]

theorem inDocument_of_mem_select {root : Value} (hkeys : root.KeysDistinct)
    (harrays : root.ArraysBelow (2 ^ 63)) (path : Path) :
    ∀ n ∈ select root [] path, Node.InDocument root n :=
  forall_select (P := Node.InDocument root) (fun _ hn _ hc => hn.child hc)
    ⟨hkeys, harrays, by simp, rfl⟩ (by simp) path

/-- The normalized path of a match is a query of singular shape that matches this node alone. Two
matches have the same normalized path exactly if they are the same node. -/
theorem parse_location_text {document : List Char} {root : Value}
    (hd : Json.parse document = .ok root) (harrays : root.ArraysBelow (2 ^ 63)) (path : Path) :
    ∀ n ∈ (evaluate root path).entries,
      (∃ normalized, Path.parse (Location.text n.1) = .ok normalized ∧
        normalized.singular = true ∧ (evaluate root normalized).entries = [n]) ∧
      ∀ other : Path, ∀ m ∈ (evaluate root other).entries,
        Location.text n.1 = Location.text m.1 ↔ n = m := by
  have hkeys := (Json.sound_of_parse hd).keys
  have hnode : ∀ (path : Path), ∀ n ∈ (evaluate root path).entries,
      Node.InDocument root n := by
    intro path n hn
    rw [(shows_evaluate hkeys path).entries_eq] at hn
    exact inDocument_of_mem_select hkeys harrays path n hn
  intro n hn
  have hin := hnode path n hn
  refine ⟨⟨_, Location.parse_normalized hin.inRange, Location.singular_steps n.1, ?_⟩, ?_⟩
  · rw [(shows_evaluate hkeys _).entries_eq]
    exact hin.select_steps
  · intro other m hm
    have him := hnode other m hm
    refine ⟨fun htext => ?_, fun heq => by rw [heq]⟩
    have hparse := Location.parse_normalized hin.inRange
    rw [htext, Location.parse_normalized him.inRange] at hparse
    have hsteps : m.1.steps = n.1.steps := (List.cons.inj (Except.ok.inj hparse)).2
    have hselect := him.select_steps
    rw [hsteps, hin.select_steps] at hselect
    exact (List.cons.inj hselect).1

/-- An element of an array under a key with a quote. -/
theorem parse_location_text_quote :
    let document := "\x7b\"it's\":[null,[]]\x7d".toList
    let root := Value.object [("it's", .array [.null, .array []])]
    let n : Node := ([.key "it's", .index 1], .array [])
    (Json.parse document = .ok root ∧ root.ArraysBelow (2 ^ 63) ∧
      n ∈ (evaluate root [.root, .wildcard, .wildcard]).entries) ∧
      Location.text n.1 = "$['it\\'s'][1]".toList ∧
      ∃ normalized, Path.parse (Location.text n.1) = .ok normalized ∧
        normalized.singular = true ∧ (evaluate root normalized).entries = [n] := by
  intro document root n
  have hd : Json.parse document = .ok root := by
    have hroot : Json.Sound root := Json.sound_object (by simp) (by
      simp [sound_null, Json.sound_array])
    have htext : document = root.text .compact := by decide
    rw [htext, Value.parse_text hroot]
    rfl
  have harrays : root.ArraysBelow (2 ^ 63) := by
    have hempty : (Value.array []).ArraysBelow (2 ^ 63) := .intro (by simp) nofun
    have hnull : Value.null.ArraysBelow (2 ^ 63) := .intro (by simp) nofun
    have harray : (Value.array [.null, .array []]).ArraysBelow (2 ^ 63) :=
      .intro (by simp) (List.forall_mem_cons.mpr ⟨hnull, List.forall_mem_singleton.mpr hempty⟩)
    exact .intro (by simp [root]) (List.forall_mem_singleton.mpr harray)
  have hentries : (evaluate root [.root, .wildcard, .wildcard]).entries =
    [([.key "it's", .index 0], .null), n] :=
      (shows_evaluate (Json.sound_of_parse hd).keys _).entries_eq.trans rfl
  have hn : n ∈ (evaluate root [.root, .wildcard, .wildcard]).entries := by
    rw [hentries]
    exact List.mem_cons_of_mem _ (List.mem_singleton_self n)
  exact ⟨⟨hd, harrays, hn⟩, by decide, (parse_location_text hd harrays _ n hn).1⟩

end JsonQuery
