import JsonQuery.Proofs.Path.WellFormed
import JsonQuery.Proofs.Selection.Lookup
import JsonQuery.Proofs.Selection.Words

/-!
References in conditions and the paths that pick what they refer to. A condition looks its
references up by themselves; the search finds the same value, or finds none where the reference
leads nowhere. Both do so in words as in integers.
-/

namespace JsonQuery

/-- The value that references start at. -/
def Anchor.start (root current : Value) : Anchor → Value
  | .current => current
  | .root => root

/-- The path that picks what the reference refers to. -/
def Reference.path (r : Reference) : Path := .root :: r.selectors.map .select

theorem Reference.resolve?_eq (r : Reference) (root current : Value) :
    r.resolve? root current = Selector.follow? r.selectors (r.anchor.start root current) := by
  rw [resolve?]
  cases r.anchor with
  | current => rfl
  | root => rfl

theorem Findings.map_value_foldl_visitAll (pick : Value → List (Element × Value))
    (found : List Match) (findings : Findings) :
    (found.foldl (fun findings m => findings.visitAll m (pick m.value)) findings).hits.map
        (·.value) =
      (found.flatMap fun m => (pick m.value).map (·.2)).reverse ++ findings.hits.map (·.value) := by
  induction found generalizing findings with
  | nil => rfl
  | cons m found ih =>
    rw [List.foldl_cons, ih, map_value_visitAll, List.flatMap_cons, List.reverse_append,
      List.append_assoc]

theorem Stage.values_pick (stage : Stage) (step : Step) (pick : Value → List (Element × Value)) :
    (stage.moveTo step (stage.pick pick)).values =
      stage.values.flatMap fun v => (pick v).map (·.2) := by
  have hhits := Findings.map_value_foldl_visitAll pick stage.found ⟨stage.trail, []⟩
  rw [List.map_nil, List.append_nil] at hhits
  rw [values, moveTo, List.map_reverse, Stage.pick, hhits, List.reverse_reverse, values,
    List.flatMap_map]

/-- A selecting step leads from each value to the child that the selector picks. -/
theorem values_advance_select (root : Value) (stage : Stage) (selector : Selector) :
    (advance root stage (.select selector)).values =
      stage.values.flatMap fun v => (selector.child? v).toList := by
  rw [advance, Stage.values_pick]
  simp only [Selector.map_snd_pick]

theorem Selector.flatMap_follow?_cons (selector : Selector) (selectors : List Selector)
    (values : List Value) :
    ((values.flatMap fun v => (selector.child? v).toList).flatMap
        fun w => (follow? selectors w).toList) =
      values.flatMap fun v => (follow? (selector :: selectors) v).toList := by
  rw [List.flatMap_assoc]
  refine List.flatMap_congr fun v _ => ?_
  rw [follow?]
  cases selector.child? v with
  | none => rfl
  | some w => exact List.flatMap_singleton _ w

/-- Selecting steps lead from each value to the one that their selectors lead to. -/
theorem values_run_select (root : Value) (stage : Stage) (selectors : List Selector) :
    (run root stage (selectors.map .select)).values =
      stage.values.flatMap fun v => (Selector.follow? selectors v).toList := by
  induction selectors generalizing stage with
  | nil => exact (List.flatMap_singleton' stage.values).symm
  | cons selector selectors ih =>
    rw [List.map_cons, run, ih, values_advance_select, Selector.flatMap_follow?_cons]

theorem Reference.values_evaluate_path (r : Reference) (root current : Value) :
    (evaluate (r.anchor.start root current) r.path).values =
      (r.resolve? root current).toList := by
  have hrun := values_run_select (r.anchor.start root current)
    (advance (r.anchor.start root current) .start .root) r.selectors
  rw [resolve?_eq]
  exact hrun.trans (List.flatMap_singleton _ _)

/-- The steps are the same, or one is a union of the one selector of the other. -/
inductive Step.SameChoice : Step → Step → Prop where
  | refl (step : Step) : SameChoice step step
  | union (selector : Selector) : SameChoice (.select selector) (.union [selector])

/-- The stages differ in what they report at most. -/
def Stage.Agrees (stage other : Stage) : Prop :=
  stage.trail = other.trail ∧ stage.found = other.found

section Agrees

variable {root : Value} {stage other : Stage}

theorem Stage.Agrees.entries_eq (h : stage.Agrees other) : stage.entries = other.entries := by
  rw [entries, entries, h.1, h.2]

theorem Stage.Agrees.advance (h : stage.Agrees other) {step step' : Step}
    (hstep : step.SameChoice step') :
    (advance root stage step).Agrees (JsonQuery.advance root other step') := by
  obtain ⟨trail, found, events⟩ := stage
  obtain ⟨trail', found', events'⟩ := other
  obtain ⟨rfl, rfl⟩ := h
  cases hstep with
  | refl =>
    cases step <;> exact ⟨rfl, rfl⟩
  | union selector =>
    have hpick : (fun v => [selector].flatMap fun s => s.pick v) = selector.pick := by
      funext v
      exact List.flatMap_singleton _ selector
    rw [JsonQuery.advance, JsonQuery.advance, hpick]
    exact ⟨rfl, rfl⟩

theorem Stage.Agrees.run {path path' : Path} (h : stage.Agrees other)
    (hpath : List.Forall₂ Step.SameChoice path path') :
    (run root stage path).Agrees (JsonQuery.run root other path') := by
  induction hpath generalizing stage other with
  | nil => exact h
  | cons hstep _ ih => exact ih (h.advance hstep)

end Agrees

/-- A union of one selector picks what the selector picks, at any place of a path. -/
theorem entries_evaluate_sameChoice (root : Value) {path path' : Path}
    (hpath : List.Forall₂ Step.SameChoice path path') :
    (evaluate root path).entries = (evaluate root path').entries := by
  have hagrees : (run root .start path).Agrees (run root .start path') :=
    Stage.Agrees.run ⟨rfl, rfl⟩ hpath
  exact hagrees.entries_eq

namespace Words

/-- The child that a selector picks, for a condition. -/
def child? : Selector → Value → Except Fault (Option Value)
  | .index i, .array elements => do
    let place ← place? elements.length i
    return place.bind (elements[·]?)
  | selector, v => .ok (selector.child? v)

/-- The value that selectors lead to, one after the other. -/
def follow? : List Selector → Value → Except Fault (Option Value)
  | [], v => .ok (some v)
  | selector :: selectors, v => do
    match ← child? selector v with
    | some w => follow? selectors w
    | none => return none

/-- The child that a selector picks, for a step. -/
def pick : Selector → Value → Except Fault (List (Element × Value))
  | .index i, .array elements => do
    let place ← place? elements.length i
    return (place.bind fun place => elements[place]?.map (.index place, ·)).toList
  | selector, v => .ok (selector.pick v)

/-- The values that a selector picks from some values in turn. -/
def pickAll (selector : Selector) : List Value → Except Fault (List Value)
  | [] => .ok []
  | v :: values => do
    let picked ← pick selector v
    let more ← pickAll selector values
    return picked.map (·.2) ++ more

/-- The values that selecting steps lead to from some values. -/
def select : List Selector → List Value → Except Fault (List Value)
  | [], values => .ok values
  | selector :: selectors, values => do
    let picked ← pickAll selector values
    select selectors picked

section Agreement

variable {selector : Selector} (hselector : selector.InRange)
include hselector

theorem child?_eq {v : Value} (hv : v.ArraysBelow (2 ^ 63)) :
    child? selector v = .ok (selector.child? v) := by
  cases selector with
  | name k => rfl
  | index i =>
    cases v with
    | array elements =>
      have hlength := hv.self elements rfl
      rw [child?, place?_eq (by omega) hselector]
      rfl
    | _ => rfl

theorem pick_eq {v : Value} (hv : v.ArraysBelow (2 ^ 63)) :
    pick selector v = .ok (selector.pick v) := by
  cases selector with
  | name k => rfl
  | index i =>
    cases v with
    | array elements =>
      have hlength := hv.self elements rfl
      rw [pick, place?_eq (by omega) hselector]
      rfl
    | _ => rfl

theorem pickAll_eq {values : List Value} (hvalues : ∀ v ∈ values, v.ArraysBelow (2 ^ 63)) :
    pickAll selector values = .ok (values.flatMap fun v => (selector.child? v).toList) := by
  induction values with
  | nil => rfl
  | cons v values ih =>
    obtain ⟨hv, hvalues⟩ := List.forall_mem_cons.mp hvalues
    rw [pickAll, pick_eq hselector hv, ih hvalues, List.flatMap_cons, ← Selector.map_snd_pick]
    rfl

end Agreement

section Agreement

variable {selectors : List Selector} (hselectors : ∀ s ∈ selectors, s.InRange)
include hselectors

theorem follow?_eq {v : Value} (hv : v.ArraysBelow (2 ^ 63)) :
    follow? selectors v = .ok (Selector.follow? selectors v) := by
  induction selectors generalizing v with
  | nil => rfl
  | cons selector selectors ih =>
    obtain ⟨hselector, hselectors⟩ := List.forall_mem_cons.mp hselectors
    rw [follow?, Selector.follow?, child?_eq hselector hv]
    cases hchild : selector.child? v with
    | none => rfl
    | some w => exact ih hselectors (hv.part (Selector.mem_parts_of_child? hchild))

theorem select_eq {values : List Value} (hvalues : ∀ v ∈ values, v.ArraysBelow (2 ^ 63)) :
    select selectors values =
      .ok (values.flatMap fun v => (Selector.follow? selectors v).toList) := by
  induction selectors generalizing values with
  | nil => exact congrArg Except.ok (List.flatMap_singleton' values).symm
  | cons selector selectors ih =>
    obtain ⟨hselector, hselectors⟩ := List.forall_mem_cons.mp hselectors
    rw [select, pickAll_eq hselector hvalues]
    have hpicked : ∀ w ∈ values.flatMap (fun v => (selector.child? v).toList),
        w.ArraysBelow (2 ^ 63) := by
      intro w hw
      obtain ⟨v, hv, hchild⟩ := List.mem_flatMap.mp hw
      exact (hvalues v hv).part (Selector.mem_parts_of_child? (Option.mem_toList.mp hchild))
    rw [← Selector.flatMap_follow?_cons]
    exact ih hselectors hpicked

end Agreement

end Words

/-- A reference leads to a value exactly if the path with its selectors matches this value alone,
and it leads nowhere exactly if that path matches nothing: from the root for one kind of reference,
from the value under test for the other. Unions of one selector do not change the matches of the
path. In words neither the lookup nor the search overflows. -/
theorem Reference.resolve?_iff_values_evaluate (r : Reference) (root current : Value) :
    let start := r.anchor.start root current
    (∀ v, r.resolve? root current = some v ↔ (evaluate start r.path).values = [v]) ∧
      (r.resolve? root current = none ↔ (evaluate start r.path).values = []) ∧
      (∀ path, List.Forall₂ Step.SameChoice r.path path →
        (evaluate start path).entries = (evaluate start r.path).entries) ∧
      (start.ArraysBelow (2 ^ 63) → r.WellFormed →
        Words.follow? r.selectors start = .ok (r.resolve? root current) ∧
          Words.select r.selectors [start] = .ok (evaluate start r.path).values) := by
  intro start
  have hvalues : (evaluate start r.path).values = (r.resolve? root current).toList :=
    r.values_evaluate_path root current
  rw [hvalues]
  refine ⟨?_, ?_, ?_, ?_⟩
  · intro v
    exact Option.toList_eq_singleton_iff.symm
  · exact Option.toList_eq_nil_iff.symm
  · intro path hpath
    exact (entries_evaluate_sameChoice start hpath).symm
  · intro hstart hr
    rw [Words.follow?_eq hr hstart, Words.select_eq hr (List.forall_mem_singleton.mpr hstart),
      List.flatMap_singleton, resolve?_eq]
    exact ⟨rfl, rfl⟩

/-- The first element by its index from the end, and the least index of all, which names none. -/
theorem Reference.resolve?_iff_values_evaluate_least :
    let root := Value.object [("a", .array [.boolean true, .null])]
    let first : Reference := ⟨.root, [.name "a", .index (-2)]⟩
    let least : Reference := ⟨.root, [.name "a", .index (-0x8000000000000000)]⟩
    let unions : Path := [.root, .union [.name "a"], .select (.index (-2))]
    (root.ArraysBelow (2 ^ 63) ∧ first.WellFormed ∧ least.WellFormed ∧
        List.Forall₂ Step.SameChoice first.path unions) ∧
      (evaluate root first.path).values = [.boolean true] ∧
      (evaluate root unions).entries = (evaluate root first.path).entries ∧
      Words.follow? first.selectors root = .ok (some (.boolean true)) ∧
      (evaluate root least.path).values = [] ∧
      Words.select least.selectors [root] = .ok [] := by
  intro root first least unions
  have harrays : root.ArraysBelow (2 ^ 63) := by
    have hscalar : ∀ v ∈ [Value.boolean true, .null], v.ArraysBelow (2 ^ 63) := by
      intro v hv
      simp only [List.mem_cons, List.not_mem_nil, or_false] at hv
      rcases hv with rfl | rfl
      · exact .intro nofun nofun
      · exact .intro nofun nofun
    have harray : (Value.array [.boolean true, .null]).ArraysBelow (2 ^ 63) :=
      .intro (by simp) hscalar
    exact .intro nofun (List.forall_mem_singleton.mpr harray)
  have hfirst : first.WellFormed := by
    simp [first, WellFormed, Selector.InRange, Path.InIndexRange]
  have hleast : least.WellFormed := by
    simp [least, WellFormed, Selector.InRange, Path.InIndexRange]
  have hunions : List.Forall₂ Step.SameChoice first.path unions :=
    .cons (.refl _) (.cons (.union _) (.cons (.refl _) .nil))
  have hsome : first.resolve? root root = some (.boolean true) := rfl
  have hnone : least.resolve? root root = none := rfl
  obtain ⟨hvalues, -, hentries, hwords⟩ := first.resolve?_iff_values_evaluate root root
  obtain ⟨-, hempty, -, hwords'⟩ := least.resolve?_iff_values_evaluate root root
  have hnothing := hempty.mp hnone
  rw [hsome] at hwords
  have hselect := (hwords' harrays hleast).2
  rw [hnothing] at hselect
  exact ⟨⟨harrays, hfirst, hleast, hunions⟩, (hvalues _).mp hsome, hentries unions hunions,
    (hwords harrays hfirst).1, hnothing, hselect⟩

end JsonQuery
