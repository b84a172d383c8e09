import JsonQuery.Answer
import JsonQuery.Proofs.Json.Writing
import JsonQuery.Proofs.Selection.Singular

/-!
What the text of an answer denotes. An answer is a JSON text: the matched value alone where the
query is singular and matches, and otherwise an array with one element for each match. The answer
to the query for the root is a text that the same query leaves as it is.
-/

namespace JsonQuery

theorem Json.sound_of_parse {document : List Char} {root : Value}
    (h : Json.parse document = .ok root) : Sound root :=
  (documentText_of_parse h).sound

/-- Every match of a query is as sound as the document. -/
theorem sound_of_mem_entries {root : Value} (h : Json.Sound root) (path : Path) {n : Node}
    (hn : n ∈ (evaluate root path).entries) : Json.Sound n.2 := by
  rw [(shows_evaluate h.keys path).entries_eq] at hn
  refine forall_select (P := fun n => Json.Sound n.2) ?_ h (by simp) path n hn
  intro n hn c hc
  exact hn.part (Value.mem_parts_of_mem_children hc)

theorem Stage.values_eq (stage : Stage) : stage.values = stage.entries.map (·.2) := by
  rw [values, entries, List.map_map]
  rfl

theorem answer_eq {query document : List Char} {path : Path} {root : Value}
    (hq : Path.parse query = .ok path) (hd : Json.parse document = .ok root) (style : Style) :
    (answer style query document).2 = .ok (writeReport style path (evaluate root path)) := by
  simp only [answer, hq, hd]

theorem writeValues_eq_writeArray {layout : Layout} {path : Path} {values : List Value}
    (h : ¬ (path.singular = true ∧ values.length = 1)) :
    writeValues layout path values = Value.writeArray layout values := by
  unfold writeValues
  split
  · rw [if_neg fun hsingular => h ⟨hsingular, rfl⟩]
  · rfl

/-- One value that a singular query found is written alone, and everything else as an array. -/
theorem parse_writeValues (layout : Layout) (path : Path) {values : List Value}
    (h : ∀ v ∈ values, Json.Sound v) :
    (∀ v, path.singular = true → values = [v] →
      Json.parse (writeValues layout path values).toList = .ok v.asWritten) ∧
      (¬ (path.singular = true ∧ values.length = 1) →
        Json.parse (writeValues layout path values).toList =
          .ok (.array (values.map Value.asWritten))) := by
  refine ⟨fun v hsingular hvalues => ?_, fun hmany => ?_⟩
  · subst hvalues
    rw [writeValues, if_pos hsingular]
    exact Value.parse_write (h v (List.mem_singleton_self v)) layout
  · rw [writeValues_eq_writeArray hmany, Value.parse_writeArray h]

theorem parse_writeLocations (layout : Layout) (locations : List Location) :
    Json.parse (writeLocations layout locations).toList =
      .ok (.array (locations.map fun l => .string (String.ofList l.text))) := by
  have hsound : ∀ v ∈ locations.map fun l => Value.string (String.ofList l.text),
      Json.Sound v := by
    intro v hv
    obtain ⟨l, -, rfl⟩ := List.mem_map.mp hv
    exact sound_string _
  rw [writeLocations, Value.parse_writeArray hsound, List.map_map]
  rfl

def rootQuery : List Char := ['$']

theorem parse_rootQuery : Path.parse rootQuery = .ok [.root] := by
  have hquery : Text.skipBlank rootQuery = ['$'] := rfl
  have hsteps : ∀ within, Path.steps within false [] [] = .ok ([], []) := by
    intro within
    rw [Path.steps.eq_def]
    rfl
  simp only [Path.parse, Path.parseWithin, hquery, hsteps, bind, Except.bind, pure, Except.pure]

theorem answer_rootQuery {document : List Char} {root : Value}
    (hd : Json.parse document = .ok root) (layout : Layout) :
    (answer ⟨layout, .values⟩ rootQuery document).2 = .ok (root.write layout) :=
  answer_eq parse_rootQuery hd _

/-- A written value is read back equal, with the members of every object in the same order and only
the sign of zero gone, and is then written as the same text. So the answer to the query for the
root is a text that this query leaves as it is. -/
theorem parse_write_canonical (layout : Layout) :
    (∀ v : Value, v.KeysDistinct → v.NumbersFinite →
      Json.parse (v.write layout).toList = .ok v.asWritten ∧ v.same v.asWritten = true ∧
        v.asWritten.write layout = v.write layout) ∧
      ∀ (document : List Char) (root : Value), Json.parse document = .ok root →
        ∃ out, (answer ⟨layout, .values⟩ rootQuery document).2 = .ok out ∧
          (answer ⟨layout, .values⟩ rootQuery out.toList).2 = .ok out := by
  refine ⟨fun v hkeys hfinite => ?_, fun document root hd => ?_⟩
  · exact ⟨Value.parse_write ⟨hkeys, hfinite⟩ layout, Value.same_asWritten hkeys hfinite,
      v.write_asWritten layout⟩
  · have hagain := answer_rootQuery (Value.parse_write (Json.sound_of_parse hd) layout) layout
    rw [Value.write_asWritten] at hagain
    exact ⟨root.write layout, answer_rootQuery hd layout, hagain⟩

/-- A negative zero in an array, beside an object whose members are out of alphabetical order. -/
theorem parse_write_canonical_negative_zero :
    let v := Value.array [.number ⟨true, 0, by decide⟩, .object [("b", .null), ("a", .array [])]]
    (v.KeysDistinct ∧ v.NumbersFinite) ∧
      Json.parse (v.write (.indented 2)).toList =
        .ok (.array [.number .zero, .object [("b", .null), ("a", .array [])]]) := by
  intro v
  have hkeys : v.KeysDistinct := by
    simp [v, Value.KeysDistinct, Value.ElementKeysDistinct, Value.MemberKeysDistinct]
  have hfinite : v.NumbersFinite := by
    refine (Json.sound_array ?_).finite
    simp only [List.forall_mem_cons, List.not_mem_nil, false_implies, implies_true, and_true]
    refine ⟨⟨trivial, .intro ?_ (by simp [Value.parts])⟩, Json.sound_object (by decide) ?_⟩
    · rintro _ ⟨⟩
      decide
    · simp [sound_null, Json.sound_array]
  exact ⟨⟨hkeys, hfinite⟩, ((parse_write_canonical (.indented 2)).1 v hkeys hfinite).1⟩

/-- What the answers to a query denote. Values: the one match alone where the query is singular and
has one, and otherwise the array of all matches in order. Locations: the array of their normalized
paths in the same order. A singular query has one match at most, and every match is denoted by a
value that is equal to it. -/
theorem parse_answer {query document : List Char} {path : Path} {root : Value}
    (hq : Path.parse query = .ok path) (hd : Json.parse document = .ok root) (layout : Layout) :
    let found := (evaluate root path).entries
    (path.singular = true → found.length ≤ 1) ∧
      (∃ out, (answer ⟨layout, .values⟩ query document).2 = .ok out ∧
        (∀ n, path.singular = true → found = [n] →
          Json.parse out.toList = .ok n.2.asWritten) ∧
        (¬ (path.singular = true ∧ found.length = 1) →
          Json.parse out.toList = .ok (.array (found.map (·.2.asWritten))))) ∧
      (∃ out, (answer ⟨layout, .locations⟩ query document).2 = .ok out ∧
        Json.parse out.toList =
          .ok (.array (found.map fun n => .string (String.ofList (Location.text n.1))))) ∧
      ∀ n ∈ found, n.2.same n.2.asWritten = true := by
  intro found
  have hroot := Json.sound_of_parse hd
  have hfound : ∀ n ∈ found, Json.Sound n.2 := fun n hn => sound_of_mem_entries hroot path hn
  have hsound : ∀ v ∈ found.map (·.2), Json.Sound v := List.forall_mem_map.mpr hfound
  have hvalues : (evaluate root path).values = found.map (·.2) := Stage.values_eq _
  obtain ⟨hone, hmany⟩ := parse_writeValues layout path hsound
  refine ⟨length_entries_le hroot.keys, ⟨_, answer_eq hq hd _, ?_, ?_⟩,
    ⟨_, answer_eq hq hd _, ?_⟩, fun n hn => ?_⟩
  · intro n hsingular hn
    rw [writeReport, hvalues]
    exact hone n.2 hsingular (by rw [hn, List.map_singleton])
  · intro hsome
    rw [writeReport, hvalues]
    simp only [hmany (by rwa [List.length_map]), List.map_map]
    rfl
  · rw [writeReport]
    simp only [parse_writeLocations, List.map_map]
    rfl
  · exact Value.same_asWritten (hfound n hn).keys (hfound n hn).finite

/-- All members of an object, in order. -/
theorem parse_answer_wildcard :
    let query := "$.*".toList
    let document := "\x7b\"b\":[true],\"a\":null\x7d".toList
    let root := Value.object [("b", .array [.boolean true]), ("a", .null)]
    (Path.parse query = .ok [.root, .wildcard] ∧ Json.parse document = .ok root) ∧
      ∃ out, (answer ⟨.indented 2, .values⟩ query document).2 = .ok out ∧
        Json.parse out.toList = .ok (.array [.array [.boolean true], .null]) := by
  intro query document root
  have hq : Path.parse query = .ok [.root, .wildcard] := by
    have hquery : Text.skipBlank query = ['$', '.', '*'] := by cbv
    have hsteps : ∀ within, Path.steps within false [] ['.', '*'] = .ok ([.wildcard], []) := by
      intro within
      cbv
    simp only [Path.parse, Path.parseWithin, hquery, hsteps, bind, Except.bind, pure, Except.pure]
  have hd : Json.parse document = .ok root := by
    have hroot : Json.Sound root := Json.sound_object (by simp) (by
      simp [sound_null, Json.sound_array, sound_boolean])
    have htext : document = root.text .compact := by decide
    rw [htext, Value.parse_text hroot]
    rfl
  obtain ⟨-, ⟨out, hout, -, hmany⟩, -, -⟩ := parse_answer hq hd (.indented 2)
  exact ⟨⟨hq, hd⟩, out, hout, hmany (by decide)⟩

end JsonQuery
