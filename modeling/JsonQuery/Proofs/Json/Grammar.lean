import JsonQuery.Json.Document
import JsonQuery.Proofs.Number.Grammar
import JsonQuery.Proofs.Text.Quoted
import JsonQuery.Proofs.Value.Members
import JsonQuery.Proofs.Value.Parts

/-!
The grammar of JSON texts (RFC 8259), each text with the value that it denotes. Only space, tab,
line feed and carriage return are white space, and every number is finite. The values of the
grammar have distinct keys and finite numbers.
-/

namespace JsonQuery.Json

/-- White space, if any. -/
def Spaces (s : List Char) : Prop := ∀ c ∈ s, c = ' ' ∨ c = '\n' ∨ c = '\r' ∨ c = '\t'

theorem isSpace_iff {c : Char} :
    isSpace c = true ↔ c = ' ' ∨ c = '\n' ∨ c = '\r' ∨ c = '\t' := by
  simp only [isSpace, Bool.or_eq_true, beq_iff_eq, or_assoc]

theorem Spaces.isSpace {s : List Char} (h : Spaces s) : ∀ c ∈ s, isSpace c = true :=
  fun c hc => isSpace_iff.mpr (h c hc)

theorem spaces_nil : Spaces [] := fun _ h => by cases h

theorem spaces_append {p q : List Char} (hp : Spaces p) (hq : Spaces q) : Spaces (p ++ q) :=
  List.forall_mem_append.mpr ⟨hp, hq⟩

/-- The texts of values without members. -/
inductive ScalarText : List Char → Value → Prop where
  | nullWord : ScalarText "null".toList .null
  | trueWord : ScalarText "true".toList (.boolean true)
  | falseWord : ScalarText "false".toList (.boolean false)
  | number {s : List Char} {n : Numeral} (hs : n.NumeralText s) (hn : n.number.IsFinite) :
      ScalarText s (.number n.number)
  | string {s : List Char} {value : String} (hs : StringText s value) :
      ScalarText s (.string value)

mutual

/-- The texts of a value, without white space around them. -/
inductive ValueText : List Char → Value → Prop where
  | scalar {s : List Char} {v : Value} (hs : ScalarText s v) : ValueText s v
  | emptyArray {p : List Char} (hp : Spaces p) : ValueText ('[' :: (p ++ [']'])) (.array [])
  | array {s t : List Char} {v : Value} {elements : List Value} (hs : PaddedText s v)
      (ht : MoreElements t elements) :
      ValueText ('[' :: (s ++ (t ++ [']']))) (.array (v :: elements))
  | emptyObject {p : List Char} (hp : Spaces p) : ValueText ('{' :: (p ++ ['}'])) (.object [])
  | object {s t : List Char} {m : String × Value} {members : List (String × Value)}
      (hs : MemberText s m) (ht : MoreMembers t members) :
      ValueText ('{' :: (s ++ (t ++ ['}']))) (.object (Value.merged (m :: members)))

/-- A value with white space around it. -/
inductive PaddedText : List Char → Value → Prop where
  | mk {p s q : List Char} {v : Value} (hp : Spaces p) (hs : ValueText s v) (hq : Spaces q) :
      PaddedText (p ++ (s ++ q)) v

inductive MoreElements : List Char → List Value → Prop where
  | nil : MoreElements [] []
  | cons {s t : List Char} {v : Value} {elements : List Value} (hs : PaddedText s v)
      (ht : MoreElements t elements) : MoreElements (',' :: (s ++ t)) (v :: elements)

/-- A key, a colon and a value, with white space around each. -/
inductive MemberText : List Char → String × Value → Prop where
  | mk {p s q t : List Char} {key : String} {v : Value} (hp : Spaces p) (hs : StringText s key)
      (hq : Spaces q) (ht : PaddedText t v) : MemberText (p ++ (s ++ (q ++ ':' :: t))) (key, v)

inductive MoreMembers : List Char → List (String × Value) → Prop where
  | nil : MoreMembers [] []
  | cons {s t : List Char} {m : String × Value} {members : List (String × Value)}
      (hs : MemberText s m) (ht : MoreMembers t members) :
      MoreMembers (',' :: (s ++ t)) (m :: members)

end

/-- The texts of a document: one value. -/
def DocumentText : List Char → Value → Prop := PaddedText

/-- No object has a key twice and every number is finite. -/
structure Sound (v : Value) : Prop where
  keys : v.KeysDistinct
  finite : v.NumbersFinite

theorem Sound.part {v w : Value} (h : Sound v) (hw : w ∈ v.parts) : Sound w :=
  ⟨h.keys.part hw, h.finite.part hw⟩

theorem sound_array {elements : List Value} (h : ∀ v ∈ elements, Sound v) :
    Sound (.array elements) where
  keys := (Value.keysDistinct_iff _).mpr ⟨by simp, fun v hv => (h v hv).keys⟩
  finite := .intro (by simp) fun v hv => (h v hv).finite

theorem sound_object {members : List (String × Value)} (hkeys : (members.map (·.1)).Nodup)
    (h : ∀ m ∈ members, Sound m.2) : Sound (.object members) := by
  have hparts : ∀ v ∈ (Value.object members).parts, Sound v := by
    intro v hv
    obtain ⟨m, hm, rfl⟩ := List.mem_map.mp hv
    exact h m hm
  refine ⟨(Value.keysDistinct_iff _).mpr ⟨?_, fun v hv => (hparts v hv).keys⟩,
    .intro (by simp) fun v hv => (hparts v hv).finite⟩
  rintro _ ⟨⟩
  exact hkeys

theorem Sound.of_array {elements : List Value} (h : Sound (.array elements)) :
    ∀ v ∈ elements, Sound v :=
  fun _ hv => h.part hv

theorem Sound.of_object {members : List (String × Value)} (h : Sound (.object members)) :
    ∀ m ∈ members, Sound m.2 :=
  fun _ hm => h.part (List.mem_map_of_mem hm)

theorem sound_merged {members : List (String × Value)} (h : ∀ m ∈ members, Sound m.2) :
    Sound (.object (Value.merged members)) :=
  sound_object (Value.nodup_merged members) fun m hm => h m (Value.mem_of_mem_merged hm)

theorem sound_number {x : Number} (hx : x.IsFinite) : Sound (.number x) :=
  ⟨trivial, .intro (by simpa using hx) (by simp [Value.parts])⟩

theorem ScalarText.sound {s : List Char} {v : Value} (h : ScalarText s v) : Sound v := by
  cases h with
  | number _ hn => exact sound_number hn
  | _ => exact ⟨trivial, .intro (by simp) (by simp [Value.parts])⟩

mutual

theorem ValueText.sound {s : List Char} {v : Value} : ValueText s v → Sound v
  | .scalar hs => hs.sound
  | .emptyArray _ => sound_array (by simp)
  | .array hs ht => sound_array (List.forall_mem_cons.mpr ⟨hs.sound, ht.sound⟩)
  | .emptyObject _ => sound_object (by simp) (by simp)
  | .object hs ht => sound_merged
      ((List.forall_mem_cons (p := fun m : String × Value => Sound m.2)).mpr ⟨hs.sound, ht.sound⟩)

theorem PaddedText.sound {s : List Char} {v : Value} : PaddedText s v → Sound v
  | .mk _ hs _ => hs.sound

theorem MoreElements.sound {s : List Char} {elements : List Value} :
    MoreElements s elements → ∀ v ∈ elements, Sound v
  | .nil => by simp
  | .cons hs ht => List.forall_mem_cons.mpr ⟨hs.sound, ht.sound⟩

theorem MemberText.sound {s : List Char} {m : String × Value} : MemberText s m → Sound m.2
  | .mk _ _ _ ht => ht.sound

theorem MoreMembers.sound {s : List Char} {members : List (String × Value)} :
    MoreMembers s members → ∀ m ∈ members, Sound m.2
  | .nil => by simp
  | .cons hs ht =>
    (List.forall_mem_cons (p := fun m : String × Value => Sound m.2)).mpr ⟨hs.sound, ht.sound⟩

end

end JsonQuery.Json

namespace JsonQuery

theorem sound_string (s : String) : Json.Sound (.string s) :=
  (Json.ScalarText.string (Json.stringText_jsonString s)).sound

theorem sound_boolean (b : Bool) : Json.Sound (.boolean b) := by
  cases b
  · exact Json.ScalarText.falseWord.sound
  · exact Json.ScalarText.trueWord.sound

theorem sound_null : Json.Sound .null := Json.ScalarText.nullWord.sound

end JsonQuery
