import JsonQuery.Proofs.Number.Written
import JsonQuery.Proofs.Toml.Reading
import JsonQuery.Settings.Basic

/-!
Settings as TOML. A document of assignments gives the settings that it assigns and the usual ones
for the rest, and settings are written as a document that gives them.
-/

namespace JsonQuery.Settings

open Toml

/-- How the value of a setting comes about: it is assigned to the key of the setting, or no key
that is assigned to begins with that key, and the value is the usual one. -/
inductive Given {α : Type} (assigned : List Assignment) (key : String) (item : α → Item)
    (usual : α) : α → Prop where
  | assigned {value : α} (h : ⟨⟨[], key⟩, item value⟩ ∈ assigned) :
      Given assigned key item usual value
  | usual (h : ∀ a ∈ assigned, a.key.keys.head? ≠ some key) : Given assigned key item usual usual

def natural (n : Nat) : Item := .integer n

/-- Assignments give settings. -/
structure GivenBy (assigned : List Assignment) (settings : Settings) : Prop where
  pretty : Given assigned "pretty" .boolean false settings.pretty
  indentSize : Given assigned "indent_size" natural 2 settings.indentSize
  trailingNewline : Given assigned "trailing_newline" .boolean true settings.trailingNewline
  showPaths : Given assigned "show_paths" .boolean false settings.showPaths

/-- What a member is after assignments. -/
theorem Given.find?_eq {α : Type} {assigned : List Assignment} {key : String} {item : α → Item}
    {usual value : α} {members : Members} (h : Given assigned key item usual value)
    (hothers : (∀ a ∈ assigned, a.key.keys.head? ≠ some key) → Keyed.find? key members = none)
    (hassigned : ∀ item, ⟨⟨[], key⟩, item⟩ ∈ assigned → Keyed.find? key members = some item) :
    Keyed.find? key members = some (item value) ∨ Keyed.find? key members = none ∧ value = usual := by
  cases h with
  | assigned h => exact .inl (hassigned _ h)
  | usual h => exact .inr ⟨hothers h, rfl⟩

theorem boolean?_eq {key : String} {usual value : Bool} {members : Members}
    (h : Keyed.find? key members = some (.boolean value) ∨ Keyed.find? key members = none ∧ value = usual) :
    boolean? key usual members = some value := by
  rcases h with h | ⟨h, rfl⟩
  · rw [boolean?, h]
  · rw [boolean?, h]

theorem natural?_eq {key : String} {usual value : Nat} {members : Members}
    (h : Keyed.find? key members = some (natural value) ∨ Keyed.find? key members = none ∧ value = usual) :
    natural? key usual members = some value := by
  rcases h with h | ⟨h, rfl⟩
  · simp [natural?, h, natural]
  · rw [natural?, h]

theorem ofText?_eq {text : List Char} {assigned : List Assignment} {settings : Settings}
    (htext : DocumentText text assigned)
    (hapart : assigned.Pairwise fun a b => a.key.Apart b.key) (h : GivenBy assigned settings) :
    ofText? text = some settings := by
  obtain ⟨members, hmembers, hothers, hassigned⟩ :=
    Members.exists_assignAll? (fun a _ => Members.free_keys_nil a.key) hapart
  have hpretty := boolean?_eq (h.pretty.find?_eq (hothers _) (hassigned _))
  have hindent := natural?_eq (h.indentSize.find?_eq (hothers _) (hassigned _))
  have hnewline := boolean?_eq (h.trailingNewline.find?_eq (hothers _) (hassigned _))
  have hpaths := boolean?_eq (h.showPaths.find?_eq (hothers _) (hassigned _))
  simp only [ofText?, htext.parse?_eq, hmembers, ofMembers?, hpretty, hindent, hnewline, hpaths,
    Option.bind_eq_bind, Option.bind_some, Option.pure_def]

/-- What the lines of settings assign. -/
def assignments (settings : Settings) : List Assignment :=
  [⟨⟨[], "pretty"⟩, .boolean settings.pretty⟩, ⟨⟨[], "indent_size"⟩, natural settings.indentSize⟩,
    ⟨⟨[], "trailing_newline"⟩, .boolean settings.trailingNewline⟩,
    ⟨⟨[], "show_paths"⟩, .boolean settings.showPaths⟩]

theorem givenBy_assignments (settings : Settings) : GivenBy settings.assignments settings where
  pretty := .assigned (by simp [assignments])
  indentSize := .assigned (by simp [assignments])
  trailingNewline := .assigned (by simp [assignments])
  showPaths := .assigned (by simp [assignments])

theorem apart_assignments (settings : Settings) :
    settings.assignments.Pairwise fun a b => a.key.Apart b.key := by
  simp [assignments, DottedKey.Apart, DottedKey.keys]

theorem groupedText_of_isDigits {ds : List Char} (h : Text.IsDigits ds) :
    GroupedText Char.isDigit ds ds := by
  obtain ⟨hne, hall⟩ := h
  induction ds with
  | nil => exact absurd rfl hne
  | cons d ds ih =>
    have hd := hall d List.mem_cons_self
    cases ds with
    | nil => exact .last hd
    | cons d' ds =>
      exact .next hd (ih (List.cons_ne_nil d' ds) fun c hc => hall c (List.mem_cons_of_mem d hc))

theorem scalarText_natural {n : Nat} (h : n < integerBound) :
    ScalarText (Text.ofNat n) (natural n) := by
  have hvalue : Text.signed false (Text.natOfDigits (Text.ofNat n)) = n := by
    rw [Text.natOfDigits_ofNat]
    rfl
  have hn : InRange (Text.signed false (Text.natOfDigits (Text.ofNat n))) := by
    rw [hvalue]
    exact ⟨le_trans (by decide) (Int.natCast_nonneg n), h⟩
  have hwhole : WholeText (Text.ofNat n) (Text.ofNat n) :=
    ⟨groupedText_of_isDigits (Text.isDigits_ofNat n),
      (Numeral.isWhole_ofNat n).imp_right And.right⟩
  have hinteger := IntegerText.decimal .none hwhole hn
  rw [hvalue] at hinteger
  exact .integer hinteger

theorem scalarText_boolean (b : Bool) : ScalarText (booleanText b).toList (.boolean b) := by
  cases b with
  | true => exact .trueWord
  | false => exact .falseWord

theorem plainKeyText_bare (key : String) (hne : key.toList ≠ [])
    (hbare : ∀ c ∈ key.toList, isBare c = true) : PlainKeyText key.toList key := by
  have hkey := PlainKeyText.bare hne hbare
  rwa [String.ofList_toList] at hkey

theorem linesText_lineOf {key value : String} {item : Item} {text : List Char}
    {assigned : List Assignment} (hplain : PlainKeyText key.toList key)
    (hvalue : ScalarText value.toList item) (ht : LinesText text assigned) :
    LinesText ((lineOf key value).toList ++ text) (⟨⟨[], key⟩, item⟩ :: assigned) := by
  have hspace : Spaces [' '] := by simp [Spaces, isSpace]
  have hkey : KeyText (key.toList ++ [' ']) ⟨[], key⟩ := .mk hplain (.nil hspace) (by decide)
  have hline : LineText ([] ++ (_ ++ [])) [⟨⟨[], key⟩, item⟩] :=
    .assignment spaces_nil (.mk hkey hspace (hvalue.item maxDepth)) (.space spaces_nil)
  have hlines := LinesText.cons hline .feed ht
  have htext : (lineOf key value).toList ++ text =
      [] ++ ((key.toList ++ [' ']) ++ '=' :: ([' '] ++ value.toList) ++ []) ++ (['\n'] ++ text) := by
    simp [lineOf]
  rw [htext]
  exact hlines

theorem documentText_of_text? {settings : Settings} {text : String}
    (h : settings.text? = some text) : DocumentText text.toList settings.assignments := by
  unfold text? at h
  split at h
  · rename_i hn
    cases h
    have hend : LinesText [] [] := .last (.blank (.space spaces_nil))
    have hindent : ScalarText (String.ofList (Text.ofNat settings.indentSize)).toList
        (natural settings.indentSize) := by
      rw [String.toList_ofList]
      exact scalarText_natural hn
    have hpaths := linesText_lineOf (plainKeyText_bare "show_paths" (by simp) (by simp [isBare]))
      (scalarText_boolean settings.showPaths) hend
    have hnewline := linesText_lineOf
      (plainKeyText_bare "trailing_newline" (by simp) (by simp [isBare]))
      (scalarText_boolean settings.trailingNewline) hpaths
    have hindent := linesText_lineOf (plainKeyText_bare "indent_size" (by simp) (by simp [isBare]))
      hindent hnewline
    have hpretty := linesText_lineOf (plainKeyText_bare "pretty" (by simp) (by simp [isBare]))
      (scalarText_boolean settings.pretty) hindent
    apply DocumentText.plain
    simpa [assignments] using hpretty
  · cases h

theorem ofText?_text? {settings : Settings} {text : String} (h : settings.text? = some text) :
    ofText? text.toList = some settings :=
  ofText?_eq (documentText_of_text? h) (apart_assignments settings) (givenBy_assignments settings)

theorem text?_eq_none_iff (settings : Settings) :
    settings.text? = none ↔ integerBound ≤ settings.indentSize := by
  unfold text?
  split
  · rename_i h
    simp [h]
  · rename_i h
    simpa using h

end JsonQuery.Settings
