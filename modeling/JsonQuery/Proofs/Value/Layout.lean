import JsonQuery.Proofs.Json.Writing

/-!
Writing from pending pieces is a loop that takes the first piece, writes what it can of it and
leaves the rest pending in its place. The loop ends, and has then appended the text that recursion
gives. Layouts differ in white space alone, and only outside strings.
-/

namespace JsonQuery

open Json

namespace Value

/-- What one turn of the loop writes of a piece, and what it leaves pending in its place. -/
def Piece.turn (layout : Layout) : Piece → List Char × List Piece
  | chars cs => (cs, [])
  | lineBreak depth => (layout.lineBreak depth, [])
  | key name => (Text.jsonString name ++ layout.colon, [])
  | value (.array (v :: elements)) depth =>
    (['['], lineBreak (depth + 1) :: value v (depth + 1) ::
      (morePieces (depth + 1) elements ++ closing depth ']'))
  | value (.object ((k, v) :: members)) depth =>
    (['{'], lineBreak (depth + 1) :: key k :: value v (depth + 1) ::
      (moreMemberPieces (depth + 1) members ++ closing depth '}'))
  | value v depth => (v.textAt layout depth, [])

/-- What `out` has become when nothing is pending any more, if that is so after the given number of
turns. -/
def turns (layout : Layout) : Nat → String → List Piece → Option String
  | _, out, [] => some out
  | 0, _, _ :: _ => none
  | n + 1, out, piece :: work =>
    turns layout n (out ++ String.ofList (piece.turn layout).1) ((piece.turn layout).2 ++ work)

/-- One turn keeps the text that is written or pending. -/
theorem Piece.text_turn (layout : Layout) (piece : Piece) :
    (piece.turn layout).1 ++ (piece.turn layout).2.flatMap (Piece.text layout) =
      piece.text layout := by
  unfold turn
  split <;> simp [Piece.text, textAt, closing, text_morePieces, text_moreMemberPieces]

theorem Piece.weight_turn (layout : Layout) (piece : Piece) :
    pendingWeight (piece.turn layout).2 < piece.weight := by
  unfold turn
  split
  case h_4 | h_5 =>
    simp [Piece.weight, closing, Value.weight, elementsWeight, membersWeight,
      pendingWeight_morePieces, pendingWeight_moreMemberPieces]
    omega
  all_goals simp [Piece.weight, weight_pos]

theorem writePieces_eq (layout : Layout) (out : String) (work : List Piece) :
    writePieces layout out work = out ++ String.ofList (work.flatMap (Piece.text layout)) := by
  rw [← String.toList_inj, toList_writePieces, String.toList_append, String.toList_ofList]

theorem writePieces_turn (layout : Layout) (out : String) (piece : Piece) (work : List Piece) :
    writePieces layout (out ++ String.ofList (piece.turn layout).1)
        ((piece.turn layout).2 ++ work) =
      writePieces layout out (piece :: work) := by
  rw [writePieces_eq, writePieces_eq, List.flatMap_append, List.flatMap_cons,
    ← piece.text_turn layout, String.append_assoc, ← String.ofList_append, List.append_assoc]

theorem turns_eq {layout : Layout} {n : Nat} {out : String} {work : List Piece}
    (h : pendingWeight work ≤ n) :
    turns layout n out work = some (writePieces layout out work) := by
  -- every turn takes from the weight of what is pending, so the turns cannot run out before it
  induction n generalizing out work with
  | zero =>
    cases work with
    | nil => rw [turns, writePieces]
    | cons piece work =>
      have hturn := piece.weight_turn layout
      rw [pendingWeight_cons] at h
      omega
  | succ n ih =>
    cases work with
    | nil => rw [turns, writePieces]
    | cons piece work =>
      have hturn := piece.weight_turn layout
      rw [pendingWeight_cons] at h
      rw [turns, ih (by rw [pendingWeight_append]; omega), writePieces_turn]

theorem writeTo_eq (layout : Layout) (out : String) (v : Value) :
    v.writeTo layout out = out ++ String.ofList (v.text layout) := by
  rw [← String.toList_inj, toList_writeTo, String.toList_append, String.toList_ofList]

theorem turns_value (layout : Layout) (out : String) (v : Value) (n : Nat) :
    turns layout (v.weight + n) out [.value v 0] = some (v.writeTo layout out) :=
  turns_eq (by simp [Piece.weight])

theorem writeArrayTo_eq (layout : Layout) (out : String) (elements : List Value) :
    writeArrayTo layout out elements = (array elements).writeTo layout out := by
  rw [← String.toList_inj, toList_writeArrayTo, toList_writeTo]

/-- A text on a line of its own. -/
def onLine (width depth : Nat) (text : List Char) : List Char :=
  '\n' :: (List.replicate (width * depth) ' ' ++ text)

/-- The text of a container: its items each on a line, one deeper than the container and with commas
between them, and the closing bracket on a line of its own. -/
def block (width depth : Nat) (left right : Char) (items : List (List Char)) : List Char :=
  left :: ([','].intercalate (items.map (onLine width (depth + 1))) ++ onLine width depth [right])

/-- A member: its key, a colon, a blank and its value. -/
def memberItem (width depth : Nat) (m : String × Value) : List Char :=
  Text.jsonString m.1 ++ (": ".toList ++ m.2.textAt (.indented width) depth)

theorem intercalate_comma (item : List Char) (items : List (List Char)) :
    [','].intercalate (item :: items) = item ++ items.flatMap (',' :: ·) := by
  induction items generalizing item with
  | nil => simp
  | cons next items ih => simp [ih]

theorem textAt_array_indented (width depth : Nat) (v : Value) (elements : List Value) :
    (array (v :: elements)).textAt (.indented width) depth =
      block width depth '[' ']' ((v :: elements).map (textAt (.indented width) (depth + 1))) := by
  have hmore : moreElements (.indented width) (depth + 1) elements =
      ((elements.map (textAt (.indented width) (depth + 1))).map
        (onLine width (depth + 1))).flatMap (',' :: ·) := by
    induction elements with
    | nil => rfl
    | cons w elements ih => simp [moreElements, ih, onLine, Layout.lineBreak]
  rw [textAt, hmore, block, List.map_cons, List.map_cons, intercalate_comma]
  simp [onLine, Layout.lineBreak]

theorem textAt_object_indented (width depth : Nat) (m : String × Value)
    (members : List (String × Value)) :
    (object (m :: members)).textAt (.indented width) depth =
      block width depth '{' '}' ((m :: members).map (memberItem width (depth + 1))) := by
  have hmore : moreMembers (.indented width) (depth + 1) members =
      ((members.map (memberItem width (depth + 1))).map
        (onLine width (depth + 1))).flatMap (',' :: ·) := by
    induction members with
    | nil => rfl
    | cons n members ih =>
      simp [moreMembers, ih, memberItem, onLine, Layout.lineBreak, Layout.colon]
  rw [textAt, hmore, block, List.map_cons, List.map_cons, intercalate_comma]
  simp [memberItem, onLine, Layout.lineBreak, Layout.colon]

end Value

mutual

/-- The text without the white space that stands outside strings. -/
def withoutSpaces : List Char → List Char
  | [] => []
  | c :: text =>
    if c = '"' then c :: withinString text
    else if isSpace c then withoutSpaces text
    else c :: withoutSpaces text

/-- The same behind an opening quote. A backslash takes the next character with it. -/
def withinString : List Char → List Char
  | '\\' :: c :: text => '\\' :: c :: withinString text
  | c :: text => c :: (if c = '"' then withoutSpaces text else withinString text)
  | [] => []

end

/-- Without white space, `s` is `t` in front of every text. -/
def Strips (s t : List Char) : Prop :=
  ∀ rest, withoutSpaces (s ++ rest) = t ++ withoutSpaces rest

theorem Strips.append {s t s' t' : List Char} (h : Strips s t) (h' : Strips s' t') :
    Strips (s ++ s') (t ++ t') := fun rest => by
  rw [List.append_assoc, h, h', List.append_assoc]

theorem strips_spaces {s : List Char} (h : Spaces s) : Strips s [] := by
  intro rest
  induction s with
  | nil => rfl
  | cons c s ih =>
    obtain ⟨hc, hs⟩ := List.forall_mem_cons.mp h
    have hspace : isSpace c = true := isSpace_iff.mpr hc
    have hquote : c ≠ '"' := by
      rintro rfl
      cases hspace
    rw [List.cons_append, withoutSpaces, if_neg hquote, if_pos hspace, ih hs]

/-- Characters that are neither white space nor quotes. -/
def Solid (s : List Char) : Prop := ∀ c ∈ s, c ≠ '"' ∧ isSpace c = false

@[simp] theorem solid_nil : Solid [] := fun _ h => by cases h

@[simp] theorem solid_cons {c : Char} {s : List Char} :
    Solid (c :: s) ↔ (c ≠ '"' ∧ isSpace c = false) ∧ Solid s :=
  List.forall_mem_cons

theorem Solid.append {s t : List Char} (hs : Solid s) (ht : Solid t) : Solid (s ++ t) :=
  List.forall_mem_append.mpr ⟨hs, ht⟩

theorem Solid.strips {s : List Char} (h : Solid s) : Strips s s := by
  intro rest
  induction s with
  | nil => rfl
  | cons c s ih =>
    obtain ⟨hc, hs⟩ := List.forall_mem_cons.mp h
    rw [List.cons_append, withoutSpaces, if_neg hc.1, hc.2, ih hs]
    rfl

theorem solid_digits {ds : List Char} (h : ∀ d ∈ ds, d.isDigit = true) : Solid ds := by
  intro d hd
  have hdigit := h d hd
  constructor
  · rintro rfl
    cases hdigit
  · rw [← Bool.not_eq_true]
    intro hspace
    simp only [isSpace, Bool.or_eq_true, beq_iff_eq] at hspace
    rcases hspace with ((rfl | rfl) | rfl) | rfl <;> cases hdigit

theorem solid_exponent {s : List Char} {exponent : Int} (h : Numeral.ExponentText s exponent) :
    Solid s := by
  cases h with
  | none => exact solid_nil
  | @some mark sign ds negative hm hs hd =>
    have hmark : Solid [mark] := by rcases hm with rfl | rfl <;> simp [isSpace]
    have hsign : Solid sign := by cases hs <;> simp [isSpace]
    exact hmark.append (hsign.append (solid_digits hd.2))

theorem solid_numeral {s : List Char} {n : Numeral} (h : n.NumeralText s) : Solid s := by
  cases h with
  | mk negative hw hf he =>
    have hminus : Solid (Text.minusText negative) := by
      cases negative <;> simp [Text.minusText, isSpace]
    refine hminus.append (.append (solid_digits hw.isDigits.2) (.append ?_ (solid_exponent he)))
    cases hf with
    | none => exact solid_nil
    | some hd =>
      have hpoint : Solid ['.'] := by simp [isSpace]
      exact hpoint.append (solid_digits hd.2)

theorem strips_number (x : Number) : Strips x.text x.text := by
  apply Solid.strips
  by_cases hx : x.IsFinite
  · obtain ⟨n, hn, -⟩ := Number.numeralText_text hx
    exact solid_numeral hn
  · rw [Number.text, if_neg hx]
    simp [isSpace]

theorem withinString_plain {c : Char} (hquote : c ≠ '"') (hbackslash : c ≠ '\\')
    (rest : List Char) : withinString (c :: rest) = c :: withinString rest := by
  rw [withinString, if_neg hquote]
  exact fun _ _ h => absurd h hbackslash

theorem withinString_unit {s : List Char} {unit : Nat} (h : Text.UnitText s unit)
    (rest : List Char) :
    withinString ('\\' :: 'u' :: (s ++ rest)) = '\\' :: 'u' :: (s ++ withinString rest) := by
  have hdigit : ∀ c ∈ "0123456789abcdefABCDEF".toList, c ≠ '"' ∧ c ≠ '\\' := by
    simp
  have hplain : ∀ {c : Char} {n : Nat}, Text.IsHexDigit c n →
      ∀ text, withinString (c :: text) = c :: withinString text := by
    intro c n hc
    exact withinString_plain (hdigit c hc.mem).1 (hdigit c hc.mem).2
  cases h with
  | mk ha hb hc hd =>
    simp only [List.cons_append, List.nil_append, withinString, hplain ha, hplain hb, hplain hc,
      hplain hd]

theorem withinString_char {s : List Char} {c : Char} (h : quoting.CharText s c)
    (rest : List Char) : withinString (s ++ rest) = s ++ withinString rest := by
  cases h with
  | plain hplain => exact withinString_plain hplain.1 hplain.2.1 rest
  | letter => rfl
  | escape he =>
    cases he with
    | unit hs => exact withinString_unit hs rest
    | pair hs _ ht =>
      simp only [List.cons_append, List.append_assoc, withinString_unit hs, withinString_unit ht]

theorem withinString_body {body cs : List Char} (h : quoting.BodyText body cs)
    (rest : List Char) : withinString (body ++ rest) = body ++ withinString rest := by
  induction h with
  | nil => rfl
  | cons hs _ ih => rw [List.append_assoc, withinString_char hs, ih, List.append_assoc]

theorem strips_string {s : List Char} {value : String} (h : StringText s value) :
    Strips s s := by
  intro rest
  cases h with
  | mk hbody =>
    rw [List.cons_append, List.append_assoc, withoutSpaces, if_pos rfl, withinString_body hbody,
      List.singleton_append, withinString, if_pos rfl]
    · simp
    · simp

theorem strips_lineBreak (layout : Layout) (depth : Nat) : Strips (layout.lineBreak depth) [] :=
  strips_spaces (layout.spaces_lineBreak depth)

theorem strips_colon (layout : Layout) : Strips layout.colon [':'] := by
  obtain ⟨p, hp, hcolon⟩ := layout.colon_eq
  have hmark : Solid [':'] := by simp [isSpace]
  rw [hcolon]
  exact hmark.strips.append (strips_spaces hp)

theorem strips_member {s t : List Char} (h : Strips s t) (layout : Layout) (depth : Nat)
    (k : String) :
    Strips (layout.lineBreak depth ++ Text.jsonString k ++ layout.colon ++ s)
      (Layout.compact.lineBreak depth ++ Text.jsonString k ++ Layout.compact.colon ++ t) :=
  (((strips_lineBreak layout depth).append (strips_string (stringText_jsonString k))).append
    (strips_colon layout)).append h

theorem strips_container {s t : List Char} (h : Strips s t) {left right : Char}
    (hleft : Solid [left]) (hright : Solid [right]) (layout : Layout) (depth : Nat) :
    Strips (left :: (s ++ layout.lineBreak depth ++ [right]))
      (left :: (t ++ Layout.compact.lineBreak depth ++ [right])) :=
  hleft.strips.append ((h.append (strips_lineBreak layout depth)).append hright.strips)

namespace Value

mutual

theorem strips_textAt (layout : Layout) (depth : Nat) :
    (v : Value) → Strips (v.textAt layout depth) (v.textAt .compact depth)
  | null => (by simp [isSpace] : Solid "null".toList).strips
  | boolean true => (by simp [isSpace] : Solid "true".toList).strips
  | boolean false => (by simp [isSpace] : Solid "false".toList).strips
  | number x => strips_number x
  | string s => strips_string (stringText_jsonString s)
  | array [] => (by simp [isSpace] : Solid ['[', ']']).strips
  | array (v :: elements) => by
    have hfirst := (strips_lineBreak layout (depth + 1)).append
      (strips_textAt layout (depth + 1) v)
    have hmore := strips_moreElements layout (depth + 1) elements
    exact strips_container (hfirst.append hmore) (by simp [isSpace]) (by simp [isSpace]) _ _
  | object [] => (by simp [isSpace] : Solid ['{', '}']).strips
  | object ((k, v) :: members) => by
    have hfirst := strips_member (strips_textAt layout (depth + 1) v) layout (depth + 1) k
    have hmore := strips_moreMembers layout (depth + 1) members
    exact strips_container (hfirst.append hmore) (by simp [isSpace]) (by simp [isSpace]) _ _

theorem strips_moreElements (layout : Layout) (depth : Nat) :
    (elements : List Value) →
      Strips (moreElements layout depth elements) (moreElements .compact depth elements)
  | [] => strips_spaces spaces_nil
  | v :: elements => by
    have hcomma : Solid [','] := by simp [isSpace]
    have hfirst := (strips_lineBreak layout depth).append (strips_textAt layout depth v)
    exact hcomma.strips.append (hfirst.append (strips_moreElements layout depth elements))

theorem strips_moreMembers (layout : Layout) (depth : Nat) :
    (members : List (String × Value)) →
      Strips (moreMembers layout depth members) (moreMembers .compact depth members)
  | [] => strips_spaces spaces_nil
  | (k, v) :: members => by
    have hcomma : Solid [','] := by simp [isSpace]
    have hfirst := strips_member (strips_textAt layout depth v) layout depth k
    exact hcomma.strips.append (hfirst.append (strips_moreMembers layout depth members))

end

theorem withoutSpaces_write (layout : Layout) (v : Value) :
    withoutSpaces (v.write layout).toList = (v.write .compact).toList := by
  have hstrips := strips_textAt layout 0 v []
  rw [List.append_nil, withoutSpaces, List.append_nil] at hstrips
  rw [toList_write, toList_write]
  exact hstrips

/-- Blanks and an escaped quote in a key stay. -/
example : withoutSpaces "\x7b \"a \\\" b\": [ 1,\n null ] \x7d".toList =
    "\x7b\"a \\\" b\":[1,null]\x7d".toList := by rfl

/-- Writing a value from pending pieces ends, and appends the text that recursion gives to what is
there already. Writing the array of some values appends what writing the value of that array does.
In the indented layout every item stands on a line of its own, and without the white space outside
strings the text is the compact one. -/
theorem writeTo_eq_text (layout : Layout) (out : String) :
    (∀ (v : Value) (n : Nat),
      turns layout (v.weight + n) out [.value v 0] = some (v.writeTo layout out)) ∧
      (∀ v : Value, v.writeTo layout out = out ++ String.ofList (v.text layout)) ∧
      (∀ elements, writeArrayTo layout out elements = (array elements).writeTo layout out) ∧
      (∀ width depth,
        (array []).textAt (.indented width) depth = "[]".toList ∧
          (∀ v elements, (array (v :: elements)).textAt (.indented width) depth =
            block width depth '[' ']'
              ((v :: elements).map (textAt (.indented width) (depth + 1)))) ∧
          (object []).textAt (.indented width) depth = "\x7b\x7d".toList ∧
          ∀ m members, (object (m :: members)).textAt (.indented width) depth =
            block width depth '{' '}' ((m :: members).map (memberItem width (depth + 1)))) ∧
      ∀ v : Value, withoutSpaces (v.write layout).toList = (v.write .compact).toList := by
  refine ⟨turns_value layout out, writeTo_eq layout out, writeArrayTo_eq layout out,
    fun width depth => ⟨rfl, ?_, rfl, ?_⟩, withoutSpaces_write layout⟩
  · exact textAt_array_indented width depth
  · exact textAt_object_indented width depth

end Value

end JsonQuery
