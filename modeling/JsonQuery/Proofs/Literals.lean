import JsonQuery.Proofs.Json.Reading
import JsonQuery.Proofs.Path.Canonical
import JsonQuery.Proofs.Path.Reading

/-!
String and number literals of documents and of queries. Strings of documents are read alike in
queries, so that a key can be copied into a query; what queries allow besides are raw control
characters and escaped single quotes. Numbers of queries may begin with zeros, which in documents
they may not, and this is the only difference between the two.
-/

namespace JsonQuery

namespace Text

/-- The letters that stand behind backslashes. The letter behind an escaped backslash is none. -/
def escapeLetters : List Char → List Char
  | '\\' :: letter :: text => letter :: escapeLetters text
  | _ :: text => escapeLetters text
  | [] => []

theorem escapeLetters_escape (letter : Char) (text : List Char) :
    escapeLetters ('\\' :: letter :: text) = letter :: escapeLetters text := by
  rw [escapeLetters]

theorem escapeLetters_cons {c : Char} (h : c ≠ '\\') (text : List Char) :
    escapeLetters (c :: text) = escapeLetters text := by
  rw [escapeLetters]
  rintro _ _ rfl
  exact absurd rfl h

theorem escapeLetters_append {s : List Char} (h : ∀ c ∈ s, c ≠ '\\') (text : List Char) :
    escapeLetters (s ++ text) = escapeLetters text := by
  induction s with
  | nil => rfl
  | cons c s ih =>
    obtain ⟨hc, hs⟩ := List.forall_mem_cons.mp h
    rw [List.cons_append, escapeLetters_cons hc, ih hs]

theorem UnitText.mem {s : List Char} {unit : Nat} (h : UnitText s unit) :
    ∀ c ∈ s, 0x20 ≤ c.toNat ∧ c ≠ '\\' := by
  have hdigit : ∀ c ∈ "0123456789abcdefABCDEF".toList, 0x20 ≤ c.toNat ∧ c ≠ '\\' := by
    simp
  cases h with
  | mk ha hb hc hd =>
    simp [hdigit _ ha.mem, hdigit _ hb.mem, hdigit _ hc.mem, hdigit _ hd.mem]

theorem UnitText.escapeLetters_append {s : List Char} {unit : Nat} (h : UnitText s unit)
    (text : List Char) : escapeLetters (s ++ text) = escapeLetters text :=
  Text.escapeLetters_append (fun c hc => (h.mem c hc).2) text

theorem UnitText.escapeLetters_eq {s : List Char} {unit : Nat} (h : UnitText s unit) :
    escapeLetters s = [] := by
  have happend := h.escapeLetters_append []
  rwa [List.append_nil] at happend

/-- An escape ends where its last digit does, so what follows keeps its own letters. -/
theorem EscapeText.escapeLetters_append {s : List Char} {c : Char} (h : EscapeText s c)
    (text : List Char) :
    escapeLetters (s ++ text) = escapeLetters s ++ escapeLetters text := by
  cases h with
  | unit hs _ => rw [hs.escapeLetters_append, hs.escapeLetters_eq, List.nil_append]
  | pair hs _ ht _ =>
    rw [List.append_assoc, hs.escapeLetters_append, hs.escapeLetters_append, List.cons_append,
      List.cons_append, escapeLetters_escape, escapeLetters_escape, ht.escapeLetters_append,
      ht.escapeLetters_eq]
    rfl

theorem Quoting.CharText.escapeLetters_append {q : Quoting} (hq : ∀ c, q.plain c → c ≠ '\\')
    {s : List Char} {c : Char} (h : q.CharText s c) (text : List Char) :
    escapeLetters (s ++ text) = escapeLetters s ++ escapeLetters text := by
  cases h with
  | plain hc =>
    rw [List.singleton_append, escapeLetters_cons (hq c hc), escapeLetters_cons (hq c hc)]
    rfl
  | letter _ =>
    rw [List.cons_append, List.singleton_append, escapeLetters_escape, escapeLetters_escape]
    rfl
  | escape he =>
    rw [List.cons_append, List.cons_append, escapeLetters_escape, escapeLetters_escape,
      he.escapeLetters_append, List.cons_append]

theorem Quoting.BodyText.escapeLetters_append {q : Quoting} (hq : ∀ c, q.plain c → c ≠ '\\')
    {s cs : List Char} (h : q.BodyText s cs) (text : List Char) :
    escapeLetters (s ++ text) = escapeLetters s ++ escapeLetters text := by
  induction h with
  | nil => rfl
  | cons hs _ ih =>
    rw [List.append_assoc, hs.escapeLetters_append hq, ih, hs.escapeLetters_append hq,
      List.append_assoc]

/-- No raw control character stands in the text and no single quote behind a backslash. -/
def IsStrict (s : List Char) : Prop := (∀ c ∈ s, ¬ c.toNat < 0x20) ∧ '\'' ∉ escapeLetters s

theorem isStrict_append_iff {s t : List Char}
    (h : escapeLetters (s ++ t) = escapeLetters s ++ escapeLetters t) :
    IsStrict (s ++ t) ↔ IsStrict s ∧ IsStrict t := by
  unfold IsStrict
  rw [h, List.forall_mem_append, List.mem_append, not_or]
  exact and_and_and_comm

theorem UnitText.isStrict {s t : List Char} {unit : Nat} (h : UnitText s unit) (ht : IsStrict t) :
    IsStrict ('\\' :: 'u' :: (s ++ t)) := by
  have hletters : escapeLetters ('\\' :: 'u' :: (s ++ t)) = 'u' :: escapeLetters t := by
    rw [escapeLetters_escape, h.escapeLetters_append]
  constructor
  · intro c hc
    rw [List.mem_cons, List.mem_cons, List.mem_append] at hc
    rcases hc with rfl | rfl | hc | hc
    · decide
    · decide
    · exact Nat.not_lt.mpr (h.mem c hc).1
    · exact ht.1 c hc
  · rw [hletters, List.mem_cons, not_or]
    exact ⟨by decide, ht.2⟩

theorem isStrict_nil : IsStrict [] := by
  constructor
  · intro c hc
    cases hc
  · intro hc
    cases hc

theorem EscapeText.isStrict {s : List Char} {c : Char} (h : EscapeText s c) :
    IsStrict ('\\' :: 'u' :: s) := by
  cases h with
  | unit hs _ =>
    have hunit := hs.isStrict isStrict_nil
    rwa [List.append_nil] at hunit
  | pair hs _ ht _ =>
    have hlow := ht.isStrict isStrict_nil
    rw [List.append_nil] at hlow
    exact hs.isStrict hlow

theorem EscapeLetter.strict {letter c : Char} (h : EscapeLetter letter c) :
    ¬ letter.toNat < 0x20 ∧ letter ≠ '\'' := by
  cases h <;> decide

end Text

open Text

theorem isStrict_letter {letter : Char} (hcontrol : ¬ letter.toNat < 0x20)
    (hquote : letter ≠ '\'') : IsStrict ['\\', letter] := by
  constructor
  · intro c hc
    rw [List.mem_cons, List.mem_singleton] at hc
    rcases hc with rfl | rfl
    · decide
    · exact hcontrol
  · rw [escapeLetters_escape, List.mem_cons, not_or]
    exact ⟨hquote.symm, List.not_mem_nil⟩

theorem charText_iff {s : List Char} {c : Char} :
    Json.quoting.CharText s c ↔ (Path.quoting '"').CharText s c ∧ IsStrict s := by
  constructor
  · intro h
    cases h with
    | plain hc =>
      obtain ⟨hquote, hslash, hcontrol⟩ := hc
      refine ⟨.plain ⟨hquote, hslash⟩, ?_, ?_⟩
      · exact List.forall_mem_singleton.mpr hcontrol
      · rw [escapeLetters_cons hslash]
        exact List.not_mem_nil
    | letter hl =>
      obtain ⟨hcontrol, hquote⟩ := hl.strict
      exact ⟨.letter (.inl hl), isStrict_letter hcontrol hquote⟩
    | escape he => exact ⟨.escape he, he.isStrict⟩
  · rintro ⟨h, hcontrol, hletters⟩
    cases h with
    | plain hc => exact .plain ⟨hc.1, hc.2, hcontrol _ List.mem_cons_self⟩
    | letter hl =>
      rcases hl with hl | ⟨rfl, -⟩
      · exact .letter hl
      · exact absurd List.mem_cons_self hletters
    | escape he => exact .escape he

theorem ne_slash_of_plain {quote c : Char} (h : (Path.quoting quote).plain c) : c ≠ '\\' := h.2

theorem bodyText_iff {s cs : List Char} :
    Json.quoting.BodyText s cs ↔ (Path.quoting '"').BodyText s cs ∧ IsStrict s := by
  constructor
  · intro h
    induction h with
    | nil => exact ⟨.nil, isStrict_nil⟩
    | cons hs _ ih =>
      obtain ⟨hs, hstrict⟩ := charText_iff.mp hs
      refine ⟨.cons hs ih.1, ?_⟩
      rw [isStrict_append_iff (hs.escapeLetters_append (fun _ => ne_slash_of_plain) _)]
      exact ⟨hstrict, ih.2⟩
  · rintro ⟨h, hstrict⟩
    induction h with
    | nil => exact .nil
    | cons hs _ ih =>
      rw [isStrict_append_iff (hs.escapeLetters_append (fun _ => ne_slash_of_plain) _)] at hstrict
      exact .cons (charText_iff.mpr ⟨hs, hstrict.1⟩) (ih hstrict.2)

/-- The closing quote changes nothing: what stands before it is no unfinished escape. -/
theorem isStrict_close_iff {body cs : List Char} (h : (Path.quoting '"').BodyText body cs) :
    IsStrict (body ++ ['"']) ↔ IsStrict body := by
  have hclose : IsStrict ['"'] := by
    constructor
    · exact List.forall_mem_singleton.mpr (by decide)
    · exact List.not_mem_nil
  have happend := h.escapeLetters_append (fun _ => ne_slash_of_plain) ['"']
  rw [isStrict_append_iff happend]
  exact and_iff_left hclose

theorem parse_quotedName {body cs : List Char} (h : (Path.quoting '"').BodyText body cs) :
    Path.parse ('$' :: '[' :: '"' :: (body ++ ['"', ']'])) =
      .ok [.root, .select (.name (String.ofList cs))] := by
  have hname : Path.QuotedText ('"' :: (body ++ ['"'])) (String.ofList cs) := .mk (.inr rfl) h
  simpa using Path.parse_bracket (.selector (.name hname))

/-- Behind a double quote, documents and queries read the same strings up to the same place, but
for raw control characters and escaped single quotes, which only queries read. In brackets any key
of a document is a query for its name. -/
theorem stringTail_eq_ok_iff_quotedTail (text rest : List Char) (s : String) :
    (Json.stringTail [] text = .ok (s, rest) ↔
      Path.quotedTail '"' [] text = .ok (s, rest) ∧ IsStrict (before text rest)) ∧
    (Json.stringTail [] text = .ok (s, rest) →
      Path.parse ('$' :: '[' :: '"' :: (before text rest ++ [']'])) =
        .ok [.root, .select (.name s)]) := by
  have hbefore (body : List Char) : before (body ++ '"' :: rest) rest = body ++ ['"'] := by
    rw [← List.singleton_append, ← List.append_assoc, before_append]
  have hquote : Path.isQuote '"' = true := rfl
  rw [Json.stringTail_eq_ok_iff, Path.quotedTail_eq_ok_iff hquote]
  refine ⟨⟨?_, ?_⟩, ?_⟩
  · rintro ⟨body, cs, hbody, rfl, rfl⟩
    obtain ⟨hbody, hstrict⟩ := bodyText_iff.mp hbody
    rw [hbefore, isStrict_close_iff hbody]
    exact ⟨⟨body, cs, hbody, rfl, rfl⟩, hstrict⟩
  · rintro ⟨⟨body, cs, hbody, rfl, rfl⟩, hstrict⟩
    rw [hbefore, isStrict_close_iff hbody] at hstrict
    exact ⟨body, cs, bodyText_iff.mpr ⟨hbody, hstrict⟩, rfl, rfl⟩
  · rintro ⟨body, cs, hbody, rfl, rfl⟩
    rw [hbefore, List.append_assoc]
    exact parse_quotedName (bodyText_iff.mp hbody).1

/-- A key with a pair of escapes, read in a document and copied into a query. -/
theorem stringTail_eq_ok_iff_quotedTail_pair :
    Json.stringTail [] "k\\ud83d\\ude00\": 1".toList = .ok ("k😀", ": 1".toList) ∧
      Path.quotedTail '"' [] "k\\ud83d\\ude00\": 1".toList = .ok ("k😀", ": 1".toList) ∧
      Path.parse "$[\"k\\ud83d\\ude00\"]".toList = .ok [.root, .select (.name "k😀")] := by
  have hread : Json.stringTail [] "k\\ud83d\\ude00\": 1".toList = .ok ("k😀", ": 1".toList) := by
    cbv
  obtain ⟨hagree, hcopy⟩ := stringTail_eq_ok_iff_quotedTail
    "k\\ud83d\\ude00\": 1".toList ": 1".toList "k😀"
  exact ⟨hread, (hagree.mp hread).1, hcopy hread⟩

/-- The digits of a text begin with a zero and go on. -/
def HasLeadingZero (text : List Char) : Prop :=
  ∃ rest, (minus text).2 = '0' :: rest ∧ startsWithDigit rest = true

theorem hasLeadingZero_iff {ds tail : List Char} (negative : Bool) (hd : IsDigits ds)
    (ht : startsWithDigit tail = false) :
    HasLeadingZero (minusText negative ++ (ds ++ tail)) ↔ ¬ Numeral.IsWhole ds := by
  unfold HasLeadingZero
  rw [Numeral.minus_append negative hd tail]
  obtain ⟨d, ds, rfl⟩ := List.exists_cons_of_ne_nil hd.1
  cases ds with
  | nil =>
    have hwhole : Numeral.IsWhole [d] := by
      by_cases hzero : d = '0'
      · exact .inl (by rw [hzero])
      · exact .inr ⟨hd, by simpa using hzero⟩
    constructor
    · rintro ⟨rest, hrest, hdigit⟩
      obtain ⟨-, rfl⟩ := List.cons.inj hrest
      exact absurd (ht.symm.trans hdigit) Bool.false_ne_true
    · intro hnot
      exact absurd hwhole hnot
  | cons d' ds =>
    have hdigit : startsWithDigit (d' :: ds ++ tail) = true :=
      hd.2 d' (List.mem_cons_of_mem d List.mem_cons_self)
    constructor
    · rintro ⟨rest, hrest, -⟩ (hone | ⟨-, hhead⟩)
      · cases hone
      · obtain ⟨rfl, -⟩ := List.cons.inj hrest
        exact hhead rfl
    · intro hnot
      refine ⟨d' :: ds ++ tail, ?_, hdigit⟩
      by_contra hne
      apply hnot
      refine .inr ⟨hd, ?_⟩
      intro hhead
      rw [List.head?_cons, Option.some.injEq] at hhead
      exact hne (by rw [hhead]; rfl)

theorem startsWithDigit_parts {f fraction e : List Char} {exponent : Int}
    (hf : Numeral.FractionText f fraction) (he : Numeral.ExponentText e exponent) :
    startsWithDigit (f ++ e) = false := by
  have hexponent := Numeral.startsWithDigit_exponent he Numeral.ends_nil
  rw [List.append_nil] at hexponent
  exact Numeral.startsWithDigit_fraction hf hexponent

/-- Documents read all of a text as a number exactly if queries do and its digits have no leading
zero, and both read the same number. -/
theorem number_eq_ok_iff_numberLiteral (text : List Char) (x : Number) :
    Json.number text = .ok (x, []) ↔
      Path.numberLiteral text = .ok (x, []) ∧ ¬ HasLeadingZero text := by
  constructor
  · intro h
    obtain ⟨s, n, hs, hfinite, rfl, htext⟩ := Json.numeralText_of_number h
    rw [List.append_nil] at htext
    subst htext
    have hquery := Path.numberLiteral_append (Path.numberText_of_numeralText hs hfinite)
      Numeral.ends_nil
    rw [List.append_nil] at hquery
    refine ⟨hquery, ?_⟩
    cases hs with
    | mk negative hw hf he =>
      rw [hasLeadingZero_iff negative hw.isDigits (startsWithDigit_parts hf he), not_not]
      exact hw
  · rintro ⟨h, hzero⟩
    obtain ⟨s, hs, htext⟩ := Path.numberText_of_numberLiteral h
    rw [List.append_nil] at htext
    subst htext
    cases hs with
    | mk negative hd hf he hfinite =>
      rw [hasLeadingZero_iff negative hd (startsWithDigit_parts hf he), not_not] at hzero
      have hdocument := Json.number_append (.mk negative hzero hf he) hfinite Numeral.ends_nil
      rwa [List.append_nil] at hdocument

/-- The digits `01` are a number in queries, but in documents only their first one is. -/
theorem numberLiteral_leading_zero :
    Path.numberLiteral ['0', '1'] = .ok (Number.ofInt 1, []) ∧
      Json.number ['0', '1'] = .ok (Number.zero, ['1']) ∧
      ∀ x, Json.number ['0', '1'] ≠ .ok (x, []) := by
  have hdigits : IsDigits ['0', '1'] := ⟨List.cons_ne_nil _ _, by simp⟩
  have hone : Numeral.number ⟨false, ['0', '1'], [], 0⟩ = Number.ofInt 1 := by decide +kernel
  have hfinite : (Numeral.number ⟨false, ['0', '1'], [], 0⟩).IsFinite := by decide +kernel
  have hs := Path.NumberText.mk false hdigits .none .none hfinite
  have hquery := Path.numberLiteral_append hs Numeral.ends_nil
  rw [hone] at hquery
  have hdocument : Json.number ['0', '1'] = .ok (Number.zero, ['1']) := rfl
  refine ⟨hquery, hdocument, ?_⟩
  intro x h
  rw [hdocument] at h
  cases h

end JsonQuery
