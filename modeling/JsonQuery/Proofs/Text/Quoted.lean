import JsonQuery.Json.StringLiteral
import JsonQuery.Path.Lexeme
import JsonQuery.Text.Quoted

/-!
The grammar of text between quotes, for documents and for queries. The two differ in the letters
that may stand after a backslash and in the characters that stand for themselves. Each reader
accepts exactly its grammar, and what is written between quotes belongs to both.
-/

namespace JsonQuery

namespace Text

/-- A hexadecimal digit of either case, at the place of its value. -/
def IsHexDigit (c : Char) (value : Nat) : Prop :=
  "0123456789abcdef".toList[value]? = some c ∨ "0123456789ABCDEF".toList[value]? = some c

instance (c : Char) (value : Nat) : Decidable (IsHexDigit c value) :=
  inferInstanceAs (Decidable (_ ∨ _))

theorem IsHexDigit.mem {c : Char} {value : Nat} (h : IsHexDigit c value) :
    c ∈ "0123456789abcdefABCDEF".toList := by
  have hlower : ∀ d ∈ "0123456789abcdef".toList, d ∈ "0123456789abcdefABCDEF".toList := by simp
  have hupper : ∀ d ∈ "0123456789ABCDEF".toList, d ∈ "0123456789abcdefABCDEF".toList := by simp
  rcases h with h | h
  · exact hlower c (List.mem_of_getElem? h)
  · exact hupper c (List.mem_of_getElem? h)

theorem toNat_lt_of_hexValue? {c : Char} {value : Nat} (h : hexValue? c = some value) :
    c.toNat < 0x67 := by
  unfold hexValue? at h
  split at h
  · rename_i hdigit
    simp only [Char.isDigit, Bool.and_eq_true, decide_eq_true_eq, UInt32.le_iff_toNat_le] at hdigit
    exact Nat.lt_of_le_of_lt hdigit.2 (by decide)
  · split at h
    · rename_i hlower
      exact Nat.lt_of_le_of_lt (UInt32.le_iff_toNat_le.mp hlower.2) (by decide)
    · split at h
      · rename_i hupper
        exact Nat.lt_of_le_of_lt (UInt32.le_iff_toNat_le.mp hupper.2) (by decide)
      · cases h

theorem hexValue?_eq_some_iff {c : Char} {value : Nat} :
    hexValue? c = some value ↔ IsHexDigit c value := by
  constructor
  · intro h
    have hascii : ∀ n : Fin 0x67, ∀ m ∈ hexValue? (Char.ofNat n), IsHexDigit (Char.ofNat n) m := by
      decide
    have hlt : c.toNat < 0x67 := toNat_lt_of_hexValue? h
    have hc := hascii ⟨c.toNat, hlt⟩
    rw [Char.ofNat_toNat] at hc
    exact hc value h
  · have hlower : ∀ n : Fin 16, hexValue? "0123456789abcdef".toList[n] = some n.val := by decide
    have hupper : ∀ n : Fin 16, hexValue? "0123456789ABCDEF".toList[n] = some n.val := by decide
    rintro (h | h)
    · obtain ⟨hlt, rfl⟩ := List.getElem?_eq_some_iff.mp h
      exact hlower ⟨value, hlt⟩
    · obtain ⟨hlt, rfl⟩ := List.getElem?_eq_some_iff.mp h
      exact hupper ⟨value, hlt⟩

theorem isHighSurrogate_iff {unit : Nat} :
    isHighSurrogate unit = true ↔ 0xD800 ≤ unit ∧ unit < 0xDC00 := by
  rw [isHighSurrogate, Bool.and_eq_true, decide_eq_true_iff, decide_eq_true_iff]

theorem isLowSurrogate_iff {unit : Nat} :
    isLowSurrogate unit = true ↔ 0xDC00 ≤ unit ∧ unit < 0xE000 := by
  rw [isLowSurrogate, Bool.and_eq_true, decide_eq_true_iff, decide_eq_true_iff]

/-- Four hexadecimal digits, with the unit that they name. -/
inductive UnitText : List Char → Nat → Prop where
  | mk {a b c d : Char} {w x y z : Nat} (ha : IsHexDigit a w) (hb : IsHexDigit b x)
      (hc : IsHexDigit c y) (hd : IsHexDigit d z) :
      UnitText [a, b, c, d] (((w * 16 + x) * 16 + y) * 16 + z)

/-- What stands behind `\u`, with the character that it names: a unit that is no surrogate, or a
high surrogate and an escape of a low one. -/
inductive EscapeText : List Char → Char → Prop where
  | unit {s : List Char} {unit : Nat} (hs : UnitText s unit)
      (hunit : unit < 0xD800 ∨ 0xE000 ≤ unit) : EscapeText s (Char.ofNat unit)
  | pair {s t : List Char} {high low : Nat} (hs : UnitText s high)
      (hh : 0xD800 ≤ high ∧ high < 0xDC00) (ht : UnitText t low)
      (hl : 0xDC00 ≤ low ∧ low < 0xE000) :
      EscapeText (s ++ '\\' :: 'u' :: t)
        (Char.ofNat (0x10000 + (high - 0xD800) * 0x400 + (low - 0xDC00)))

/-- The letters that may stand behind a backslash in documents, each with the character that it
stands for. -/
inductive EscapeLetter : Char → Char → Prop where
  | quote : EscapeLetter '"' '"'
  | backslash : EscapeLetter '\\' '\\'
  | slash : EscapeLetter '/' '/'
  | backspace : EscapeLetter 'b' '\x08'
  | formFeed : EscapeLetter 'f' '\x0c'
  | lineFeed : EscapeLetter 'n' '\n'
  | carriageReturn : EscapeLetter 'r' '\r'
  | tab : EscapeLetter 't' '\t'

theorem unit?_append {s : List Char} {unit : Nat} (h : UnitText s unit) (rest : List Char) :
    unit? (s ++ rest) = some (unit, rest) := by
  cases h with
  | mk ha hb hc hd =>
    rw [← hexValue?_eq_some_iff] at ha hb hc hd
    rw [List.cons_append, List.cons_append, List.cons_append, List.singleton_append, unit?, ha, hb,
      hc, hd]
    rfl

theorem unitText_of_unit? {text rest : List Char} {unit : Nat}
    (h : unit? text = some (unit, rest)) : ∃ s, UnitText s unit ∧ text = s ++ rest := by
  unfold unit? at h
  split at h
  · simp only [Option.bind_eq_bind, Option.bind_eq_some_iff, Option.some.injEq, Prod.mk.injEq] at h
    obtain ⟨_, ha, _, hb, _, hc, _, hd, rfl, rfl⟩ := h
    rw [hexValue?_eq_some_iff] at ha hb hc hd
    exact ⟨_, .mk ha hb hc hd, rfl⟩
  · cases h

theorem escapedUnits_append {s : List Char} {c : Char} (h : EscapeText s c) (rest : List Char) :
    escapedUnits (s ++ rest) = .ok (c, rest) := by
  cases h with
  | @unit _ unit hs hunit =>
    have hh : ¬ isHighSurrogate unit = true := by
      rw [isHighSurrogate_iff]
      omega
    have hl : ¬ isLowSurrogate unit = true := by
      rw [isLowSurrogate_iff]
      omega
    simp only [escapedUnits, unit?_append hs, hh, hl, Bool.false_eq_true, if_false]
  | pair hs hh ht hl =>
    rw [← isHighSurrogate_iff] at hh
    rw [← isLowSurrogate_iff] at hl
    simp only [escapedUnits, List.append_assoc, List.cons_append, unit?_append hs,
      unit?_append ht, hh, hl, if_true, ofSurrogates]

theorem escapeText_of_escapedUnits {text rest : List Char} {c : Char}
    (h : escapedUnits text = .ok (c, rest)) : ∃ s, EscapeText s c ∧ text = s ++ rest := by
  unfold escapedUnits at h
  split at h
  · cases h
  · rename_i high rest₁ hu
    obtain ⟨s, hs, rfl⟩ := unitText_of_unit? hu
    split at h
    · rename_i hh
      split at h
      · split at h
        · cases h
        · rename_i low rest₃ hu
          obtain ⟨t, ht, rfl⟩ := unitText_of_unit? hu
          split at h
          · rename_i hl
            simp only [Except.ok.injEq, Prod.mk.injEq] at h
            obtain ⟨rfl, rfl⟩ := h
            rw [isHighSurrogate_iff] at hh
            rw [isLowSurrogate_iff] at hl
            exact ⟨_, .pair hs hh ht hl, by simp⟩
          · cases h
      · cases h
    · rename_i hh
      split at h
      · cases h
      · rename_i hl
        cases h
        rw [isHighSurrogate_iff] at hh
        rw [isLowSurrogate_iff] at hl
        exact ⟨s, .unit hs (by omega), rfl⟩

/-- Which characters stand for themselves between quotes, and which letters stand for which
characters after a backslash. -/
structure Quoting where
  plain : Char → Prop
  letter : Char → Char → Prop

namespace Quoting

/-- The ways to write a character. -/
inductive CharText (q : Quoting) : List Char → Char → Prop where
  | plain {c : Char} (h : q.plain c) : CharText q [c] c
  | letter {letter c : Char} (h : q.letter letter c) : CharText q ['\\', letter] c
  | escape {s : List Char} {c : Char} (h : EscapeText s c) : CharText q ('\\' :: 'u' :: s) c

/-- The ways to write some characters, one after the other. -/
inductive BodyText (q : Quoting) : List Char → List Char → Prop where
  | nil : BodyText q [] []
  | cons {s t cs : List Char} {c : Char} (h : CharText q s c) (ht : BodyText q t cs) :
      BodyText q (s ++ t) (c :: cs)

/-- What stands behind an opening quote: characters and the closing quote. -/
def TailText (q : Quoting) (quote : Char) (s : List Char) : Prop :=
  ∃ body cs, q.BodyText body cs ∧ s = body ++ [quote]

theorem tailText_quote (q : Quoting) (quote : Char) : q.TailText quote [quote] :=
  ⟨[], [], .nil, rfl⟩

theorem TailText.cons {q : Quoting} {quote c : Char} {s t : List Char} (hs : q.CharText s c)
    (ht : q.TailText quote t) : q.TailText quote (s ++ t) := by
  obtain ⟨body, cs, hbody, rfl⟩ := ht
  exact ⟨_, _, .cons hs hbody, (List.append_assoc _ _ _).symm⟩

theorem CharText.length_pos {q : Quoting} {s : List Char} {c : Char} (h : q.CharText s c) :
    0 < s.length := by
  cases h <;> simp

/-- A reader that ends at the quote, and otherwise goes on behind one character of the grammar,
accepts what is written by the grammar and then the quote. -/
theorem read_eq_ok_iff {q : Quoting} {quote : Char} {ε : Type}
    {read : List Char → List Char → Except ε (String × List Char)}
    (hquote : ∀ done rest, read done (quote :: rest) = .ok (String.ofList done.reverse, rest))
    (hchar : ∀ {s c}, q.CharText s c → ∀ done rest, read done (s ++ rest) = read (c :: done) rest)
    (hcases : ∀ {done text r}, read done text = .ok r →
      (∃ rest, text = quote :: rest) ∨ ∃ s c rest, q.CharText s c ∧ text = s ++ rest)
    {done text rest : List Char} {name : String} :
    read done text = .ok (name, rest) ↔
      ∃ body cs, q.BodyText body cs ∧ text = body ++ quote :: rest ∧
        name = String.ofList (done.reverse ++ cs) := by
  constructor
  · intro h
    -- the reader is a parameter, so the induction is on the text, which every character shortens
    induction hlen : text.length using Nat.strongRecOn generalizing done text with
    | ind n ih =>
      subst hlen
      rcases hcases h with ⟨rest', rfl⟩ | ⟨s, c, rest', hs, rfl⟩
      · rw [hquote] at h
        cases h
        exact ⟨[], [], .nil, rfl, by rw [List.append_nil]⟩
      · rw [hchar hs] at h
        have hpos := hs.length_pos
        obtain ⟨body, cs, hbody, rfl, rfl⟩ := ih _ (by simp; omega) h rfl
        exact ⟨s ++ body, c :: cs, .cons hs hbody, by rw [List.append_assoc], by simp⟩
  · rintro ⟨body, cs, hbody, rfl, rfl⟩
    induction hbody generalizing done with
    | nil => rw [List.nil_append, hquote, List.append_nil]
    | cons hs _ ih => rw [List.append_assoc, hchar hs, ih, List.reverse_cons, List.append_assoc,
        List.singleton_append]

end Quoting

theorem isHexDigit_hexDigit {n : Nat} (h : n < 16) : IsHexDigit (hexDigit n) n := by
  have hall : ∀ m : Fin 16, IsHexDigit (hexDigit m) m := by decide
  exact hall ⟨n, h⟩

theorem escapeText_control {c : Char} (h : c.toNat < 0x20) :
    EscapeText ['0', '0', hexDigit (c.toNat / 16), hexDigit (c.toNat % 16)] c := by
  have hzero : IsHexDigit '0' 0 := .inl rfl
  have hhigh : IsHexDigit (hexDigit (c.toNat / 16)) (c.toNat / 16) :=
    isHexDigit_hexDigit (by omega)
  have hlow : IsHexDigit (hexDigit (c.toNat % 16)) (c.toNat % 16) :=
    isHexDigit_hexDigit (by omega)
  have hvalue : ((0 * 16 + 0) * 16 + c.toNat / 16) * 16 + c.toNat % 16 = c.toNat := by omega
  have hunit := UnitText.mk hzero hzero hhigh hlow
  rw [hvalue] at hunit
  have hescape := EscapeText.unit hunit (by omega)
  rwa [Char.ofNat_toNat] at hescape

theorem escapeLetter_of_escapeLetter? {c letter : Char} (h : escapeLetter? c = some letter) :
    EscapeLetter letter c := by
  unfold escapeLetter? at h
  split at h <;> cases h <;> constructor

theorem encodeChar_cases (quote c : Char) :
    (c = quote ∧ encodeChar quote c = ['\\', quote]) ∨
    (∃ letter, escapeLetter? c = some letter ∧ encodeChar quote c = ['\\', letter]) ∨
    (c.toNat < 0x20 ∧ encodeChar quote c =
      ['\\', 'u', '0', '0', hexDigit (c.toNat / 16), hexDigit (c.toNat % 16)]) ∨
    (c ≠ quote ∧ c ≠ '\\' ∧ ¬ c.toNat < 0x20 ∧ encodeChar quote c = [c]) := by
  unfold encodeChar
  by_cases hq : c = quote
  · exact .inl ⟨hq, if_pos hq⟩
  · rw [if_neg hq]
    right
    cases hl : escapeLetter? c with
    | some letter => exact .inl ⟨letter, rfl, rfl⟩
    | none =>
      right
      by_cases hc : c.toNat < 0x20
      · exact .inl ⟨hc, if_pos hc⟩
      · refine .inr ⟨hq, ?_, hc, if_neg hc⟩
        rintro rfl
        cases hl

/-- Where the letters that are written mean what they stand for, and what is written as it is may
stand for itself, the text between quotes belongs to the grammar. -/
theorem Quoting.bodyText_encode {q : Quoting} {quote : Char}
    (hquote : q.letter quote quote)
    (hletter : ∀ {c letter}, escapeLetter? c = some letter → q.letter letter c)
    (hplain : ∀ {c}, c ≠ quote → c ≠ '\\' → ¬ c.toNat < 0x20 → q.plain c) (s : List Char) :
    q.BodyText (s.flatMap (encodeChar quote)) s := by
  induction s with
  | nil => exact .nil
  | cons c s ih =>
    refine .cons ?_ ih
    obtain ⟨rfl, henc⟩ | ⟨letter, hl, henc⟩ | ⟨hc, henc⟩ | ⟨hq, hb, hc, henc⟩ :=
      encodeChar_cases quote c <;> rw [henc]
    · exact .letter hquote
    · exact .letter (hletter hl)
    · exact .escape (escapeText_control hc)
    · exact .plain (hplain hq hb hc)

end Text

open Text

namespace Json

theorem unescape?_eq_some_iff {letter c : Char} :
    unescape? letter = some c ↔ EscapeLetter letter c := by
  constructor
  · intro h
    unfold unescape? at h
    split at h <;> cases h <;> constructor
  · intro h
    cases h <;> rfl

/-- In documents control characters are escaped. -/
def quoting : Quoting where
  plain c := c ≠ '"' ∧ c ≠ '\\' ∧ ¬ c.toNat < 0x20
  letter := EscapeLetter

/-- The texts of a string, with the quotes. -/
inductive StringText : List Char → String → Prop where
  | mk {body cs : List Char} (h : quoting.BodyText body cs) :
      StringText ('"' :: (body ++ ['"'])) (String.ofList cs)

theorem stringTail_char {s : List Char} {c : Char} (h : quoting.CharText s c)
    (done rest : List Char) : stringTail done (s ++ rest) = stringTail (c :: done) rest := by
  cases h with
  | plain hp =>
    obtain ⟨hq, hb, hc⟩ := hp
    rw [List.singleton_append, stringTail, if_neg hc]
    · exact hq
    · exact fun h => absurd h hb
    · exact fun _ h => absurd h hb
    · exact fun _ _ h => absurd h hb
  | @letter letter _ hl =>
    have hread : unescape? letter = some c := unescape?_eq_some_iff.mpr hl
    rw [List.cons_append, List.singleton_append, stringTail, hread]
    rintro rfl
    cases hl
  | escape he =>
    rw [List.cons_append, List.cons_append, stringTail]
    split
    · rename_i heq
      rw [escapedUnits_append he] at heq
      cases heq
      rfl
    all_goals
      rename_i heq
      rw [escapedUnits_append he] at heq
      cases heq

theorem stringTail_cases {done text : List Char} {r : String × List Char}
    (h : stringTail done text = .ok r) :
    (∃ rest, text = '"' :: rest) ∨ ∃ s c rest, quoting.CharText s c ∧ text = s ++ rest := by
  rw [stringTail.eq_def] at h
  split at h
  · cases h
  · exact .inl ⟨_, rfl⟩
  · cases h
  · split at h
    · rename_i he
      obtain ⟨s, hs, rfl⟩ := escapeText_of_escapedUnits he
      exact .inr ⟨_, _, _, .escape hs, rfl⟩
    · cases h
    · cases h
  · split at h
    · rename_i hl
      exact .inr ⟨_, _, _, .letter (unescape?_eq_some_iff.mp hl), rfl⟩
    · cases h
  · split at h
    · cases h
    · rename_i c rest hq hlone _ hpair hc
      refine .inr ⟨_, _, _, .plain ⟨hq, ?_, hc⟩, rfl⟩
      cases rest with
      | nil => exact fun hb => hlone hb rfl
      | cons letter rest => exact fun hb => hpair letter rest hb rfl

/-- What is read behind a quote is a string of the grammar. -/
theorem stringTail_eq_ok_iff {text rest : List Char} {s : String} :
    stringTail [] text = .ok (s, rest) ↔
      ∃ body cs, quoting.BodyText body cs ∧ text = body ++ '"' :: rest ∧ s = String.ofList cs :=
  Quoting.read_eq_ok_iff (fun done rest => by rw [stringTail]) stringTail_char stringTail_cases

theorem stringText_jsonString (s : String) : StringText (jsonString s) s := by
  have hbody : quoting.BodyText (s.toList.flatMap (encodeChar '"')) s.toList :=
    Quoting.bodyText_encode (q := quoting) .quote escapeLetter_of_escapeLetter?
      (fun hq hb hc => ⟨hq, hb, hc⟩) s.toList
  have hs := StringText.mk hbody
  rwa [String.ofList_toList] at hs

end Json

namespace Path

theorem isQuote_iff {c : Char} : isQuote c = true ↔ c = '\'' ∨ c = '"' := by
  rw [isQuote, Bool.or_eq_true, beq_iff_eq, beq_iff_eq]

theorem unescape?_eq_some_iff {letter c : Char} :
    unescape? letter = some c ↔ EscapeLetter letter c ∨ letter = '\'' ∧ c = '\'' := by
  constructor
  · intro h
    unfold unescape? at h
    split at h <;> cases h
    case h_8 => exact .inr ⟨rfl, rfl⟩
    all_goals exact .inl (by constructor)
  · rintro (h | ⟨rfl, rfl⟩)
    · cases h <;> rfl
    · rfl

/-- In queries text stands between quotes of either kind, and single quotes may be escaped. -/
def quoting (quote : Char) : Quoting where
  plain c := c ≠ quote ∧ c ≠ '\\'
  letter letter c := EscapeLetter letter c ∨ letter = '\'' ∧ c = '\''

/-- The texts of a quoted name, with the quotes. -/
inductive QuotedText : List Char → String → Prop where
  | mk {quote : Char} {body cs : List Char} (hq : quote = '\'' ∨ quote = '"')
      (h : (quoting quote).BodyText body cs) :
      QuotedText (quote :: (body ++ [quote])) (String.ofList cs)

theorem quotedTail_char {quote : Char} {s : List Char} {c : Char}
    (h : (quoting quote).CharText s c) (done rest : List Char) :
    quotedTail quote done (s ++ rest) = quotedTail quote (c :: done) rest := by
  cases h with
  | plain hp =>
    obtain ⟨hq, hb⟩ := hp
    rw [List.singleton_append, quotedTail, if_neg hq]
    · exact fun h => absurd h hb
    · exact fun _ h => absurd h hb
    · exact fun _ _ h => absurd h hb
  | @letter letter _ hl =>
    have hread : unescape? letter = some c := unescape?_eq_some_iff.mpr hl
    rw [List.cons_append, List.singleton_append, quotedTail, hread]
    rintro rfl
    cases hread
  | escape he =>
    rw [List.cons_append, List.cons_append, quotedTail]
    split
    · rename_i heq
      rw [escapedUnits_append he] at heq
      cases heq
      rfl
    · rename_i heq
      rw [escapedUnits_append he] at heq
      cases heq

theorem quotedTail_cases {quote : Char} {done text : List Char} {r : String × List Char}
    (h : quotedTail quote done text = .ok r) :
    (∃ rest, text = quote :: rest) ∨
      ∃ s c rest, (quoting quote).CharText s c ∧ text = s ++ rest := by
  rw [quotedTail.eq_def] at h
  split at h
  · cases h
  · cases h
  · split at h
    · rename_i he
      obtain ⟨s, hs, rfl⟩ := escapeText_of_escapedUnits he
      exact .inr ⟨_, _, _, .escape hs, rfl⟩
    · cases h
  · split at h
    · rename_i hl
      exact .inr ⟨_, _, _, .letter (unescape?_eq_some_iff.mp hl), rfl⟩
    · cases h
  · rename_i c rest hlone _ hpair
    by_cases hq : c = quote
    · exact .inl ⟨rest, by rw [hq]⟩
    · refine .inr ⟨_, _, _, .plain ⟨hq, ?_⟩, rfl⟩
      cases rest with
      | nil => exact fun hb => hlone hb rfl
      | cons letter rest => exact fun hb => hpair letter rest hb rfl

/-- What is read behind a quote is a quoted name of the grammar. -/
theorem quotedTail_eq_ok_iff {quote : Char} (hquote : isQuote quote = true)
    {text rest : List Char} {name : String} :
    quotedTail quote [] text = .ok (name, rest) ↔
      ∃ body cs, (quoting quote).BodyText body cs ∧ text = body ++ quote :: rest ∧
        name = String.ofList cs := by
  have hb : quote ≠ '\\' := by
    rintro rfl
    cases hquote
  refine Quoting.read_eq_ok_iff (fun done rest => ?_) quotedTail_char quotedTail_cases
  rw [quotedTail, if_pos rfl]
  · exact fun h => absurd h hb
  · exact fun _ h => absurd h hb
  · exact fun _ _ h => absurd h hb

theorem quotedText_quotedName (s : String) : QuotedText (quotedName s) s := by
  have hbody : (quoting '\'').BodyText (s.toList.flatMap (encodeChar '\'')) s.toList :=
    Quoting.bodyText_encode (q := quoting '\'') (.inr ⟨rfl, rfl⟩)
      (fun hl => .inl (escapeLetter_of_escapeLetter? hl)) (fun hq hb _ => ⟨hq, hb⟩) s.toList
  have hs := QuotedText.mk (.inl rfl) hbody
  rwa [String.ofList_toList] at hs

end Path

end JsonQuery
