import JsonQuery.Proofs.Path.Grammar
import JsonQuery.Proofs.Text.Reading

/-!
The smallest parts of a query are read by their grammar: names, integers, number literals and
selectors. A part that is the longest of its kind needs something behind it that ends it; what may
stand behind a part in a query always does.
-/

namespace JsonQuery.Path

open Text (skipBlank isBlank bind_eq_ok skipBlank_cons startsWithDigit digits afterDigits minus
  minusText IsDigits takeWhile_append_of_head)
open Numeral (Ends)

theorem blanks_nil : Blanks [] := fun _ h => by cases h

theorem blanks_append {p q : List Char} (hp : Blanks p) (hq : Blanks q) : Blanks (p ++ q) :=
  List.forall_mem_append.mpr ⟨hp, hq⟩

theorem skipBlank_append {p : List Char} (hp : Blanks p) (text : List Char) :
    skipBlank (p ++ text) = skipBlank text := by
  rw [skipBlank, List.dropWhile_append_of_pos hp, skipBlank]

theorem skipBlank_mark {p : List Char} (hp : Blanks p) {c : Char} (hc : isBlank c = false)
    (rest : List Char) : skipBlank (p ++ c :: rest) = c :: rest := by
  rw [skipBlank_append hp, skipBlank_cons hc]

theorem exists_blanks (text : List Char) : ∃ p, Blanks p ∧ text = p ++ skipBlank text :=
  ⟨text.takeWhile isBlank, fun _ hc => List.all_eq_true.mp List.all_takeWhile _ hc,
    List.takeWhile_append_dropWhile.symm⟩

theorem exists_blanks_of_skipBlank {text rest : List Char} (h : skipBlank text = rest) :
    ∃ p, Blanks p ∧ text = p ++ rest :=
  h ▸ exists_blanks text

def blankCodes : List Nat :=
  [0x09, 0x0A, 0x0B, 0x0C, 0x0D, 0x20, 0x85, 0xA0, 0x1680, 0x2000, 0x2001, 0x2002, 0x2003, 0x2004,
    0x2005, 0x2006, 0x2007, 0x2008, 0x2009, 0x200A, 0x2028, 0x2029, 0x202F, 0x205F, 0x3000]

theorem toNat_mem_blankCodes {c : Char} (h : isBlank c = true) : c.toNat ∈ blankCodes := by
  simp only [isBlank, Bool.or_eq_true, Bool.and_eq_true, decide_eq_true_eq, beq_iff_eq] at h
  simp only [blankCodes, List.mem_cons, List.not_mem_nil, or_false]
  omega

theorem isNameChar_of_isBlank {c : Char} (h : isBlank c = true) : isNameChar c = false := by
  have hall : ∀ n ∈ blankCodes, isNameChar (Char.ofNat n) = false := by decide +kernel
  have hc := hall c.toNat (toNat_mem_blankCodes h)
  rwa [Char.ofNat_toNat] at hc

theorem isNameChar_of_isDigit {c : Char} (h : c.isDigit = true) : isNameChar c = true := by
  have hlt : c.toNat < 128 := by
    simp only [Char.isDigit, Bool.and_eq_true, decide_eq_true_eq, ge_iff_le,
      UInt32.le_iff_toNat_le] at h
    have hhigh : c.toNat ≤ 57 := h.2
    omega
  simp [isNameChar, Text.isAlphanumeric, Text.isNumeric, hlt, h]

/-- The text does not go on with a character of names. -/
def EndsName (rest : List Char) : Prop := ∀ c ∈ rest.head?, isNameChar c = false

/-- The text goes on with neither a character of names nor a segment of a reference. -/
def EndsOperand (rest : List Char) : Prop :=
  ∀ c ∈ rest.head?, isNameChar c = false ∧ c ≠ '.' ∧ c ≠ '['

theorem EndsOperand.endsName {rest : List Char} (h : EndsOperand rest) : EndsName rest :=
  fun c hc => (h c hc).1

theorem EndsName.startsWithDigit {rest : List Char} (h : EndsName rest) :
    startsWithDigit rest = false := by
  cases rest with
  | nil => rfl
  | cons c rest =>
    rw [Text.startsWithDigit]
    cases hd : c.isDigit with
    | false => rfl
    | true =>
      have hc := h c rfl
      rw [isNameChar_of_isDigit hd] at hc
      cases hc

theorem EndsOperand.ends {rest : List Char} (h : EndsOperand rest) : Ends rest := by
  refine ⟨h.endsName.startsWithDigit, fun c hc => ⟨(h c hc).2.1, ?_, ?_⟩⟩
  · rintro rfl
    exact absurd (h 'e' hc).1 (by decide)
  · rintro rfl
    exact absurd (h 'E' hc).1 (by decide)

theorem head?_of_skipBlank {P : Char → Prop} (hblank : ∀ c, isBlank c = true → P c)
    {rest : List Char} (h : ∀ c ∈ (skipBlank rest).head?, P c) : ∀ c ∈ rest.head?, P c := by
  cases rest with
  | nil => exact h
  | cons c rest =>
    cases hb : isBlank c with
    | true =>
      rintro _ ⟨⟩
      exact hblank c hb
    | false => rwa [skipBlank_cons hb] at h

theorem endsName_of_skipBlank {rest : List Char} (h : EndsName (skipBlank rest)) :
    EndsName rest :=
  head?_of_skipBlank (fun _ => isNameChar_of_isBlank) h

/-- What ends an operand behind blanks ends it without them. -/
theorem endsOperand_of_skipBlank {rest : List Char} (h : EndsOperand (skipBlank rest)) :
    EndsOperand rest := by
  refine head?_of_skipBlank (fun c hc => ⟨isNameChar_of_isBlank hc, ?_, ?_⟩) h
  · rintro rfl
    cases hc
  · rintro rfl
    cases hc

theorem NameText.head {s : List Char} {name : String} (h : NameText s name) :
    ∃ c t, s = c :: t ∧ isNameChar c = true := by
  cases h with
  | mk hne hs =>
    obtain ⟨c, t, rfl⟩ := List.exists_cons_of_ne_nil hne
    exact ⟨c, t, rfl, hs c List.mem_cons_self⟩

theorem NameText.append_ne_cons {s : List Char} {name : String} (h : NameText s name) {mark : Char}
    (hmark : isNameChar mark = false) (rest t : List Char) : s ++ rest ≠ mark :: t := by
  obtain ⟨c, u, rfl, hc⟩ := h.head
  intro heq
  rw [(List.cons.inj heq).1, hmark] at hc
  cases hc

theorem NameText.skipBlank_append {s : List Char} {name : String} (h : NameText s name)
    (rest : List Char) : skipBlank (s ++ rest) = s ++ rest := by
  obtain ⟨c, t, rfl, hc⟩ := h.head
  rw [List.cons_append, skipBlank_cons]
  cases hb : isBlank c with
  | false => rfl
  | true =>
    rw [isNameChar_of_isBlank hb] at hc
    cases hc

theorem memberName_append {s rest : List Char} {name : String} (h : NameText s name)
    (hr : EndsName rest) (expected : Expected) :
    memberName expected (s ++ rest) = .ok (name, rest) := by
  cases h with
  | mk hne hs =>
    obtain ⟨htake, hdrop⟩ := takeWhile_append_of_head hs hr
    rw [memberName, htake, hdrop]
    split
    · exact absurd rfl hne
    · rfl

theorem nameText_of_memberName {expected : Expected} {text rest : List Char} {name : String}
    (h : memberName expected text = .ok (name, rest)) :
    ∃ s, NameText s name ∧ text = s ++ rest := by
  unfold memberName at h
  split at h
  · cases h
  · rename_i hne
    cases h
    refine ⟨_, .mk hne ?_, List.takeWhile_append_dropWhile.symm⟩
    exact fun c hc => List.all_eq_true.mp List.all_takeWhile c hc

theorem startsInteger_cases {c : Char} (h : startsInteger c = true) :
    c = '-' ∨ c.isDigit = true := by
  simpa [startsInteger] using h

theorem isBlank_of_startsInteger {c : Char} (h : startsInteger c = true) : isBlank c = false := by
  rcases startsInteger_cases h with rfl | h
  · decide
  · exact Text.isBlank_of_isDigit h

/-- An integer begins with none of the characters that begin something else. -/
theorem ne_of_startsInteger {c mark : Char} (h : startsInteger c = true)
    (hm : startsInteger mark = false) : c ≠ mark := by
  rintro rfl
  rw [h] at hm
  cases hm

theorem isQuote_of_startsInteger {c : Char} (h : startsInteger c = true) : isQuote c = false := by
  simp only [isQuote, Bool.or_eq_false_iff, beq_eq_false_iff_ne]
  exact ⟨ne_of_startsInteger h (by decide), ne_of_startsInteger h (by decide)⟩

theorem startsInteger_head {ds : List Char} (negative : Bool) (hd : IsDigits ds) (t : List Char) :
    ∃ c u, minusText negative ++ (ds ++ t) = c :: u ∧ startsInteger c = true := by
  cases negative with
  | true => exact ⟨_, _, rfl, rfl⟩
  | false =>
    obtain ⟨hne, hall⟩ := hd
    obtain ⟨d, ds, rfl⟩ := List.exists_cons_of_ne_nil hne
    refine ⟨d, _, rfl, ?_⟩
    rw [startsInteger, hall d List.mem_cons_self, Bool.or_true]

theorem IntegerText.head {s : List Char} {n : Int} (h : IntegerText s n) :
    ∃ c t, s = c :: t ∧ startsInteger c = true := by
  cases h with
  | mk negative hd _ =>
    have h := startsInteger_head negative hd []
    rwa [List.append_nil] at h

theorem integer_append {s rest : List Char} {n : Int} (h : IntegerText s n)
    (hr : startsWithDigit rest = false) : integer (s ++ rest) = .ok (n, rest) := by
  cases h with
  | mk negative hd hn =>
    simp only [integer, List.append_assoc, Numeral.minus_append negative hd,
      Text.startsWithDigit_append hd, Text.digits_append hd.2 hr, Text.afterDigits_append hd.2 hr,
      if_true, hn]

theorem integerText_of_integer {text rest : List Char} {n : Int}
    (h : integer text = .ok (n, rest)) : ∃ s, IntegerText s n ∧ text = s ++ rest := by
  simp only [integer] at h
  split at h
  · rename_i hd
    split at h
    · rename_i hn
      cases h
      refine ⟨_, .mk _ (Text.isDigits_digits hd) hn, ?_⟩
      rw [List.append_assoc, Text.digits_append_afterDigits, Numeral.minus_append_rest]
    · cases h
  · cases h

/-- A bound behind blanks is read up to something that begins no integer. -/
theorem integer?_append {s rest : List Char} {n : Option Int} (h : BoundText s n)
    (hd : startsWithDigit rest = false)
    (hr : ∀ c ∈ (skipBlank rest).head?, startsInteger c = false) :
    ∃ rest', integer? (s ++ rest) = .ok (n, rest') ∧ skipBlank rest' = skipBlank rest := by
  cases h with
  | none =>
    refine ⟨skipBlank rest, ?_, Text.skipBlank_skipBlank rest⟩
    rw [List.nil_append, integer?]
    split
    · rename_i c t hb
      have hc := hr c (by rw [hb]; rfl)
      rw [hb]
      simp only [hc, Bool.false_eq_true, if_false]
    · rename_i hb
      rw [hb]
  | some hs =>
    have hread := integer_append hs hd
    obtain ⟨c, t, rfl, hc⟩ := hs.head
    rw [List.cons_append] at hread
    refine ⟨rest, ?_, rfl⟩
    rw [List.cons_append, integer?, skipBlank_cons (isBlank_of_startsInteger hc)]
    simp only [hc, if_true, hread, bind, Except.bind, pure, Except.pure]

theorem boundText_of_integer? {text rest : List Char} {n : Option Int}
    (h : integer? text = .ok (n, rest)) :
    ∃ p s, Blanks p ∧ BoundText s n ∧ text = p ++ (s ++ rest) := by
  unfold integer? at h
  split at h
  · rename_i c t hb
    obtain ⟨p, hp, rfl⟩ := exists_blanks_of_skipBlank hb
    split at h
    · obtain ⟨⟨m, rest'⟩, hm, h⟩ := bind_eq_ok.mp h
      cases h
      obtain ⟨s, hs, heq⟩ := integerText_of_integer hm
      exact ⟨p, s, hp, .some hs, by rw [heq]⟩
    · cases h
      exact ⟨p, [], hp, .none, rfl⟩
  · rename_i hb
    obtain ⟨p, hp, rfl⟩ := exists_blanks_of_skipBlank hb
    cases h
    exact ⟨p, [], hp, .none, rfl⟩

theorem NumberText.head {s : List Char} {x : Number} (h : NumberText s x) :
    ∃ c t, s = c :: t ∧ startsInteger c = true := by
  cases h with
  | mk negative hd _ _ _ => exact startsInteger_head negative hd _

theorem numberLiteral_append {s rest : List Char} {x : Number} (h : NumberText s x)
    (hr : Ends rest) : numberLiteral (s ++ rest) = .ok (x, rest) := by
  cases h with
  | mk negative hd hf he hn =>
    have hde := Numeral.startsWithDigit_exponent he hr
    have hdf := Numeral.startsWithDigit_fraction hf hde
    have hfraction := Numeral.pathFractionPart_append hf hde (Numeral.exponent_ne_point he hr)
    have hexponent := Numeral.exponentPart_append
      (fun text _ => (⟨.malformed .exponent, text⟩ : Fault)) he hr
    simp only [numberLiteral, exponentPart, List.append_assoc, Numeral.minus_append negative hd,
      Text.startsWithDigit_append hd, if_true, Text.digits_append hd.2 hdf,
      Text.afterDigits_append hd.2 hdf, hfraction, hexponent, bind, Except.bind, pure, Except.pure,
      hn]

theorem numberText_of_numberLiteral {text rest : List Char} {x : Number}
    (h : numberLiteral text = .ok (x, rest)) : ∃ s, NumberText s x ∧ text = s ++ rest := by
  simp only [numberLiteral] at h
  split at h
  · rename_i hd
    obtain ⟨⟨exponent, rest'⟩, he, h⟩ := bind_eq_ok.mp h
    simp only at h
    split at h
    · rename_i hn
      cases h
      have hparts : fractionPart (afterDigits (minus text).2) =
          ((fractionPart (afterDigits (minus text).2)).1,
            (fractionPart (afterDigits (minus text).2)).2) := rfl
      obtain ⟨f, hf, hfraction⟩ := Numeral.fractionText_of_pathFractionPart hparts
      obtain ⟨e, hexp, hexponent⟩ := Numeral.exponentText_of_exponentPart he
      refine ⟨_, .mk _ (Text.isDigits_digits hd) hf hexp hn, ?_⟩
      rw [List.append_assoc, List.append_assoc, List.append_assoc, ← hexponent, ← hfraction,
        Text.digits_append_afterDigits, Numeral.minus_append_rest]
    · cases h
  · cases h

theorem QuotedText.head {s : List Char} {name : String} (h : QuotedText s name) :
    ∃ c t, s = c :: t ∧ isQuote c = true := by
  cases h with
  | mk hq _ => exact ⟨_, _, rfl, isQuote_iff.mpr hq⟩

theorem isBlank_of_isQuote {c : Char} (h : isQuote c = true) : isBlank c = false := by
  rcases isQuote_iff.mp h with rfl | rfl <;> decide

/-- Behind its first quote a quoted name is read up to the other one. -/
theorem quotedTail_append {s : List Char} {name : String} (h : QuotedText s name)
    (rest : List Char) :
    ∃ c t, s ++ rest = c :: t ∧ isQuote c = true ∧ quotedTail c [] t = .ok (name, rest) := by
  cases h with
  | mk hq hbody =>
    rw [← isQuote_iff] at hq
    refine ⟨_, _, rfl, hq, (quotedTail_eq_ok_iff hq).mpr ⟨_, _, hbody, ?_, rfl⟩⟩
    rw [List.append_eq, List.append_assoc, List.singleton_append]

theorem quotedText_of_quotedTail {c : Char} (hc : isQuote c = true) {text rest : List Char}
    {name : String} (h : quotedTail c [] text = .ok (name, rest)) :
    ∃ s, QuotedText s name ∧ c :: text = s ++ rest := by
  obtain ⟨body, cs, hbody, rfl, rfl⟩ := (quotedTail_eq_ok_iff hc).mp h
  refine ⟨_, .mk (isQuote_iff.mp hc) hbody, ?_⟩
  rw [List.cons_append, List.append_assoc, List.singleton_append]

theorem SelectorText.head {s : List Char} {selector : Selector} (h : SelectorText s selector) :
    ∃ c t, s = c :: t ∧ (isQuote c = true ∨ startsInteger c = true) := by
  cases h with
  | name hs =>
    obtain ⟨c, t, hs, hc⟩ := hs.head
    exact ⟨c, t, hs, .inl hc⟩
  | index hs =>
    obtain ⟨c, t, hs, hc⟩ := hs.head
    exact ⟨c, t, hs, .inr hc⟩

theorem SelectorText.skipBlank_append {s : List Char} {sel : Selector} (h : SelectorText s sel)
    (rest : List Char) : skipBlank (s ++ rest) = s ++ rest := by
  obtain ⟨c, t, rfl, hc⟩ := h.head
  rw [List.cons_append, skipBlank_cons]
  rcases hc with hc | hc
  · exact isBlank_of_isQuote hc
  · exact isBlank_of_startsInteger hc

theorem selector_append {s rest : List Char} {sel : Selector} (h : SelectorText s sel)
    (hr : startsWithDigit rest = false) : selector (s ++ rest) = .ok (sel, rest) := by
  cases h with
  | name hs =>
    obtain ⟨c, t, heq, hc, hread⟩ := quotedTail_append hs rest
    simp only [heq, selector, hc, if_true, hread, bind, Except.bind, pure, Except.pure]
  | index hs =>
    have hread := integer_append hs hr
    obtain ⟨c, t, rfl, hc⟩ := hs.head
    rw [List.cons_append] at hread ⊢
    simp only [selector, isQuote_of_startsInteger hc, hc, Bool.false_eq_true, if_false, if_true,
      hread, bind, Except.bind, pure, Except.pure]

theorem selectorText_of_selector {text rest : List Char} {sel : Selector}
    (h : selector text = .ok (sel, rest)) : ∃ s, SelectorText s sel ∧ text = s ++ rest := by
  unfold selector at h
  split at h
  · split at h
    · rename_i hc
      obtain ⟨⟨name, rest'⟩, hname, h⟩ := bind_eq_ok.mp h
      cases h
      obtain ⟨s, hs, heq⟩ := quotedText_of_quotedTail hc hname
      exact ⟨s, .name hs, heq⟩
    · split at h
      · obtain ⟨⟨n, rest'⟩, hn, h⟩ := bind_eq_ok.mp h
        cases h
        obtain ⟨s, hs, heq⟩ := integerText_of_integer hn
        exact ⟨s, .index hs, heq⟩
      · cases h
  · cases h

end JsonQuery.Path
