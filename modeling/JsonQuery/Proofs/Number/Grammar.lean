import JsonQuery.Json.NumberLiteral
import JsonQuery.Path.Lexeme

/-!
The grammar of number texts in documents, and its two readers. The reader of documents accepts
exactly this grammar. The reader of queries accepts it too, with the same numeral.
-/

namespace JsonQuery

namespace Text

/-- Digits, at least one. -/
def IsDigits (ds : List Char) : Prop := ds ≠ [] ∧ ∀ d ∈ ds, d.isDigit = true

theorem isDigits_zero : IsDigits ['0'] := ⟨by simp, by simp⟩

theorem startsWithDigit_append {ds : List Char} (h : IsDigits ds) (rest : List Char) :
    startsWithDigit (ds ++ rest) = true := by
  obtain ⟨hne, hall⟩ := h
  cases ds with
  | nil => exact absurd rfl hne
  | cons d ds => exact hall d List.mem_cons_self

theorem digits_append {ds rest : List Char} (h : ∀ d ∈ ds, d.isDigit = true)
    (hr : startsWithDigit rest = false) : digits (ds ++ rest) = ds := by
  rw [digits, List.takeWhile_append_of_pos h]
  cases rest with
  | nil => simp
  | cons c rest =>
    simp only [startsWithDigit] at hr
    simp [hr]

theorem afterDigits_append {ds rest : List Char} (h : ∀ d ∈ ds, d.isDigit = true)
    (hr : startsWithDigit rest = false) : afterDigits (ds ++ rest) = rest := by
  have happ := digits_append_afterDigits (ds ++ rest)
  rw [digits_append h hr] at happ
  exact List.append_cancel_left happ

theorem isDigits_digits {text : List Char} (h : startsWithDigit text = true) :
    IsDigits (digits text) := by
  constructor
  · cases text with
    | nil => simp [startsWithDigit] at h
    | cons c text =>
      simp only [startsWithDigit] at h
      simp [digits, h]
  · exact fun d hd => List.all_eq_true.mp List.all_takeWhile d hd

/-- The sign of a number text. -/
def minusText (negative : Bool) : List Char := if negative then ['-'] else []

/-- The texts of a sign, with whether it is negative. -/
inductive SignText : List Char → Bool → Prop where
  | none : SignText [] false
  | plus : SignText ['+'] false
  | minus : SignText ['-'] true

theorem sign_append {s ds : List Char} {negative : Bool} (hs : SignText s negative)
    (hd : IsDigits ds) (rest : List Char) :
    sign (s ++ (ds ++ rest)) = (negative, ds ++ rest) := by
  cases hs with
  | plus => rfl
  | minus => rfl
  | none =>
    obtain ⟨hne, hall⟩ := hd
    cases ds with
    | nil => exact absurd rfl hne
    | cons d ds =>
      have hdigit := hall d List.mem_cons_self
      simp only [List.nil_append, List.cons_append, sign]
      split
      · rename_i heq
        simp only [List.cons.injEq] at heq
        simp [heq.1] at hdigit
      · rename_i heq
        simp only [List.cons.injEq] at heq
        simp [heq.1] at hdigit
      · rfl

theorem exists_signText (text : List Char) :
    ∃ s, SignText s (sign text).1 ∧ text = s ++ (sign text).2 := by
  unfold sign
  split
  · exact ⟨_, .minus, rfl⟩
  · exact ⟨_, .plus, rfl⟩
  · exact ⟨_, .none, rfl⟩

end Text

namespace Numeral

open Text

/-- The digits before the point: a lone zero, or digits that begin with another one. -/
def IsWhole (ds : List Char) : Prop := ds = ['0'] ∨ IsDigits ds ∧ ds.head? ≠ some '0'

/-- The texts of a fraction, if any, with its digits. -/
inductive FractionText : List Char → List Char → Prop where
  | none : FractionText [] []
  | some {ds : List Char} (h : IsDigits ds) : FractionText ('.' :: ds) ds

/-- The texts of an exponent, if any, with its value. -/
inductive ExponentText : List Char → Int → Prop where
  | none : ExponentText [] 0
  | some {mark : Char} {s ds : List Char} {negative : Bool} (hm : mark = 'e' ∨ mark = 'E')
      (hs : SignText s negative) (hd : IsDigits ds) :
      ExponentText (mark :: (s ++ ds)) (signed negative (natOfDigits ds))

/-- The number texts of documents, each with its numeral. -/
inductive NumeralText : List Char → Numeral → Prop where
  | mk {whole f fraction e : List Char} {exponent : Int} (negative : Bool) (hw : IsWhole whole)
      (hf : FractionText f fraction) (he : ExponentText e exponent) :
      NumeralText (minusText negative ++ (whole ++ (f ++ e)))
        ⟨negative, whole, fraction, exponent⟩

/-- What may stand behind a number text without being read as a part of it. -/
def Ends (rest : List Char) : Prop :=
  startsWithDigit rest = false ∧ ∀ c ∈ rest.head?, c ≠ '.' ∧ c ≠ 'e' ∧ c ≠ 'E'

theorem ends_nil : Ends [] := ⟨rfl, by simp⟩

theorem ends_cons {c : Char} (h : c.isDigit = false ∧ c ≠ '.' ∧ c ≠ 'e' ∧ c ≠ 'E')
    (rest : List Char) : Ends (c :: rest) := by
  refine ⟨h.1, ?_⟩
  intro d hd
  simp only [List.head?_cons, Option.mem_some] at hd
  exact hd ▸ h.2

theorem IsWhole.isDigits {ds : List Char} (h : IsWhole ds) : IsDigits ds := by
  rcases h with rfl | h
  · exact ⟨by simp, by simp⟩
  · exact h.1

theorem startsWithDigit_exponent {e rest : List Char} {exponent : Int}
    (he : ExponentText e exponent) (hr : Ends rest) : startsWithDigit (e ++ rest) = false := by
  cases he with
  | none => exact hr.1
  | some hm => rcases hm with rfl | rfl <;> rfl

theorem startsWithDigit_fraction {f fraction rest : List Char} (hf : FractionText f fraction)
    (hr : startsWithDigit rest = false) : startsWithDigit (f ++ rest) = false := by
  cases hf with
  | none => exact hr
  | some => rfl

theorem exponent_ne_point {e rest : List Char} {exponent : Int} (he : ExponentText e exponent)
    (hr : Ends rest) (rest' : List Char) : e ++ rest ≠ '.' :: rest' := by
  intro h
  cases he with
  | none => exact (hr.2 '.' (by simp_all)).1 rfl
  | some hm => rcases hm with rfl | rfl <;> simp at h

theorem minus_append {whole : List Char} (negative : Bool) (hw : IsDigits whole)
    (rest : List Char) :
    minus (minusText negative ++ (whole ++ rest)) = (negative, whole ++ rest) := by
  cases negative with
  | true => rfl
  | false =>
    obtain ⟨hne, hall⟩ := hw
    cases whole with
    | nil => exact absurd rfl hne
    | cons d ds =>
      have hdigit := hall d List.mem_cons_self
      simp only [minusText, Bool.false_eq_true, if_false, List.nil_append, List.cons_append, minus]
      split
      · rename_i heq
        simp only [List.cons.injEq] at heq
        simp [heq.1] at hdigit
      · rfl

theorem minus_append_rest (text : List Char) :
    minusText (minus text).1 ++ (minus text).2 = text := by
  unfold minus
  split <;> rfl

theorem wholePart_append {whole rest : List Char} (hw : IsWhole whole)
    (hr : startsWithDigit rest = false) : Json.wholePart (whole ++ rest) = .ok (whole, rest) := by
  rcases hw with rfl | ⟨hd, hz⟩
  · rfl
  · unfold Json.wholePart
    split
    · rename_i heq
      obtain ⟨hne, -⟩ := hd
      cases whole with
      | nil => exact absurd rfl hne
      | cons d ds =>
        simp only [List.cons_append, List.cons.injEq] at heq
        simp [heq.1] at hz
    · rw [if_pos (startsWithDigit_append hd rest), digits_append hd.2 hr,
        afterDigits_append hd.2 hr]

theorem isWhole_of_wholePart {text whole rest : List Char}
    (h : Json.wholePart text = .ok (whole, rest)) : IsWhole whole ∧ text = whole ++ rest := by
  unfold Json.wholePart at h
  split at h
  · simp only [Except.ok.injEq, Prod.mk.injEq] at h
    obtain ⟨rfl, rfl⟩ := h
    exact ⟨.inl rfl, rfl⟩
  · rename_i hz
    split at h
    · rename_i hd
      simp only [Except.ok.injEq, Prod.mk.injEq] at h
      obtain ⟨rfl, rfl⟩ := h
      refine ⟨.inr ⟨isDigits_digits hd, ?_⟩, (digits_append_afterDigits text).symm⟩
      intro h0
      have happ := digits_append_afterDigits text
      cases hds : digits text with
      | nil => simp [hds] at h0
      | cons d ds =>
        simp only [hds, List.head?_cons, Option.some.injEq] at h0
        rw [hds, h0] at happ
        exact hz _ happ.symm
    · cases h

theorem fractionPart_append {f fraction rest : List Char} (hf : FractionText f fraction)
    (hd : startsWithDigit rest = false) (hp : ∀ rest', rest ≠ '.' :: rest') :
    Json.fractionPart (f ++ rest) = .ok (fraction, rest) := by
  cases hf with
  | none =>
    unfold Json.fractionPart
    split
    · rename_i rest' heq
      exact absurd heq (hp rest')
    · rfl
  | some h =>
    simp only [List.cons_append, Json.fractionPart]
    rw [if_pos (startsWithDigit_append h rest), digits_append h.2 hd, afterDigits_append h.2 hd]

theorem fractionText_of_fractionPart {text fraction rest : List Char}
    (h : Json.fractionPart text = .ok (fraction, rest)) :
    ∃ f, FractionText f fraction ∧ text = f ++ rest := by
  unfold Json.fractionPart at h
  split at h
  · rename_i rest'
    split at h
    · rename_i hd
      simp only [Except.ok.injEq, Prod.mk.injEq] at h
      obtain ⟨rfl, rfl⟩ := h
      refine ⟨_, .some (isDigits_digits hd), ?_⟩
      rw [List.cons_append, digits_append_afterDigits]
    · cases h
  · simp only [Except.ok.injEq, Prod.mk.injEq] at h
    obtain ⟨rfl, rfl⟩ := h
    exact ⟨_, .none, rfl⟩

variable {Cause : Type}

theorem exponentDigits_append {s ds rest : List Char} {negative : Bool}
    (refuse : List Char → Fault Cause) (hs : SignText s negative) (hd : IsDigits ds) (hr : startsWithDigit rest = false) :
    exponentDigits refuse (s ++ ds ++ rest) =
      .ok (signed negative (natOfDigits ds), rest) := by
  simp only [exponentDigits, List.append_assoc, sign_append hs hd,
    startsWithDigit_append hd rest, if_true, digits_append hd.2 hr, afterDigits_append hd.2 hr]

theorem exponentPart_append {e rest : List Char} {exponent : Int}
    (refuse : List Char → List Char → Fault Cause) (he : ExponentText e exponent)
    (hr : Ends rest) :
    exponentPart refuse (e ++ rest) = .ok (exponent, rest) := by
  cases he with
  | none =>
    simp only [List.nil_append, exponentPart]
    split
    · exact absurd rfl (hr.2 'e' (by simp)).2.1
    · exact absurd rfl (hr.2 'E' (by simp)).2.2
    · rfl
  | some hm hs hd =>
    rcases hm with rfl | rfl <;>
      simpa only [List.cons_append, exponentPart] using exponentDigits_append _ hs hd hr.1

theorem exponentText_of_exponentDigits {mark : Char} (hm : mark = 'e' ∨ mark = 'E')
    {refuse : List Char → Fault Cause} {text rest : List Char} {exponent : Int}
    (h : exponentDigits refuse text = .ok (exponent, rest)) :
    ∃ e, ExponentText e exponent ∧ mark :: text = e ++ rest := by
  unfold exponentDigits at h
  obtain ⟨s, hs, htext⟩ := exists_signText text
  simp only at h
  split at h
  · rename_i hd
    simp only [Except.ok.injEq, Prod.mk.injEq] at h
    obtain ⟨rfl, rfl⟩ := h
    refine ⟨_, .some hm hs (isDigits_digits hd), ?_⟩
    rw [List.cons_append, List.append_assoc, digits_append_afterDigits, ← htext]
  · cases h

theorem exponentText_of_exponentPart {refuse : List Char → List Char → Fault Cause}
    {text rest : List Char} {exponent : Int}
    (h : exponentPart refuse text = .ok (exponent, rest)) :
    ∃ e, ExponentText e exponent ∧ text = e ++ rest := by
  unfold exponentPart at h
  split at h
  · exact exponentText_of_exponentDigits (.inl rfl) h
  · exact exponentText_of_exponentDigits (.inr rfl) h
  · simp only [Except.ok.injEq, Prod.mk.injEq] at h
    obtain ⟨rfl, rfl⟩ := h
    exact ⟨_, .none, rfl⟩

theorem numeral_append {s rest : List Char} {n : Numeral} (h : NumeralText s n)
    (hr : Ends rest) : Json.numeral (s ++ rest) = .ok (n, rest) := by
  cases h with
  | mk negative hw hf he =>
    have hde := startsWithDigit_exponent he hr
    have hwhole := wholePart_append hw (startsWithDigit_fraction hf hde)
    have hfraction := fractionPart_append hf hde (exponent_ne_point he hr)
    simp only [Json.numeral, List.append_assoc, minus_append negative hw.isDigits, hwhole,
      hfraction, Json.exponentPart, exponentPart_append _ he hr, bind, Except.bind, pure, Except.pure]

theorem numeralText_of_numeral {text rest : List Char} {n : Numeral}
    (h : Json.numeral text = .ok (n, rest)) : ∃ s, NumeralText s n ∧ text = s ++ rest := by
  simp only [Json.numeral, bind, Except.bind, pure, Except.pure] at h
  split at h
  · cases h
  rename_i w hw
  split at h
  · cases h
  rename_i f hf
  split at h
  · cases h
  rename_i e he
  simp only [Except.ok.injEq, Prod.mk.injEq] at h
  obtain ⟨rfl, rfl⟩ := h
  obtain ⟨hwhole, hw⟩ := isWhole_of_wholePart hw
  obtain ⟨ft, hft, hf⟩ := fractionText_of_fractionPart hf
  obtain ⟨et, het, he⟩ := exponentText_of_exponentPart he
  refine ⟨_, .mk _ hwhole hft het, ?_⟩
  rw [List.append_assoc, List.append_assoc, List.append_assoc, ← he, ← hf, ← hw,
    minus_append_rest]

theorem pathFractionPart_append {f fraction rest : List Char} (hf : FractionText f fraction)
    (hd : startsWithDigit rest = false) (hp : ∀ rest', rest ≠ '.' :: rest') :
    Path.fractionPart (f ++ rest) = (fraction, rest) := by
  cases hf with
  | none =>
    rw [List.nil_append]
    unfold Path.fractionPart
    split
    · exact absurd rfl (hp _)
    · rfl
  | some h =>
    simp only [List.cons_append, Path.fractionPart]
    rw [if_pos (startsWithDigit_append h rest), digits_append h.2 hd, afterDigits_append h.2 hd]

theorem fractionText_of_pathFractionPart {text fraction rest : List Char}
    (h : Path.fractionPart text = (fraction, rest)) :
    ∃ f, FractionText f fraction ∧ text = f ++ rest := by
  unfold Path.fractionPart at h
  split at h
  · split at h
    · rename_i hd
      cases h
      refine ⟨_, .some (isDigits_digits hd), ?_⟩
      rw [List.cons_append, digits_append_afterDigits]
    · cases h
      exact ⟨_, .none, rfl⟩
  · cases h
    exact ⟨_, .none, rfl⟩

end Numeral

end JsonQuery
