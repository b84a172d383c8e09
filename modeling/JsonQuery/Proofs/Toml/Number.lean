import JsonQuery.Proofs.Toml.Space

/-!
Integers and real numbers. Their words are no dates, and a word of a real number is none of an
integer.
-/

namespace JsonQuery.Toml

theorem GroupedText.mem {isDigit : Char → Bool} {t ds : List Char} (h : GroupedText isDigit t ds) :
    ∀ c ∈ t, isDigit c = true ∨ c = '_' := by
  induction h with
  | last h => simp [h]
  | next h _ ih => simpa [h] using ih
  | group h _ ih => simpa [h] using ih

theorem GroupedText.digit {isDigit : Char → Bool} {t ds : List Char}
    (h : GroupedText isDigit t ds) : ∀ d ∈ ds, isDigit d = true := by
  induction h with
  | last h => simp [h]
  | next h _ ih => simpa [h] using ih
  | group h _ ih => simpa [h] using ih

theorem GroupedText.exists_cons {isDigit : Char → Bool} {t ds : List Char}
    (h : GroupedText isDigit t ds) : ∃ d t', t = d :: t' ∧ isDigit d = true := by
  cases h with
  | last h => exact ⟨_, _, rfl, h⟩
  | next h => exact ⟨_, _, rfl, h⟩
  | group h => exact ⟨_, _, rfl, h⟩

theorem GroupedText.ungrouped?_eq {isDigit : Char → Bool} {t ds : List Char}
    (h : GroupedText isDigit t ds) (hmark : isDigit '_' = false) :
    ungrouped? isDigit t = some ds := by
  induction h with
  | last h => simp [ungrouped?, h]
  | group h _ ih => simp [ungrouped?, h, ih]
  | next h ht ih =>
    obtain ⟨d', t', rfl, hd'⟩ := ht.exists_cons
    have hne : d' ≠ '_' := by
      rintro rfl
      rw [hmark] at hd'
      cases hd'
    rw [ungrouped?]
    · rw [if_pos h, ih]
      rfl
    · rintro ⟨⟩
    · rintro _ ⟨⟩
      exact hne rfl

/-- A text with anything but digits and underscores is no run of digits. -/
theorem mem_of_ungrouped? {isDigit : Char → Bool} {t ds : List Char}
    (h : ungrouped? isDigit t = some ds) : ∀ c ∈ t, isDigit c = true ∨ c = '_' := by
  fun_induction ungrouped? isDigit t generalizing ds with
  | case1 => cases h
  | case2 d hd => simp [hd]
  | case3 => cases h
  | case4 d rest hd ih =>
    obtain ⟨ds, hds, rfl⟩ := Option.map_eq_some_iff.mp h
    simpa [hd] using ih hds
  | case5 => cases h
  | case6 d rest _ _ hd ih =>
    obtain ⟨ds, hds, rfl⟩ := Option.map_eq_some_iff.mp h
    simpa [hd] using ih hds
  | case7 => cases h

theorem WholeText.wholeDigits?_eq {t ds : List Char} (h : WholeText t ds) :
    wholeDigits? t = some ds := by
  rw [wholeDigits?]
  · exact h.grouped.ungrouped?_eq rfl
  · rintro c rest rfl
    rcases h.lead with h | h
    · cases h
    · exact h rfl

theorem GroupedText.sign_append {s t ds : List Char} {negative : Bool}
    (hs : Text.SignText s negative) (ht : GroupedText Char.isDigit t ds) (rest : List Char) :
    Text.sign (s ++ (t ++ rest)) = (negative, t ++ rest) := by
  obtain ⟨d, t', rfl, hd⟩ := ht.exists_cons
  have hfirst : Text.IsDigits [d] := ⟨List.cons_ne_nil d [], by simpa using hd⟩
  exact Text.sign_append hs hfirst (t' ++ rest)

theorem isAlphanum_of_isDigit {c : Char} (h : c.isDigit = true) : c.isAlphanum = true :=
  Bool.or_eq_true_iff.mpr (.inr h)

theorem isAlphanum_of_isDigitOf {base : Nat} {c : Char} (h : isDigitOf base c = true) :
    c.isAlphanum = true := by
  unfold isDigitOf Text.hexValue? at h
  split at h
  · rename_i hdigit
    exact isAlphanum_of_isDigit hdigit
  · apply Bool.or_eq_true_iff.mpr
    apply Or.inl
    split at h
    · rename_i hc
      have hle : c ≤ 'z' := Char.le_trans hc.2 (by decide)
      have hlower : c.isLower = true :=
        Bool.and_eq_true_iff.mpr ⟨decide_eq_true hc.1, decide_eq_true hle⟩
      exact Bool.or_eq_true_iff.mpr (.inr hlower)
    · split at h
      · rename_i hc
        have hle : c ≤ 'Z' := Char.le_trans hc.2 (by decide)
        have hupper : c.isUpper = true := decide_eq_true ⟨hc.1, hle⟩
        exact Bool.or_eq_true_iff.mpr (.inl hupper)
      · cases h

def isNumeric (c : Char) : Bool := isWordChar c && c != ':'

theorem isNumeric_of_isAlphanum {c : Char} (h : c.isAlphanum = true) : isNumeric c = true := by
  have hne : c ≠ ':' := by
    rintro rfl
    cases h
  simp [isNumeric, isWordChar, h, hne]

theorem isNumeric_of_sign {s : List Char} {negative : Bool} (h : Text.SignText s negative) :
    ∀ c ∈ s, isNumeric c = true := by
  cases h with
  | none => simp
  | plus => simp [isNumeric, isWordChar]
  | minus => simp [isNumeric, isWordChar]

theorem GroupedText.isNumeric {isDigit : Char → Bool} {t ds : List Char}
    (h : GroupedText isDigit t ds) (hdigit : ∀ c, isDigit c = true → c.isAlphanum = true) :
    ∀ c ∈ t, isNumeric c = true := by
  intro c hc
  rcases h.mem c hc with hd | rfl
  · exact isNumeric_of_isAlphanum (hdigit c hd)
  · rfl

theorem GroupedText.isNumeric_decimal {t ds : List Char} (h : GroupedText Char.isDigit t ds) :
    ∀ c ∈ t, Toml.isNumeric c = true :=
  h.isNumeric fun _ => isAlphanum_of_isDigit

theorem not_isDigitOf_mark (base : Nat) : isDigitOf base '_' = false := by
  simp [isDigitOf, Text.hexValue?]

theorem inRange?_eq {n : Int} (h : InRange n) : inRange? n = some n := if_pos h

theorem all_lt_of_mapM_hexValue? {base : Nat} {ds : List Char} {values : List Nat}
    (hv : ds.mapM Text.hexValue? = some values) (hd : ∀ d ∈ ds, isDigitOf base d = true) :
    values.all (· < base) = true := by
  induction ds generalizing values with
  | nil =>
    cases hv
    rfl
  | cons d ds ih =>
    simp only [List.mapM_cons, Option.bind_eq_bind, Option.bind_eq_some_iff, Option.pure_def,
      Option.some.injEq] at hv
    obtain ⟨value, hvalue, values, hv, rfl⟩ := hv
    have hfirst := hd d List.mem_cons_self
    simp only [isDigitOf, hvalue, Option.any_some] at hfirst
    rw [List.all_cons, hfirst, ih hv fun d' hd' => hd d' (List.mem_cons_of_mem d hd')]
    rfl

theorem integer?_decimal {s t ds : List Char} {negative : Bool} (hs : Text.SignText s negative)
    (ht : WholeText t ds) (hn : InRange (Text.signed negative (Text.natOfDigits ds))) :
    integer? (s ++ t) = some (Text.signed negative (Text.natOfDigits ds)) := by
  have hmarked : ∀ c rest, s ++ t ≠ '0' :: c :: rest := by
    intro c rest
    cases hs with
    | plus => rintro ⟨⟩
    | minus => rintro ⟨⟩
    | none =>
      rintro rfl
      rcases ht.lead with h | h
      · cases h
      · exact h rfl
  have hsign : Text.sign (s ++ t) = (negative, t) := by
    have hsign := ht.grouped.sign_append hs []
    rwa [List.append_nil] at hsign
  rw [integer?]
  · simp only [hsign, ht.wholeDigits?_eq, Option.bind_eq_bind, Option.bind_some, inRange?_eq hn]
  · exact hmarked 'x'
  · exact hmarked 'o'
  · exact hmarked 'b'

theorem based?_eq {base : Nat} {t ds : List Char} {values : List Nat}
    (ht : GroupedText (isDigitOf base) t ds) (hv : ds.mapM Text.hexValue? = some values)
    (hn : InRange (values.foldl (fun n d => base * n + d) 0 : Nat)) :
    based? base t = some (values.foldl (fun n d => base * n + d) 0 : Nat) := by
  have hungrouped := ht.ungrouped?_eq (not_isDigitOf_mark base)
  have hnumber : natOfDigits? base ds = some (values.foldl (fun n d => base * n + d) 0) := by
    simp only [natOfDigits?, hv, Option.bind_eq_bind, Option.bind_some,
      all_lt_of_mapM_hexValue? hv ht.digit, if_true, Option.pure_def]
  unfold isDigitOf at hungrouped
  rw [based?, hungrouped, Option.bind_eq_bind, Option.bind_some, hnumber, Option.bind_eq_bind,
    Option.bind_some, inRange?_eq hn, Option.bind_some, Option.pure_def]

theorem IntegerText.integer?_eq {s : List Char} {n : Int} (h : IntegerText s n) :
    integer? s = some n := by
  cases h with
  | decimal hs ht hn => exact integer?_decimal hs ht hn
  | based hm ht hv hn =>
    cases hm with
    | hexadecimal => exact based?_eq ht hv hn
    | octal => exact based?_eq ht hv hn
    | binary => exact based?_eq ht hv hn

theorem IntegerText.isNumeric {s : List Char} {n : Int} (h : IntegerText s n) :
    ∀ c ∈ s, isNumeric c = true := by
  cases h with
  | decimal hs ht =>
    exact List.forall_mem_append.mpr ⟨isNumeric_of_sign hs, ht.grouped.isNumeric_decimal⟩
  | based hm ht =>
    refine List.forall_mem_cons.mpr ⟨rfl, List.forall_mem_cons.mpr ⟨?_, ?_⟩⟩
    · cases hm <;> rfl
    · exact ht.isNumeric fun _ => isAlphanum_of_isDigitOf

theorem cut_none {test : Char → Bool} {front : List Char} (h : ∀ c ∈ front, test c = false) :
    cut test front = (front, none) := by
  have htake : (front ++ []).takeWhile (!test ·) = front :=
    (Text.takeWhile_append_of_head (fun c hc => by simp [h c hc]) (by simp)).1
  rw [List.append_nil] at htake
  simp only [cut, htake, List.drop_length]

theorem cut_some {test : Char → Bool} {front : List Char} {c : Char}
    (h : ∀ c ∈ front, test c = false) (hc : test c = true) (rest : List Char) :
    cut test (front ++ c :: rest) = (front, some rest) := by
  have htake : (front ++ c :: rest).takeWhile (!test ·) = front :=
    (Text.takeWhile_append_of_head (fun c hc => by simp [h c hc]) (by simp [hc])).1
  simp only [cut, htake, List.drop_left]

def isExponentMark (c : Char) : Bool := c == 'e' || c == 'E'

theorem GroupedText.not_mark {t ds : List Char} (h : GroupedText Char.isDigit t ds) :
    ∀ c ∈ t, isExponentMark c = false ∧ (c == '.') = false := by
  intro c hc
  have hne : ∀ c', c'.isDigit = false → c' ≠ '_' → c ≠ c' := by
    rintro c' hdigit hmark rfl
    rcases h.mem c hc with hd | hd
    · rw [hdigit] at hd
      cases hd
    · exact hmark hd
  simp [isExponentMark, hne 'e', hne 'E', hne '.']

theorem FractionText.not_mark {f fraction : List Char} (h : FractionText f fraction) :
    ∀ c ∈ f, isExponentMark c = false := by
  cases h with
  | mk ht =>
    intro c hc
    rcases List.mem_cons.mp hc with rfl | hc
    · rfl
    · exact (ht.not_mark c hc).1

theorem exponent?_eq {s t ds : List Char} {negative : Bool} (hs : Text.SignText s negative)
    (ht : GroupedText Char.isDigit t ds) :
    exponent? (s ++ t) = some (Text.signed negative (Text.natOfDigits ds)) := by
  have hsign : Text.sign (s ++ t) = (negative, t) := by
    have hsign := ht.sign_append hs []
    rwa [List.append_nil] at hsign
  simp only [exponent?, hsign, ht.ungrouped?_eq rfl, Option.bind_eq_bind,
    Option.bind_some, Option.pure_def]

theorem ExponentText.exists_cons {e : List Char} {exponent : Int} (h : ExponentText e exponent) :
    ∃ mark e', e = mark :: e' ∧ isExponentMark mark = true ∧ exponent? e' = some exponent := by
  cases h with
  | mk hm hs ht =>
    refine ⟨_, _, rfl, ?_, exponent?_eq hs ht⟩
    rcases hm with rfl | rfl <;> rfl

theorem decimal?_fraction {w f whole fraction : List Char} (negative : Bool)
    (hw : WholeText w whole) (hf : FractionText f fraction) :
    decimal? negative (w ++ f) = some (Numeral.mk negative whole fraction 0).number := by
  have hmark : ∀ c ∈ w ++ f, isExponentMark c = false :=
    List.forall_mem_append.mpr ⟨fun c hc => (hw.grouped.not_mark c hc).1, hf.not_mark⟩
  have hexponent : cut (fun c => c == 'e' || c == 'E') (w ++ f) = (w ++ f, none) := cut_none hmark
  cases hf with
  | @mk t _ ht =>
    have hpoint : cut (· == '.') (w ++ '.' :: t) = (w, some t) :=
      cut_some (fun c hc => (hw.grouped.not_mark c hc).2) rfl t
    have hgrouped : ungrouped? Char.isDigit t = some fraction := ht.ungrouped?_eq rfl
    simp only [decimal?, hexponent, hpoint, hw.wholeDigits?_eq, hgrouped, Option.isNone_some,
      Bool.false_eq_true, false_and, if_false, Option.bind_eq_bind, Option.bind_some,
      Option.pure_def]

theorem decimal?_exponent {w e whole : List Char} {exponent : Int} (negative : Bool)
    (hw : WholeText w whole) (he : ExponentText e exponent) :
    decimal? negative (w ++ e) = some (Numeral.mk negative whole [] exponent).number := by
  obtain ⟨mark, e', rfl, hmark, hexponent⟩ := he.exists_cons
  have hcut : cut (fun c => c == 'e' || c == 'E') (w ++ mark :: e') = (w, some e') :=
    cut_some (fun c hc => (hw.grouped.not_mark c hc).1) hmark e'
  have hpoint : cut (· == '.') w = (w, none) :=
    cut_none fun c hc => (hw.grouped.not_mark c hc).2
  simp only [decimal?, hcut, hpoint, hw.wholeDigits?_eq, hexponent, Option.isNone_some,
    Bool.false_eq_true, and_false, if_false, Option.bind_eq_bind, Option.bind_some,
    Option.pure_def]

theorem decimal?_both {w f e whole fraction : List Char} {exponent : Int} (negative : Bool)
    (hw : WholeText w whole) (hf : FractionText f fraction) (he : ExponentText e exponent) :
    decimal? negative (w ++ (f ++ e)) =
      some (Numeral.mk negative whole fraction exponent).number := by
  obtain ⟨mark, e', rfl, hmark, hexponent⟩ := he.exists_cons
  have hfront : ∀ c ∈ w ++ f, isExponentMark c = false :=
    List.forall_mem_append.mpr ⟨fun c hc => (hw.grouped.not_mark c hc).1, hf.not_mark⟩
  have hcut : cut (fun c => c == 'e' || c == 'E') (w ++ f ++ mark :: e') = (w ++ f, some e') :=
    cut_some hfront hmark e'
  rw [← List.append_assoc]
  cases hf with
  | @mk t _ ht =>
    have hpoint : cut (· == '.') (w ++ '.' :: t) = (w, some t) :=
      cut_some (fun c hc => (hw.grouped.not_mark c hc).2) rfl t
    have hgrouped : ungrouped? Char.isDigit t = some fraction := ht.ungrouped?_eq rfl
    simp only [decimal?, hcut, hpoint, hw.wholeDigits?_eq, hgrouped, hexponent,
      Option.isNone_some, Bool.false_eq_true, false_and, if_false, Option.bind_eq_bind,
      Option.bind_some, Option.pure_def]

theorem FractionText.isNumeric {f fraction : List Char} (h : FractionText f fraction) :
    ∀ c ∈ f, isNumeric c = true := by
  cases h with
  | mk ht => exact List.forall_mem_cons.mpr ⟨rfl, ht.isNumeric_decimal⟩

theorem ExponentText.isNumeric {e : List Char} {exponent : Int} (h : ExponentText e exponent) :
    ∀ c ∈ e, isNumeric c = true := by
  cases h with
  | @mk mark _ _ _ _ hm hs ht =>
    have hmark : Toml.isNumeric mark = true := by
      rcases hm with rfl | rfl <;> rfl
    exact List.forall_mem_cons.mpr ⟨hmark,
      List.forall_mem_append.mpr ⟨isNumeric_of_sign hs, ht.isNumeric_decimal⟩⟩

/-- What stands behind the whole part of a numeral that is not an integer. -/
structure DecimalTail (negative : Bool) (w tail : List Char) (n : Numeral) : Prop where
  head : ∃ c r, tail = c :: r ∧ (c = '.' ∨ isExponentMark c = true)
  isNumeric : ∀ c ∈ tail, isNumeric c = true
  number : decimal? negative (w ++ tail) = some n.number

theorem DecimalText.exists_tail {text : List Char} {n : Numeral} (h : DecimalText text n) :
    ∃ s w tail whole, text = s ++ (w ++ tail) ∧ Text.SignText s n.negative ∧ WholeText w whole ∧
      DecimalTail n.negative w tail n := by
  cases h with
  | @fraction _ _ _ _ _ negative hs hw hf =>
    refine ⟨_, _, _, _, rfl, hs, hw, ?_, hf.isNumeric, decimal?_fraction negative hw hf⟩
    cases hf with
    | mk => exact ⟨_, _, rfl, .inl rfl⟩
  | @exponent _ _ _ _ _ negative hs hw he =>
    refine ⟨_, _, _, _, rfl, hs, hw, ?_, he.isNumeric, decimal?_exponent negative hw he⟩
    obtain ⟨mark, e', rfl, hmark, -⟩ := he.exists_cons
    exact ⟨_, _, rfl, .inr hmark⟩
  | @both _ _ _ _ _ _ _ negative hs hw hf he =>
    refine ⟨_, _, _, _, rfl, hs, hw, ?_,
      List.forall_mem_append.mpr ⟨hf.isNumeric, he.isNumeric⟩, decimal?_both negative hw hf he⟩
    cases hf with
    | mk => exact ⟨_, _, rfl, .inl rfl⟩

/-- A numeral with a fraction or an exponent is no integer. -/
theorem DecimalTail.integer?_eq {s w tail whole : List Char} {negative : Bool} {n : Numeral}
    (h : DecimalTail negative w tail n) (hs : Text.SignText s negative)
    (hw : WholeText w whole) : integer? (s ++ (w ++ tail)) = none := by
  obtain ⟨c, r, rfl, hc⟩ := h.head
  have hmarked : ∀ mark rest, mark = 'x' ∨ mark = 'o' ∨ mark = 'b' →
      s ++ (w ++ c :: r) ≠ '0' :: mark :: rest := by
    intro mark rest hmark heq
    cases hs with
    | plus => cases heq
    | minus => cases heq
    | none =>
      obtain ⟨d, w', rfl, -⟩ := hw.grouped.exists_cons
      cases w' with
      | nil =>
        cases heq
        rcases hmark with rfl | rfl | rfl <;> rcases hc with hc | hc <;> cases hc
      | cons d' w' =>
        cases heq
        rcases hw.lead with h | h
        · cases h
        · exact h rfl
  have hwhole : wholeDigits? (w ++ c :: r) = none := by
    rw [Option.eq_none_iff_forall_ne_some]
    intro ds hds
    unfold wholeDigits? at hds
    split at hds
    · cases hds
    · have hmem := mem_of_ungrouped? hds c (by simp)
      rcases hc with rfl | hc
      · rcases hmem with h | h <;> cases h
      · simp only [isExponentMark, Bool.or_eq_true, beq_iff_eq] at hc
        rcases hc with rfl | rfl <;> rcases hmem with h | h <;> cases h
  rw [integer?]
  · simp only [hw.grouped.sign_append hs, hwhole, Option.bind_eq_bind, Option.bind_none]
  · exact fun rest => hmarked 'x' rest (.inl rfl)
  · exact fun rest => hmarked 'o' rest (.inr (.inl rfl))
  · exact fun rest => hmarked 'b' rest (.inr (.inr rfl))

theorem DecimalText.real?_eq {text : List Char} {n : Numeral} (h : DecimalText text n)
    (hn : n.number.IsFinite ∨ n.number.negative = true) : real? text = some n.number := by
  obtain ⟨s, w, tail, whole, rfl, hs, hw, htail⟩ := h.exists_tail
  have hnumber := htail.number
  simp only [real?, hw.grouped.sign_append hs]
  obtain ⟨d, w', rfl, hd⟩ := hw.grouped.exists_cons
  split
  · rename_i heq
    obtain rfl : d = 'i' := (List.cons.inj heq).1
    cases hd
  · rename_i heq
    obtain rfl : d = 'n' := (List.cons.inj heq).1
    cases hd
  · rw [hnumber, Option.bind_eq_bind, Option.bind_some, if_pos hn]
    rfl

theorem DecimalText.isNumeric {s : List Char} {n : Numeral} (h : DecimalText s n) :
    ∀ c ∈ s, isNumeric c = true := by
  obtain ⟨s, w, tail, whole, rfl, hs, hw, htail⟩ := h.exists_tail
  exact List.forall_mem_append.mpr ⟨isNumeric_of_sign hs,
    List.forall_mem_append.mpr ⟨hw.grouped.isNumeric_decimal, htail.isNumeric⟩⟩

theorem RealText.isNumeric {s : List Char} {x : Number} (h : RealText s x) :
    ∀ c ∈ s, isNumeric c = true := by
  cases h with
  | decimal hs => exact hs.isNumeric
  | infinity hs =>
    exact List.forall_mem_append.mpr ⟨isNumeric_of_sign hs, by simp [Toml.isNumeric, isWordChar]⟩
  | notANumber hs =>
    exact List.forall_mem_append.mpr ⟨isNumeric_of_sign hs, by simp [Toml.isNumeric, isWordChar]⟩

theorem pair?_eq_some {text rest : List Char} {n : Nat} (h : pair? text = some (n, rest)) :
    ∃ a b, text = a :: b :: rest ∧ a.isDigit = true ∧ b.isDigit = true := by
  unfold pair? at h
  split at h
  · split at h
    · rename_i hdigits
      cases h
      exact ⟨_, _, rfl, hdigits⟩
    · cases h
  · cases h

theorem mem_of_afterTime? {word rest : List Char} (h : afterTime? word = some rest) :
    ':' ∈ word := by
  simp only [afterTime?, Option.bind_eq_bind, Option.bind_eq_some_iff, Prod.exists] at h
  obtain ⟨_, behind, hp, h⟩ := h
  split at h
  · obtain ⟨a, b, rfl, -⟩ := pair?_eq_some hp
    simp
  · cases h

theorem afterTime?_numeric {word : List Char} (h : ∀ c ∈ word, isNumeric c = true) :
    afterTime? word = none := by
  rw [Option.eq_none_iff_forall_ne_some]
  intro rest htime
  cases h ':' (mem_of_afterTime? htime)

/-- A date begins with digits and a hyphen. -/
theorem exists_of_afterDate? {word rest : List Char} (h : afterDate? word = some rest) :
    ∃ d ds behind, word = d :: (ds ++ '-' :: behind) ∧ d.isDigit = true ∧
      ∀ d ∈ ds, d.isDigit = true := by
  simp only [afterDate?, Option.bind_eq_bind, Option.bind_eq_some_iff, Prod.exists] at h
  obtain ⟨_, behind, hp, _, behind', hp', h⟩ := h
  split at h
  · obtain ⟨a, b, rfl, ha, hb⟩ := pair?_eq_some hp
    obtain ⟨c, d, rfl, hc, hd⟩ := pair?_eq_some hp'
    exact ⟨a, [b, c, d], _, rfl, ha, by simp [hb, hc, hd]⟩
  · cases h

/-- Where a whole part begins without a sign in front, the first character that is neither a digit
nor an underscore is no hyphen. -/
theorem afterDate?_signed {s t : List Char} {negative : Bool} (hs : Text.SignText s negative)
    (ht : ∀ front behind, t = front ++ '-' :: behind → ¬ ∀ c ∈ front, c.isDigit = true) :
    afterDate? (s ++ t) = none := by
  rw [Option.eq_none_iff_forall_ne_some]
  intro rest hdate
  obtain ⟨d, ds, behind, heq, hd, hds⟩ := exists_of_afterDate? hdate
  cases hs with
  | none =>
    apply ht (d :: ds) behind heq
    exact List.forall_mem_cons.mpr ⟨hd, hds⟩
  | plus =>
    cases heq
    cases hd
  | minus =>
    cases heq
    cases hd

theorem IntegerText.afterDate?_eq {s : List Char} {n : Int} (h : IntegerText s n) :
    afterDate? s = none := by
  have hnone : ∀ {t front behind : List Char}, (∀ c ∈ t, c.isAlphanum = true ∨ c = '_') →
      t = front ++ '-' :: behind → False := by
    rintro t front behind hmem rfl
    rcases hmem '-' (by simp) with h | h <;> cases h
  cases h with
  | decimal hs ht =>
    apply afterDate?_signed hs
    intro front behind heq _
    exact hnone (fun c hc => (ht.grouped.mem c hc).imp_left isAlphanum_of_isDigit) heq
  | based hm ht =>
    apply afterDate?_signed .none
    intro front behind heq _
    refine hnone (List.forall_mem_cons.mpr ⟨.inl rfl, List.forall_mem_cons.mpr ⟨?_, ?_⟩⟩) heq
    · cases hm <;> exact .inl rfl
    · exact fun c hc => (ht.mem c hc).imp_left isAlphanum_of_isDigitOf

theorem DecimalTail.afterDate?_eq {s w tail whole : List Char} {negative : Bool} {n : Numeral}
    (h : DecimalTail negative w tail n) (hs : Text.SignText s negative)
    (hw : WholeText w whole) : afterDate? (s ++ (w ++ tail)) = none := by
  apply afterDate?_signed hs
  intro front behind heq hfront
  obtain ⟨c, r, rfl, hc⟩ := h.head
  have hdrop := congrArg (List.dropWhile fun c => c.isDigit || c == '_') heq
  have hstop : (c.isDigit || c == '_') = false := by
    rcases hc with rfl | hc
    · rfl
    · simp only [isExponentMark, Bool.or_eq_true, beq_iff_eq] at hc
      rcases hc with rfl | rfl <;> rfl
  rw [List.dropWhile_append_of_pos (fun c hc => by simpa using hw.grouped.mem c hc),
    List.dropWhile_append_of_pos (fun c hc => by simp [hfront c hc]),
    List.dropWhile_cons_of_neg (by simp [hstop]), List.dropWhile_cons_of_neg (by decide)] at hdrop
  cases hdrop
  rcases hc with hc | hc <;> cases hc

theorem isMoment_numeric {word : List Char} (h : ∀ c ∈ word, isNumeric c = true)
    (hdate : afterDate? word = none) : isMoment word = false := by
  rw [isMoment, afterTime?_numeric h, hdate]
  rfl

/-- A word of a number is read as one. -/
theorem ofWord?_number {word : List Char} (h : ∀ c ∈ word, isNumeric c = true)
    (hhead : ∀ c ∈ word.head?, c ≠ 't' ∧ c ≠ 'f') (hdate : afterDate? word = none) :
    (∀ n, integer? word = some n → ofWord? word = some (.integer n)) ∧
      ∀ x, integer? word = none → real? word = some x → ofWord? word = some (.real x) := by
  have htrue : word ≠ ['t', 'r', 'u', 'e'] := by
    rintro rfl
    exact (hhead 't' rfl).1 rfl
  have hfalse : word ≠ ['f', 'a', 'l', 's', 'e'] := by
    rintro rfl
    exact (hhead 'f' rfl).2 rfl
  have hmoment := isMoment_numeric h hdate
  constructor
  · intro n hn
    rw [ofWord?, if_neg htrue, if_neg hfalse, hmoment, hn]
    rfl
  · intro x hn hx
    rw [ofWord?, if_neg htrue, if_neg hfalse, hmoment, hn, hx]
    rfl

theorem GroupedText.signed_head {s t ds : List Char} {negative : Bool}
    (hs : Text.SignText s negative) (ht : GroupedText Char.isDigit t ds) (rest : List Char) :
    ∀ c ∈ (s ++ (t ++ rest)).head?, c ≠ 't' ∧ c ≠ 'f' := by
  cases hs with
  | plus => simp
  | minus => simp
  | none =>
    obtain ⟨d, t', rfl, hd⟩ := ht.exists_cons
    rintro _ ⟨⟩
    constructor <;> rintro rfl <;> cases hd

theorem IntegerText.ofWord?_eq {s : List Char} {n : Int} (h : IntegerText s n) :
    ofWord? s = some (.integer n) := by
  apply (ofWord?_number h.isNumeric ?_ h.afterDate?_eq).1 n h.integer?_eq
  cases h with
  | decimal hs ht =>
    have hhead := ht.grouped.signed_head hs []
    rwa [List.append_nil] at hhead
  | based => simp

theorem RealText.ofWord?_eq {s : List Char} {x : Number} (h : RealText s x) :
    ofWord? s = some (.real x) := by
  cases h with
  | infinity hs => cases hs <;> rfl
  | notANumber hs => cases hs <;> rfl
  | decimal hs hn =>
    have hreal := hs.real?_eq hn
    have hnumeric := hs.isNumeric
    obtain ⟨s, w, tail, whole, rfl, hs, hw, htail⟩ := hs.exists_tail
    exact (ofWord?_number hnumeric (hw.grouped.signed_head hs tail) (htail.afterDate?_eq hs hw)).2 _
      (htail.integer?_eq hs hw) hreal

end JsonQuery.Toml
