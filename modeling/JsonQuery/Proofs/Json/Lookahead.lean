import JsonQuery.Proofs.Json.Form

/-!
Readers that look one character ahead. Such a reader takes a text of its form whenever the next
character is known, and where it refuses a text, all before the place of the fault is the beginning
of a text of the form. Where the fault blames the character at its place, the reader refuses this
character whatever stands behind it. The parts of a number are read in this way.
-/

namespace JsonQuery.Json

open Text (bind_eq_ok)

/-- The fault is with the character at its place, or with the end of the text there. -/
def Cause.Blames : Cause → Prop
  | unexpected _ => True
  | control => True
  | trailing => True
  | _ => False

section Readers

variable {α β : Type}

/-- A fault behind the text `s`, in a reader of texts of a form. -/
structure FaultAt (read : List Char → Except Fault α) (Form : List Char → Prop) (s : List Char)
    (fault : Fault) : Prop where
  viable : ∃ u, Form (s ++ u)
  blames : fault.cause.Blames → ∀ c rest, fault.rest = c :: rest →
    ∀ rest', read (s ++ c :: rest') = .error ⟨fault.cause, c :: rest'⟩
  atCharacter : fault.cause = .control ∨ fault.cause = .trailing → fault.rest ≠ []

/-- The reader finds the fault where the text stops to be the beginning of one of the form. -/
def Locates (read : List Char → Except Fault α) (Form : List Char → Prop) (text : List Char)
    (fault : Fault) : Prop :=
  ∃ s, text = s ++ fault.rest ∧ FaultAt read Form s fault

/-- The reader takes a text of the form when the next character is known, and locates its
faults. -/
structure Reads (read : Reader α) (Form : List Char → Prop) : Prop where
  ok : ∀ {text rest : List Char} {a : α}, read text = .ok (a, rest) →
    ∃ s, Form s ∧ text = s ++ rest ∧
      ∀ rest', rest'.head? = rest.head? → read (s ++ rest') = .ok (a, rest')
  error : ∀ {text : List Char} {fault : Fault}, read text = .error fault →
    Locates read Form text fault

theorem head?_append_congr {t t' : List Char} (h : t.head? = t'.head?) (s : List Char) :
    (s ++ t).head? = (s ++ t').head? := by
  rw [List.head?_append, List.head?_append, h]

theorem head?_ne_of_forall {t : List Char} {c : Char} (h : ∀ rest, t = c :: rest → False) :
    t.head? ≠ some c := by
  cases t with
  | nil => nofun
  | cons d t =>
    intro hd
    cases hd
    exact h t rfl

theorem exists_eq_cons_of_head? {t rest : List Char} {c : Char}
    (h : t.head? = (c :: rest).head?) : ∃ t', t = c :: t' := by
  cases t with
  | nil => cases h
  | cons d t =>
    cases h
    exact ⟨t, rfl⟩

variable {read : List Char → Except Fault α} {read' : List Char → Except Fault β}
  {Form Form' : List Char → Prop} {text : List Char} {fault : Fault}

/-- Behind a text that the reader has passed, the fault is that of the reader which goes on. -/
theorem Locates.append (h : Locates read Form text fault) {p : List Char}
    (hread : ∀ t, t.head? = text.head? → ∀ e, read t = .error e → read' (p ++ t) = .error e)
    (hform : ∀ t, Form t → ∃ u, Form' (p ++ (t ++ u))) :
    Locates read' Form' (p ++ text) fault := by
  obtain ⟨s, rfl, hs⟩ := h
  refine ⟨p ++ s, (List.append_assoc _ _ _).symm, ?_, ?_, hs.atCharacter⟩
  · obtain ⟨u, hu⟩ := hs.viable
    obtain ⟨u', hu'⟩ := hform _ hu
    exact ⟨u ++ u', by simpa using hu'⟩
  · intro hblames c rest hrest rest'
    have hhead : (c :: rest').head? = fault.rest.head? := by
      rw [hrest, List.head?_cons, List.head?_cons]
    rw [List.append_assoc]
    exact hread _ (head?_append_congr hhead s) _ (hs.blames hblames c rest hrest rest')

theorem Locates.behind {next : List Char → Except Fault α} (h : Locates next Form text fault)
    {p : List Char} (hread : ∀ t, read (p ++ t) = next t)
    (hform : ∀ t, Form t → Form' (p ++ t)) : Locates read Form' (p ++ text) fault :=
  h.append (fun t _ e he => (hread t).trans he) fun t ht => ⟨[], by
    rw [List.append_nil]
    exact hform t ht⟩

theorem Locates.mono (h : Locates read Form text fault)
    (hread : ∀ t, t.head? = text.head? → ∀ e, read t = .error e → read' t = .error e)
    (hform : ∀ t, Form t → ∃ u, Form' (t ++ u)) : Locates read' Form' text fault :=
  h.append (p := []) hread hform

/-- A fault that blames no character need only be at a place that the form allows. -/
theorem locates_of_viable {cause : Cause} (hcause : ¬ cause.Blames) {s rest : List Char}
    (htext : text = s ++ rest) (h : ∃ u, Form (s ++ u)) : Locates read Form text ⟨cause, rest⟩ := by
  refine ⟨s, htext, h, fun hblames => absurd hblames hcause, ?_⟩
  rintro (rfl | rfl)
  · exact absurd trivial hcause
  · exact absurd trivial hcause

/-- A fault at the front of the text. -/
theorem locates_front {cause : Cause} (h : ∃ u, Form u)
    (hblames : ∀ c rest, text = c :: rest → ∀ rest', read (c :: rest') = .error ⟨cause, c :: rest'⟩)
    (hchar : cause = .control ∨ cause = .trailing → text ≠ []) :
    Locates read Form text ⟨cause, text⟩ :=
  ⟨[], rfl, h, fun _ => hblames, hchar⟩

/-- What stands at the front of the text is not what the reader expects. -/
theorem locates_unexpected {expected : Expected} (h : ∃ u, Form u)
    (hread : ∀ t, t.head? = text.head? → read t = unexpected expected t) :
    Locates read Form text ⟨.unexpected expected, text⟩ := by
  refine locates_front h (fun c rest htext rest' => hread _ ?_) fun hcause => ?_
  · rw [htext, List.head?_cons, List.head?_cons]
  · rcases hcause with hcause | hcause <;> cases hcause

/-- The text ends where the reader expects something. -/
theorem locates_unexpected_end {expected : Expected} (h : ∃ u, Form u) :
    Locates read Form [] ⟨.unexpected expected, []⟩ := by
  refine locates_front h (fun c rest htext => ?_) fun hcause => ?_
  · cases htext
  · rcases hcause with hcause | hcause <;> cases hcause

section Bind

variable {read : Reader α} {Form₁ : List Char → Prop} {Form₂ : α → List Char → Prop}

theorem Reads.locates_bind (hread : Reads read Form₁) {more : α → List Char → Except Fault β}
    (hmore : ∀ {a rest}, read text = .ok (a, rest) → more a rest = .error fault →
      Locates (more a) (Form₂ a) rest fault)
    (hform : ∀ s a t, Form₁ s → Form₂ a t → Form (s ++ t))
    (hextend : ∀ s, Form₁ s → ∃ u, Form (s ++ u))
    (h : (read text >>= fun r => more r.1 r.2) = .error fault) :
    Locates (fun t => read t >>= fun r => more r.1 r.2) Form text fault := by
  cases hfirst : read text with
  | error e =>
    rw [hfirst] at h
    cases h
    refine (hread.error hfirst).mono (fun t _ e he => ?_) hextend
    rw [he]
    rfl
  | ok r =>
    obtain ⟨a, rest⟩ := r
    rw [hfirst] at h
    obtain ⟨s, hs, rfl, hahead⟩ := hread.ok hfirst
    refine (hmore hfirst h).append (fun t ht e he => ?_) fun t ht => ⟨[], ?_⟩
    · rw [hahead t ht]
      exact he
    · rw [List.append_nil]
      exact hform s a t hs ht

theorem Reads.bind (hread : Reads read Form₁) {more : α → Reader β}
    (hmore : ∀ a, Reads (more a) (Form₂ a))
    (hform : ∀ s a t, Form₁ s → Form₂ a t → Form (s ++ t))
    (hextend : ∀ s, Form₁ s → ∃ u, Form (s ++ u)) :
    Reads (fun t => read t >>= fun r => more r.1 r.2) Form where
  ok := by
    intro text rest b h
    obtain ⟨⟨a, rest₁⟩, hfirst, hsecond⟩ := bind_eq_ok.mp h
    obtain ⟨s, hs, rfl, hahead⟩ := hread.ok hfirst
    obtain ⟨t, ht, rfl, hmoreAhead⟩ := (hmore a).ok hsecond
    refine ⟨s ++ t, hform s a t hs ht, (List.append_assoc _ _ _).symm, fun rest' hrest' => ?_⟩
    rw [List.append_assoc, hahead _ (head?_append_congr hrest' t)]
    exact hmoreAhead rest' hrest'
  error := fun h => hread.locates_bind (fun _ h => (hmore _).error h) hform hextend h

theorem Reads.imp (hread : Reads read Form) (himp : ∀ s, Form s → Form' s) :
    Reads read Form' where
  ok := fun h => by
    obtain ⟨s, hs, hread⟩ := hread.ok h
    exact ⟨s, himp s hs, hread⟩
  error := fun h => (hread.error h).mono (fun _ _ _ he => he) fun t ht =>
    ⟨[], by rw [List.append_nil]; exact himp t ht⟩

theorem reads_pure (a : α) : Reads (fun t => .ok (a, t)) (· = []) where
  ok := by
    intro text rest b h
    cases h
    exact ⟨[], rfl, rfl, fun _ _ => rfl⟩
  error := nofun

theorem Reads.map (hread : Reads read Form) (f : α → β) :
    Reads (fun t => read t >>= fun r => .ok (f r.1, r.2)) Form :=
  hread.bind (fun a => reads_pure (f a)) (fun s _ t hs ht => by rwa [ht, List.append_nil])
    fun s hs => ⟨[], by rwa [List.append_nil]⟩

end Bind

end Readers

section Numbers

open Text

theorem startsWithDigit_afterDigits (text : List Char) :
    startsWithDigit (afterDigits text) = false := by
  induction text with
  | nil => rfl
  | cons c text ih =>
    cases hc : c.isDigit with
    | true =>
      rw [afterDigits, List.dropWhile_cons, hc]
      exact ih
    | false =>
      rw [afterDigits, List.dropWhile_cons, hc]
      exact hc

theorem startsWithDigit_congr {t t' : List Char} (h : t.head? = t'.head?) :
    startsWithDigit t = startsWithDigit t' := by
  cases t with
  | nil => cases t' with
    | nil => rfl
    | cons => cases h
  | cons c t => cases t' with
    | nil => cases h
    | cons c' t' =>
      cases h
      rfl

theorem reads_wholePart : Reads wholePart Numeral.IsWhole where
  ok := by
    intro text rest whole h
    obtain ⟨hwhole, htext⟩ := Numeral.isWhole_of_wholePart h
    unfold wholePart at h
    split at h
    · cases h
      exact ⟨_, hwhole, htext, fun rest' _ => rfl⟩
    · split at h
      · cases h
        refine ⟨_, hwhole, htext, fun rest' hrest' => Numeral.wholePart_append hwhole ?_⟩
        rw [startsWithDigit_congr hrest', startsWithDigit_afterDigits]
      · cases h
  error := by
    intro text fault h
    unfold wholePart at h
    split at h
    · cases h
    · split at h
      · cases h
      · cases h
        exact locates_of_viable (s := []) id rfl ⟨['0'], .inl rfl⟩

theorem fractionPart_of_head {text : List Char} (h : text.head? ≠ some '.') :
    fractionPart text = .ok ([], text) := by
  unfold fractionPart
  split
  · exact absurd rfl h
  · rfl

theorem reads_fractionPart : Reads fractionPart (fun s => ∃ ds, Numeral.FractionText s ds) where
  ok := by
    intro text rest fraction h
    unfold fractionPart at h
    split at h
    · rename_i rest₁
      split at h
      · rename_i hdigit
        cases h
        have hdigits := isDigits_digits hdigit
        refine ⟨_, ⟨_, .some hdigits⟩, ?_, fun rest' hrest' => ?_⟩
        · rw [List.cons_append, digits_append_afterDigits]
        · have hend : startsWithDigit rest' = false := by
            rw [startsWithDigit_congr hrest', startsWithDigit_afterDigits]
          rw [List.cons_append, fractionPart, if_pos (startsWithDigit_append hdigits rest'),
            digits_append hdigits.2 hend, afterDigits_append hdigits.2 hend]
      · cases h
    · rename_i hpoint
      cases h
      exact ⟨[], ⟨_, .none⟩, rfl, fun rest' hrest' =>
        fractionPart_of_head (hrest' ▸ head?_ne_of_forall hpoint)⟩
  error := by
    intro text fault h
    unfold fractionPart at h
    split at h
    · split at h
      · cases h
      · cases h
        exact locates_of_viable (s := ['.']) id rfl ⟨['0'], _, .some isDigits_zero⟩
    · cases h

/-- The exponent behind its letter. -/
def ExponentForm (s : List Char) : Prop :=
  ∃ mark ds negative, SignText mark negative ∧ IsDigits ds ∧ s = mark ++ ds

theorem reads_exponentDigits :
    Reads (Text.exponentDigits fun rest => ⟨.number, rest⟩) ExponentForm where
  ok := by
    intro text rest exponent h
    obtain ⟨mark, hmark, htext⟩ := exists_signText text
    unfold Text.exponentDigits at h
    simp only at h
    split at h
    · rename_i hdigit
      cases h
      have hdigits := isDigits_digits hdigit
      refine ⟨_, ⟨_, _, _, hmark, hdigits, rfl⟩, ?_, fun rest' hrest' => ?_⟩
      · rw [List.append_assoc, digits_append_afterDigits, ← htext]
      · apply Numeral.exponentDigits_append _ hmark hdigits
        rw [startsWithDigit_congr hrest', startsWithDigit_afterDigits]
    · cases h
  error := by
    intro text fault h
    obtain ⟨mark, hmark, htext⟩ := exists_signText text
    unfold Text.exponentDigits at h
    simp only at h
    split at h
    · cases h
    · cases h
      exact locates_of_viable id htext ⟨['0'], _, _, _, hmark, isDigits_zero, rfl⟩

theorem exponentPart_of_head {text : List Char} (he : text.head? ≠ some 'e')
    (hE : text.head? ≠ some 'E') : exponentPart text = .ok (0, text) := by
  unfold exponentPart Text.exponentPart
  split
  · exact absurd rfl he
  · exact absurd rfl hE
  · rfl

theorem reads_exponentPart : Reads exponentPart (fun s => ∃ n, Numeral.ExponentText s n) where
  ok := by
    intro text rest exponent h
    unfold exponentPart Text.exponentPart at h
    split at h
    · obtain ⟨_, ⟨_, _, _, hs, hd, rfl⟩, rfl, hahead⟩ := reads_exponentDigits.ok h
      exact ⟨_, ⟨_, .some (.inl rfl) hs hd⟩, rfl, hahead⟩
    · obtain ⟨_, ⟨_, _, _, hs, hd, rfl⟩, rfl, hahead⟩ := reads_exponentDigits.ok h
      exact ⟨_, ⟨_, .some (.inr rfl) hs hd⟩, rfl, hahead⟩
    · rename_i he hE
      cases h
      exact ⟨[], ⟨_, .none⟩, rfl, fun rest' hrest' =>
        exponentPart_of_head (hrest' ▸ head?_ne_of_forall he) (hrest' ▸ head?_ne_of_forall hE)⟩
  error := by
    intro text fault h
    have hform : ∀ mark, mark = 'e' ∨ mark = 'E' → ∀ t, ExponentForm t →
        ∃ n, Numeral.ExponentText ([mark] ++ t) n := by
      rintro mark hmark t ⟨_, _, _, hs, hd, rfl⟩
      rw [List.singleton_append]
      exact ⟨_, .some hmark hs hd⟩
    unfold exponentPart Text.exponentPart at h
    split at h
    · exact (reads_exponentDigits.error h).behind (p := ['e']) (fun _ => rfl) (hform 'e' (.inl rfl))
    · exact (reads_exponentDigits.error h).behind (p := ['E']) (fun _ => rfl) (hform 'E' (.inr rfl))
    · cases h

/-- A numeral behind its sign. -/
def unsigned (negative : Bool) : Reader Numeral := fun text =>
  wholePart text >>= fun w => fractionPart w.2 >>= fun f => exponentPart f.2 >>= fun e =>
    .ok (⟨negative, w.1, f.1, e.1⟩, e.2)

theorem numeral_eq (text : List Char) :
    numeral text = unsigned (minus text).1 (minus text).2 := rfl

/-- The form of a numeral without its sign. -/
def UnsignedForm (s : List Char) : Prop :=
  ∃ whole f e fraction exponent, Numeral.IsWhole whole ∧ Numeral.FractionText f fraction ∧
    Numeral.ExponentText e exponent ∧ s = whole ++ (f ++ e)

theorem reads_unsigned (negative : Bool) : Reads (unsigned negative) UnsignedForm := by
  have hexponent : ∀ whole fraction, Reads
      (fun t => exponentPart t >>= fun e => .ok (Numeral.mk negative whole fraction e.1, e.2))
      (fun s => ∃ exponent, Numeral.ExponentText s exponent) :=
    fun whole fraction => reads_exponentPart.map (Numeral.mk negative whole fraction)
  have hfraction : ∀ whole, Reads
      (fun t => fractionPart t >>= fun f => exponentPart f.2 >>= fun e =>
        .ok (Numeral.mk negative whole f.1 e.1, e.2))
      (fun s => ∃ f e fraction exponent, Numeral.FractionText f fraction ∧
        Numeral.ExponentText e exponent ∧ s = f ++ e) := by
    intro whole
    refine reads_fractionPart.bind (hexponent whole) ?_ ?_
    · rintro s _ t ⟨_, hf⟩ ⟨_, he⟩
      exact ⟨_, _, _, _, hf, he, rfl⟩
    · rintro s ⟨_, hf⟩
      exact ⟨[], _, _, _, _, hf, .none, rfl⟩
  refine reads_wholePart.bind hfraction ?_ ?_
  · rintro s _ t hw ⟨_, _, _, _, hf, he, rfl⟩
    exact ⟨_, _, _, _, _, hw, hf, he, rfl⟩
  · intro s hw
    exact ⟨[], _, _, _, _, _, hw, .none, .none, rfl⟩

theorem UnsignedForm.numeralText {s : List Char} (h : UnsignedForm s) (negative : Bool) :
    ∃ n : Numeral, n.NumeralText (minusText negative ++ s) := by
  obtain ⟨_, _, _, _, _, hw, hf, he, rfl⟩ := h
  exact ⟨_, .mk negative hw hf he⟩

theorem minus_of_head {text : List Char} (h : text.head? ≠ some '-') :
    minus text = (false, text) := by
  unfold minus
  split
  · exact absurd rfl h
  · rfl

/-- One character decides whether there is a sign. -/
theorem minus_ahead (text : List Char) {t : List Char} (h : t.head? = (minus text).2.head?) :
    minus (minusText (minus text).1 ++ t) = ((minus text).1, t) := by
  by_cases hminus : text.head? = some '-'
  · obtain ⟨rest, rfl⟩ := List.head?_eq_some_iff.mp hminus
    rfl
  · rw [minus_of_head hminus] at h ⊢
    exact minus_of_head (h ▸ hminus)

theorem reads_numeral : Reads numeral (fun s => ∃ n : Numeral, n.NumeralText s) where
  ok := by
    intro text rest n h
    rw [numeral_eq] at h
    obtain ⟨s, hs, htext, hahead⟩ := (reads_unsigned _).ok h
    refine ⟨_, hs.numeralText (minus text).1, ?_, fun rest' hrest' => ?_⟩
    · rw [List.append_assoc, ← htext, Numeral.minus_append_rest]
    · have hhead : (s ++ rest').head? = (minus text).2.head? :=
        htext ▸ head?_append_congr hrest' s
      rw [numeral_eq, List.append_assoc, minus_ahead text hhead]
      exact hahead rest' hrest'
  error := by
    intro text fault h
    rw [numeral_eq] at h
    have hlocates := (reads_unsigned _).error h
    rw [← Numeral.minus_append_rest text]
    refine hlocates.append (fun t ht e he => ?_) fun t ht => ⟨[], ?_⟩
    · rw [numeral_eq, minus_ahead text ht]
      exact he
    · rw [List.append_nil]
      exact ht.numeralText _

theorem exists_numeralText : ∃ s, ∃ n : Numeral, n.NumeralText s :=
  ⟨_, _, .mk false (.inl rfl) .none .none⟩

/-- A magnitude is too great only behind the whole numeral, and the fault is put in front of it. -/
theorem reads_number : Reads number (fun s => ∃ n : Numeral, n.NumeralText s) where
  ok := by
    intro text rest x h
    obtain ⟨⟨n, rest₁⟩, hnumeral, hfinite⟩ := bind_eq_ok.mp h
    obtain ⟨s, hs, rfl, hahead⟩ := reads_numeral.ok hnumeral
    simp only at hfinite
    split at hfinite
    · rename_i hn
      cases hfinite
      refine ⟨s, hs, rfl, fun rest' hrest' => ?_⟩
      rw [number, hahead rest' hrest']
      exact if_pos hn
    · cases hfinite
  error := by
    intro text fault h
    cases hnumeral : numeral text with
    | error e =>
      rw [number, hnumeral] at h
      cases h
      refine (reads_numeral.error hnumeral).mono (fun t _ e he => ?_)
        fun t ht => ⟨[], by rwa [List.append_nil]⟩
      rw [number, he]
      rfl
    | ok r =>
      rw [number, hnumeral] at h
      simp only [bind, Except.bind] at h
      split at h
      · cases h
      · cases h
        exact locates_of_viable (s := []) id rfl exists_numeralText

end Numbers

end JsonQuery.Json
