import JsonQuery.Proofs.Json.Lookahead

/-!
Strings, values without members and keys are read with one character of lookahead, and refused
where no text of their form goes on.
-/

namespace JsonQuery.Json

open Text (bind_eq_ok)

section Strings

open Text

theorem exists_stringText {s : List Char} (h : quoting.TailText '"' s) :
    ∃ value, StringText ('"' :: s) value := by
  obtain ⟨body, cs, hbody, rfl⟩ := h
  exact ⟨_, .mk hbody⟩

/-- Where digits are missing, others may complete the escape. -/
theorem exists_escapeText {text place : List Char}
    (h : escapedUnits text = .error (.digits place)) :
    ∃ s u c, text = s ++ place ∧ EscapeText (s ++ u) c := by
  have hzero : UnitText ['0', '0', '0', '0'] 0 :=
    .mk (w := 0) (x := 0) (y := 0) (z := 0) (.inl rfl) (.inl rfl) (.inl rfl) (.inl rfl)
  have hlow : UnitText ['d', 'c', '0', '0'] 0xDC00 :=
    .mk (w := 13) (x := 12) (y := 0) (z := 0) (.inl rfl) (.inl rfl) (.inl rfl) (.inl rfl)
  unfold escapedUnits at h
  split at h
  · cases h
    exact ⟨[], _, _, rfl, .unit hzero (by decide)⟩
  · rename_i high rest hunit
    obtain ⟨s, hs, rfl⟩ := unitText_of_unit? hunit
    split at h
    · rename_i hhigh
      split at h
      · split at h
        · cases h
          obtain ⟨c, hpair⟩ : ∃ c, EscapeText (s ++ ['\\', 'u', 'd', 'c', '0', '0']) c :=
            ⟨_, .pair hs (isHighSurrogate_iff.mp hhigh) hlow (by decide)⟩
          exact ⟨s ++ ['\\', 'u'], _, c, by simp, by simpa using hpair⟩
        · split at h <;> cases h
      · cases h
    · split at h <;> cases h

theorem locates_char {done s rest : List Char} {c : Char} {fault : Fault}
    (hs : quoting.CharText s c)
    (h : Locates (stringTail (c :: done)) (quoting.TailText '"') rest fault) :
    Locates (stringTail done) (quoting.TailText '"') (s ++ rest) fault :=
  h.behind (stringTail_char hs done) fun _ ht => ht.cons hs

theorem locates_stringTail {done text : List Char} {fault : Fault}
    (h : stringTail done text = .error fault) :
    Locates (stringTail done) (quoting.TailText '"') text fault := by
  fun_induction stringTail done text with
  | case1 done =>
    cases h
    exact locates_unexpected_end ⟨_, quoting.tailText_quote '"'⟩
  | case2 => cases h
  | case3 done =>
    cases h
    have hletter : quoting.letter 'n' '\n' := .lineFeed
    have hrest : quoting.TailText '"' ['\\', 'n', '"'] :=
      (quoting.tailText_quote '"').cons (.letter hletter)
    refine ⟨['\\'], rfl, ⟨_, hrest⟩, fun _ c rest heq => ?_, fun hcause => ?_⟩
    · cases heq
    · rcases hcause with hcause | hcause <;> cases hcause
  | case4 done rest c rest' hescape ih =>
    obtain ⟨s, hs, rfl⟩ := escapeText_of_escapedUnits hescape
    exact locates_char (.escape hs) (ih h)
  | case5 done rest place hescape =>
    cases h
    obtain ⟨s, u, c, rfl, hs⟩ := exists_escapeText hescape
    have hrest := (quoting.tailText_quote '"').cons (.escape hs)
    exact locates_of_viable (s := '\\' :: 'u' :: s) id rfl ⟨u ++ ['"'], by simpa using hrest⟩
  | case6 done rest hescape =>
    cases h
    exact locates_of_viable (s := []) id rfl ⟨_, quoting.tailText_quote '"'⟩
  | case7 done letter rest hu c hletter ih =>
    exact locates_char (.letter (unescape?_eq_some_iff.mp hletter)) (ih h)
  | case8 done letter rest hu hletter =>
    cases h
    exact locates_of_viable (s := []) id rfl ⟨_, quoting.tailText_quote '"'⟩
  | case9 done c rest hquote hlone hu hletter hcontrol =>
    cases h
    refine locates_front ⟨_, quoting.tailText_quote '"'⟩ (fun c' rest₁ heq rest' => ?_)
      fun _ => List.cons_ne_nil c rest
    cases heq
    have hbackslash : c ≠ '\\' := by
      rintro rfl
      exact absurd hcontrol (by decide)
    rw [stringTail, if_pos hcontrol]
    · exact hquote
    · exact fun heq => absurd heq hbackslash
    · exact fun _ heq => absurd heq hbackslash
    · exact fun _ _ heq => absurd heq hbackslash
  | case10 done c rest hquote hlone hu hletter hcontrol ih =>
    have hbackslash : c ≠ '\\' := by
      intro heq
      cases rest with
      | nil => exact hlone heq rfl
      | cons letter rest => exact hletter letter rest heq rfl
    exact locates_char (s := [c]) (.plain ⟨hquote, hbackslash, hcontrol⟩) (ih h)

theorem reads_stringTail : Reads (stringTail []) (quoting.TailText '"') where
  ok := by
    intro text rest name h
    obtain ⟨body, cs, hbody, rfl, rfl⟩ := stringTail_eq_ok_iff.mp h
    refine ⟨_, ⟨body, cs, hbody, rfl⟩, by simp, fun rest' _ => ?_⟩
    exact stringTail_eq_ok_iff.mpr ⟨body, cs, hbody, by simp, rfl⟩
  error := locates_stringTail

end Strings

theorem locates_word {w : String} {letters text : List Char} {fault : Fault}
    (h : word w letters text = .error fault) :
    Locates (word w letters) (· = letters) text fault := by
  fun_induction word w letters text with
  | case1 text => cases h
  | case2 letter letters =>
    cases h
    exact locates_unexpected_end ⟨_, rfl⟩
  | case3 letters letter rest ih =>
    refine (ih h).behind (p := [letter]) (fun t => ?_) fun t ht => ?_
    · rw [List.singleton_append, word, if_pos rfl]
    · rw [ht, List.singleton_append]
  | case4 letter letters c rest hne =>
    cases h
    refine locates_unexpected ⟨_, rfl⟩ fun t ht => ?_
    obtain ⟨t, rfl⟩ := exists_eq_cons_of_head? ht
    rw [word, if_neg hne]

theorem word_append (w : String) (letters rest : List Char) :
    word w letters (letters ++ rest) = .ok rest := by
  induction letters with
  | nil => rfl
  | cons letter letters ih => rw [List.cons_append, word, if_pos rfl, ih]

theorem reads_word (w : String) (v : Value) :
    Reads (fun t => word w w.toList t >>= fun rest => .ok (v, rest)) (· = w.toList) where
  ok := by
    intro text rest a h
    obtain ⟨rest₁, hword, h⟩ := bind_eq_ok.mp h
    cases h
    exact ⟨_, rfl, eq_append_of_word hword, fun rest' _ => by rw [word_append]; rfl⟩
  error := by
    intro text fault h
    cases hword : word w w.toList text with
    | ok rest =>
      rw [hword] at h
      cases h
    | error e =>
      rw [hword] at h
      cases h
      refine (locates_word hword).mono (fun t _ e he => ?_) fun t ht =>
        ⟨[], by rw [ht, List.append_nil]⟩
      rw [he]
      rfl

theorem scalarForm_of_tailText {s : List Char} (h : quoting.TailText '"' s) :
    ScalarForm ('"' :: s) := by
  obtain ⟨value, hs⟩ := exists_stringText h
  exact .string hs

/-- The first character of a value tells which reader goes on with it. -/
theorem locates_scalar {read : Reader Value} {Form : List Char → Prop} (hread : Reads read Form)
    {c : Char} (hscalar : ∀ t, scalar (c :: t) = read (c :: t))
    (hform : ∀ t, Form t → ScalarForm t) {rest : List Char} {fault : Fault}
    (h : read (c :: rest) = .error fault) : Locates scalar ScalarForm (c :: rest) fault := by
  refine (hread.error h).mono (fun t ht e he => ?_) fun t ht => ⟨[], ?_⟩
  · obtain ⟨t, rfl⟩ := exists_eq_cons_of_head? ht
    rw [hscalar, he]
  · rw [List.append_nil]
    exact hform t ht

theorem reads_scalar : Reads scalar ScalarForm where
  ok := by
    intro text rest v h
    rw [scalar.eq_def] at h
    split at h
    · obtain ⟨s, hs, rfl, hahead⟩ := (reads_stringTail.map Value.string).ok h
      exact ⟨_, scalarForm_of_tailText hs, rfl, hahead⟩
    · obtain ⟨s, rfl, htext, hahead⟩ := (reads_word "true" (.boolean true)).ok h
      exact ⟨_, .trueWord, htext, hahead⟩
    · obtain ⟨s, rfl, htext, hahead⟩ := (reads_word "false" (.boolean false)).ok h
      exact ⟨_, .falseWord, htext, hahead⟩
    · obtain ⟨s, rfl, htext, hahead⟩ := (reads_word "null" .null).ok h
      exact ⟨_, .nullWord, htext, hahead⟩
    · split at h
      · obtain ⟨s, ⟨n, hs⟩, htext, hahead⟩ := (reads_number.map Value.number).ok h
        refine ⟨s, .number hs, htext, fun rest' hrest' => ?_⟩
        obtain ⟨c, t, rfl, hc⟩ := numeralText_first hs
        exact (scalar_number hc).trans (hahead rest' hrest')
      · cases h
    · cases h
  error := by
    intro text fault h
    have hnull : ∃ u, ScalarForm u := ⟨_, .nullWord⟩
    rw [scalar.eq_def] at h
    split at h
    · exact ((reads_stringTail.map Value.string).error h).behind (p := ['"']) (fun _ => rfl)
        fun _ ht => scalarForm_of_tailText ht
    · exact locates_scalar (reads_word "true" (.boolean true)) (fun _ => rfl)
        (fun t ht => ht ▸ .trueWord) h
    · exact locates_scalar (reads_word "false" (.boolean false)) (fun _ => rfl)
        (fun t ht => ht ▸ .falseWord) h
    · exact locates_scalar (reads_word "null" .null) (fun _ => rfl) (fun t ht => ht ▸ .nullWord) h
    · rename_i c rest hquote htrue hfalse hnullWord
      split at h
      · rename_i hc
        exact locates_scalar (reads_number.map Value.number) (fun _ => scalar_number hc)
          (fun t ht => .number ht.choose_spec) h
      · rename_i hc
        cases h
        refine locates_unexpected hnull fun t ht => ?_
        obtain ⟨t, rfl⟩ := exists_eq_cons_of_head? ht
        rw [scalar, if_neg hc]
        · exact hquote
        · exact htrue
        · exact hfalse
        · exact hnullWord
    · cases h
      exact locates_unexpected_end hnull

theorem isSpace_of_head? {text : List Char} {c : Char} (h : (skipSpace text).head? = some c) :
    isSpace c = false := by
  induction text with
  | nil => cases h
  | cons d text ih =>
    cases hd : isSpace d with
    | true =>
      rw [skipSpace, List.dropWhile_cons, hd] at h
      exact ih h
    | false =>
      rw [skipSpace_cons hd] at h
      cases h
      exact hd

/-- One character decides whether there is white space left. -/
theorem skipSpace_ahead {text t : List Char} (h : t.head? = (skipSpace text).head?) :
    skipSpace t = t := by
  cases t with
  | nil => rfl
  | cons c t => exact skipSpace_cons (isSpace_of_head? h.symm) t

/-- Where white space may stand in front, the reader is one behind the white space. -/
theorem Reads.skipSpace {α : Type} {read : Reader α} {Form : List Char → Prop}
    (h : Reads read Form) :
    Reads (fun t => read (skipSpace t)) (fun s => ∃ p t, Spaces p ∧ Form t ∧ s = p ++ t) where
  ok := by
    intro text rest a hok
    obtain ⟨p, hp, htext⟩ := exists_spaces text
    obtain ⟨s, hs, hskip, hahead⟩ := h.ok hok
    refine ⟨p ++ s, ⟨p, s, hp, hs, rfl⟩, ?_, fun rest' hrest' => ?_⟩
    · rw [List.append_assoc, ← hskip, ← htext]
    · have hhead := head?_append_congr hrest' s
      rw [← hskip] at hhead
      rw [List.append_assoc, skipSpace_append hp, skipSpace_ahead hhead]
      exact hahead rest' hrest'
  error := by
    intro text fault herror
    obtain ⟨p, hp, htext⟩ := exists_spaces text
    have hlocates := h.error herror
    rw [htext]
    refine hlocates.append (fun t ht e he => ?_) fun t ht => ⟨[], p, t, hp, ht, by simp⟩
    rw [skipSpace_append hp, skipSpace_ahead ht, he]

def colon (k : String) : Reader String
  | ':' :: rest => .ok (k, rest)
  | rest => unexpected .colon rest

def quotedKey : Reader String
  | '"' :: rest => stringTail [] rest >>= fun r => colon r.1 (skipSpace r.2)
  | rest => unexpected .key rest

theorem colon_of_head (k : String) {text : List Char} (h : text.head? ≠ some ':') :
    colon k text = unexpected .colon text := by
  unfold colon
  split
  · exact absurd rfl h
  · rfl

theorem quotedKey_of_head {text : List Char} (h : text.head? ≠ some '"') :
    quotedKey text = unexpected .key text := by
  unfold quotedKey
  split
  · exact absurd rfl h
  · rfl

theorem key_eq (text : List Char) : key text = quotedKey (skipSpace text) := by
  rw [key.eq_def]
  split
  · rename_i hquote
    rw [hquote]
    refine congrArg _ (funext fun r => ?_)
    obtain ⟨k, rest'⟩ := r
    dsimp only
    generalize skipSpace rest' = t
    split
    · rfl
    · rename_i hcolon
      exact (colon_of_head k (head?_ne_of_forall hcolon)).symm
  · rename_i hquote
    exact (quotedKey_of_head (head?_ne_of_forall hquote)).symm

theorem reads_colon (k : String) : Reads (colon k) (· = [':']) where
  ok := by
    intro text rest a h
    unfold colon at h
    split at h
    · cases h
      exact ⟨_, rfl, rfl, fun _ _ => rfl⟩
    · cases h
  error := by
    intro text fault h
    unfold colon at h
    split at h
    · cases h
    · rename_i hcolon
      cases h
      exact locates_unexpected ⟨_, rfl⟩ fun t ht =>
        colon_of_head k (ht ▸ head?_ne_of_forall hcolon)

/-- The form of a key and its colon, from the quote on. -/
def QuotedKeyForm (s : List Char) : Prop :=
  ∃ t q, quoting.TailText '"' t ∧ Spaces q ∧ s = '"' :: (t ++ (q ++ [':']))

theorem reads_quotedKey : Reads quotedKey QuotedKeyForm := by
  have htail : Reads (fun t => stringTail [] t >>= fun r => colon r.1 (skipSpace r.2))
      (fun s => ∃ t q, quoting.TailText '"' t ∧ Spaces q ∧ s = t ++ (q ++ [':'])) := by
    refine reads_stringTail.bind (fun k => (reads_colon k).skipSpace) ?_ ?_
    · rintro s _ _ hs ⟨q, _, hq, rfl, rfl⟩
      exact ⟨s, q, hs, hq, rfl⟩
    · intro s hs
      exact ⟨[':'], s, [], hs, spaces_nil, rfl⟩
  refine ⟨?_, ?_⟩
  · intro text rest k h
    unfold quotedKey at h
    split at h
    · obtain ⟨_, ⟨t, q, ht, hq, rfl⟩, rfl, hahead⟩ := htail.ok h
      exact ⟨_, ⟨t, q, ht, hq, rfl⟩, rfl, hahead⟩
    · cases h
  · intro text fault h
    unfold quotedKey at h
    split at h
    · refine (htail.error h).behind (p := ['"']) (fun _ => rfl) ?_
      rintro _ ⟨t, q, ht, hq, rfl⟩
      exact ⟨t, q, ht, hq, rfl⟩
    · rename_i hquote
      cases h
      exact locates_unexpected ⟨_, _, [], quoting.tailText_quote '"', spaces_nil, rfl⟩ fun t ht =>
        quotedKey_of_head (ht ▸ head?_ne_of_forall hquote)

theorem reads_key : Reads key KeyForm := by
  have hkey := reads_quotedKey.skipSpace
  have hform : ∀ s, (∃ p t, Spaces p ∧ QuotedKeyForm t ∧ s = p ++ t) → KeyForm s := by
    rintro _ ⟨p, _, hp, ⟨t, q, ht, hq, rfl⟩, rfl⟩
    obtain ⟨k, hs⟩ := exists_stringText ht
    exact .mk hp hs hq
  rw [← funext key_eq] at hkey
  exact hkey.imp hform

theorem KeyForm.prepend_spaces {p s : List Char} (hp : Spaces p) (h : KeyForm s) :
    KeyForm (p ++ s) := by
  cases h with
  | mk hp' hs hq =>
    rw [← List.append_assoc]
    exact .mk (spaces_append hp hp') hs hq

theorem key_spaces {p : List Char} (hp : Spaces p) (text : List Char) :
    key (p ++ text) = key text := by
  rw [key_eq, key_eq, skipSpace_append hp]

end JsonQuery.Json
