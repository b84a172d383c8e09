import JsonQuery.Proofs.Toml.Quoted

/-!
Keys: the reader takes what the grammar writes up to the sign of equality.
-/

namespace JsonQuery.Toml

/-- What a key may begin with. -/
def opensKey (c : Char) : Bool := isBare c || c == '"' || c == '\''

theorem PlainKeyText.exists_cons {s : List Char} {key : String} (h : PlainKeyText s key) :
    ∃ c t, s = c :: t ∧ opensKey c = true := by
  cases h with
  | bare hne h =>
    cases s with
    | nil => exact absurd rfl hne
    | cons c t => exact ⟨c, t, rfl, by simp [opensKey, h c List.mem_cons_self]⟩
  | quoted hs =>
    cases hs with
    | basic => exact ⟨_, _, rfl, rfl⟩
    | literal => exact ⟨_, _, rfl, rfl⟩

theorem not_isBare_of_isSpace {c : Char} (h : isSpace c = true) : isBare c = false := by
  rcases isSpace_cases h with rfl | rfl <;> rfl

theorem isSolid_of_opensKey {c : Char} (h : opensKey c = true) : isSolid c = true :=
  isSolid_of_class (by decide) h

theorem plainKey?_append {s rest : List Char} {key : String} (h : PlainKeyText s key)
    (hr : ∀ c ∈ rest.head?, isBare c = false) : plainKey? (s ++ rest) = some (key, rest) := by
  cases h with
  | quoted hs => simp only [plainKey?, quotedLine?_append hs]
  | bare hne h =>
    have hquoted : quotedLine? (s ++ rest) = none := by
      cases s with
      | nil => exact absurd rfl hne
      | cons c t =>
        have hc := h c List.mem_cons_self
        rw [List.cons_append, quotedLine?]
        · rintro _ ⟨⟩
          cases hc
        · rintro _ ⟨⟩
          cases hc
    have htake : (s ++ rest).takeWhile isBare = s := (Text.takeWhile_append_of_head h hr).1
    simp only [plainKey?, hquoted, htake, if_neg hne, List.drop_left]

/-- What stands behind a plain key does not go on with it. -/
theorem MoreKeys.head {t : List Char} {keys : List String} (h : MoreKeys t keys)
    (rest : List Char) : ∀ c ∈ (t ++ '=' :: rest).head?, isBare c = false := by
  cases h with
  | nil hp =>
    exact forall_head?_append (fun c hc => not_isBare_of_isSpace (hp c hc)) (by simp [isBare])
  | cons hp =>
    rw [List.append_assoc]
    exact forall_head?_append (fun c hc => not_isBare_of_isSpace (hp c hc)) (by simp [isBare])

theorem dottedRest?_append {t : List Char} {keys : List String} (h : MoreKeys t keys)
    (rest : List Char) : dottedRest? (t ++ '=' :: rest) = some (keys, '=' :: rest) := by
  induction h with
  | nil hp =>
    have hskip := skipSpace_append hp ('=' :: rest)
    rw [skipSpace_cons rfl] at hskip
    rw [dottedRest?]
    split
    · rename_i heq
      rw [hskip] at heq
      cases heq
    · rw [hskip]
  | @cons p q s t key keys hp hq hs ht ih =>
    have hskip : skipSpace (p ++ '.' :: (q ++ (s ++ t)) ++ '=' :: rest) =
        '.' :: (q ++ (s ++ (t ++ '=' :: rest))) := by
      rw [List.append_assoc, skipSpace_append hp, List.cons_append, skipSpace_cons rfl,
        List.append_assoc, List.append_assoc]
    have hkey : plainKey? (skipSpace (q ++ (s ++ (t ++ '=' :: rest)))) =
        some (key, t ++ '=' :: rest) := by
      obtain ⟨c, s', rfl, hc⟩ := hs.exists_cons
      rw [skipSpace_append hq, List.cons_append, skipSpace_solid (isSolid_of_opensKey hc),
        ← List.cons_append, plainKey?_append hs (ht.head rest)]
    rw [dottedRest?]
    split
    · rename_i heq
      rw [hskip] at heq
      cases heq
      split
      · rename_i heq
        rw [hkey] at heq
        cases heq
        simp only [ih, Option.bind_eq_bind, Option.bind_some, Option.pure_def]
      · rename_i heq
        rw [hkey] at heq
        cases heq
    · rename_i hne
      exact absurd hskip (hne _)

theorem key?_append {s : List Char} {key : DottedKey} (h : KeyText s key) (rest : List Char) :
    key? (s ++ '=' :: rest) = some (key, '=' :: rest) := by
  cases h with
  | @mk s t first others hs ht hlength =>
    have hskip : skipSpace (s ++ t ++ '=' :: rest) = s ++ (t ++ '=' :: rest) := by
      obtain ⟨c, s', rfl, hc⟩ := hs.exists_cons
      rw [List.append_assoc, List.cons_append, skipSpace_solid (isSolid_of_opensKey hc)]
    simp only [key?, hskip, plainKey?_append hs (ht.head rest), dottedRest?_append ht, hlength,
      if_true, Option.bind_eq_bind, Option.bind_some, Option.pure_def]

theorem KeyText.exists_cons {s : List Char} {key : DottedKey} (h : KeyText s key) :
    ∃ c t, s = c :: t ∧ opensKey c = true := by
  cases h with
  | mk hs =>
    obtain ⟨c, s', rfl, hc⟩ := hs.exists_cons
    exact ⟨c, _, rfl, hc⟩

end JsonQuery.Toml
