import JsonQuery.Proofs.Toml.Moment
import JsonQuery.Proofs.Toml.Quoted

/-!
The items without parts: strings, and what is read as a word where it is closed behind.
-/

namespace JsonQuery.Toml

theorem not_isWordChar_of_ends {rest : List Char} (h : Ends rest) :
    ∀ c ∈ rest.head?, isWordChar c = false := by
  intro c hc
  rcases h.head c hc with hspace | hclose
  · rcases isSpace_cases hspace with rfl | rfl <;> rfl
  · simp only [closesItem, Bool.or_eq_true, beq_iff_eq] at hclose
    rcases hclose with ((((rfl | rfl) | rfl) | rfl) | rfl) | rfl <;> rfl

theorem takeWhile_append_ends {w rest : List Char} (hw : ∀ c ∈ w, isWordChar c = true)
    (hr : Ends rest) : (w ++ rest).takeWhile isWordChar = w :=
  (Text.takeWhile_append_of_head hw (not_isWordChar_of_ends hr)).1

theorem ends_space {rest : List Char} (h : Ends (' ' :: rest)) : Ends rest := h

/-- A word ends where the item is closed. A space there is not the one before a time of day. -/
theorem word_append_ends {w rest : List Char} (hw : ∀ c ∈ w, isWordChar c = true)
    (hr : Ends rest) : word (w ++ rest) = (w, rest) := by
  simp only [word, takeWhile_append_ends hw hr, List.drop_left]
  split
  · rename_i rest
    have hnone : ([] ++ rest).takeWhile isWordChar = [] :=
      takeWhile_append_ends (by simp) (ends_space hr)
    rw [List.nil_append] at hnone
    rw [hnone, if_neg]
    rintro ⟨-, h⟩
    cases h
  · rfl

theorem word_spaced {s t o rest : List Char} (hs : DateText s) (ht : TimeText t)
    (ho : OffsetText o) (hr : Ends rest) :
    word (s ++ ' ' :: (t ++ o) ++ rest) = (s ++ ' ' :: (t ++ o), rest) := by
  have hdate := hs.afterDate?_append []
  rw [List.append_nil] at hdate
  have htake : (s ++ ' ' :: (t ++ o) ++ rest).takeWhile isWordChar = s := by
    rw [List.append_assoc]
    exact (Text.takeWhile_append_of_head hs.isWordChar (by simp [isWordChar])).1
  have htime : (t ++ o ++ rest).takeWhile isWordChar = t ++ o :=
    takeWhile_append_ends (List.forall_mem_append.mpr ⟨ht.isWordChar, ho.isWordChar⟩) hr
  have hdrop : (s ++ ' ' :: (t ++ o) ++ rest).drop s.length = ' ' :: (t ++ o ++ rest) := by
    rw [List.append_assoc, List.drop_left, List.cons_append]
  simp only [word, htake, hdrop, htime, hdate, isDayTime_eq ht ho, and_self, if_true,
    List.drop_left]

theorem scalarItem?_word {w rest : List Char} {item : Item} (hw : ∀ c ∈ w, isWordChar c = true)
    (hitem : ofWord? w = some item) (hr : Ends rest) :
    scalarItem? (w ++ rest) = some (item, rest) := by
  simp only [scalarItem?, word_append_ends hw hr, hitem, Option.map_some]

theorem isWordChar_of_isNumeric {c : Char} (h : isNumeric c = true) : isWordChar c = true :=
  (Bool.and_eq_true_iff.mp h).1

theorem MomentText.scalarItem?_append {s rest : List Char} (h : MomentText s) (hr : Ends rest) :
    scalarItem? (s ++ rest) = some (.moment s, rest) := by
  have hitem := h.ofWord?_eq
  cases h with
  | date hs => exact scalarItem?_word hs.isWordChar hitem hr
  | time hs => exact scalarItem?_word hs.isWordChar hitem hr
  | both hs hc ht ho =>
    have hbehind := List.forall_mem_append.mpr ⟨ht.isWordChar, ho.isWordChar⟩
    rcases hc with rfl | rfl | rfl
    · exact scalarItem?_word (List.forall_mem_append.mpr ⟨hs.isWordChar,
        List.forall_mem_cons.mpr ⟨rfl, hbehind⟩⟩) hitem hr
    · exact scalarItem?_word (List.forall_mem_append.mpr ⟨hs.isWordChar,
        List.forall_mem_cons.mpr ⟨rfl, hbehind⟩⟩) hitem hr
    · simp only [scalarItem?, word_spaced hs ht ho hr, hitem, Option.map_some]

theorem exists_cons_of_ofWord? {w : List Char} {item : Item} (hw : ∀ c ∈ w, isWordChar c = true)
    (hitem : ofWord? w = some item) : ∃ c t, w = c :: t ∧ isWordChar c = true := by
  cases w with
  | nil => cases hitem
  | cons c t => exact ⟨c, t, rfl, hw c List.mem_cons_self⟩

/-- A scalar is a string, or a word, or a date and a time with a space between. -/
theorem ScalarText.cases_word {s : List Char} {item : Item} (h : ScalarText s item) :
    (∃ cs, StringText s cs ∧ item = .string (String.ofList cs)) ∨
      (∃ c t, s = c :: t ∧ isWordChar c = true) ∧
        ∀ rest, Ends rest → scalarItem? (s ++ rest) = some (item, rest) := by
  have hword : ∀ {w item}, (∀ c ∈ w, isWordChar c = true) → ofWord? w = some item →
      (∃ c t, w = c :: t ∧ isWordChar c = true) ∧
        ∀ rest, Ends rest → scalarItem? (w ++ rest) = some (item, rest) :=
    fun hw hitem => ⟨exists_cons_of_ofWord? hw hitem, fun _ hr => scalarItem?_word hw hitem hr⟩
  cases h with
  | string hs => exact .inl ⟨_, hs, rfl⟩
  | trueWord => exact .inr (hword (by simp [isWordChar]) rfl)
  | falseWord => exact .inr (hword (by simp [isWordChar]) rfl)
  | integer hs =>
    exact .inr (hword (fun c hc => isWordChar_of_isNumeric (hs.isNumeric c hc)) hs.ofWord?_eq)
  | real hs =>
    exact .inr (hword (fun c hc => isWordChar_of_isNumeric (hs.isNumeric c hc)) hs.ofWord?_eq)
  | moment hs =>
    obtain ⟨d, t, rfl, hd⟩ := hs.exists_cons
    exact .inr ⟨⟨d, t, rfl, isWordChar_of_isDigit hd⟩, fun _ hr => hs.scalarItem?_append hr⟩

end JsonQuery.Toml
