import JsonQuery.Proofs.Toml.Number

/-!
Dates and times: the reader takes what the grammar writes.
-/

namespace JsonQuery.Toml

theorem PairText.pair?_append {s : List Char} {n : Nat} (h : PairText s n) (rest : List Char) :
    pair? (s ++ rest) = some (n, rest) := by
  cases h with
  | mk ha hb => exact if_pos ⟨ha, hb⟩

theorem DateText.afterDate?_append {s : List Char} (h : DateText s) (rest : List Char) :
    afterDate? (s ++ rest) = some rest := by
  cases h with
  | mk hc hy hm hd hmonth hday =>
    simp only [afterDate?, List.append_assoc, List.cons_append, hc.pair?_append, hy.pair?_append,
      hm.pair?_append, hd.pair?_append, hmonth.1, hmonth.2, hday.1, hday.2, and_self, if_true,
      Option.bind_eq_bind, Option.bind_some, Option.pure_def]

theorem TimeText.afterTime?_append {s rest : List Char} (h : TimeText s)
    (hr : ∀ c ∈ rest.head?, c ≠ '.' ∧ c.isDigit = false) : afterTime? (s ++ rest) = some rest := by
  have hdigit : Text.startsWithDigit rest = false := by
    cases rest with
    | nil => rfl
    | cons c rest => exact (hr c rfl).2
  cases h with
  | whole hs =>
    cases hs with
    | mk hh hm hs hbound =>
      simp only [afterTime?, List.append_assoc, List.cons_append, hh.pair?_append,
        hm.pair?_append, hs.pair?_append, hbound.1, hbound.2.1, hbound.2.2, and_self, if_true,
        Option.bind_eq_bind, Option.bind_some, Option.pure_def]
      split
      · exact absurd rfl (hr '.' rfl).1
      · rfl
  | fraction hs hd =>
    cases hs with
    | mk hh hm hs hbound =>
      simp only [afterTime?, List.append_assoc, List.cons_append, hh.pair?_append,
        hm.pair?_append, hs.pair?_append, hbound.1, hbound.2.1, hbound.2.2, and_self, if_true,
        Option.bind_eq_bind, Option.bind_some, Option.pure_def, Text.startsWithDigit_append hd,
        Text.afterDigits_append hd.2 hdigit]

theorem OffsetText.isOffset_eq {s : List Char} (h : OffsetText s) : isOffset s = true := by
  cases h with
  | none => rfl
  | zero hc => rcases hc with rfl | rfl <;> rfl
  | mk hc hh hm hbound =>
    have hminute := hm.pair?_append []
    rw [List.append_nil] at hminute
    rcases hc with rfl | rfl <;>
      simp [isOffset, hh.pair?_append, hminute, hbound.1, hbound.2]

theorem OffsetText.head {s : List Char} (h : OffsetText s) :
    ∀ c ∈ s.head?, c ≠ '.' ∧ c.isDigit = false := by
  cases h with
  | none => simp
  | zero hc => rcases hc with rfl | rfl <;> simp
  | mk hc => rcases hc with rfl | rfl <;> simp

theorem isDayTime_eq {t o : List Char} (ht : TimeText t) (ho : OffsetText o) :
    isDayTime (t ++ o) = true := by
  rw [isDayTime, ht.afterTime?_append ho.head, Option.any_some, ho.isOffset_eq]

theorem isWordChar_of_isDigit {c : Char} (h : c.isDigit = true) : isWordChar c = true := by
  simp [isWordChar, isAlphanum_of_isDigit h]

theorem PairText.isDigit {s : List Char} {n : Nat} (h : PairText s n) :
    ∀ c ∈ s, c.isDigit = true := by
  cases h with
  | mk ha hb => simp [ha, hb]

theorem PairText.isWordChar {s : List Char} {n : Nat} (h : PairText s n) :
    ∀ c ∈ s, isWordChar c = true :=
  fun c hc => isWordChar_of_isDigit (h.isDigit c hc)

theorem PairText.exists_cons {s : List Char} {n : Nat} (h : PairText s n) :
    ∃ d s', s = d :: s' ∧ d.isDigit = true := by
  cases h with
  | mk ha => exact ⟨_, _, rfl, ha⟩

theorem DateText.isWordChar {s : List Char} (h : DateText s) : ∀ c ∈ s, isWordChar c = true := by
  cases h with
  | mk hc hy hm hd =>
    have hday := List.forall_mem_append.mpr ⟨hm.isWordChar, List.forall_mem_cons.mpr
      ⟨(rfl : Toml.isWordChar '-' = true), hd.isWordChar⟩⟩
    exact List.forall_mem_append.mpr ⟨hc.isWordChar, List.forall_mem_append.mpr
      ⟨hy.isWordChar, List.forall_mem_cons.mpr ⟨rfl, hday⟩⟩⟩

theorem SecondText.isWordChar {s : List Char} (h : SecondText s) :
    ∀ c ∈ s, isWordChar c = true := by
  cases h with
  | mk hh hm hs =>
    have hsecond := List.forall_mem_append.mpr ⟨hm.isWordChar, List.forall_mem_cons.mpr
      ⟨(rfl : Toml.isWordChar ':' = true), hs.isWordChar⟩⟩
    exact List.forall_mem_append.mpr ⟨hh.isWordChar, List.forall_mem_cons.mpr ⟨rfl, hsecond⟩⟩

theorem TimeText.isWordChar {s : List Char} (h : TimeText s) : ∀ c ∈ s, isWordChar c = true := by
  cases h with
  | whole hs => exact hs.isWordChar
  | fraction hs hd =>
    exact List.forall_mem_append.mpr ⟨hs.isWordChar, List.forall_mem_cons.mpr
      ⟨rfl, fun c hc => isWordChar_of_isDigit (hd.2 c hc)⟩⟩

theorem OffsetText.isWordChar {s : List Char} (h : OffsetText s) :
    ∀ c ∈ s, isWordChar c = true := by
  cases h with
  | none => simp
  | zero hc => rcases hc with rfl | rfl <;> simp [Toml.isWordChar]
  | mk hc hh hm =>
    have hminute := List.forall_mem_append.mpr ⟨hh.isWordChar, List.forall_mem_cons.mpr
      ⟨(rfl : Toml.isWordChar ':' = true), hm.isWordChar⟩⟩
    refine List.forall_mem_cons.mpr ⟨?_, hminute⟩
    rcases hc with rfl | rfl <;> rfl

theorem DateText.exists_cons {s : List Char} (h : DateText s) :
    ∃ d s', s = d :: s' ∧ d.isDigit = true := by
  cases h with
  | mk hc =>
    obtain ⟨d, s', rfl, hd⟩ := hc.exists_cons
    exact ⟨d, _, rfl, hd⟩

theorem TimeText.exists_cons {s : List Char} (h : TimeText s) :
    ∃ d s', s = d :: s' ∧ d.isDigit = true := by
  have hsecond : ∀ {s}, SecondText s → ∃ d s', s = d :: s' ∧ d.isDigit = true := by
    rintro _ ⟨hh⟩
    obtain ⟨d, s', rfl, hd⟩ := hh.exists_cons
    exact ⟨d, _, rfl, hd⟩
  cases h with
  | whole hs => exact hsecond hs
  | fraction hs =>
    obtain ⟨d, s', rfl, hd⟩ := hsecond hs
    exact ⟨d, _, rfl, hd⟩

theorem MomentText.exists_cons {s : List Char} (h : MomentText s) :
    ∃ d s', s = d :: s' ∧ d.isDigit = true := by
  cases h with
  | date hs => exact hs.exists_cons
  | time hs => exact hs.exists_cons
  | both hs =>
    obtain ⟨d, s', rfl, hd⟩ := hs.exists_cons
    exact ⟨d, _, rfl, hd⟩

theorem MomentText.isMoment_eq {s : List Char} (h : MomentText s) : isMoment s = true := by
  cases h with
  | date hs =>
    have hdate := hs.afterDate?_append []
    rw [List.append_nil] at hdate
    rw [isMoment, hdate, Bool.or_true]
  | time hs =>
    have htime : afterTime? (s ++ []) = some [] := hs.afterTime?_append (by simp)
    rw [List.append_nil] at htime
    rw [isMoment, htime]
    rfl
  | @both s t o c hs hc ht ho =>
    rw [isMoment, hs.afterDate?_append (c :: (t ++ o))]
    simp only [isDayTime_eq ht ho, Bool.and_true]
    rcases hc with rfl | rfl | rfl <;> exact Bool.or_true _

theorem MomentText.ofWord?_eq {s : List Char} (h : MomentText s) :
    ofWord? s = some (.moment s) := by
  have hmoment := h.isMoment_eq
  obtain ⟨d, s', rfl, hd⟩ := h.exists_cons
  rw [ofWord?, if_neg, if_neg, hmoment]
  · rfl
  · rintro ⟨⟩
    cases hd
  · rintro ⟨⟩
    cases hd

end JsonQuery.Toml
