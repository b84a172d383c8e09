import JsonQuery.Proofs.Path.Begun
import JsonQuery.Proofs.Path.Reading

/-!
Where a query is refused, all before the place of the fault is the beginning of a query. Conditions
and brackets nest; what is refused within them is refused at a place where they may still close.
-/

namespace JsonQuery.Path

open Text (skipBlank bind_eq_ok bind_eq_error)

/-- Wherever the reader refuses a text, what stands before goes on to one that derives something. -/
def Stops {α : Type} (read : Reader α) (TextOf : List Char → α → Prop) : Prop :=
  ∀ text fault, read text = .error fault → Begun (Padded (Derives TextOf)) text fault

/-- The reader refuses the text, or the mark that closes what it reads is missing. -/
def RefusesUpTo {α : Type} (read : Reader α) (mark : Char) (text : List Char) (fault : Fault) :
    Prop :=
  read text = .error fault ∨
    ∃ a rest, read text = .ok (a, rest) ∧ expect mark rest = .error fault

theorem begun_chain (Chain : List Char → Condition → Prop) {Item : List Char → Condition → Prop}
    {mark : Char} {join : Condition → Condition → Condition} {read : Reader Condition}
    {progress : Text.Progress read} (hread : ReadsOnly read Item) (hstops : Stops read Item)
    (hjoin : ∀ {s p q t : List Char} {left right : Condition}, Chain s left → Blanks p →
      Blanks q → Item t right → Chain (s ++ (p ++ mark :: mark :: (q ++ t))) (join left right))
    {left : Condition} {s q text : List Char} {fault : Fault} (hs : Chain s left) (hq : Blanks q)
    (h : chain mark join read progress left text = .error fault) :
    Begun (Derives Chain) (s ++ (q ++ text)) fault := by
  fun_induction chain mark join read progress left text generalizing s q with
  | case1 left text a b rest hb hmark right rest' hr ih =>
    obtain ⟨p₁, hp₁, heq⟩ := exists_blanks_of_skipBlank hb
    obtain ⟨p, t, q', hp, ht, hq', rfl⟩ := hread _ _ _ hr
    have hbegun := ih (hjoin hs (blanks_append hq hp₁) hp ht) hq' h
    rw [heq, hmark.1, hmark.2]
    simpa only [List.append_assoc, List.cons_append] using hbegun
  | case2 left text a b rest hb hmark e hr =>
    cases h
    obtain ⟨p₁, hp₁, heq⟩ := exists_blanks_of_skipBlank hb
    rw [heq, hmark.1, hmark.2]
    apply (hstops _ _ hr).behind (s ++ (q ++ (p₁ ++ [mark, mark]))) (by simp)
    rintro _ ⟨p, t, hp, ⟨right, ht⟩, rfl⟩
    exact ⟨[], .of_eq (hjoin hs (blanks_append hq hp₁) hp ht) (by simp)⟩
  | case3 => cases h
  | case4 => cases h

theorem stops_conjunction {depth : Nat} {inner : Option Inner}
    (hread : ReadsOnly (unary inner) (UnaryText depth))
    (hstops : Stops (unary inner) (UnaryText depth)) :
    Stops (conjunction inner) (ConjunctionText depth) := by
  intro text fault h
  rcases bind_eq_error.mp h with hfirst | ⟨⟨first, rest⟩, hfirst, hchain⟩
  · exact (hstops _ _ hfirst).padded_derives fun hs => ⟨_, .unary hs⟩
  · obtain ⟨p, s, q, hp, hs, hq, rfl⟩ := hread _ _ _ hfirst
    exact (begun_chain (ConjunctionText depth) hread hstops .and (.unary hs) hq hchain).padded hp

theorem stops_disjunction {depth : Nat} {inner : Option Inner}
    (hread : ReadsOnly (unary inner) (UnaryText depth))
    (hstops : Stops (unary inner) (UnaryText depth)) :
    Stops (disjunction inner) (DisjunctionText depth) := by
  intro text fault h
  have hitem := readsOnly_conjunction hread
  have hitems := stops_conjunction hread hstops
  rcases bind_eq_error.mp h with hfirst | ⟨⟨first, rest⟩, hfirst, hchain⟩
  · exact (hitems _ _ hfirst).padded_derives fun hs => ⟨_, .conjunction hs⟩
  · obtain ⟨p, s, q, hp, hs, hq, rfl⟩ := hitem _ _ _ hfirst
    exact (begun_chain (DisjunctionText depth) hitem hitems .or (.conjunction hs) hq hchain).padded
      hp

/-- A condition that is refused is refused as a comparison, or where it nests. -/
theorem stops_unary_of_inner {depth : Nat} {inner : Option Inner}
    (hnegated : ∀ within, inner = some within → ∀ text fault,
      within.negated text = .error fault → Begun (Derives (UnaryText depth)) ('!' :: text) fault)
    (hgroup : ∀ within, inner = some within → ∀ text fault,
      RefusesUpTo within.condition ')' text fault →
        Begun (Derives (UnaryText depth)) ('(' :: text) fault) :
    Stops (unary inner) (UnaryText depth) := by
  intro text fault h
  obtain ⟨p, hp, htext⟩ := exists_blanks text
  rw [htext]
  unfold unary at h
  split at h
  · rename_i hb
    rw [hb]
    exact ((begun_comparing h).blanks hp).padded_derives fun hs => ⟨_, .comparing hs⟩
  · rename_i rest _ hb
    rw [hb]
    refine Begun.padded ?_ hp
    split at h
    · cases h
      exact begun_tooDeep ['!'] rest
    · rename_i within
      rcases bind_eq_error.mp h with h | ⟨_, _, h⟩
      · exact hnegated within rfl _ _ h
      · cases h
  · rename_i rest hb
    rw [hb]
    refine Begun.padded ?_ hp
    split at h
    · cases h
      exact begun_tooDeep ['('] rest
    · rename_i within
      apply hgroup within rfl
      rcases bind_eq_error.mp h with h | ⟨r, hread, h⟩
      · exact .inl h
      · rcases bind_eq_error.mp h with h | ⟨_, _, h⟩
        · exact .inr ⟨r.1, r.2, hread, h⟩
        · cases h
  · exact ((begun_comparing h).blanks hp).padded_derives fun hs => ⟨_, .comparing hs⟩

theorem stops_unary (depth : Nat) : Stops (unary (inner depth)) (UnaryText depth) := by
  induction depth with
  | zero =>
    refine stops_unary_of_inner ?_ ?_
    · rintro within ⟨⟩
    · rintro within ⟨⟩
  | succ depth ih =>
    refine stops_unary_of_inner ?_ ?_
    · rintro within ⟨⟩ text fault h
      apply (ih _ _ h).behind ['!'] rfl
      rintro _ ⟨p, s, hp, ⟨c, hs⟩, rfl⟩
      exact ⟨[], .of_eq (.not hp hs) (by simp)⟩
    · rintro within ⟨⟩ text fault (h | ⟨c, rest, hread, hclose⟩)
      · apply (stops_disjunction (readsOnly_unary depth) ih _ _ h).behind ['('] rfl
        rintro _ ⟨p, s, hp, ⟨c, hs⟩, rfl⟩
        exact ⟨[')'], .of_eq (.group hp hs blanks_nil) (by simp)⟩
      · obtain ⟨p, s, q, hp, hs, hq, rfl⟩ :=
          readsOnly_disjunction (readsOnly_unary depth) _ _ _ hread
        apply (begun_expect hclose).behind ('(' :: (p ++ (s ++ q))) (by simp)
        rintro _ ⟨r, _, hr, rfl, rfl⟩
        exact ⟨[], .of_eq (.group hp hs (blanks_append hq hr)) (by simp)⟩

/-- Texts of a form, with blanks and the closing bracket behind them. -/
def Closed (Form : List Char → Prop) (s : List Char) : Prop :=
  ∃ t q, Form t ∧ Blanks q ∧ s = t ++ (q ++ [']'])

section Closed

variable {Form Form' : List Char → Prop} {text rest : List Char} {fault : Fault}

theorem Begun.closed (h : Begun Form text fault) : Begun (Closed Form) text fault := by
  apply h.mono
  intro s hs
  exact ⟨[']'], s, [], hs, blanks_nil, rfl⟩

theorem begun_close {s q : List Char} (hs : Form s) (hq : Blanks q)
    (h : expect ']' rest = .error fault) (htext : text = s ++ (q ++ rest)) :
    Begun (Closed Form) text fault := by
  apply (begun_expect h).behind (s ++ q) (by rw [htext, List.append_assoc])
  rintro _ ⟨r, _, hr, rfl, rfl⟩
  exact ⟨[], s, q ++ r, hs, blanks_append hq hr, by simp⟩

theorem Begun.closed_behind {s : List Char} (h : Begun (Closed Form) rest fault)
    (hform : ∀ t, Form t → Form' (s ++ t)) : Begun (Closed Form') (s ++ rest) fault := by
  apply h.behind s rfl
  rintro _ ⟨t, q, ht, hq, rfl⟩
  exact ⟨[], s ++ t, q, hform t ht, hq, by simp⟩

end Closed

variable {text : List Char} {fault : Fault}

theorem begun_selectors {done : List Selector} (h : selectors done text = .error fault) :
    Begun (Derives MoreSelectors) text fault := by
  fun_induction selectors done text with
  | case1 done text rest hb sel rest' hread ih =>
    obtain ⟨p, hp, rfl⟩ := exists_blanks_of_skipBlank hb
    obtain ⟨q, hq, heq⟩ := exists_blanks rest
    obtain ⟨s, hs, hskip⟩ := selectorText_of_selector hread
    apply (ih h).behind (p ++ ',' :: (q ++ s)) (by rw [heq, hskip]; simp)
    rintro t ⟨sels, ht⟩
    exact ⟨[], .of_eq (.cons hp hq hs ht) (by simp)⟩
  | case2 done text rest hb e hread =>
    cases h
    obtain ⟨p, hp, rfl⟩ := exists_blanks_of_skipBlank hb
    obtain ⟨q, hq, heq⟩ := exists_blanks rest
    apply (begun_selector hread).behind (p ++ ',' :: q) (by simp [← heq])
    rintro s ⟨sel, hs⟩
    exact ⟨[], .of_eq (.cons hp hq hs .nil) (by simp)⟩
  | case3 => cases h

theorem begun_selectorBracket {first : Selector}
    (h : selectorBracket first text = .error fault) :
    Begun (Closed (Derives MoreSelectors)) text fault := by
  rcases bind_eq_error.mp h with hread | ⟨⟨ss, rest⟩, hread, hend⟩
  · exact (begun_selectors hread).closed
  · obtain ⟨t, new, q, ht, hq, htext, -⟩ := moreSelectors_of_selectors hread
    rcases bind_eq_error.mp hend with hclose | ⟨_, _, hend⟩
    · exact begun_close ⟨new, ht⟩ hq hclose htext
    · cases hend

theorem begun_selection {depth : Nat} {s : List Char} {first : Selector}
    (hs : SelectorText s first) (h : selectorBracket first text = .error fault) :
    Begun (Closed (Derives (ContentText depth))) (s ++ text) fault := by
  apply (begun_selectorBracket h).closed_behind
  rintro t ⟨ss, ht⟩
  exact ⟨_, contentText_selection hs ht⟩

theorem begun_sliceBracket {b : List Char} {start : Option Int} (hb : BoundText b start)
    (h : sliceBracket start text = .error fault) :
    Begun (Closed (Derives SliceText)) (b ++ text) fault := by
  rcases bind_eq_error.mp h with hcolon | ⟨rest₁, hcolon, hread⟩
  · refine ((begun_expect hcolon).behind b rfl ?_).closed
    rintro _ ⟨p, _, hp, rfl, rfl⟩
    exact ⟨[], .of_eq (.bounds hb hp blanks_nil .none) (by simp)⟩
  obtain ⟨p, hp, rfl⟩ := exists_blanks_of_expect hcolon
  rcases bind_eq_error.mp hread with hstop | ⟨⟨stop, rest₂⟩, hstop, hend⟩
  · refine ((begun_blanks (rest_of_integer? hstop)).behind (b ++ (p ++ [':']))
      (by simp) ?_).closed
    intro q hq
    exact ⟨[], .of_eq (.bounds hb hp hq .none) (by simp)⟩
  obtain ⟨q, t, hq, ht, rfl⟩ := boundText_of_integer? hstop
  simp only at hend
  split at hend
  · rename_i rest₃ hskip
    obtain ⟨r, hr, rfl⟩ := exists_blanks_of_skipBlank hskip
    -- where the stride is at fault, the slice may do without it
    have hstart : fault.rest = skipBlank rest₃ → Begun (Closed (Derives SliceText))
        (b ++ (p ++ ':' :: (q ++ (t ++ (r ++ ':' :: rest₃))))) fault := by
      intro hrest
      refine ((begun_blanks hrest).behind (b ++ (p ++ ':' :: (q ++ (t ++ (r ++ [':'])))))
        (by simp) ?_).closed
      intro u hu
      exact ⟨[], .of_eq (.stride hb hp hq ht hr hu .none (by simp)) (by simp)⟩
    rcases bind_eq_error.mp hend with hstride | ⟨⟨stride, rest₄⟩, hstride, hend⟩
    · exact hstart (rest_of_integer? hstride)
    · simp only at hend
      split at hend
      · cases hend
        exact hstart rfl
      · rename_i hzero
        rcases bind_eq_error.mp hend with hclose | ⟨_, _, hend⟩
        · obtain ⟨u, w, hu, hw, rfl⟩ := boundText_of_integer? hstride
          exact begun_close ⟨_, .stride hb hp hq ht hr hu hw hzero⟩ blanks_nil hclose (by simp)
        · cases hend
  · rw [expect_skipBlank] at hend
    rcases bind_eq_error.mp hend with hclose | ⟨_, _, hend⟩
    · exact begun_close ⟨_, .bounds hb hp hq ht⟩ blanks_nil hclose (by simp)
    · cases hend

theorem begun_integer {depth : Nat}
    (h : (integer text >>= fun r =>
      match skipBlank r.2 with
      | ':' :: rest => sliceBracket (some r.1) (':' :: rest)
      | rest => selectorBracket (.index r.1) rest) = .error fault) :
    Begun (Closed (Derives (ContentText depth))) text fault := by
  rcases bind_eq_error.mp h with hinteger | ⟨⟨n, rest⟩, hinteger, hend⟩
  · exact (begun_front (rest_of_integer hinteger) ⟨_, _, .wildcard⟩).closed
  · clear h
    obtain ⟨s, hs, rfl⟩ := integerText_of_integer hinteger
    simp only at hend
    split at hend
    · rename_i hcolon
      obtain ⟨p, hp, hskip⟩ := exists_blanks rest
      rw [← hcolon, ← sliceBracket_skipBlank hp, ← hskip] at hend
      apply (begun_sliceBracket (.some hs) hend).imp
      rintro _ ⟨t, q, ⟨slice, ht⟩, hq, rfl⟩
      exact ⟨t, q, ⟨_, .slice ht⟩, hq, rfl⟩
    · rw [selectorBracket_skipBlank] at hend
      exact begun_selection (.index hs) hend

theorem begun_name {depth : Nat} {c : Char} (hc : isQuote c = true)
    (h : (quotedTail c [] text >>= fun r => selectorBracket (.name r.1) r.2) = .error fault) :
    Begun (Closed (Derives (ContentText depth))) (c :: text) fault := by
  rcases bind_eq_error.mp h with hname | ⟨⟨name, rest⟩, hname, h⟩
  · exact ((begun_quotedText hc hname).derives fun hs => ⟨_, .selector (.name hs)⟩).closed
  · obtain ⟨s, hs, heq⟩ := quotedText_of_quotedTail hc hname
    rw [heq]
    exact begun_selection (.name hs) h

theorem begun_condition {inner : Option Inner} {depth : Nat}
    (hread : ReadsOnly (unary inner) (UnaryText depth))
    (hstops : Stops (unary inner) (UnaryText depth))
    (h : (disjunction inner text >>= fun r => expect ']' r.2 >>= fun rest =>
      .ok (Step.filter r.1, rest)) = .error fault) :
    Begun (Closed (Derives (ContentText depth))) ('?' :: text) fault := by
  rcases bind_eq_error.mp h with hcondition | ⟨⟨c, rest⟩, hcondition, h⟩
  · refine ((stops_disjunction hread hstops _ _ hcondition).behind ['?'] rfl ?_).closed
    rintro _ ⟨q, s, hq, ⟨c, hs⟩, rfl⟩
    exact ⟨[], .of_eq (.filter hq hs) (by simp)⟩
  · obtain ⟨q, s, r, hq, hs, hr, hrest⟩ := readsOnly_disjunction hread _ _ _ hcondition
    rcases bind_eq_error.mp h with hclose | ⟨_, _, h⟩
    · exact begun_close ⟨_, .filter hq hs⟩ hr hclose (by simp [hrest])
    · cases h

/-- A bracket is refused behind a beginning of it, given that the paths in it are. -/
theorem begun_bracket {inner : Option Inner} {depth : Nat}
    (hread : ReadsOnly (unary inner) (UnaryText depth))
    (hstops : Stops (unary inner) (UnaryText depth))
    (hpath : ∀ within, inner = some within → ∀ text fault,
      RefusesUpTo within.path ']' text fault →
        Begun (Closed (Derives (ContentText depth))) ('$' :: text) fault)
    (h : bracket inner text = .error fault) :
    Begun (Padded (Closed (Derives (ContentText depth)))) text fault := by
  obtain ⟨p, hp, htext⟩ := exists_blanks text
  have hfront : ∀ rest, fault.rest = rest →
      Begun (Closed (Derives (ContentText depth))) rest fault :=
    fun rest hrest => (begun_front hrest ⟨_, _, .wildcard⟩).closed
  rw [htext]
  refine Begun.padded ?_ hp
  unfold bracket at h
  split at h
  · rename_i rest hb
    rw [hb]
    rcases bind_eq_error.mp h with hclose | ⟨_, _, h⟩
    · exact begun_close ⟨_, .wildcard⟩ blanks_nil hclose rfl
    · cases h
  · rename_i rest hb
    rw [hb]
    exact begun_condition hread hstops h
  · rename_i rest hb
    rw [hb]
    split at h
    · cases h
      exact begun_tooDeep ['$'] rest
    · rename_i within
      apply hpath within rfl
      rcases bind_eq_error.mp h with h | ⟨r, hsteps, h⟩
      · exact .inl h
      · rcases bind_eq_error.mp h with h | ⟨_, _, h⟩
        · exact .inr ⟨r.1, r.2, hsteps, h⟩
        · cases h
  · rename_i rest hb
    rw [hb]
    apply (begun_sliceBracket .none h).imp
    rintro _ ⟨t, q, ⟨slice, ht⟩, hq, rfl⟩
    exact ⟨t, q, ⟨_, .slice ht⟩, hq, rfl⟩
  · rename_i rest hb
    cases h
    exact hfront _ hb.symm
  · rename_i c rest _ _ _ _ _ hb
    rw [hb]
    split at h
    · exact begun_integer h
    · split at h
      · rename_i hc
        exact begun_name hc h
      · cases h
        exact hfront _ rfl
  · rename_i hb
    cases h
    exact hfront _ hb.symm

/-- The reader of brackets refuses a text only behind the beginning of a bracket. -/
def BracketsStop (inner : Option Inner) (depth : Nat) : Prop :=
  ∀ text fault, bracket inner text = .error fault →
    Begun (Derives (BracketText depth)) ('[' :: text) fault

theorem bracketsStop_of_content {inner : Option Inner} {depth : Nat}
    (h : ∀ text fault, bracket inner text = .error fault →
      Begun (Padded (Closed (Derives (ContentText depth)))) text fault) :
    BracketsStop inner depth := by
  intro text fault hread
  apply (h _ _ hread).behind ['['] rfl
  rintro _ ⟨p, _, hp, ⟨s, q, ⟨step, hs⟩, hq, rfl⟩, rfl⟩
  exact ⟨[], .of_eq (.mk hp hs hq) (by simp)⟩

theorem rest_of_afterDot (h : afterDot text = .error fault) : fault.rest = skipBlank text := by
  unfold afterDot at h
  split at h
  · rename_i hb
    cases h
    exact hb.symm
  · cases h
  · rcases bind_eq_error.mp h with h | ⟨_, _, h⟩
    · exact rest_of_memberName h
    · cases h

theorem begun_afterDot {depth : Nat} (h : afterDot text = .error fault) :
    Begun (Derives (StepText depth)) ('.' :: text) fault := by
  apply (begun_blanks (rest_of_afterDot h)).behind ['.'] rfl
  intro p hp
  exact ⟨['*'], .of_eq (.dot hp .wildcard) rfl⟩

theorem begun_afterDots {inner : Option Inner} {depth : Nat} (hstops : BracketsStop inner depth)
    (h : afterDots inner text = .error fault) :
    Begun (Derives (StepText depth)) ('.' :: '.' :: text) fault := by
  unfold afterDots at h
  split at h
  · cases h
  · rename_i rest hb
    obtain ⟨p, hp, rfl⟩ := exists_blanks_of_skipBlank hb
    apply (hstops _ _ h).behind ('.' :: '.' :: p) rfl
    rintro s ⟨step, hs⟩
    exact ⟨[], .of_eq (.dotsBracket hp hs) (by simp)⟩
  · rcases bind_eq_error.mp h with h | ⟨_, _, h⟩
    · apply (begun_blanks (rest_of_memberName h)).behind ['.', '.'] rfl
      intro p hp
      exact ⟨['*'], .of_eq (.dots hp .wildcard) rfl⟩
    · cases h

theorem begun_step {depth : Nat} {p rest : List Char} (hp : Blanks p)
    (h : Begun (Derives (StepText depth)) rest fault) :
    Begun (Derives (StepsText depth)) (p ++ rest) fault := by
  apply h.behind p rfl
  rintro s ⟨path, hs⟩
  exact ⟨[], .of_eq (.step hp hs (.blanks blanks_nil)) (by simp)⟩

theorem begun_moreSteps {depth : Nat} {p s rest : List Char} {path : Path} (hp : Blanks p)
    (hs : StepText depth s path) (h : Begun (Derives (StepsText depth)) rest fault) :
    Begun (Derives (StepsText depth)) (p ++ (s ++ rest)) fault := by
  apply h.behind (p ++ s) (by simp)
  rintro t ⟨path', ht⟩
  exact ⟨[], .of_eq (.step hp hs ht) (by simp)⟩

theorem begun_steps {inner : Option Inner} {depth : Nat} (hread : BracketsDerive inner depth)
    (hstops : BracketsStop inner depth) {enclosed : Bool} {done : Path}
    (h : steps inner enclosed done text = .error fault) :
    Begun (Derives (StepsText depth)) text fault := by
  fun_induction steps inner enclosed done text with
  | case1 done text hb _ =>
    cases h
    exact (begun_blanks hb.symm).imp fun p hp => ⟨_, .blanks hp⟩
  | case2 => cases h
  | case3 done text rest hb step rest' hstep ih =>
    obtain ⟨p, hp, rfl⟩ := exists_blanks_of_skipBlank hb
    obtain ⟨s, hs, rfl⟩ := stepText_of_afterDots hread hstep
    exact begun_moreSteps hp hs (ih h)
  | case4 done text rest hb e hstep =>
    cases h
    obtain ⟨p, hp, rfl⟩ := exists_blanks_of_skipBlank hb
    exact begun_step hp (begun_afterDots hstops hstep)
  | case5 done text rest _ hb step rest' hstep ih =>
    obtain ⟨p, hp, rfl⟩ := exists_blanks_of_skipBlank hb
    obtain ⟨s, hs, rfl⟩ := stepText_of_afterDot depth hstep
    exact begun_moreSteps hp hs (ih h)
  | case6 done text rest _ hb e hstep =>
    cases h
    obtain ⟨p, hp, rfl⟩ := exists_blanks_of_skipBlank hb
    exact begun_step hp (begun_afterDot hstep)
  | case7 done text rest hb step rest' hstep ih =>
    obtain ⟨p, hp, rfl⟩ := exists_blanks_of_skipBlank hb
    obtain ⟨s, hs, rfl⟩ := hread _ _ _ hstep
    exact begun_moreSteps hp (.bracket hs) (ih h)
  | case8 done text rest hb e hstep =>
    cases h
    obtain ⟨p, hp, rfl⟩ := exists_blanks_of_skipBlank hb
    exact begun_step hp ((hstops _ _ hstep).derives fun hs => ⟨_, .bracket hs⟩)
  | case9 => cases h
  | case10 done text c rest _ _ _ hb _ =>
    cases h
    exact (begun_blanks hb.symm).imp fun p hp => ⟨_, .blanks hp⟩

theorem bracketsStop (depth : Nat) : BracketsStop (inner depth) depth := by
  induction depth with
  | zero =>
    refine bracketsStop_of_content fun text fault =>
      begun_bracket (readsOnly_unary 0) (stops_unary 0) ?_
    rintro within ⟨⟩
  | succ depth ih =>
    refine bracketsStop_of_content fun text fault =>
      begun_bracket (readsOnly_unary (depth + 1)) (stops_unary (depth + 1)) ?_
    rintro within ⟨⟩ text fault (h | ⟨path, rest, hsteps, hclose⟩)
    · refine ((begun_steps (bracketsDerive depth) ih h).behind ['$'] rfl ?_).closed
      rintro s ⟨path, hs⟩
      exact ⟨[], .of_eq (.path hs) (by simp)⟩
    · obtain ⟨s, new, hs, htext, -⟩ := stepsText_of_steps (bracketsDerive depth) hsteps
      exact begun_close ⟨_, .path hs⟩ blanks_nil hclose (by simp [htext])

theorem begun_parseWithin {depth : Nat} (h : parseWithin depth text = .error fault) :
    Begun (Derives (QueryText depth)) text fault := by
  unfold parseWithin at h
  split at h
  · rename_i rest hb
    obtain ⟨p, hp, rfl⟩ := exists_blanks_of_skipBlank hb
    rcases bind_eq_error.mp h with h | ⟨_, _, h⟩
    · apply (begun_steps (bracketsDerive depth) (bracketsStop depth) h).behind (p ++ ['$'])
        (by simp)
      rintro s ⟨path, hs⟩
      exact ⟨[], .of_eq (.mk hp hs) (by simp)⟩
    · cases h
  · cases h
    apply (begun_blanks rfl).mono
    intro p hp
    exact ⟨['$'], .of_eq (.mk hp (.blanks blanks_nil)) rfl⟩

/-- Where a query is refused, the offset of the fault is the length in bytes of a beginning of the
query, and unless the query nests too deeply this beginning goes on to a query that is accepted. -/
theorem parse_error_position {query : List Char} {fault : Fault}
    (h : parse query = .error fault) :
    ∃ before, query = before ++ fault.rest ∧
      fault.offset query = Text.byteCount before ∧
      fault.offset query ≤ Text.byteCount query ∧
      (fault.reason ≠ "Expression nested too deeply" →
        ∃ more path, parse (before ++ more) = .ok path) := by
  obtain ⟨before, hquery, hbegun⟩ := begun_parseWithin h
  have hoffset : fault.offset query = Text.byteCount before := by
    rw [hquery, fault.offset_append]
  have hcount : Text.byteCount query = Text.byteCount before + Text.byteCount fault.rest := by
    rw [hquery, Text.byteCount_append]
  refine ⟨before, hquery, hoffset, by omega, fun hreason => ?_⟩
  have hcause : fault.cause ≠ .malformed .tooDeep := by
    intro hcause
    apply hreason
    rw [Fault.reason, hcause]
    rfl
  obtain ⟨more, path, hpath⟩ := hbegun hcause
  exact ⟨more, path, parseWithin_eq_ok_iff.mpr hpath⟩

/-- A stride of zero is refused at its front, once it has been read. -/
theorem parse_error_position_zeroStride :
    let query := "$[::0]".toList
    let fault : Fault := ⟨.zeroStride, "0]".toList⟩
    parse query = .error fault ∧ fault.offset query = 4 ∧
      ∃ before, query = before ++ "0]".toList ∧ ∃ more path, parse (before ++ more) = .ok path := by
  intro query fault
  have hread : parse query = .error fault := by
    have hbracket : bracket (inner maxDepth) "::0]".toList = .error fault := rfl
    have hfront : skipBlank "[::0]".toList = '[' :: "::0]".toList := rfl
    have hsteps : steps (inner maxDepth) false [] "[::0]".toList = .error fault := by
      rw [steps_eq, hfront]
      simp only [hbracket]
      rfl
    have hquery : skipBlank query = '$' :: "[::0]".toList := rfl
    rw [parse, parseWithin, hquery]
    simp only [hsteps]
    rfl
  obtain ⟨before, hquery, -, -, hviable⟩ := parse_error_position hread
  exact ⟨hread, by decide, before, hquery, hviable (by decide)⟩

end JsonQuery.Path
