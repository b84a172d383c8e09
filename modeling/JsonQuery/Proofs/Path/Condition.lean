import JsonQuery.Proofs.Path.Comparing

/-!
Conditions are read by their grammar, as deeply nested as the reader may still nest. Chains of `&&`
and of `||` are read by one loop; a condition that grows to the left is what the loop has read when
it goes on.
-/

namespace JsonQuery.Path

open Text (skipBlank isBlank bind_eq_ok skipBlank_cons Progress)

/-- All that a reader accepts stands between blanks and derives what the reader gives. -/
def ReadsOnly {α : Type} (read : Reader α) (Derives : List Char → α → Prop) : Prop :=
  ∀ text a rest, read text = .ok (a, rest) →
    ∃ p s q, Blanks p ∧ Derives s a ∧ Blanks q ∧ text = p ++ (s ++ (q ++ rest))

section Chain

variable {mark : Char} {join : Condition → Condition → Condition} {read : Reader Condition}
  {progress : Progress read}

theorem chain_eq (left : Condition) (text : List Char) :
    chain mark join read progress left text =
      match skipBlank text with
      | a :: b :: rest =>
        if a = mark ∧ b = mark then
          read rest >>= fun r => chain mark join read progress (join left r.1) r.2
        else .ok (left, a :: b :: rest)
      | rest => .ok (left, rest) := by
  rw [chain.eq_def]
  split
  · rename_i h
    simp only [h]
    split
    · split <;> simp_all [bind, Except.bind]
    · rfl
  · rename_i hne
    split
    · rename_i heq
      exact absurd heq (hne _ _ _)
    · rfl

theorem chain_of_mark {text rest : List Char} (h : skipBlank text = mark :: mark :: rest)
    (left : Condition) :
    chain mark join read progress left text =
      read rest >>= fun r => chain mark join read progress (join left r.1) r.2 := by
  rw [chain_eq, h]
  exact if_pos ⟨rfl, rfl⟩

theorem chain_of_head {text : List Char} (h : (skipBlank text).head? ≠ some mark)
    (left : Condition) :
    chain mark join read progress left text = .ok (left, skipBlank text) := by
  rw [chain_eq]
  split
  · rename_i heq
    rw [heq] at h ⊢
    refine if_neg ?_
    rintro ⟨rfl, -⟩
    exact h rfl
  · rfl

/-- What a chain has read before it goes on, and what it reads from there, is one derivation. -/
theorem derives_of_chain (Chain : List Char → Condition → Prop)
    {Item : List Char → Condition → Prop} (hread : ReadsOnly read Item)
    (hjoin : ∀ {s p q t : List Char} {left right : Condition}, Chain s left → Blanks p →
      Blanks q → Item t right → Chain (s ++ (p ++ mark :: mark :: (q ++ t))) (join left right))
    {left c : Condition} {s q text rest : List Char} (hs : Chain s left) (hq : Blanks q)
    (h : chain mark join read progress left text = .ok (c, rest)) :
    ∃ s' q', Chain s' c ∧ Blanks q' ∧ s ++ (q ++ text) = s' ++ (q' ++ rest) := by
  fun_induction chain mark join read progress left text generalizing s q with
  | case1 left text a b rest₁ hb hmark right rest₂ hr ih =>
    obtain ⟨p₁, hp₁, heq⟩ := exists_blanks_of_skipBlank hb
    obtain ⟨p, t, q', hp, ht, hq', rfl⟩ := hread _ _ _ hr
    obtain ⟨s', q'', hs', hq'', heq'⟩ := ih (hjoin hs (blanks_append hq hp₁) hp ht) hq' h
    refine ⟨s', q'', hs', hq'', ?_⟩
    rw [heq, ← heq', hmark.1, hmark.2]
    simp only [List.append_assoc, List.cons_append]
  | case2 => cases h
  | case3 left text a b rest₁ hb _ =>
    obtain ⟨p, hp, heq⟩ := exists_blanks_of_skipBlank hb
    cases h
    exact ⟨s, q ++ p, hs, blanks_append hq hp, by rw [heq, List.append_assoc]⟩
  | case4 left text _ =>
    obtain ⟨p, hp, heq⟩ := exists_blanks text
    cases h
    exact ⟨s, q ++ p, hs, blanks_append hq hp, by rw [List.append_assoc, ← heq]⟩

end Chain

theorem derives_of_comparing {depth : Nat} {p text rest : List Char} {c : Condition}
    (hp : Blanks p) (h : comparing text = .ok (c, rest)) :
    ∃ p' s q, Blanks p' ∧ UnaryText depth s c ∧ Blanks q ∧
      p ++ text = p' ++ (s ++ (q ++ rest)) := by
  obtain ⟨p', s, q, hp', hs, hq, rfl⟩ := comparingText_of_comparing h
  exact ⟨p ++ p', s, q, blanks_append hp hp', .comparing hs, hq, by rw [List.append_assoc]⟩

theorem readsOnly_conjunction {depth : Nat} {inner : Option Inner}
    (h : ReadsOnly (unary inner) (UnaryText depth)) :
    ReadsOnly (conjunction inner) (ConjunctionText depth) := by
  intro text c rest hc
  obtain ⟨⟨first, rest'⟩, hfirst, hchain⟩ := bind_eq_ok.mp hc
  obtain ⟨p, s, q, hp, hs, hq, rfl⟩ := h _ _ _ hfirst
  obtain ⟨s', q', hs', hq', heq⟩ :=
    derives_of_chain (ConjunctionText depth) h .and (.unary hs) hq hchain
  exact ⟨p, s', q', hp, hs', hq', by rw [heq]⟩

theorem readsOnly_disjunction {depth : Nat} {inner : Option Inner}
    (h : ReadsOnly (unary inner) (UnaryText depth)) :
    ReadsOnly (disjunction inner) (DisjunctionText depth) := by
  intro text c rest hc
  have hconjunction := readsOnly_conjunction h
  obtain ⟨⟨first, rest'⟩, hfirst, hchain⟩ := bind_eq_ok.mp hc
  obtain ⟨p, s, q, hp, hs, hq, rfl⟩ := hconjunction _ _ _ hfirst
  obtain ⟨s', q', hs', hq', heq⟩ :=
    derives_of_chain (DisjunctionText depth) hconjunction .or (.conjunction hs) hq hchain
  exact ⟨p, s', q', hp, hs', hq', by rw [heq]⟩

theorem unary_eq_ok {inner : Option Inner} {text rest : List Char} {c : Condition}
    (h : unary inner text = .ok (c, rest)) :
    ∃ p t, Blanks p ∧ text = p ++ t ∧
      (comparing t = .ok (c, rest) ∨
        (∃ within u negated, inner = some within ∧ t = '!' :: u ∧
          within.negated u = .ok (negated, rest) ∧ c = .not negated) ∨
        ∃ within u rest', inner = some within ∧ t = '(' :: u ∧
          within.condition u = .ok (c, rest') ∧ expect ')' rest' = .ok rest) := by
  obtain ⟨p, hp, heq⟩ := exists_blanks text
  refine ⟨p, skipBlank text, hp, heq, ?_⟩
  unfold unary at h
  split at h
  · rename_i hb
    exact .inl (hb ▸ h)
  · split at h
    · cases h
    · obtain ⟨⟨negated, rest'⟩, hread, h⟩ := bind_eq_ok.mp h
      cases h
      exact .inr (.inl ⟨_, _, _, rfl, by assumption, hread, rfl⟩)
  · split at h
    · cases h
    · obtain ⟨⟨c', rest'⟩, hread, h⟩ := bind_eq_ok.mp h
      obtain ⟨rest'', hclose, h⟩ := bind_eq_ok.mp h
      cases h
      exact .inr (.inr ⟨_, _, _, rfl, by assumption, hread, hclose⟩)
  · exact .inl h

theorem readsOnly_unary (depth : Nat) : ReadsOnly (unary (inner depth)) (UnaryText depth) := by
  induction depth with
  | zero =>
    intro text c rest h
    obtain ⟨p, t, hp, rfl, hc | ⟨_, _, _, hnone, -⟩ | ⟨_, _, _, hnone, -⟩⟩ := unary_eq_ok h
    · exact derives_of_comparing hp hc
    · cases hnone
    · cases hnone
  | succ depth ih =>
    intro text c rest h
    obtain ⟨p, t, hp, rfl, hc | hnot | hgroup⟩ := unary_eq_ok h
    · exact derives_of_comparing hp hc
    · obtain ⟨_, u, negated, ⟨⟩, rfl, hread, rfl⟩ := hnot
      obtain ⟨p', s, q, hp', hs, hq, rfl⟩ := ih _ _ _ hread
      refine ⟨p, _, q, hp, .not hp' hs, hq, ?_⟩
      rw [List.cons_append, List.append_assoc]
    · obtain ⟨_, u, rest', ⟨⟩, rfl, hread, hclose⟩ := hgroup
      obtain ⟨p', s, q, hp', hs, hq, rfl⟩ := readsOnly_disjunction ih _ _ _ hread
      obtain ⟨q', hq', rfl⟩ := exists_blanks_of_expect hclose
      refine ⟨p, _, [], hp, .group hp' hs (blanks_append hq hq'), blanks_nil, ?_⟩
      simp only [List.cons_append, List.append_assoc, List.nil_append]

theorem ComparingText.head {s : List Char} {c : Condition} (h : ComparingText s c) :
    ∃ d t, s = d :: t ∧ isBlank d = false ∧ d ∉ ['!', '(', ')', ']', '='] := by
  cases h with
  | present hs => exact hs.head
  | compare _ hs _ _ _ =>
    obtain ⟨d, t, rfl, hd⟩ := hs.head
    exact ⟨d, _, rfl, hd⟩

theorem UnaryText.head {depth : Nat} {s : List Char} {c : Condition} (h : UnaryText depth s c) :
    ∃ d t, s = d :: t ∧ isBlank d = false ∧ d ≠ '=' := by
  cases h with
  | comparing hs =>
    obtain ⟨d, t, rfl, hblank, hd⟩ := hs.head
    simp only [List.mem_cons, List.not_mem_nil, or_false, not_or] at hd
    exact ⟨d, t, rfl, hblank, hd.2.2.2.2⟩
  | not _ _ => exact ⟨'!', _, rfl, by decide⟩
  | group _ _ _ => exact ⟨'(', _, rfl, by decide⟩

theorem endsCondition_of_skipBlank {text rest : List Char} {c : Char}
    (h : skipBlank text = c :: rest) (hc : c ∈ ['&', '|', ')', ']']) : EndsCondition text := by
  rw [EndsCondition, h]
  rintro _ ⟨⟩
  exact hc

theorem unary_skipBlank {inner : Option Inner} {p : List Char} (hp : Blanks p)
    (text : List Char) : unary inner (p ++ text) = unary inner text := by
  rw [unary, unary, skipBlank_append hp]

theorem conjunction_skipBlank {inner : Option Inner} {p : List Char} (hp : Blanks p)
    (text : List Char) : conjunction inner (p ++ text) = conjunction inner text := by
  rw [conjunction, conjunction, unary_skipBlank hp]

theorem disjunction_skipBlank {inner : Option Inner} {p : List Char} (hp : Blanks p)
    (text : List Char) : disjunction inner (p ++ text) = disjunction inner text := by
  rw [disjunction, disjunction, conjunction_skipBlank hp]

theorem unary_of_comparing {inner : Option Inner} {s rest rest' : List Char} {c : Condition}
    (hs : ComparingText s c) (h : comparing (s ++ rest) = .ok (c, rest')) :
    unary inner (s ++ rest) = .ok (c, rest') := by
  obtain ⟨d, t, rfl, hblank, hd⟩ := hs.head
  simp only [List.mem_cons, List.not_mem_nil, or_false, not_or] at hd
  unfold unary
  rw [List.cons_append, skipBlank_cons hblank]
  split
  · rename_i heq
    exact absurd (List.cons.inj heq).1 hd.1
  · rename_i heq
    exact absurd (List.cons.inj heq).1 hd.1
  · rename_i heq
    exact absurd (List.cons.inj heq).1 hd.2.1
  · exact h

theorem unary_not {depth : Nat} {text rest : List Char} {c : Condition}
    (hne : text.head? ≠ some '=') (h : unary (inner depth) text = .ok (c, rest)) :
    unary (inner (depth + 1)) ('!' :: text) = .ok (.not c, rest) := by
  unfold unary
  rw [skipBlank_cons (by decide)]
  split
  · rename_i heq
    cases heq
    exact absurd rfl hne
  · rename_i heq
    cases heq
    simp only [inner, h, bind, Except.bind, pure, Except.pure]
  · rename_i heq
    cases heq
  · rename_i hneg _
    exact absurd rfl (hneg _)

theorem unary_group {depth : Nat} {text rest rest' : List Char} {c : Condition}
    (h : disjunction (inner depth) text = .ok (c, rest')) (hclose : expect ')' rest' = .ok rest) :
    unary (inner (depth + 1)) ('(' :: text) = .ok (c, rest) := by
  have hskip : skipBlank ('(' :: text) = '(' :: text := skipBlank_cons (by decide) text
  simp only [unary, hskip, inner, h, hclose, bind, Except.bind, pure, Except.pure]

mutual

theorem unary_append : {depth : Nat} → {s : List Char} → {c : Condition} → UnaryText depth s c →
    ∀ {rest : List Char}, EndsCondition rest →
      ∃ rest', unary (inner depth) (s ++ rest) = .ok (c, rest') ∧
        skipBlank rest' = skipBlank rest
  | _, _, _, .comparing hs, _, hr => by
    obtain ⟨rest', hread, hskip⟩ := comparing_append hs hr
    exact ⟨rest', unary_of_comparing hs hread, hskip⟩
  | _, _, _, .not (p := p) (s := s) hp hs, rest, hr => by
    obtain ⟨rest', hread, hskip⟩ := unary_append hs hr
    obtain ⟨d, t, heq, -, hd⟩ := hs.head
    refine ⟨rest', ?_, hskip⟩
    rw [List.cons_append, List.append_assoc]
    refine unary_not ?_ (by rw [unary_skipBlank hp, hread])
    rw [heq]
    exact head?_append_ne hp (by decide) hd
  | _, _, _, .group (p := p) (s := s) (q := q) hp hs hq, rest, _ => by
    have hmark := skipBlank_mark hq (c := ')') rfl rest
    have hends := endsCondition_of_skipBlank hmark (by decide)
    obtain ⟨rest', hread, hskip⟩ := disjunction_append hs hends (by rw [hmark]; simp)
    rw [chain_of_head (by rw [hskip, hmark]; simp), hskip, hmark] at hread
    refine ⟨rest, ?_, rfl⟩
    simp only [List.cons_append, List.append_assoc, List.nil_append]
    exact unary_group (by rw [disjunction_skipBlank hp, hread]) (expect_cons rfl rest)

theorem conjunction_append : {depth : Nat} → {s : List Char} → {c : Condition} →
    ConjunctionText depth s c → ∀ {rest : List Char}, EndsCondition rest →
      ∃ rest', conjunction (inner depth) (s ++ rest) =
          chain '&' .and (unary (inner depth)) (unary_progress (inner depth)) c rest' ∧
        skipBlank rest' = skipBlank rest
  | _, _, _, .unary hs, _, hr => by
    obtain ⟨rest', hread, hskip⟩ := unary_append hs hr
    exact ⟨rest', by rw [conjunction, hread]; rfl, hskip⟩
  | _, _, _, .and (s := s) (p := p) (q := q) (t := t) hs hp hq ht, rest, hr => by
    have hmark := skipBlank_mark hp (c := '&') rfl ('&' :: (q ++ (t ++ rest)))
    have hends := endsCondition_of_skipBlank hmark (by decide)
    obtain ⟨rest₁, hleft, hskip₁⟩ := conjunction_append hs hends
    obtain ⟨rest₂, hright, hskip₂⟩ := unary_append ht hr
    refine ⟨rest₂, ?_, hskip₂⟩
    simp only [List.append_assoc, List.cons_append]
    rw [hleft, chain_of_mark (hskip₁.trans hmark), unary_skipBlank hq, hright]
    rfl

theorem disjunction_append : {depth : Nat} → {s : List Char} → {c : Condition} →
    DisjunctionText depth s c → ∀ {rest : List Char}, EndsCondition rest →
      (skipBlank rest).head? ≠ some '&' →
      ∃ rest', disjunction (inner depth) (s ++ rest) =
          chain '|' .or (conjunction (inner depth)) (conjunction_progress (inner depth)) c rest' ∧
        skipBlank rest' = skipBlank rest
  | _, _, _, .conjunction hs, rest, hr, hne => by
    obtain ⟨rest', hread, hskip⟩ := conjunction_append hs hr
    rw [chain_of_head (by rwa [hskip])] at hread
    refine ⟨skipBlank rest', by rw [disjunction, hread]; rfl, ?_⟩
    rw [Text.skipBlank_skipBlank, hskip]
  | _, _, _, .or (s := s) (p := p) (q := q) (t := t) hs hp hq ht, rest, hr, hne => by
    have hmark := skipBlank_mark hp (c := '|') rfl ('|' :: (q ++ (t ++ rest)))
    have hends := endsCondition_of_skipBlank hmark (by decide)
    obtain ⟨rest₁, hleft, hskip₁⟩ := disjunction_append hs hends (by rw [hmark]; simp)
    obtain ⟨rest₂, hright, hskip₂⟩ := conjunction_append ht hr
    rw [chain_of_head (by rwa [hskip₂])] at hright
    refine ⟨skipBlank rest₂, ?_, by rw [Text.skipBlank_skipBlank, hskip₂]⟩
    simp only [List.append_assoc, List.cons_append]
    rw [hleft, chain_of_mark (hskip₁.trans hmark), conjunction_skipBlank hq, hright]
    rfl

end

/-- The condition of a filter is read up to the bracket that closes the filter. -/
theorem disjunction_append_bracket {depth : Nat} {s q : List Char} {c : Condition}
    (hs : DisjunctionText depth s c) (hq : Blanks q) (rest : List Char) :
    disjunction (inner depth) (s ++ (q ++ ']' :: rest)) = .ok (c, ']' :: rest) := by
  have hmark := skipBlank_mark hq (c := ']') rfl rest
  have hends := endsCondition_of_skipBlank hmark (by decide)
  obtain ⟨rest', hread, hskip⟩ := disjunction_append hs hends (by rw [hmark]; simp)
  rw [hread, chain_of_head (by rw [hskip, hmark]; simp), hskip, hmark]

end JsonQuery.Path
