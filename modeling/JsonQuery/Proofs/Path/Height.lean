import JsonQuery.Proofs.Path.Reading

/-!
How high the conditions of a path may be. A level of nesting adds two to the height at most, one for
what `&&` joins and one for what `||` joins, so long as the links of a chain count once. A chain
itself may be as long as the query, and its condition is as high as it has links.
-/

namespace JsonQuery

namespace Condition

/-- How many connectives stand one inside the other at most. -/
def height : Condition → Nat
  | present _ => 0
  | compare .. => 0
  | and left right => max left.height right.height + 1
  | or left right => max left.height right.height + 1
  | not inner => inner.height + 1

def isAnd : Condition → Bool
  | and .. => true
  | _ => false

def isOr : Condition → Bool
  | or .. => true
  | _ => false

/-- The height with each chain counted once: the left side of a connective adds nothing to it if it
is a link of the same chain. -/
def levels : Condition → Nat
  | present _ => 0
  | compare .. => 0
  | and left right => max (left.levels + (!left.isAnd).toNat) (right.levels + 1)
  | or left right => max (left.levels + (!left.isOr).toNat) (right.levels + 1)
  | not inner => inner.levels + 1

theorem isAnd_and (left right : Condition) : (and left right).isAnd = true := rfl

theorem isOr_or (left right : Condition) : (or left right).isOr = true := rfl

theorem toNat_not_le (b : Bool) : (!b).toNat ≤ 1 := Bool.toNat_le _

end Condition

namespace Path

mutual

/-- The conditions of the filters of a path, those in its dynamic steps included. -/
def conditions : Path → List Condition
  | [] => []
  | step :: path => stepConditions step ++ conditions path

def stepConditions : Step → List Condition
  | .filter condition => [condition]
  | .dynamic path => conditions path
  | _ => []

end

theorem conditions_append (path path' : Path) :
    conditions (path ++ path') = conditions path ++ conditions path' := by
  induction path with
  | nil => rfl
  | cons step path ih => rw [List.cons_append, conditions, conditions, ih, List.append_assoc]

mutual

theorem UnaryText.levels_le : {depth : Nat} → {s : List Char} → {c : Condition} →
    UnaryText depth s c → c.levels ≤ 2 * depth
  | _, _, _, .comparing (.present _) => Nat.zero_le _
  | _, _, _, .comparing (.compare ..) => Nat.zero_le _
  | _, _, _, .not _ hs => by
    have hinner := UnaryText.levels_le hs
    rw [Condition.levels]
    omega
  | _, _, _, .group _ hs _ => Nat.le_of_add_right_le (DisjunctionText.levels_le hs)

theorem ConjunctionText.levels_le : {depth : Nat} → {s : List Char} → {c : Condition} →
    ConjunctionText depth s c → c.levels + (!c.isAnd).toNat ≤ 2 * depth + 1
  | _, _, c, .unary hs =>
    Nat.add_le_add (UnaryText.levels_le hs) (Condition.toNat_not_le c.isAnd)
  | _, _, _, .and hs _ _ ht => by
    have hleft := ConjunctionText.levels_le hs
    have hright := UnaryText.levels_le ht
    rw [Condition.isAnd_and, Condition.levels, Bool.not_true, Bool.toNat_false, Nat.add_zero]
    exact Nat.max_le.mpr ⟨hleft, Nat.succ_le_succ hright⟩

theorem DisjunctionText.levels_le : {depth : Nat} → {s : List Char} → {c : Condition} →
    DisjunctionText depth s c → c.levels + (!c.isOr).toNat ≤ 2 * depth + 2
  | depth, _, c, .conjunction hs => by
    have hconjunction : c.levels ≤ 2 * depth + 1 :=
      Nat.le_of_add_right_le (ConjunctionText.levels_le hs)
    have hlink := Condition.toNat_not_le c.isOr
    omega
  | _, _, _, .or hs _ _ ht => by
    have hleft := DisjunctionText.levels_le hs
    have hright := Nat.le_of_add_right_le (ConjunctionText.levels_le ht)
    rw [Condition.isOr_or, Condition.levels, Bool.not_true, Bool.toNat_false, Nat.add_zero]
    exact Nat.max_le.mpr ⟨hleft, Nat.succ_le_succ hright⟩

end

theorem OperandText.length_pos {s : List Char} {o : Operand} (h : OperandText s o) :
    0 < s.length := by
  cases h with
  | reference _ _ => exact Nat.succ_pos _
  | string hs =>
    obtain ⟨c, t, rfl, -⟩ := hs.head
    exact Nat.succ_pos _
  | number hs =>
    obtain ⟨c, t, rfl, -⟩ := hs.head
    exact Nat.succ_pos _
  | trueWord => decide
  | falseWord => decide
  | nullWord => decide

theorem ComparingText.height_lt {s : List Char} {c : Condition} (h : ComparingText s c) :
    c.height < s.length := by
  cases h with
  | present hs => exact hs.length_pos
  | compare _ hs _ _ _ =>
    have hleft := hs.length_pos
    rw [Condition.height, List.length_append]
    omega

mutual

theorem UnaryText.height_lt : {depth : Nat} → {s : List Char} → {c : Condition} →
    UnaryText depth s c → c.height < s.length
  | _, _, _, .comparing hs => hs.height_lt
  | _, _, _, .not _ hs => by
    have hinner := UnaryText.height_lt hs
    simp only [Condition.height, List.length_cons, List.length_append]
    omega
  | _, _, _, .group _ hs _ => by
    have hinner := DisjunctionText.height_lt hs
    simp only [List.length_cons, List.length_append]
    omega

theorem ConjunctionText.height_lt : {depth : Nat} → {s : List Char} → {c : Condition} →
    ConjunctionText depth s c → c.height < s.length
  | _, _, _, .unary hs => UnaryText.height_lt hs
  | _, _, _, .and hs _ _ ht => by
    have hleft := ConjunctionText.height_lt hs
    have hright := UnaryText.height_lt ht
    simp only [Condition.height, List.length_cons, List.length_append]
    omega

theorem DisjunctionText.height_lt : {depth : Nat} → {s : List Char} → {c : Condition} →
    DisjunctionText depth s c → c.height < s.length
  | _, _, _, .conjunction hs => ConjunctionText.height_lt hs
  | _, _, _, .or hs _ _ ht => by
    have hleft := DisjunctionText.height_lt hs
    have hright := ConjunctionText.height_lt ht
    simp only [Condition.height, List.length_cons, List.length_append]
    omega

end

/-- A condition with its text, at some depth up to the given one. -/
def StandsIn (depth : Nat) (s : List Char) (c : Condition) : Prop :=
  ∃ depth' ≤ depth, ∃ t, t <:+: s ∧ DisjunctionText depth' t c

theorem StandsIn.mono {depth depth' : Nat} {s t : List Char} {c : Condition}
    (h : StandsIn depth s c) (hdepth : depth ≤ depth') (hs : s <:+: t) : StandsIn depth' t c := by
  obtain ⟨within, hwithin, u, hu, hc⟩ := h
  exact ⟨within, Nat.le_trans hwithin hdepth, u, hu.trans hs, hc⟩

theorem MemberText.conditions_eq {s : List Char} {step : Step} (h : MemberText s step) :
    stepConditions step = [] := by
  cases h with
  | name _ => rfl
  | wildcard => rfl

mutual

theorem ContentText.standsIn : {depth : Nat} → {s : List Char} → {step : Step} →
    ContentText depth s step → ∀ c ∈ stepConditions step, StandsIn depth s c
  | depth, _, _, .filter (p := p) (s := s) _ hs, _, hc => by
    have hinfix : s <:+: '?' :: (p ++ s) := ⟨'?' :: p, [], by simp⟩
    cases List.mem_singleton.mp hc
    exact ⟨depth, Nat.le_refl depth, s, hinfix, hs⟩
  | depth + 1, _, _, .path (s := s) hs, c, hc => by
    have hinfix : s <:+: '$' :: s := (List.suffix_cons '$' s).isInfix
    exact (StepsText.standsIn hs c hc).mono (Nat.le_succ depth) hinfix
  | _, _, _, .wildcard, _, hc => nomatch hc
  | _, _, _, .slice _, _, hc => nomatch hc
  | _, _, _, .selector _, _, hc => nomatch hc
  | _, _, _, .union _ _, _, hc => nomatch hc

theorem BracketText.standsIn : {depth : Nat} → {s : List Char} → {step : Step} →
    BracketText depth s step → ∀ c ∈ stepConditions step, StandsIn depth s c
  | depth, _, _, .mk (p := p) (s := s) (q := q) _ hs _, c, hc => by
    have hinfix : s <:+: '[' :: (p ++ (s ++ (q ++ [']']))) := ⟨'[' :: p, q ++ [']'], by simp⟩
    exact (ContentText.standsIn hs c hc).mono (Nat.le_refl depth) hinfix

theorem StepText.standsIn : {depth : Nat} → {s : List Char} → {path : Path} →
    StepText depth s path → ∀ c ∈ conditions path, StandsIn depth s c
  | _, _, _, .dot _ hs, c, hc => by
    simp [conditions, hs.conditions_eq] at hc
  | _, _, _, .dots _ hs, c, hc => by
    simp [conditions, stepConditions, hs.conditions_eq] at hc
  | depth, _, _, .dotsBracket (p := p) (s := s) _ hs, c, hc => by
    have hinfix : s <:+: '.' :: '.' :: (p ++ s) := ⟨'.' :: '.' :: p, [], by simp⟩
    simp only [conditions, stepConditions, List.nil_append, List.append_nil] at hc
    exact (BracketText.standsIn hs c hc).mono (Nat.le_refl depth) hinfix
  | _, _, _, .bracket hs, c, hc => by
    rw [conditions, conditions, List.append_nil] at hc
    exact BracketText.standsIn hs c hc

theorem StepsText.standsIn : {depth : Nat} → {s : List Char} → {path : Path} →
    StepsText depth s path → ∀ c ∈ conditions path, StandsIn depth s c
  | _, _, _, .blanks _, _, hc => nomatch hc
  | depth, _, _, .step (p := p) (s := s) (t := t) _ hs ht, c, hc => by
    have hinfix : s <:+: p ++ (s ++ t) := ⟨p, t, by simp⟩
    have hinfix' : t <:+: p ++ (s ++ t) := ⟨p ++ s, [], by simp⟩
    rw [conditions_append, List.mem_append] at hc
    rcases hc with hc | hc
    · exact (StepText.standsIn hs c hc).mono (Nat.le_refl depth) hinfix
    · exact (StepsText.standsIn ht c hc).mono (Nat.le_refl depth) hinfix'

end

/-- The conditions of a query that is read keep to the limit on nesting, each chain of `&&` or of
`||` taken as one level. Their height has only the length of the query as a bound. -/
theorem levels_le_of_parse {query : List Char} {path : Path} (h : parse query = .ok path) :
    ∀ c ∈ conditions path, c.levels ≤ 2 * maxDepth + 2 ∧ c.height < query.length := by
  intro c hc
  rw [parse_eq_ok_iff_queryText] at h
  cases h with
  | @mk p s path _ hs =>
    obtain ⟨depth, hdepth, t, ⟨u, w, rfl⟩, ht⟩ := hs.standsIn c hc
    have hlevels := Nat.le_of_add_right_le ht.levels_le
    have hheight := ht.height_lt
    simp only [List.length_append, List.length_cons]
    omega

theorem unaryText_current (depth : Nat) : UnaryText depth ['@'] (.present ⟨.current, []⟩) :=
  .comparing (.present (.reference .current .nil))

/-- A negated group, in the filter of a dynamic step. -/
theorem levels_le_of_parse_dynamic :
    parse "$[$[?!(@||@)]]".toList = .ok [.root, .dynamic [.root, .filter
        (.not (.or (.present ⟨.current, []⟩) (.present ⟨.current, []⟩)))]] ∧
      (Condition.not (.or (.present ⟨.current, []⟩) (.present ⟨.current, []⟩))).levels ≤ 130 ∧
      (Condition.not (.or (.present ⟨.current, []⟩) (.present ⟨.current, []⟩))).height < 14 := by
  have hor := DisjunctionText.or (.conjunction (.unary (unaryText_current 61))) blanks_nil
    blanks_nil (.unary (unaryText_current 61))
  have hnot := UnaryText.not blanks_nil (.group blanks_nil hor blanks_nil)
  have hfilter := ContentText.filter blanks_nil (.conjunction (.unary hnot))
  have hsteps := StepsText.of_bracket (.of_content hfilter)
  have hparse := parse_bracket (.path hsteps)
  exact ⟨hparse, levels_le_of_parse hparse _ (List.mem_singleton_self _)⟩

/-- The condition that a chain of `&&` denotes if all its references are `@`. -/
def links : Nat → Condition
  | 0 => .present ⟨.current, []⟩
  | n + 1 => .and (links n) (.present ⟨.current, []⟩)

def linksText : Nat → List Char
  | 0 => ['@']
  | n + 1 => linksText n ++ ['&', '&', '@']

theorem height_links (n : Nat) : (links n).height = n := by
  induction n with
  | zero => rfl
  | succ n ih => rw [links, Condition.height, Condition.height, ih, Nat.max_zero]

theorem conjunctionText_links (depth n : Nat) :
    ConjunctionText depth (linksText n) (links n) := by
  induction n with
  | zero => exact .unary (unaryText_current depth)
  | succ n ih => exact .and ih blanks_nil blanks_nil (unaryText_current depth)

theorem parse_linksText (n : Nat) :
    parse ('$' :: '[' :: '?' :: (linksText n ++ [']'])) = .ok [.root, .filter (links n)] :=
  parse_bracket (.filter blanks_nil (.conjunction (conjunctionText_links maxDepth n)))

/-- No number bounds the height of all conditions that are read. -/
theorem not_exists_height_le : ¬ ∃ bound, ∀ (query : List Char) (path : Path),
    parse query = .ok path → ∀ c ∈ conditions path, c.height ≤ bound := by
  rintro ⟨bound, hbound⟩
  have hmem : links (bound + 1) ∈ conditions [.root, .filter (links (bound + 1))] :=
    List.mem_singleton_self _
  have hheight := hbound _ _ (parse_linksText (bound + 1)) _ hmem
  rw [height_links] at hheight
  exact Nat.not_succ_le_self bound hheight

end Path

end JsonQuery
