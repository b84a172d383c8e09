import JsonQuery.Value.Basic

/-!
The values within a value, and properties that hold of all of them. A property holds everywhere in
a value when it holds of the value and everywhere in its parts.
-/

namespace JsonQuery.Value

/-- The values that stand directly in a value. -/
def parts : Value → List Value
  | array elements => elements
  | object members => members.map (·.2)
  | _ => []

theorem nodeCount_le_elementCount {v : Value} {elements : List Value} (h : v ∈ elements) :
    v.nodeCount ≤ elementCount elements := by
  induction elements with
  | nil => cases h
  | cons element elements ih =>
    rw [elementCount]
    rcases List.mem_cons.mp h with rfl | h
    · omega
    · have := ih h
      omega

theorem memberCount_eq (members : List (String × Value)) :
    memberCount members = elementCount (members.map (·.2)) := by
  induction members with
  | nil => rfl
  | cons member members ih => rw [memberCount, ih, List.map_cons, elementCount]

theorem nodeCount_lt_of_mem_parts {v w : Value} (h : w ∈ v.parts) :
    w.nodeCount < v.nodeCount := by
  have hle := nodeCount_le_elementCount h
  cases v with
  | array elements =>
    rw [parts] at hle
    rw [nodeCount]
    omega
  | object members =>
    rw [parts] at hle
    rw [nodeCount, memberCount_eq]
    omega
  | _ => cases h

/-- What holds of a value whenever it holds of its parts holds of all values. -/
theorem parts_induction {P : Value → Prop} (h : ∀ v, (∀ w ∈ v.parts, P w) → P v) (v : Value) :
    P v :=
  h v fun w _ => parts_induction h w
  termination_by v.nodeCount
  decreasing_by exact nodeCount_lt_of_mem_parts ‹_›

/-- The property holds of the value and of all values within it. -/
inductive Everywhere (P : Value → Prop) : Value → Prop where
  | intro {v : Value} (h : P v) (hparts : ∀ w ∈ v.parts, Everywhere P w) : Everywhere P v

section Everywhere

variable {P : Value → Prop} {v w : Value}

theorem Everywhere.self (h : Everywhere P v) : P v := by
  cases h with
  | intro h _ => exact h

theorem Everywhere.part (h : Everywhere P v) (hw : w ∈ v.parts) : Everywhere P w := by
  cases h with
  | intro _ hparts => exact hparts w hw

theorem Everywhere.mono {Q : Value → Prop} (h : Everywhere P v) (hPQ : ∀ v, P v → Q v) :
    Everywhere Q v := by
  induction h with
  | intro h _ ih => exact .intro (hPQ _ h) ih

end Everywhere

/-- Every number in the value is finite. -/
def NumbersFinite : Value → Prop := Everywhere fun v => ∀ x, v = number x → x.IsFinite

/-- No number in the value is a NaN. -/
def NumbersDefined : Value → Prop := Everywhere fun v => ∀ x, v = number x → ¬ x.IsNaN

/-- Every array in the value has fewer elements than the bound. -/
def ArraysBelow (bound : Nat) : Value → Prop :=
  Everywhere fun v => ∀ elements, v = array elements → elements.length < bound

theorem elementKeysDistinct_iff (elements : List Value) :
    ElementKeysDistinct elements ↔ ∀ v ∈ elements, v.KeysDistinct := by
  induction elements with
  | nil => simp [ElementKeysDistinct]
  | cons v elements ih => simp [ElementKeysDistinct, ih]

theorem memberKeysDistinct_iff (members : List (String × Value)) :
    MemberKeysDistinct members ↔ ∀ v ∈ members.map (·.2), v.KeysDistinct := by
  induction members with
  | nil => simp [MemberKeysDistinct]
  | cons m members ih => simp [MemberKeysDistinct, ih]

/-- Keys are distinct in a value when they are in the value itself and in its parts. -/
theorem keysDistinct_iff (v : Value) :
    v.KeysDistinct ↔
      (∀ members, v = object members → (members.map (·.1)).Nodup) ∧
        ∀ w ∈ v.parts, w.KeysDistinct := by
  cases v with
  | array elements => simp [KeysDistinct, parts, elementKeysDistinct_iff]
  | object members => simp only [KeysDistinct, parts, memberKeysDistinct_iff, object.injEq,
      forall_eq']
  | _ => simp [KeysDistinct, parts]

theorem KeysDistinct.part {v w : Value} (h : v.KeysDistinct) (hw : w ∈ v.parts) :
    w.KeysDistinct :=
  ((keysDistinct_iff v).mp h).2 w hw

end JsonQuery.Value
