import JsonQuery.Proofs.Number.Written
import JsonQuery.Proofs.Value.Members
import JsonQuery.Proofs.Value.Parts
import JsonQuery.Selection.Search
import JsonQuery.Value.Equality
import Mathlib.Data.Multiset.Bind

/-!
Equality of values is symmetric and transitive, and no value that it relates holds a NaN. Objects
whose keys are distinct are equal exactly if their members can be matched up, in whatever order the
members stand. What a condition or a dynamic step asks of a value it finds in every equal value.
-/

namespace JsonQuery

section Matched

variable {α β γ δ : Type} {R : α → β → Prop} {S : γ → δ → Prop} {l : List α} {m : List β}

/-- The elements of the lists can be matched up, in whatever order they stand. -/
def Matched (R : α → β → Prop) (l : List α) (m : List β) : Prop :=
  Multiset.Rel R (l : Multiset α) (m : Multiset β)

theorem Matched.of_perm {l m : List α} (h : l.Perm m) : Matched (· = ·) l m :=
  Multiset.rel_eq.mpr (Multiset.coe_eq_coe.mpr h)

theorem Matched.perm {l m : List α} (h : Matched (· = ·) l m) : l.Perm m :=
  Multiset.coe_eq_coe.mp (Multiset.rel_eq.mp h)

theorem Matched.of_forall₂ (h : List.Forall₂ R l m) : Matched R l m := by
  induction h with
  | nil => exact .zero
  | cons hab _ ih => exact .cons hab ih

/-- There is one way to match up lists with one element at most. -/
theorem Matched.forall₂_of_length_le (h : Matched R l m) (hl : l.length ≤ 1) :
    List.Forall₂ R l m := by
  have hlength : l.length = m.length := Multiset.card_eq_card_of_rel h
  match l, m with
  | [], [] => exact .nil
  | [a], [b] =>
    obtain ⟨b', hb', hab⟩ := Multiset.exists_mem_of_rel_of_mem h (Multiset.mem_singleton_self a)
    rw [Multiset.mem_singleton.mp hb'] at hab
    exact .cons hab .nil

theorem Matched.cons {a : α} {b : β} (hab : R a b) (h : Matched R l m) :
    Matched R (a :: l) (b :: m) :=
  Multiset.Rel.cons hab h

theorem Matched.congr {R' : α → β → Prop} (h : ∀ a ∈ l, ∀ b ∈ m, (R a b ↔ R' a b)) :
    Matched R l m ↔ Matched R' l m :=
  ⟨fun hR => Multiset.Rel.mono hR fun a ha b hb => (h a ha b hb).mp,
    fun hR => Multiset.Rel.mono hR fun a ha b hb => (h a ha b hb).mpr⟩

theorem Matched.map (h : Matched R l m) {f : α → γ} {g : β → δ}
    (hfg : ∀ a b, R a b → S (f a) (g b)) : Matched S (l.map f) (m.map g) :=
  Multiset.rel_map.mpr (Multiset.Rel.mono h fun a _ b _ hab => hfg a b hab)

theorem Matched.flatMap (h : Matched R l m) {f : α → List γ} {g : β → List δ}
    (hfg : ∀ a ∈ l, ∀ b ∈ m, R a b → Matched S (f a) (g b)) :
    Matched S (l.flatMap f) (m.flatMap g) := by
  have hbind : Multiset.Rel S ((l : Multiset α).bind fun a => f a)
      ((m : Multiset β).bind fun b => g b) :=
    Multiset.rel_bind (fun _ _ hab => hab) (Multiset.Rel.mono h hfg)
  rw [Multiset.coe_bind, Multiset.coe_bind] at hbind
  exact hbind

theorem Matched.filterMap (h : Matched R l m) {f : α → Option γ} {g : β → Option δ}
    (hfg : ∀ a b, R a b → Option.Rel S (f a) (g b)) :
    Matched S (l.filterMap f) (m.filterMap g) := by
  rw [List.filterMap_eq_flatMap_toList, List.filterMap_eq_flatMap_toList]
  refine h.flatMap fun a _ b _ hab => ?_
  have hrel := hfg a b hab
  revert hrel
  generalize f a = x
  generalize g b = y
  intro hrel
  cases hrel with
  | none => exact .zero
  | some hxy => exact .cons hxy .zero

theorem Matched.filter (h : Matched R l m) {p : α → Bool} {q : β → Bool}
    (hpq : ∀ a b, R a b → p a = q b) : Matched R (l.filter p) (m.filter q) := by
  rw [← List.filterMap_eq_filter, ← List.filterMap_eq_filter]
  refine h.filterMap fun a b hab => ?_
  cases hp : p a with
  | true => simp [Option.guard, hp, ← hpq a b hab, hab]
  | false => simp [Option.guard, hp, ← hpq a b hab]

end Matched

section OptionRel

variable {α β : Type} {R S : α → β → Prop} {a : Option α} {b : Option β}

theorem option_rel_of_eq {a b : Option α} (h : a = b) : Option.Rel (· = ·) a b := by
  subst h
  cases a with
  | none => exact .none
  | some a => exact .some rfl

theorem isSome_eq_of_rel (h : Option.Rel R a b) : a.isSome = b.isSome := by
  cases h <;> rfl

theorem option_rel_mono (h : Option.Rel R a b) (himp : ∀ a b, R a b → S a b) :
    Option.Rel S a b := by
  cases h with
  | none => exact .none
  | some hab => exact .some (himp _ _ hab)

end OptionRel

namespace Number

variable {x y z : Number}

theorem same_iff :
    x.same y = true ↔ ¬ x.IsNaN ∧ ¬ y.IsNaN ∧ x.signedRank = y.signedRank := by
  unfold same order
  split
  · rename_i h
    constructor
    · intro hsame
      cases hsame
    · rintro ⟨hx, hy, -⟩
      exact absurd h (not_or.mpr ⟨hx, hy⟩)
  · rename_i h
    rw [not_or] at h
    rw [beq_iff_eq, Option.some.injEq, compare_eq_iff_eq]
    exact ⟨fun heq => ⟨h.1, h.2, heq⟩, fun h => h.2.2⟩

theorem same_symm (h : x.same y = true) : y.same x = true := by
  rw [same_iff] at h ⊢
  exact ⟨h.2.1, h.1, h.2.2.symm⟩

theorem same_trans (h : x.same y = true) (h' : y.same z = true) : x.same z = true := by
  rw [same_iff] at h h' ⊢
  exact ⟨h.1, h'.2.1, h.2.2.trans h'.2.2⟩

theorem order_congr_left (h : x.same y = true) (z : Number) : x.order z = y.order z := by
  obtain ⟨hx, hy, heq⟩ := same_iff.mp h
  simp only [order, hx, hy, false_or, heq]

theorem order_congr_right (h : x.same y = true) (z : Number) : z.order x = z.order y := by
  obtain ⟨hx, hy, heq⟩ := same_iff.mp h
  simp only [order, hx, hy, or_false, heq]

/-- Numbers with one signed rank differ in the sign of zero at most. -/
theorem signedRank_eq_iff :
    x.signedRank = y.signedRank ↔ x.rank = y.rank ∧ (x.negative = y.negative ∨ x.rank = 0) := by
  unfold signedRank
  cases x.negative <;> cases y.negative <;> simp <;> omega

theorem asWritten_eq_iff : x.asWritten = y.asWritten ↔ x.signedRank = y.signedRank := by
  rw [signedRank_eq_iff, asWritten, asWritten]
  by_cases hx : x.rank = 0 <;> by_cases hy : y.rank = 0
  · simp [hx, hy]
  · have hne : zero ≠ y := fun h => hy (h ▸ rfl)
    simp [hx, hy, hne, Ne.symm hy]
  · have hne : x ≠ zero := fun h => hx (h ▸ rfl)
    simp [hx, hy, hne]
  · rw [if_neg hx, if_neg hy, Number.ext_iff]
    simp [hx, and_comm]

/-- The two zeros are the same whole number. -/
theorem toInt?_congr (h : x.same y = true) : x.toInt? = y.toInt? := by
  obtain ⟨-, -, heq⟩ := same_iff.mp h
  rcases signedRank_eq_iff.mp heq with ⟨hrank, hsign | hzero⟩
  · rw [Number.ext hsign hrank]
  · rw [toInt?_of_rank_eq_zero hzero, toInt?_of_rank_eq_zero (hrank ▸ hzero)]

end Number

namespace Value

open Keyed

/-- What equality asks of two values and of the values directly in them. -/
inductive Equal : Value → Value → Prop where
  | null : Equal null null
  | boolean (b : Bool) : Equal (boolean b) (boolean b)
  | number {x y : Number} (h : x.same y = true) : Equal (number x) (number y)
  | string (s : String) : Equal (string s) (string s)
  | array {xs ys : List Value} (h : List.Forall₂ (fun x y => x.same y = true) xs ys) :
      Equal (array xs) (array ys)
  | object {ms ns : List (String × Value)} (hlength : ms.length = ns.length)
      (h : ∀ m ∈ ms, ∃ w, find? m.1 ns = some w ∧ m.2.same w = true) :
      Equal (object ms) (object ns)

theorem sameElements_iff {xs ys : List Value} :
    sameElements xs ys = true ↔ List.Forall₂ (fun x y => x.same y = true) xs ys := by
  induction xs generalizing ys with
  | nil => cases ys <;> simp [sameElements]
  | cons x xs ih =>
    cases ys with
    | nil => simp [sameElements]
    | cons y ys => rw [sameElements, Bool.and_eq_true, ih, List.forall₂_cons]

theorem sameMembers_iff {ms ns : List (String × Value)} :
    sameMembers ms ns = true ↔
      ∀ m ∈ ms, ∃ w, find? m.1 ns = some w ∧ m.2.same w = true := by
  induction ms with
  | nil => simp [sameMembers]
  | cons m ms ih =>
    rw [sameMembers, Bool.and_eq_true, ih, List.forall_mem_cons]
    cases find? m.1 ns with
    | none => simp
    | some w => simp

theorem same_iff_equal {v w : Value} : v.same w = true ↔ v.Equal w := by
  constructor
  · intro h
    cases v <;> cases w <;> simp only [same, Bool.false_eq_true] at h
    · exact .null
    · exact beq_iff_eq.mp h ▸ .boolean _
    · exact .number h
    · exact beq_iff_eq.mp h ▸ .string _
    · exact .array (sameElements_iff.mp h)
    · rw [Bool.and_eq_true, beq_iff_eq, sameMembers_iff] at h
      exact .object h.1 h.2
  · intro h
    cases h with
    | null => rfl
    | boolean b => exact beq_self_eq_true b
    | number h => exact h
    | string s => exact beq_self_eq_true s
    | array h => exact sameElements_iff.mpr h
    | object hlength h =>
      rw [same, Bool.and_eq_true, beq_iff_eq, sameMembers_iff]
      exact ⟨hlength, h⟩

/-- The members of two objects can be matched up by their keys. -/
theorem matched_members {R : Value → Value → Prop} {ms ns : List (String × Value)}
    (hms : (ms.map (·.1)).Nodup) (hns : (ns.map (·.1)).Nodup) (hlength : ms.length = ns.length)
    (h : ∀ m ∈ ms, ∃ w, find? m.1 ns = some w ∧ R m.2 w) :
    Matched (fun m n : String × Value => m.1 = n.1 ∧ R m.2 n.2) ms ns := by
  have hkeys : (ms.map (·.1)).Perm (ns.map (·.1)) := by
    refine (hms.subperm fun k hk => ?_).perm_of_length_le (by simp [hlength])
    obtain ⟨m, hm, rfl⟩ := List.mem_map.mp hk
    obtain ⟨w, hw, -⟩ := h m hm
    exact List.mem_map_of_mem (f := (·.1)) (mem_of_find?_eq_some hw)
  have hperm := hkeys.filterMap fun k => (find? k ns).map (k, ·)
  rw [filterMap_find?_eq hns] at hperm
  rw [Matched, ← Multiset.coe_eq_coe.mpr hperm]
  clear hms hkeys hperm hlength
  induction ms with
  | nil => exact .zero
  | cons m ms ih =>
    obtain ⟨w, hw, hR⟩ := h m List.mem_cons_self
    rw [List.map_cons, List.filterMap_cons_some (by rw [hw]; rfl)]
    exact .cons ⟨rfl, hR⟩ (ih fun m' hm' => h m' (List.mem_cons_of_mem m hm'))

/-- Objects are equal exactly if their members can be matched up. -/
theorem same_object_iff {ms ns : List (String × Value)} (hms : (ms.map (·.1)).Nodup)
    (hns : (ns.map (·.1)).Nodup) :
    (object ms).same (object ns) = true ↔
      Matched (fun m n : String × Value => m.1 = n.1 ∧ m.2.same n.2 = true) ms ns := by
  rw [same_iff_equal]
  constructor
  · rintro ⟨⟩
    rename_i hlength h
    exact matched_members (R := fun v w => v.same w = true) hms hns hlength h
  · intro h
    refine .object (Multiset.card_eq_card_of_rel h) fun m hm => ?_
    obtain ⟨n, hn, hkey, hsame⟩ := Multiset.exists_mem_of_rel_of_mem h hm
    exact ⟨n.2, hkey ▸ find?_of_mem hns hn, hsame⟩

theorem forall₂_mem {α : Type} {R : α → α → Prop} {l m : List α} (h : List.Forall₂ R l m) :
    List.Forall₂ (fun a b => (a ∈ l ∧ b ∈ m) ∧ R a b) l m :=
  List.forall₂_iff_zip.mpr
    ⟨h.length_eq, fun hmem => ⟨List.of_mem_zip hmem, List.forall₂_zip h hmem⟩⟩

theorem forall₂_congr {α : Type} {R S : α → α → Prop} {l m : List α}
    (h : ∀ a ∈ l, ∀ b ∈ m, (R a b ↔ S a b)) : List.Forall₂ R l m ↔ List.Forall₂ S l m :=
  ⟨fun hR => (forall₂_mem hR).imp fun a b hab => (h a hab.1.1 b hab.1.2).mp hab.2,
    fun hS => (forall₂_mem hS).imp fun a b hab => (h a hab.1.1 b hab.1.2).mpr hab.2⟩

theorem forall₂_trans {α : Type} {R S T : α → α → Prop} {l m n : List α}
    (hR : ∀ a ∈ l, ∀ b c, R a b → S b c → T a c) (h : List.Forall₂ R l m)
    (h' : List.Forall₂ S m n) : List.Forall₂ T l n := by
  induction h generalizing n with
  | nil =>
    cases h'
    exact .nil
  | @cons a b l m hab _ ih =>
    cases h' with
    | cons hbc h' =>
      exact .cons (hR a List.mem_cons_self b _ hab hbc)
        (ih (fun x hx => hR x (List.mem_cons_of_mem a hx)) h')

theorem same_symm {v w : Value} (hv : v.KeysDistinct) (hw : w.KeysDistinct)
    (h : v.same w = true) : w.same v = true := by
  induction v using parts_induction generalizing w with
  | h v ih =>
    cases same_iff_equal.mp h with
    | null => exact h
    | boolean b => exact h
    | number hx => exact Number.same_symm hx
    | string s => exact h
    | array hxs =>
      apply sameElements_iff.mpr
      apply List.Forall₂.flip
      apply (forall₂_mem hxs).imp
      rintro x y ⟨⟨hx, hy⟩, hxy⟩
      exact ih x hx (hv.part hx) (hw.part hy) hxy
    | object hlength hms =>
      have hmatch := (same_object_iff hv.1 hw.1).mp h
      apply (same_object_iff hw.1 hv.1).mpr
      apply Multiset.rel_flip.mp
      apply Multiset.Rel.mono hmatch
      rintro m hm n hn ⟨hkey, hsame⟩
      have hm' := List.mem_map_of_mem (f := (·.2)) (Multiset.mem_coe.mp hm)
      have hn' := List.mem_map_of_mem (f := (·.2)) (Multiset.mem_coe.mp hn)
      exact ⟨hkey.symm, ih m.2 hm' (hv.part hm') (hw.part hn') hsame⟩

theorem same_trans {u v w : Value} (h : u.same v = true) (h' : v.same w = true) :
    u.same w = true := by
  induction u using parts_induction generalizing v w with
  | h u ih =>
    cases same_iff_equal.mp h with
    | null => exact h'
    | boolean b => exact h'
    | string s => exact h'
    | number hx =>
      cases same_iff_equal.mp h' with
      | number hy => exact Number.same_trans hx hy
    | array hxs =>
      cases same_iff_equal.mp h' with
      | array hys =>
        apply sameElements_iff.mpr
        exact forall₂_trans (R := fun v w => v.same w = true) (S := fun v w => v.same w = true)
          (fun x hx _ _ hxy hyz => ih x hx hxy hyz) hxs hys
    | object hlength hms =>
      cases same_iff_equal.mp h' with
      | object hlength' hns =>
        refine same_iff_equal.mpr (.object (hlength.trans hlength') fun m hm => ?_)
        obtain ⟨v, hv, hsame⟩ := hms m hm
        obtain ⟨w, hw, hsame'⟩ := hns _ (mem_of_find?_eq_some hv)
        exact ⟨w, hw, ih m.2 (List.mem_map_of_mem (f := (·.2)) hm) hsame hsame'⟩

/-- The values are equal, and keys are distinct in both of them. -/
structure Alike (v w : Value) : Prop where
  same : v.same w = true
  left : v.KeysDistinct
  right : w.KeysDistinct

theorem Alike.symm {v w : Value} (h : v.Alike w) : w.Alike v :=
  ⟨same_symm h.left h.right h.same, h.right, h.left⟩

section Alike

variable {v w : Value} (h : v.Alike w)
include h

theorem Alike.size_eq : v.size = w.size := by
  cases same_iff_equal.mp h.same with
  | array hxs => exact hxs.length_eq
  | object hlength _ => exact hlength
  | _ => rfl

theorem Alike.same_left (u : Value) : v.same u = w.same u := by
  rw [Bool.eq_iff_iff]
  constructor
  · intro hu
    exact same_trans h.symm.same hu
  · intro hu
    exact same_trans h.same hu

theorem Alike.same_right (u : Value) : u.same v = u.same w := by
  rw [Bool.eq_iff_iff]
  constructor
  · intro hu
    exact same_trans hu h.same
  · intro hu
    exact same_trans hu h.symm.same

theorem Alike.order?_left (u : Value) : v.order? u = w.order? u := by
  cases same_iff_equal.mp h.same with
  | number hx =>
    cases u with
    | number z => exact Number.order_congr_left hx z
    | _ => rfl
  | _ => rfl

theorem Alike.order?_right (u : Value) : u.order? v = u.order? w := by
  cases same_iff_equal.mp h.same with
  | number hx =>
    cases u with
    | number z => exact Number.order_congr_right hx z
    | _ => rfl
  | _ => cases u <;> rfl

/-- Equal values stand for the same selector. -/
theorem Alike.ofValue?_eq : Selector.ofValue? v = Selector.ofValue? w := by
  cases same_iff_equal.mp h.same with
  | number hx => simp only [Selector.ofValue?, Number.toInt?_congr hx]
  | _ => rfl

theorem Alike.child? {selector : Selector} {a : Value} (ha : selector.child? v = some a) :
    ∃ b, selector.child? w = some b ∧ a.Alike b := by
  cases selector with
  | name k =>
    cases same_iff_equal.mp h.same with
    | object hlength hms =>
      have hmem := mem_of_find?_eq_some ha
      obtain ⟨b, hb, hsame⟩ := hms _ hmem
      have hpart := List.mem_map_of_mem (f := (·.2)) hmem
      have hpart' := List.mem_map_of_mem (f := (·.2)) (mem_of_find?_eq_some hb)
      exact ⟨b, hb, hsame, h.left.part hpart, h.right.part hpart'⟩
    | _ => cases ha
  | index i =>
    cases same_iff_equal.mp h.same with
    | @array xs ys hxs =>
      obtain ⟨place, hplace, hx⟩ := Option.bind_eq_some_iff.mp ha
      obtain ⟨hlt, rfl⟩ := List.getElem?_eq_some_iff.mp hx
      have hlt' : place < ys.length := hxs.length_eq ▸ hlt
      refine ⟨ys[place], ?_, hxs.get hlt hlt', h.left.part (List.getElem_mem hlt),
        h.right.part (List.getElem_mem hlt')⟩
      rw [Selector.child?, element?, ← hxs.length_eq, hplace, Option.bind_some,
        List.getElem?_eq_getElem hlt']
    | _ => cases ha

theorem Alike.follow? {selectors : List Selector} {a : Value}
    (ha : Selector.follow? selectors v = some a) :
    ∃ b, Selector.follow? selectors w = some b ∧ a.Alike b := by
  induction selectors generalizing v w with
  | nil =>
    cases ha
    exact ⟨w, rfl, h⟩
  | cons selector selectors ih =>
    obtain ⟨c, hc, ha⟩ := Option.bind_eq_some_iff.mp ha
    obtain ⟨d, hd, hcd⟩ := h.child? hc
    obtain ⟨b, hb, hab⟩ := ih hcd ha
    exact ⟨b, by rw [Selector.follow?, hd, Option.bind_some, hb], hab⟩

theorem Alike.rel_follow? (selectors : List Selector) :
    Option.Rel Alike (Selector.follow? selectors v) (Selector.follow? selectors w) := by
  cases hv : Selector.follow? selectors v with
  | some a =>
    obtain ⟨b, hb, hab⟩ := h.follow? hv
    rw [hb]
    exact .some hab
  | none =>
    cases hw : Selector.follow? selectors w with
    | none => exact .none
    | some b =>
      obtain ⟨a, ha, -⟩ := h.symm.follow? hw
      rw [hv] at ha
      cases ha

end Alike

/-- No comparison tells the values apart, on either side. -/
def Interchangeable (a b : Value) : Prop :=
  ∀ (comparison : Comparison) (u : Value),
    comparison.holds a u = comparison.holds b u ∧ comparison.holds u a = comparison.holds u b

theorem Interchangeable.refl (a : Value) : a.Interchangeable a := fun _ _ => ⟨rfl, rfl⟩

theorem Alike.interchangeable {v w : Value} (h : v.Alike w) : v.Interchangeable w := by
  intro comparison u
  simp only [Comparison.holds, h.same_left, h.same_right, h.order?_left, h.order?_right, and_self]

end Value

section Conditions

open Value

variable {root other v w : Value} (hroot : root.Alike other) (h : v.Alike w)
include hroot h

theorem Reference.resolve?_alike (r : Reference) :
    Option.Rel Alike (r.resolve? root v) (r.resolve? other w) := by
  unfold resolve?
  cases r.anchor with
  | current => exact h.rel_follow? r.selectors
  | root => exact hroot.rel_follow? r.selectors

theorem Operand.value?_interchangeable (operand : Operand) :
    Option.Rel Interchangeable (operand.value? root v) (operand.value? other w) := by
  cases operand with
  | reference r =>
    exact option_rel_mono (r.resolve?_alike hroot h) fun _ _ hab => hab.interchangeable
  | literal u => exact .some (.refl u)

/-- A condition holds of both of two equal values or of neither, in documents that are equal. -/
theorem Condition.holds_alike (condition : Condition) :
    condition.holds root v = condition.holds other w := by
  induction condition with
  | present r =>
    rw [holds, holds]
    exact isSome_eq_of_rel (r.resolve?_alike hroot h)
  | compare left comparison right =>
    have hleft := left.value?_interchangeable hroot h
    have hright := right.value?_interchangeable hroot h
    simp only [holds]
    revert hleft hright
    generalize left.value? root v = l
    generalize left.value? other w = l'
    generalize right.value? root v = r
    generalize right.value? other w = r'
    intro hleft hright
    cases hleft with
    | none => rfl
    | some hl =>
      cases hright with
      | none => rfl
      | some hr => exact (hl comparison _).1.trans (hr comparison _).2
  | and left right ihl ihr => rw [holds, holds, ihl, ihr]
  | or left right ihl ihr => rw [holds, holds, ihl, ihr]
  | not inner ih => rw [holds, holds, ih]

end Conditions

end JsonQuery
