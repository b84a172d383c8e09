import JsonQuery.Text.Utf8
import Mathlib.Data.List.Lex
import Mathlib.Data.String.Basic

/-!
The order of texts. In UTF-8 the bytes of a smaller code point are smaller at the first place where
they differ from those of a greater one, whatever follows, so texts are in the same order by their
characters, by their code points and by their bytes.
-/

namespace JsonQuery.Text

/-- The code points of a text. -/
def codePoints (s : String) : List Nat := s.toList.map Char.toNat

/-- The bytes of a text in UTF-8, as numbers. -/
def byteValues (s : String) : List Nat := (encode s).map UInt8.toNat

/-- The code of a smaller character is smaller wherever it stands. -/
structure OrderedCode (code : Char → List Nat) : Prop where
  ne_nil : ∀ c, code c ≠ []
  lt : ∀ {c d}, c < d → ∀ s t, code c ++ s < code d ++ t

section OrderedCode

variable {code : Char → List Nat} (h : OrderedCode code)
include h

theorem OrderedCode.flatMap_lt {cs ds : List Char} (hlt : cs < ds) :
    cs.flatMap code < ds.flatMap code := by
  induction hlt with
  | nil =>
    rw [List.flatMap_nil, List.flatMap_cons]
    obtain ⟨n, ns, hcode⟩ := List.exists_cons_of_ne_nil (h.ne_nil _)
    rw [hcode]
    exact List.nil_lt_cons _ _
  | cons _ ih =>
    rw [List.flatMap_cons, List.flatMap_cons]
    exact List.append_left_lt ih
  | rel hcd =>
    rw [List.flatMap_cons, List.flatMap_cons]
    exact h.lt hcd _ _

theorem OrderedCode.flatMap_lt_iff {cs ds : List Char} :
    cs.flatMap code < ds.flatMap code ↔ cs < ds := by
  refine ⟨fun hlt => ?_, h.flatMap_lt⟩
  rcases lt_trichotomy cs ds with hcs | rfl | hds
  · exact hcs
  · exact absurd hlt (lt_irrefl _)
  · exact absurd hlt (lt_asymm (h.flatMap_lt hds))

end OrderedCode

theorem orderedCode_toNat : OrderedCode fun c => [c.toNat] where
  ne_nil _ := List.cons_ne_nil _ _
  lt hcd _ _ := List.cons_lt_cons_iff.mpr (.inl hcd)

theorem codePoints_lt_iff {s t : String} : codePoints s < codePoints t ↔ s < t := by
  rw [String.lt_iff_toList_lt, ← orderedCode_toNat.flatMap_lt_iff, ← List.map_eq_flatMap,
    ← List.map_eq_flatMap, codePoints, codePoints]

/-- The bytes of a code point in UTF-8. -/
def codePointBytes (n : Nat) : List Nat :=
  if n < 0x80 then [n]
  else if n < 0x800 then [n / 0x40 + 0xC0, n % 0x40 + 0x80]
  else if n < 0x10000 then [n / 0x1000 + 0xE0, n / 0x40 % 0x40 + 0x80, n % 0x40 + 0x80]
  else [n / 0x40000 + 0xF0, n / 0x1000 % 0x40 + 0x80, n / 0x40 % 0x40 + 0x80, n % 0x40 + 0x80]

theorem toNat_lt (c : Char) : c.toNat < 0x110000 := by
  have hvalid := c.valid
  rw [UInt32.isValidChar, Nat.isValidChar] at hvalid
  have hval : c.val.toNat = c.toNat := rfl
  omega

theorem map_toNat_utf8EncodeChar (c : Char) :
    (String.utf8EncodeChar c).map UInt8.toNat = codePointBytes c.toNat := by
  have hc := toNat_lt c
  have hval : c.val.toNat = c.toNat := rfl
  rw [String.utf8EncodeChar.eq_1, hval, codePointBytes]
  split_ifs <;> simp only [List.map_cons, List.map_nil, UInt8.toNat_ofNat', List.cons.injEq,
    and_true] <;> omega

theorem codePointBytes_lt {m n : Nat} (hmn : m < n) (hn : n < 0x110000) (s t : List Nat) :
    codePointBytes m ++ s < codePointBytes n ++ t := by
  unfold codePointBytes
  by_cases hst : s < t <;> split_ifs <;>
    simp only [List.cons_append, List.nil_append, List.cons_lt_cons_iff, hst, and_true, and_false,
      or_false] <;> omega

theorem orderedCode_bytes : OrderedCode fun c => codePointBytes c.toNat where
  ne_nil c := by
    unfold codePointBytes
    split_ifs <;> exact List.cons_ne_nil _ _
  lt {c d} hcd s t := codePointBytes_lt hcd (toNat_lt d) s t

theorem byteValues_eq (s : String) :
    byteValues s = s.toList.flatMap fun c => codePointBytes c.toNat := by
  rw [byteValues, encode, String.toUTF8_eq_toByteArray, ← String.utf8Encode_toList,
    List.utf8Encode, List.toList_data_toByteArray, List.map_flatMap]
  simp only [map_toNat_utf8EncodeChar]

theorem byteValues_lt_iff {s t : String} : byteValues s < byteValues t ↔ s < t := by
  rw [String.lt_iff_toList_lt, ← orderedCode_bytes.flatMap_lt_iff, byteValues_eq, byteValues_eq]

end JsonQuery.Text
