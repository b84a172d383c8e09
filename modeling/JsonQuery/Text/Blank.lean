/-!
The blank characters: those with the Unicode property White_Space.
-/

namespace JsonQuery.Text

/-- A character with the Unicode property White_Space. -/
def isBlank (c : Char) : Bool :=
  let n := c.toNat
  (0x09 ≤ n && n ≤ 0x0D) || n == 0x20 || n == 0x85 || n == 0xA0 || n == 0x1680 ||
    (0x2000 ≤ n && n ≤ 0x200A) || n == 0x2028 || n == 0x2029 || n == 0x202F || n == 0x205F ||
    n == 0x3000

def skipBlank (text : List Char) : List Char := text.dropWhile isBlank

theorem skipBlank_length_le (text : List Char) : (skipBlank text).length ≤ text.length :=
  (List.dropWhile_suffix isBlank).length_le

theorem length_lt_of_skipBlank {c : Char} {text rest : List Char}
    (h : skipBlank text = c :: rest) : rest.length < text.length := by
  have hle := skipBlank_length_le text
  rw [h, List.length_cons] at hle
  exact hle

end JsonQuery.Text
