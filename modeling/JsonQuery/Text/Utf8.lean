/-!
Text as bytes in UTF-8.
-/

namespace JsonQuery.Text

def encode (text : String) : List UInt8 := text.toUTF8.data.toList

/-- The text that bytes stand for, where they are in UTF-8. -/
def decode? (bytes : List UInt8) : Option String := String.fromUTF8? ⟨bytes.toArray⟩

theorem decode?_encode (text : String) : decode? (encode text) = some text := by
  simp only [decode?, encode, Array.toArray_toList, String.fromUTF8?, String.toUTF8_eq_toByteArray,
    dif_pos text.isValidUTF8]
  rfl

end JsonQuery.Text
