import JsonQuery.Text.Hex

/-!
How text is written between quotes. JSON strings take double quotes; member names in queries and
locations take single quotes, so that of the two quotes only the one around the text is escaped.
-/

namespace JsonQuery.Text

/-- The letter that stands for a character after a backslash, where there is one. -/
def escapeLetter? : Char → Option Char
  | '\\' => some '\\'
  | '\n' => some 'n'
  | '\r' => some 'r'
  | '\t' => some 't'
  | '\x08' => some 'b'
  | '\x0c' => some 'f'
  | _ => none

/-- A character as it is written between two of the quote. Control characters without a letter
take four hexadecimal digits. -/
def encodeChar (quote : Char) (c : Char) : List Char :=
  if c = quote then ['\\', quote]
  else
    match escapeLetter? c with
    | some letter => ['\\', letter]
    | none =>
      if c.toNat < 0x20 then
        ['\\', 'u', '0', '0', hexDigit (c.toNat / 16), hexDigit (c.toNat % 16)]
      else [c]

def quoted (quote : Char) (text : List Char) : List Char :=
  quote :: (text.flatMap (encodeChar quote) ++ [quote])

def jsonString (s : String) : List Char := quoted '"' s.toList

/-- A member name as queries and locations write it. -/
def quotedName (s : String) : List Char := quoted '\'' s.toList

end JsonQuery.Text
