import JsonQuery.Gzip.Checksum
import JsonQuery.Gzip.Inflate

/-!
Gzip members: a header with optional fields, deflated content, and a trailer with the checksum and
the length of the content. What follows the first member is ignored.
-/

namespace JsonQuery.Gzip

/-- The first two bytes of every member. -/
def magic : List UInt8 := [0x1F, 0x8B]

def short? : List UInt8 → Option (Nat × List UInt8)
  | a :: b :: bytes => some (a.toNat + 256 * b.toNat, bytes)
  | _ => none

/-- A number of four bytes, the lowest first. -/
def long? (bytes : List UInt8) : Option (Nat × List UInt8) := do
  let (low, bytes) ← short? bytes
  let (high, bytes) ← short? bytes
  return (low + 65536 * high, bytes)

/-- The most bytes that a text field of a header may have. -/
def maxFieldLength : Nat := 65535

/-- The bytes after a text field, which ends with a zero. -/
def afterText? (bytes : List UInt8) : Option (List UInt8) :=
  let text := bytes.takeWhile (· ≠ 0)
  match bytes.drop text.length with
  | _ :: bytes => if text.length ≤ maxFieldLength then some bytes else none
  | [] => none

/-- The bytes after a field that is led by its length. -/
def afterExtra? (bytes : List UInt8) : Option (List UInt8) := do
  let (length, bytes) ← short? bytes
  if length ≤ bytes.length then some (bytes.drop length) else none

def afterHeader? (bytes : List UInt8) : Option (List UInt8) := do
  if bytes.take 2 ≠ magic ∨ bytes[2]? ≠ some 8 ∨ bytes.length < 10 then none
  else
    let flags := (bytes.getD 3 0).toNat
    let has (i : Nat) : Bool := flags.testBit i
    if has 5 ∨ has 6 ∨ has 7 then none
    else
      let rest := bytes.drop 10
      let rest ← if has 2 then afterExtra? rest else some rest
      let rest ← if has 3 then afterText? rest else some rest
      let rest ← if has 4 then afterText? rest else some rest
      if has 1 then
        let header := bytes.take (bytes.length - rest.length)
        let (sum, rest) ← short? rest
        if sum = crc32 header % 65536 then some rest else none
      else some rest

def content? (bytes : List UInt8) : Option (List UInt8) := do
  let bytes ← afterHeader? bytes
  let (content, bytes) ← inflate? bytes
  let content := content.toList
  let (sum, bytes) ← long? bytes
  let (length, _) ← long? bytes
  if sum = crc32 content ∧ length = content.length % 0x100000000 then some content else none

end JsonQuery.Gzip
