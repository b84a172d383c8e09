import JsonQuery.Files.Basic
import JsonQuery.Files.Name
import JsonQuery.Gzip.Member
import JsonQuery.Text.Utf8

/-!
Where documents come from. A file is gzipped if its extension says so; on standard input, the bytes
themselves say so.
-/

namespace JsonQuery

inductive Source where
  | file (name : String)
  | input

namespace Source

def gunzipped? (bytes : List UInt8) : Option String := do Text.decode? (← Gzip.content? bytes)

inductive BytesFault where
  | gzip
  | utf8

def BytesFault.message : BytesFault → String
  | gzip => "Failed to decompress gzipped input"
  | utf8 => "Invalid UTF-8 in input"

/-- The text of bytes, gzipped or not. -/
def text (bytes : List UInt8) : Except BytesFault String :=
  if Gzip.magic <+: bytes then
    match gunzipped? bytes with
    | some text => .ok text
    | none => .error .gzip
  else
    match Text.decode? bytes with
    | some text => .ok text
    | none => .error .utf8

inductive Fault where
  | unopened (name : String)
  | corrupted
  | unread (name : String)
  | input

def Fault.message : Fault → String
  | unopened name => "Failed to open gzipped file: " ++ name
  | corrupted => "Failed to decompress gzipped file - file may be corrupted"
  | unread name => "Failed to read file: " ++ name
  | input => "Failed to read from stdin"

def isGzipped (name : String) : Bool := FileName.extension? name.toList == some ['g', 'z']

/-- The text of a file whose name and bytes are given. -/
def fileText (name : String) (bytes : Except FileFault (List UInt8)) : Except Fault String :=
  if isGzipped name then
    match bytes with
    | .error .unopened => .error (.unopened name)
    | .error .unread => .error .corrupted
    | .ok bytes =>
      match gunzipped? bytes with
      | some text => .ok text
      | none => .error .corrupted
  else
    match bytes with
    | .error _ => .error (.unread name)
    | .ok bytes =>
      match Text.decode? bytes with
      | some text => .ok text
      | none => .error (.unread name)

def inputText (bytes : Option (List UInt8)) : Except Fault String :=
  match bytes with
  | some bytes =>
    match text bytes with
    | .ok text => .ok text
    | .error _ => .error .input
  | none => .error .input

def load {m : Type → Type} [Monad m] (files : Files m) (input : m (Option (List UInt8))) :
    Source → m (Except Fault String)
  | .file name => return fileText name (← files.read name)
  | .input => return inputText (← input)

end Source

end JsonQuery
