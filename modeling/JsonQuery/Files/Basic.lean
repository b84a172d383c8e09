/-!
What a program asks of the files around it. Names are slashed names, as users write them.
-/

namespace JsonQuery

inductive FileFault where
  | unopened
  | unread

/-- The operations on files, in the monad that has the files. -/
structure Files (m : Type → Type) where
  read : String → m (Except FileFault (List UInt8))
  /-- Whether a name leads to a file or a directory. -/
  isThere : String → m Bool
  /-- Makes a directory and those that it is in, where they are missing. -/
  makeDirectories : String → m Bool
  /-- Replaces the content of a file, which is made if it is missing. -/
  write : String → List UInt8 → m Bool

end JsonQuery
