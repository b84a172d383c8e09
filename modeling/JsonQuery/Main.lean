import JsonQuery.Command.Run

/-!
The program: queries a JSON document from a file or from standard input.
-/

namespace JsonQuery

def succeeds (action : IO Unit) : IO Bool := do
  try
    action
    return true
  catch _ => return false

def readHandle (handle : IO.FS.Handle) : IO (Except FileFault (List UInt8)) := do
  try return .ok (← handle.readBinToEnd).data.toList
  catch _ => return .error .unread

def systemFiles : Files IO where
  read name := do
    match ← (IO.FS.Handle.mk name .read).toBaseIO with
    | .ok handle => readHandle handle
    | .error _ => return .error .unopened
  isThere name := succeeds do discard (IO.FS.realPath name)
  makeDirectories name := if name = "" then return true else succeeds (IO.FS.createDirAll name)
  write name content := succeeds (IO.FS.writeBinFile name ⟨content.toArray⟩)

def systemInput : IO (Option (List UInt8)) := do
  try return some (← (← IO.getStdin).readBinToEnd).data.toList
  catch _ => return none

def Level.name : Level → String
  | warn => "WARN"
  | debug => "DEBUG"
  | trace => "TRACE"

end JsonQuery

open JsonQuery

def main (line : List String) : IO UInt32 := do
  let home := (← IO.getEnv "HOME").filter (· ≠ "")
  let record ← Command.run ⟨systemFiles, home, systemInput⟩ line
  for notice in record.notices do
    IO.eprintln ("[" ++ notice.level.name ++ "] " ++ notice.text)
  match record.outcome with
  | .output text => IO.print text
  | .failure message => IO.eprintln ("Error: " ++ message)
  | .usage => IO.eprint Command.usageLine
  return record.outcome.exitCode.toUInt32
