import JsonQuery.Files.Basic
import JsonQuery.Files.Name
import JsonQuery.Settings.Basic
import JsonQuery.Text.Utf8

/-!
Settings in files. The file in the home directory is optional: where it is missing the settings are
the usual ones, and where it is unusable they are, too, and the fault is told.
-/

namespace JsonQuery.Settings

inductive Fault where
  | unread (name : String)
  | malformed (name : String)
  | noDirectory (name : String)
  | unwritable
  | unwritten (name : String)
  | homeless

def Fault.message : Fault → String
  | unread name => "Failed to read config file: " ++ name
  | malformed name => "Failed to parse config file: " ++ name
  | noDirectory name => "Failed to create directory: " ++ name
  | unwritable => "out-of-range value for u64 type"
  | unwritten name => "Failed to write config file: " ++ name
  | homeless => "Could not determine config directory"

def fileName (home : String) : String := home ++ "/.config/pathquill/config.toml"

variable {m : Type → Type} [Monad m]

def ofBytes (name : String) (bytes : Except FileFault (List UInt8)) : Except Fault Settings :=
  match bytes with
  | .error _ => .error (.unread name)
  | .ok bytes =>
    match Text.decode? bytes with
    | none => .error (.unread name)
    | some text =>
      match ofText? text.toList with
      | none => .error (.malformed name)
      | some settings => .ok settings

def loadFrom (files : Files m) (name : String) : m (Except Fault Settings) := do
  return ofBytes name (← files.read name)

/-- The settings in the file of the home directory, and why it is unusable if it is. -/
def load (files : Files m) (home : Option String) : m (Settings × Option Fault) := do
  match home with
  | none => return ({}, none)
  | some home =>
    if ← files.isThere (fileName home) then
      match ← loadFrom files (fileName home) with
      | .ok settings => return (settings, none)
      | .error fault => return ({}, some fault)
    else return ({}, none)

/-- Saves settings to a file, whose directory is made if it is missing. A file is written only when
the settings have a text. -/
def saveTo (files : Files m) (settings : Settings) (name : String) : m (Except Fault Unit) := do
  let parent := FileName.parent? name.toList
  let made ← match parent with
    | none => pure true
    | some parent => files.makeDirectories (String.ofList parent)
  if made then
    match settings.text? with
    | none => return .error .unwritable
    | some text =>
      if ← files.write name (Text.encode text) then return .ok ()
      else return .error (.unwritten name)
  else return .error (.noDirectory (String.ofList (parent.getD [])))

def save (files : Files m) (home : Option String) (settings : Settings) :
    m (Except Fault Unit) := do
  match home with
  | none => return .error .homeless
  | some home => saveTo files settings (fileName home)

end JsonQuery.Settings
