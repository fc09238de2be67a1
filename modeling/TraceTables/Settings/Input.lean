import TraceTables.Settings.Disk
import TraceTables.Text.Hex

/-! Input files: bytes as they are, or a hex dump of them. -/

namespace TraceTables.Settings

inductive InputFault where
  | unreadable (path : String)
  | badHex (path : String) (source : Text.Hex.Fault)
deriving DecidableEq

def InputFault.message : InputFault → String
  | unreadable path => "Failed to read " ++ path
  | badHex path _ => "Invalid hex input in " ++ path

def InputFault.source? : InputFault → Option Text.Hex.Fault
  | unreadable _ => none
  | badHex _ source => some source

/-- The bytes that the content of a file stands for. A hex dump is a text. -/
def decodeInput (path : String) (asHex : Bool) (content : List UInt8) : Except InputFault (List UInt8) :=
  if asHex then
    match Text.Utf8.decode? content with
    | none => .error (.unreadable path)
    | some text =>
      match Text.Hex.decodeText text with
      | .error e => .error (.badHex path e)
      | .ok bytes => .ok bytes
  else .ok content

def readInput {m : Type → Type} [Monad m] (disk : Disk m) (path : String) (asHex : Bool) :
    ExceptT InputFault m (List UInt8) := do
  match ← disk.read? path with
  | none => throw (.unreadable path)
  | some content => ExceptT.mk (pure (decodeInput path asHex content))

end TraceTables.Settings
