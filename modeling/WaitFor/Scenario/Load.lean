import WaitFor.Encoding.Scenario
import WaitFor.Toml.Document

/-!
# Loading scenarios

A scenario is looked up among the built-in ones or read from a TOML document, which may stand in a
file.
-/

namespace WaitFor

/-- Why a file could not be read as a text; other faults come in the words of the system. -/
inductive FileFault where
  | notFound
  | isDirectory
  | notUtf8
  | other (text : String)
deriving DecidableEq, Repr

/-- The fault as the system words it. -/
def FileFault.message : FileFault → String
  | notFound => "No such file or directory (os error 2)"
  | isDirectory => "Is a directory (os error 21)"
  | notUtf8 => "stream did not contain valid UTF-8"
  | other text => text

/-- Why a scenario could not be loaded: no built-in one has the name, or the file could not be read,
or it is no TOML document, or the document is no scenario. -/
inductive LoadError where
  | unknown (name : String)
  | unreadable (path : String) (fault : FileFault)
  | syntaxError
  | schemaError
deriving DecidableEq, Repr

/-- The error as shown to a user.  What is wrong in a document is not told in detail. -/
def LoadError.message : LoadError → String
  | unknown name =>
    "Unknown scenario: " ++ name ++ " (expected one of: chain, deadlock, undeclared-wait)"
  | unreadable path fault => "Failed to read " ++ path ++ ": " ++ fault.message
  | syntaxError => "Invalid scenario file: not a TOML document"
  | schemaError => "Invalid scenario file: not a scenario"

/-- The error and what it came from, each as shown to a user. -/
def LoadError.messages (e : LoadError) : List String :=
  e.message :: match e with
    | unreadable _ fault => [fault.message]
    | _ => []

namespace Scenario

/-- The built-in scenario of a name. -/
def ofName (name : String) : Except LoadError Scenario :=
  match builtIn? name with
  | some s => .ok s
  | none => .error (.unknown name)

/-- The scenario of a TOML document. -/
def ofToml (text : String) : Except LoadError Scenario :=
  match Toml.parse? text with
  | none => .error .syntaxError
  | some v =>
    match ofValue? .name v with
    | none => .error .schemaError
    | some s => .ok s

/-- The scenario of a file with the given path and bytes. -/
def ofFile (path : String) (bytes : Except FileFault ByteArray) : Except LoadError Scenario :=
  match bytes with
  | .error fault => .error (.unreadable path fault)
  | .ok bytes =>
    match String.fromUTF8? bytes with
    | none => .error (.unreadable path .notUtf8)
    | some text => ofToml text

end Scenario

end WaitFor
