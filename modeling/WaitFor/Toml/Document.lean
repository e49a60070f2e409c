import WaitFor.Toml.Moment
import WaitFor.Toml.Quoted
import WaitFor.Toml.Section

/-!
# TOML documents

`Toml.parse?` reads a document of TOML 1.0 as a value, or refuses it.  Values and keys may be nested
up to a limit.  A mark of the byte order at the start of a document is passed over.
-/

namespace WaitFor.Toml

/-- How deep values may be nested, and how many parts a key may have. -/
def maxDepth : Nat := 79

/-! ## Keys -/

/-- A character of a key without quotes. -/
def isBare (c : Char) : Bool := c.isAlphanum || c = '-' || c = '_'

/-- One part of a key. -/
def simpleKey (text : List Char) : Option (String × List Char) :=
  match text with
  | [] => none
  | c :: rest =>
    if c = quote ∨ c = apostrophe then lineString c rest
    else if isBare c then some (String.ofList (text.takeWhile isBare), text.dropWhile isBare)
    else none

/-- The parts of a key, separated by dots, of which there are at most `parts`. -/
def keyParts : (parts : Nat) → Reader (List String)
  | 0, _ => none
  | parts + 1, text => do
    let (part, rest) ← simpleKey (skipSpaces text)
    match skipSpaces rest with
    | '.' :: rest =>
      let (others, rest) ← keyParts parts rest
      return (part :: others, rest)
    | rest => return ([part], rest)

/-- A key: the parts on the way and the last one. -/
def key (text : List Char) : Option ((List String × String) × List Char) := do
  let (parts, rest) ← keyParts maxDepth text
  return ((parts.dropLast, ← parts.getLast?), rest)

/-- A key with its value, read by `value`, up to the end of the value. -/
def keyValue (value : Reader Value) (text : List Char) :
    Option ((List String × String × Value) × List Char) := do
  let ((path, name), rest) ← key text
  let (v, rest) ← value (skipSpaces (← expect '=' rest))
  return ((path, name, v), rest)

/-! ## Values -/

/-- The elements of an array behind its opening bracket, at most `fuel` of them. -/
def elements (value : Reader Value) : (fuel : Nat) → Reader (List Value)
  | 0, _ => none
  | fuel + 1, text =>
    match skipGap false text with
    | ']' :: rest => some ([], rest)
    | text => do
      let (v, rest) ← value text
      match skipGap false rest with
      | ']' :: rest => return ([v], rest)
      | ',' :: rest =>
        let (vs, rest) ← elements value fuel rest
        return (v :: vs, rest)
      | _ => none

/-- The entries of an inline table, at most `fuel` of them, added to `t`. -/
def inlineEntries (value : Reader Value) : (fuel : Nat) → Section → Reader Section
  | 0, _, _ => none
  | fuel + 1, t, text => do
    let ((path, name, v), rest) ← keyValue value text
    let t ← t.insert path name v
    match skipSpaces rest with
    | '}' :: rest => return (t, rest)
    | ',' :: rest => inlineEntries value fuel t rest
    | _ => none

/-- An inline table behind its opening brace. -/
def inlineTable (value : Reader Value) (text : List Char) : Option (Section × List Char) :=
  match skipSpaces text with
  | '}' :: rest => some (.empty, rest)
  | rest => inlineEntries value text.length .empty rest

/-- A value in which at most `depth` others are nested. -/
def value : (depth : Nat) → Reader Value
  | _, [] => none
  | depth, c :: rest =>
    if c = quote ∨ c = apostrophe then do
      let (s, rest) ← string c rest
      return (.string s, rest)
    else if c = '[' then
      match depth with
      | 0 => none
      | depth + 1 => do
        let (vs, rest) ← elements (value depth) (rest.length + 1) rest
        return (.list vs, rest)
    else if c = '{' then
      match depth with
      | 0 => none
      | depth + 1 => do
        let (t, rest) ← inlineTable (value depth) rest
        return (t.toValue, rest)
    else match c :: rest with
      | 't' :: 'r' :: 'u' :: 'e' :: rest => some (.bool true, rest)
      | 'f' :: 'a' :: 'l' :: 's' :: 'e' :: rest => some (.bool false, rest)
      | text => moment text <|> float text <|> integer text

/-! ## Lines -/

/-- A document in the making: the table of the whole document, that of the last header, and this
header: whether it adds to an array of tables, the keys on the way, and the last key.  Before the
first header the current table is that of the document. -/
structure Draft where
  root : Section := .empty
  current : Section := .empty
  header : Option (Bool × List String × String) := none

namespace Draft

/-- Puts the table of the last header in its place. -/
def settle (d : Draft) : Option Section :=
  match d.header with
  | none => some d.current
  | some (inArray, path, name) =>
    let place (t : Section) : Option Section :=
      if inArray then
        match t.get? name with
        | none => some (t.set name (.tables [d.current]))
        | some (.tables ts) => some (t.set name (.tables (d.current :: ts)))
        | some _ => none
      else some (t.set name (.table d.current))
    d.root.modifyAt false place path

/-- Adds a key with its value to the table of the last header. -/
def addValue (d : Draft) (path : List String) (name : String) (v : Value) : Option Draft := do
  return { d with current := ← d.current.insert path name v }

/-- Starts the table of a header `[path.name]`, which may have been passed through before, but not
by a key with dots. -/
def startTable (d : Draft) (path : List String) (name : String) : Option Draft := do
  let root ← d.settle
  let parent ← root.modifyAt false some path
  let current ← match (root.at? path).bind fun t => t.get? name with
    | none => some .empty
    | some (.table t) => if t.implicit && !t.dotted then some t.withHeader else none
    | some _ => none
  return { root := parent, current, header := some (false, path, name) }

/-- Starts the next table of a header `[[path.name]]`, unless the name stands for something else. -/
def startElement (d : Draft) (path : List String) (name : String) : Option Draft := do
  let root ← d.settle
  let check (t : Section) : Option Section :=
    match t.get? name with
    | none => some t
    | some (.tables _) => some t
    | some _ => none
  let root ← root.modifyAt false check path
  return { root, current := .empty, header := some (true, path, name) }

end Draft

/-- Adds the lines of a text to a draft, at most `fuel` of them. -/
def lines : (fuel : Nat) → Draft → List Char → Option Draft
  | 0, _, _ => none
  | fuel + 1, d, text =>
    match skipSpaces text with
    | [] => some d
    | '#' :: rest => do lines fuel d (← trailing? ('#' :: rest))
    | '[' :: '[' :: rest => do
      let ((path, name), rest) ← key rest
      let rest ← trailing? (← expect ']' (← expect ']' rest))
      lines fuel (← d.startElement path name) rest
    | '[' :: rest => do
      let ((path, name), rest) ← key rest
      let rest ← trailing? (← expect ']' rest)
      lines fuel (← d.startTable path name) rest
    | rest =>
      match newline? rest with
      | some rest => lines fuel d rest
      | none => do
        let ((path, name, v), rest) ← keyValue (value maxDepth) rest
        lines fuel (← d.addValue path name v) (← trailing? rest)

/-- The value of a document, or `none` if the text is not one. -/
def parse? (text : String) : Option Value := do
  let text := match text.toList with
    | '\ufeff' :: rest => rest
    | text => text
  let d ← lines (text.length + 1) {} text
  return (← d.settle).toValue

end WaitFor.Toml
