import WaitFor.Text
import WaitFor.Toml.Layout

/-!
# Strings of TOML documents

A basic string stands between quotation marks and may hold escapes; a literal string stands between
apostrophes and holds its characters as they are.  Tripled marks enclose a string of several lines:
a line end right behind the opening marks is dropped, every other one is a line feed, and one or two
marks may stand anywhere, also before the closing marks.  In a basic string of several lines a
backslash at the end of a line drops the blanks and line ends behind it.
-/

namespace WaitFor.Toml

/-- The quotation mark. -/
def quote : Char := '\x22'

/-- The apostrophe. -/
def apostrophe : Char := '\x27'

/-- The character that hexadecimal digits denote; surrogates and numbers beyond Unicode do not. -/
def charOfHex? (digits : List Char) : Option Char := do
  let n ← Text.number? 16 digits
  if n < 0xD800 ∨ (0xE000 ≤ n ∧ n < 0x110000) then some (.ofNat n) else none

/-- The character that a letter behind a backslash denotes. -/
def escape? : Char → Option Char
  | 'b' => some '\x08'
  | 'f' => some '\x0c'
  | 'n' => some '\n'
  | 'r' => some '\r'
  | 't' => some '\t'
  | '\\' => some '\\'
  | c => if c = quote then some quote else none

/-- Whether a text goes on with spaces, tabs and a line end. -/
def endsLine (text : List Char) : Bool := (newline? (skipSpaces text)).isSome

/-- What the closing marks of a string of several lines, whose first three are taken off, leave: up
to two more marks belong to the string, whose last characters are in `read`, last first. -/
def close (mark : Char) (read : List Char) : List Char → String × List Char
  | a :: b :: rest =>
    if a = mark ∧ b = mark then (String.ofList (b :: a :: read).reverse, rest)
    else if a = mark then (String.ofList (a :: read).reverse, b :: rest)
    else (String.ofList read.reverse, a :: b :: rest)
  | [a] =>
    if a = mark then (String.ofList (a :: read).reverse, [])
    else (String.ofList read.reverse, [a])
  | [] => (String.ofList read.reverse, [])

/-- Reads the rest of a string enclosed by `mark`.  `escapes` tells whether a backslash starts an
escape, `lines` whether the string may have several lines, `dropping` whether blanks and line ends
are being dropped; `read` holds what was read, last first. -/
def stringBody (mark : Char) (escapes lines : Bool) (dropping : Bool) (read : List Char) :
    Reader String
  | [] => none
  | c :: rest =>
    if dropping && (isSpace c || c = '\n') then stringBody mark escapes lines true read rest
    else if c = mark then
      if !lines then some (String.ofList read.reverse, rest)
      else match rest with
        | b :: a :: rest =>
          if b = mark ∧ a = mark then some (close mark read rest)
          else stringBody mark escapes lines false (c :: read) (b :: a :: rest)
        | rest => stringBody mark escapes lines false (c :: read) rest
    else if escapes && c = '\\' then
      match rest with
      | 'u' :: a :: b :: c :: d :: rest => do
        stringBody mark escapes lines false ((← charOfHex? [a, b, c, d]) :: read) rest
      | 'U' :: a :: b :: c :: d :: e :: f :: g :: h :: rest => do
        stringBody mark escapes lines false ((← charOfHex? [a, b, c, d, e, f, g, h]) :: read) rest
      | c :: rest =>
        if lines && endsLine (c :: rest) then stringBody mark escapes lines true read (c :: rest)
        else do stringBody mark escapes lines false ((← escape? c) :: read) rest
      | [] => none
    else if isPlain c then stringBody mark escapes lines false (c :: read) rest
    else if lines && c = '\n' then stringBody mark escapes lines false (c :: read) rest
    -- A carriage return stands for itself nowhere, only as part of a line end.
    else match c, rest with
      | '\r', '\n' :: rest =>
        if !lines then none
        else if dropping then stringBody mark escapes lines true read rest
        else stringBody mark escapes lines false ('\n' :: read) rest
      | _, _ => none

/-- Reads the rest of a string behind its first mark, on one line. -/
def lineString (mark : Char) : Reader String := stringBody mark (mark = quote) false false []

/-- Reads the rest of a string behind its tripled opening marks. -/
def blockString (mark : Char) (text : List Char) : Option (String × List Char) :=
  stringBody mark (mark = quote) true false [] ((newline? text).getD text)

/-- Reads a string behind its first mark. -/
def string (mark : Char) : Reader String
  | a :: b :: rest =>
    if a = mark ∧ b = mark then blockString mark rest else lineString mark (a :: b :: rest)
  | rest => lineString mark rest

example : string quote "ab\\u0072\x22 ".toList = some ("abr", [' ']) := by cbv
example : string apostrophe "\x27\x27raw\\n\x27\x27\x27".toList = some ("raw\\n", []) := by cbv
example : string quote "\x22\x22\x22\x22\x22\x22".toList = some ("\x22", []) := by cbv
example : string quote "\x22\x22a \\\n   b\x22\x22\x22".toList = some ("a b", []) := by cbv

end WaitFor.Toml
