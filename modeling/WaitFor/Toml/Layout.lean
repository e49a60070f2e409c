/-!
# Layout of TOML documents

Blanks, comments and line ends.  A reader takes a part off the front of a text and returns it with
the rest of the text, or nothing if the text does not start with such a part.
-/

namespace WaitFor.Toml

/-- Takes a part off the front of a text. -/
abbrev Reader (α : Type) : Type := List Char → Option (α × List Char)

/-- A space or a tab. -/
def isSpace (c : Char) : Bool := c = ' ' || c = '\t'

/-- A character that may stand in a comment: no control character but the tab. -/
def isPlain (c : Char) : Bool := c = '\t' || (0x20 ≤ c.toNat && c.toNat ≠ 0x7F)

/-- The text behind its leading spaces and tabs. -/
def skipSpaces (text : List Char) : List Char := text.dropWhile isSpace

/-- The text behind a line end, which is a line feed, perhaps after a carriage return. -/
def newline? : List Char → Option (List Char)
  | '\n' :: rest => some rest
  | '\r' :: '\n' :: rest => some rest
  | _ => none

/-- The text behind a line end or at the end of the document. -/
def lineEnd? : List Char → Option (List Char)
  | [] => some []
  | text => newline? text

/-- The text behind a comment, if it starts with one. -/
def skipComment : List Char → List Char
  | '#' :: rest => rest.dropWhile isPlain
  | text => text

/-- The text behind the end of a line on which nothing but a comment may still stand. -/
def trailing? (text : List Char) : Option (List Char) := lineEnd? (skipComment (skipSpaces text))

/-- The text behind any spaces, tabs, line ends and comments; `comment` tells that the text starts
inside a comment. -/
def skipGap (comment : Bool) : List Char → List Char
  | [] => []
  | c :: rest =>
    if comment && isPlain c then skipGap true rest
    else if isSpace c || c = '\n' then skipGap false rest
    else if c = '#' then skipGap true rest
    else match c, rest with
      | '\r', '\n' :: rest => skipGap false rest
      | _, _ => c :: rest

end WaitFor.Toml
