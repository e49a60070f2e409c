/-!
# Characters, blanks and numerals

Names are looked up whatever their case.  Since the names themselves are ASCII, only the characters
whose lower case is an ASCII letter matter: the ASCII capitals and the Kelvin sign.

Blanks are the characters with the Unicode property `White_Space`; of a value of the environment
only the text between the blanks at its two ends counts.

Numbers are written without leading zeros, in base ten or, behind `0x`, in base sixteen with
lower-case digits.  A count is read as an optional plus sign and decimal digits whose value fits in
64 bits; leading zeros are allowed.
-/

namespace WaitFor.Text

/-! ## Lower case -/

/-- The ASCII letter that is the lower case of `c`, or `c` if there is none. -/
def lowerChar (c : Char) : Char := if c = '\u212a' then 'k' else c.toLower

/-- A text with its characters in lower case, as far as they become ASCII letters. -/
def lower (text : String) : String := text.map lowerChar

example : lower "Undeclared-WAIT" = "undeclared-wait" := by cbv

/-! ## Blanks -/

/-- The code points with the property `White_Space`, as inclusive ranges in ascending order. -/
def blankRanges : List (Nat × Nat) :=
  [(0x09, 0x0D), (0x20, 0x20), (0x85, 0x85), (0xA0, 0xA0), (0x1680, 0x1680), (0x2000, 0x200A),
   (0x2028, 0x2029), (0x202F, 0x202F), (0x205F, 0x205F), (0x3000, 0x3000)]

/-- Whether `c` has the property `White_Space`. -/
def isBlank (c : Char) : Bool :=
  blankRanges.any fun r => r.1 ≤ c.toNat && c.toNat ≤ r.2

/-- The text without the blanks at its two ends. -/
def trim (text : List Char) : List Char :=
  ((text.dropWhile isBlank).reverse.dropWhile isBlank).reverse

example : (blankRanges.map fun r => r.2 + 1 - r.1).sum = 25 := by decide
example : trim "\u0085 yes\t".toList = "yes".toList := by decide
example : trim " \n".toList = [] := by decide

/-! ## Numerals -/

/-- The decimal digits of `n`. -/
def decimal (n : Nat) : String := String.ofList (Nat.toDigits 10 n)

/-- The hexadecimal digits of `n`, in lower case, behind `0x`. -/
def hex (n : Nat) : String := "0x" ++ String.ofList (Nat.toDigits 16 n)

/-- The value of an ASCII digit in base `base`, which is at most sixteen. -/
def digitValue? (base : Nat) (c : Char) : Option Nat :=
  let value :=
    if '0' ≤ c ∧ c ≤ '9' then c.toNat - '0'.toNat
    else if 'a' ≤ c ∧ c ≤ 'f' then c.toNat - 'a'.toNat + 10
    else if 'A' ≤ c ∧ c ≤ 'F' then c.toNat - 'A'.toNat + 10
    else base
  if value < base then some value else none

/-- The number that a nonempty list of digits denotes in base `base`, the highest digit first. -/
def number? (base : Nat) : List Char → Option Nat
  | [] => none
  | digits => digits.foldlM (fun n c => (digitValue? base c).map (n * base + ·)) 0

/-- Reads a 64-bit count: an optional plus sign, then at least one decimal digit. -/
def count? (text : List Char) : Option Nat :=
  let digits := match text with
    | '+' :: rest => rest
    | rest => rest
  (number? 10 digits).filter (· < UInt64.size)

example : decimal 1024 = "1024" := by decide
example : hex 0xe040 = "0xe040" := by decide
example : count? "+0010".toList = some 10 := by decide
example : count? "".toList = none ∧ count? "+".toList = none := by decide
example : count? "-0".toList = none := by decide
example : count? "18446744073709551615".toList = some (2 ^ 64 - 1) := by decide
example : count? "18446744073709551616".toList = none := by decide

end WaitFor.Text
