import WaitFor.Text
import WaitFor.Toml.Layout
import WaitFor.Value

/-!
# Numbers of TOML documents

Whole numbers fit in 64 bits with a sign; those in base sixteen, eight and two have a mark in front
and no sign.  A decimal number has no leading zeros.  Between two digits there may be one
underscore.  A number with a fraction or an exponent is a float, and so are the infinities and the
undefined numbers; a finite literal must not round to positive infinity.
-/

namespace WaitFor.Toml

/-- The digits in base `base` at the front of a text, without the single underscores between them;
`needed` tells that a digit must come next. -/
def digits (base : Nat) (needed : Bool) : Reader (List Char)
  | [] => if needed then none else some ([], [])
  | c :: rest =>
    if (Text.digitValue? base c).isSome then do
      let (ds, rest) ← digits base false rest
      some (c :: ds, rest)
    else if needed then none
    else if c = '_' then digits base true rest
    else some ([], c :: rest)

/-- One or more digits. -/
def someDigits (base : Nat) (text : List Char) : Option (List Char × List Char) :=
  digits base true text

/-- A sign, if there is one; whether it is a minus. -/
def sign : List Char → Bool × List Char
  | '+' :: rest => (false, rest)
  | '-' :: rest => (true, rest)
  | text => (false, text)

/-- The digits of a decimal number: a zero alone, or digits that do not start with a zero. -/
def decimalDigits : Reader (List Char)
  | '0' :: rest => some (['0'], rest)
  | text => someDigits 10 text

/-- The whole number of a magnitude and a sign, if it fits in 64 bits. -/
def integerOf? (negative : Bool) (magnitude : Nat) : Option Value :=
  let n : Int := if negative then -magnitude else magnitude
  if Int64.minValue.toInt ≤ n ∧ n ≤ Int64.maxValue.toInt then some (.integer n) else none

/-- A whole number. -/
def integer (text : List Char) : Option (Value × List Char) := do
  let based (base : Nat) (text : List Char) : Option (Value × List Char) := do
    let (ds, rest) ← someDigits base text
    return (← integerOf? false (← Text.number? base ds), rest)
  match text with
  | '0' :: 'x' :: text => based 16 text
  | '0' :: 'o' :: text => based 8 text
  | '0' :: 'b' :: text => based 2 text
  | text =>
    let (negative, text) := sign text
    let (ds, rest) ← decimalDigits text
    return (← integerOf? negative (← Text.number? 10 ds), rest)

/-- Whether `mantissa * 10 ^ exponent` rounds to infinity, that is, is not less than the middle
between the largest finite number and the next power of two. -/
def overflows (mantissa : Nat) (exponent : Int) : Bool :=
  let places := (Nat.toDigits 10 mantissa).length
  let limit := Nat.pow 2 1024 - Nat.pow 2 970
  if mantissa = 0 ∨ exponent + places ≤ 308 then false
  else if 310 ≤ exponent + places then true
  else if 0 ≤ exponent then limit ≤ mantissa * Nat.pow 10 exponent.toNat
  else limit * Nat.pow 10 (-exponent).toNat ≤ mantissa

/-- The fraction of a float, without its point; empty if there is none. -/
def fraction : Reader (List Char)
  | '.' :: rest => someDigits 10 rest
  | text => some ([], text)

/-- The exponent of a float, if there is one. -/
def exponent : Reader (Option Int)
  | c :: rest =>
    if c = 'e' ∨ c = 'E' then do
      let (negative, rest) := sign rest
      let (ds, rest) ← someDigits 10 rest
      let n ← Text.number? 10 ds
      return (some (if negative then -n else n), rest)
    else some (none, c :: rest)
  | [] => some (none, [])

/-- What was taken off the front of `text` to leave `rest`. -/
def literal (text rest : List Char) : String :=
  String.ofList (text.take (text.length - rest.length))

/-- A number with a fraction or an exponent. -/
def float (text : List Char) : Option (Value × List Char) := do
  let (negative, body) := sign text
  match body with
  | 'i' :: 'n' :: 'f' :: rest => return (.float (literal text rest), rest)
  | 'n' :: 'a' :: 'n' :: rest => return (.float (literal text rest), rest)
  | body =>
    let (whole, rest) ← decimalDigits body
    let (places, rest) ← fraction rest
    let (power, rest) ← exponent rest
    guard (!places.isEmpty || power.isSome)
    let mantissa ← Text.number? 10 (whole ++ places)
    guard (negative || !overflows mantissa (power.getD 0 - places.length))
    return (.float (literal text rest), rest)

example : (integer "1_000 ".toList).map Prod.snd = some [' '] := by cbv
example : (integer "0x8000000000000000".toList).isNone := by cbv
example : overflows 17976931348623157 292 = false ∧ overflows 17976931348623159 292 = true := by
  decide +kernel

end WaitFor.Toml
