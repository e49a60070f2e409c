import WaitFor.Toml.Number

/-!
# Dates and times of TOML documents

A moment is a date, a date with a time and perhaps an offset, or a time.  The day must exist in its
month, and a minute may have a leap second.
-/

namespace WaitFor.Toml

/-- A number of exactly `count` decimal digits, between `low` and `high`. -/
def fixed (count low high : Nat) (text : List Char) : Option (Nat × List Char) := do
  let n ← Text.number? 10 (text.take count)
  guard (count ≤ text.length ∧ low ≤ n ∧ n ≤ high)
  return (n, text.drop count)

/-- The text behind the character `c`. -/
def expect (c : Char) : List Char → Option (List Char)
  | d :: rest => if c = d then some rest else none
  | [] => none

/-- The number of days of a month. -/
def daysIn (year month : Nat) : Nat :=
  if month = 2 then if year % 4 = 0 ∧ (year % 100 ≠ 0 ∨ year % 400 = 0) then 29 else 28
  else if month = 4 ∨ month = 6 ∨ month = 9 ∨ month = 11 then 30
  else 31

/-- The text behind a date. -/
def date? (text : List Char) : Option (List Char) := do
  let (year, rest) ← fixed 4 0 9999 text
  let (month, rest) ← fixed 2 1 12 (← expect '-' rest)
  let (_, rest) ← fixed 2 1 (daysIn year month) (← expect '-' rest)
  return rest

/-- The text behind the fraction of a second, if there is one. -/
def skipFraction (text : List Char) : List Char :=
  match text with
  | '.' :: c :: rest => if c.isDigit then rest.dropWhile Char.isDigit else text
  | _ => text

/-- The text behind a time. -/
def time? (text : List Char) : Option (List Char) := do
  let (_, rest) ← fixed 2 0 23 text
  let (_, rest) ← fixed 2 0 59 (← expect ':' rest)
  let (_, rest) ← fixed 2 0 60 (← expect ':' rest)
  return skipFraction rest

/-- The text behind an offset from the time of the prime meridian, if there is one. -/
def offset? (text : List Char) : Option (List Char) :=
  match text with
  | c :: rest =>
    if c = 'Z' ∨ c = 'z' then some rest
    else if c = '+' ∨ c = '-' then do
      let (_, rest) ← fixed 2 0 23 rest
      let (_, rest) ← fixed 2 0 59 (← expect ':' rest)
      return rest
    else some text
  | [] => some []

/-- The text behind the time that follows a date, if there is one. -/
def timeOfDay? (text : List Char) : Option (List Char) :=
  match text with
  | c :: rest =>
    if c = 'T' ∨ c = 't' ∨ c = ' ' then
      match time? rest with
      | some rest => offset? rest
      | none => some text
    else some text
  | [] => some []

/-- A moment. -/
def moment (text : List Char) : Option (Value × List Char) := do
  let rest ← match date? text with
    | some rest => timeOfDay? rest
    | none => time? text
  return (.datetime (literal text rest), rest)

example : (moment "2024-02-29 07:32:60.5+01:00".toList).map Prod.snd = some [] := by cbv
example : (moment "2023-02-29".toList).isNone := by cbv

end WaitFor.Toml
