/-!
# Data values

A `Value` is what a data format (a document or a message) says, before it is read as something of
this library.  A record may be given by named fields, in any order and beside fields that nobody
reads, or by its elements in the order of declaration; `Value.Fields` is either of the two.  A
choice between variants is a record with a tag in front.

All readers return `none` for a value of the wrong shape or out of range.
-/

namespace WaitFor

/-- A datum of a self-describing format.  A number that is not written as a whole number, and a date
or a time, come with their literals; no record has such a field. -/
inductive Value where
  | null
  | bool (b : Bool)
  | integer (n : Int)
  | float (literal : String)
  | datetime (literal : String)
  | string (s : String)
  | list (elements : List Value)
  | object (fields : List (String × Value))
deriving Repr, Inhabited

/-- How the tag of a variant may be written: by the variant's name only, or also by its number in
the order of declaration. -/
inductive TagForm where
  | name
  | nameOrNumber
deriving DecidableEq, Repr

namespace Value

/-- A 64-bit word as a value. -/
def ofWord (w : UInt64) : Value := .integer w.toNat

/-- A 32-bit word as a value. -/
def ofWord32 (w : UInt32) : Value := .integer w.toNat

/-- An optional field as a value. -/
def ofOption {α : Type} (write : α → Value) : Option α → Value
  | some a => write a
  | none => .null

/-- The 64-bit word that a value denotes. -/
def word? : Value → Option UInt64
  | .integer n => if 0 ≤ n ∧ n < UInt64.size then some (.ofNat n.toNat) else none
  | _ => none

/-- The 32-bit word that a value denotes. -/
def word32? : Value → Option UInt32
  | .integer n => if 0 ≤ n ∧ n < UInt32.size then some (.ofNat n.toNat) else none
  | _ => none

/-- The text that a value denotes. -/
def string? : Value → Option String
  | .string s => some s
  | _ => none

/-- The sequence that a value denotes, each element read by `read`. -/
def list? {α : Type} (read : Value → Option α) : Value → Option (List α)
  | .list elements => elements.mapM read
  | _ => none

/-- Nothing, or what `read` makes of the value. -/
def option? {α : Type} (read : Value → Option α) : Value → Option (Option α)
  | .null => some none
  | v => (read v).map some

/-- The fields of a record, known by their names or by their positions. -/
inductive Fields where
  | named (fields : List (String × Value))
  | positional (elements : List Value)

/-- The fields of a value that can be a record. -/
def fields? : Value → Option Fields
  | .object fields => some (.named fields)
  | .list elements => some (.positional elements)
  | _ => none

namespace Fields

/-- The field called `name`, which is declared at `position`. -/
def get? (fields : Fields) (position : Nat) (name : String) : Option Value :=
  match fields with
  | named fields => fields.lookup name
  | positional elements => elements[position]?

/-- Whether a record of `count` fields may be read here: elements without a name must not be more
than the fields, while surplus names are ignored. -/
def fits (fields : Fields) (count : Nat) : Bool :=
  match fields with
  | named _ => true
  | positional elements => elements.length ≤ count

/-- A field that must be given. -/
def required {α : Type} (fields : Fields) (position : Nat) (name : String)
    (read : Value → Option α) : Option α :=
  (fields.get? position name).bind read

/-- A field that stands for `default` where it is not given. -/
def optional {α : Type} (fields : Fields) (position : Nat) (name : String)
    (read : Value → Option α) (default : α) : Option α :=
  match fields.get? position name with
  | some v => read v
  | none => some default

end Fields

/-- The tag of a variant, called `key` if the fields have names and in front of them if not, with
the fields of the variant. -/
def tagged? (key : String) : Value → Option (Value × Fields)
  | .object fields => (fields.lookup key).map fun tag => (tag, .named fields)
  | .list (tag :: elements) => some (tag, .positional elements)
  | _ => none

/-- The variant among `all` that a tag denotes. -/
def variant? {α : Type} (form : TagForm) (all : List α) (name : α → String) :
    Value → Option α
  | .string s => all.find? fun a => name a = s
  | .integer n => if form = .nameOrNumber ∧ 0 ≤ n then all[n.toNat]? else none
  | _ => none

/-- A word is read back as it was written. -/
@[simp]
theorem word?_ofWord (w : UInt64) : (ofWord w).word? = some w := by
  have h : 0 ≤ (w.toNat : Int) ∧ (w.toNat : Int) < UInt64.size := by
    have := w.toNat_lt_size
    omega
  rw [ofWord, word?, if_pos h, Int.toNat_natCast, UInt64.ofNat_toNat]

/-- A 32-bit word is read back as it was written. -/
@[simp]
theorem word32?_ofWord32 (w : UInt32) : (ofWord32 w).word32? = some w := by
  have h : 0 ≤ (w.toNat : Int) ∧ (w.toNat : Int) < UInt32.size := by
    have := w.toNat_lt_size
    omega
  rw [ofWord32, word32?, if_pos h, Int.toNat_natCast, UInt32.ofNat_toNat]

end Value

end WaitFor
