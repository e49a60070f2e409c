import WaitFor.Value

/-!
# Tables of TOML documents

A table may be written down piece by piece: by headers that name it or a table inside it, and by
keys with dots.  Each piece may add, but none may change what another one defined.  A table that was
only passed through on the way to another one is *implicit*, and one that a key with dots passed
through is *dotted*.
-/

namespace WaitFor.Toml

mutual

/-- What a key stands for: a value, which is complete, a table, or an array of tables, the last one
first. -/
inductive Item where
  | value (v : Value)
  | table (t : Section)
  | tables (ts : List Section)

/-- A table in the making, with its entries, the last one first; it may be implicit, and it may be
dotted. -/
inductive Section where
  | mk (implicit dotted : Bool) (entries : List (String × Item))

end

namespace Section

/-- The table of a header, or of the document, without entries. -/
def empty : Section := .mk false false []

/-- Whether the table was only passed through. -/
def implicit : Section → Bool
  | mk implicit _ _ => implicit

/-- Whether the table was passed through by a key with dots. -/
def dotted : Section → Bool
  | mk _ dotted _ => dotted

/-- The entries, the last one first. -/
def entries : Section → List (String × Item)
  | mk _ _ entries => entries

/-- What a key stands for. -/
def get? (t : Section) (key : String) : Option Item := t.entries.lookup key

/-- The table without a key. -/
def erase (t : Section) (key : String) : Section :=
  .mk t.implicit t.dotted (t.entries.filter fun e => e.1 ≠ key)

/-- The table with another item for a key. -/
def set (t : Section) (key : String) (item : Item) : Section :=
  .mk t.implicit t.dotted ((key, item) :: (t.erase key).entries)

/-- The table with a header of its own. -/
def withHeader (t : Section) : Section := .mk false t.dotted t.entries

/-- Changes the table at the end of a path.  A missing table is made on the way, and of an array of
tables the last one is entered.  A path of dots (`byDots`) does not enter a table with a header. -/
def modifyAt (byDots : Bool) (change : Section → Option Section) :
    (path : List String) → Section → Option Section
  | [], t => change t
  | key :: path, t =>
    match t.get? key with
    | none => do return t.set key (.table (← modifyAt byDots change path (.mk true byDots [])))
    | some (.table child) =>
      if byDots && !child.implicit then none
      else do return t.set key (.table (← modifyAt byDots change path child))
    | some (.tables (last :: earlier)) => do
      return t.set key (.tables ((← modifyAt byDots change path last) :: earlier))
    | some _ => none

/-- The table at the end of a path, if there is one; of an array of tables the last one is
entered. -/
def at? (t : Section) : (path : List String) → Option Section
  | [] => some t
  | key :: path =>
    match t.get? key with
    | some (.table child) => child.at? path
    | some (.tables (last :: _)) => last.at? path
    | _ => none

/-- Adds a value under a key, which must be new and at home in this table: a key without dots
belongs to the table of the header, one with dots to a dotted table. -/
def addValue (key : String) (v : Value) (byDots : Bool) (t : Section) : Option Section :=
  if t.dotted = byDots ∧ (t.get? key).isNone then some (t.set key (.value v)) else none

/-- Adds a value under a key with dots, given as the keys on the way and the last one. -/
def insert (t : Section) (path : List String) (key : String) (v : Value) : Option Section :=
  t.modifyAt true (addValue key v !path.isEmpty) path

end Section

mutual

/-- The value of an item. -/
def Item.toValue : Item → Value
  | .value v => v
  | .table t => t.toValue
  | .tables ts => .list (Section.toValues ts).reverse

/-- The value of a complete table. -/
def Section.toValue : Section → Value
  | .mk _ _ entries => .object (Section.toFields entries)

/-- The values of several tables. -/
def Section.toValues : List Section → List Value
  | [] => []
  | t :: ts => t.toValue :: Section.toValues ts

/-- The fields of a complete table. -/
def Section.toFields : List (String × Item) → List (String × Value)
  | [] => []
  | (key, item) :: entries => (key, item.toValue) :: Section.toFields entries

end

end WaitFor.Toml
