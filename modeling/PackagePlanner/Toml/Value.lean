import PackagePlanner.Toml.Moment

/-!
TOML values.

* `Toml.Value` holds what a document can say. A table knows how it came about, because that decides
  whether a later line may add to it.
* `Toml.Members` are the keys of a table with their values, in document order.
-/

namespace PackagePlanner.Toml

/-- How a table came about: between braces, by a header, because a header names a table inside it,
or because a dotted key does. -/
inductive Origin where
  | inline
  | header
  | implied
  | dotted
deriving DecidableEq, Repr

/-- A TOML value. A float is kept as it is written. -/
inductive Value where
  | text (s : String)
  | integer (n : Int)
  | float (written : String)
  | boolean (b : Bool)
  | moment (m : Moment)
  | array (items : List Value)
  | tables (items : List (List (String × Value)))
  | table (origin : Origin) (members : List (String × Value))

/-- The keys of a table with their values. -/
abbrev Members := List (String × Value)

namespace Members

/-- The value of a key. -/
def find? (t : Members) (key : String) : Option Value :=
  (List.find? (fun m => m.1 == key) t).map Prod.snd

/-- Gives a key another value in its place. -/
def set (t : Members) (key : String) (v : Value) : Members :=
  t.map fun m => if m.1 == key then (key, v) else m

/-- Takes out a key. -/
def erase (t : Members) (key : String) : Members :=
  t.filter fun m => m.1 != key

/-- Adds a key that is not there yet. -/
def add? (t : Members) (key : String) (v : Value) : Option Members :=
  match t.find? key with
  | some _ => none
  | none => some (t ++ [(key, v)])

end Members

namespace Value

/-- The members of a table. A moment in the place of a table is one with a single member, its
text. -/
def members? : Value → Option Members
  | table _ members => some members
  | moment m => some [(Moment.key, text m.text)]
  | _ => none

/-- The items of an array, be it written as one value or by headers. -/
def items? : Value → Option (List Value)
  | array items => some items
  | tables items => some (items.map (table .header))
  | _ => none

end Value

end PackagePlanner.Toml
