import PackagePlanner.Catalog

/-!
JSON output.

* `Json` is a value whose objects keep their members in order; `sorted` puts the members of every
  object in order of their keys.
* `Json.compact` writes a value without blanks, `Json.pretty` with one member or item on a line and
  two spaces for each level.
* A release, a plan and the summary of a plan have a JSON form.
-/

namespace PackagePlanner

/-- A JSON value. -/
inductive Json where
  | number (n : Nat)
  | string (s : String)
  | array (items : List Json)
  | object (members : List (String × Json))

namespace Json

/-! ### Texts -/

/-- The digits of a number below 256 in base 16. -/
def hexByte (n : Nat) : List Char := [Nat.digitChar (n / 16), Nat.digitChar (n % 16)]

/-- A character inside quotes. -/
def escape (c : Char) : List Char :=
  match c with
  | '"' => ['\\', '"']
  | '\\' => ['\\', '\\']
  | '\n' => ['\\', 'n']
  | '\r' => ['\\', 'r']
  | '\t' => ['\\', 't']
  | _ =>
    if c.toNat = 8 then ['\\', 'b']
    else if c.toNat = 12 then ['\\', 'f']
    else if c.toNat < 32 then ['\\', 'u', '0', '0'] ++ hexByte c.toNat
    else [c]

/-- A text between quotes. -/
def quote (s : String) : String := String.ofList ('"' :: (s.toList.flatMap escape ++ ['"']))

/-! ### Values -/

mutual

/-- The shortest form of a value. -/
def compact : Json → String
  | number n => String.ofList (Nat.toDigits 10 n)
  | string s => quote s
  | array items => "[" ++ ",".intercalate (compactItems items) ++ "]"
  | object members => "\x7b" ++ ",".intercalate (compactMembers members) ++ "\x7d"

/-- The items of an array in their shortest form. -/
def compactItems : List Json → List String
  | [] => []
  | item :: rest => compact item :: compactItems rest

/-- The members of an object in their shortest form. -/
def compactMembers : List (String × Json) → List String
  | [] => []
  | (key, value) :: rest => (quote key ++ ":" ++ compact value) :: compactMembers rest

end

/-- Lines between brackets, indented one level more than the brackets. -/
def block (opening closing margin : String) (lines : List String) : String :=
  if lines.isEmpty then opening ++ closing
  else opening ++ "\n" ++ ",\n".intercalate (lines.map fun line => margin ++ "  " ++ line) ++
    "\n" ++ margin ++ closing

mutual

/-- A value over several lines, `margin` standing before every line but the first. -/
def indented (margin : String) : Json → String
  | number n => String.ofList (Nat.toDigits 10 n)
  | string s => quote s
  | array items => block "[" "]" margin (indentedItems (margin ++ "  ") items)
  | object members => block "\x7b" "\x7d" margin (indentedMembers (margin ++ "  ") members)

/-- The items of an array, each over several lines. -/
def indentedItems (margin : String) : List Json → List String
  | [] => []
  | item :: rest => indented margin item :: indentedItems margin rest

/-- The members of an object, each over several lines. -/
def indentedMembers (margin : String) : List (String × Json) → List String
  | [] => []
  | (key, value) :: rest =>
    (quote key ++ ": " ++ indented margin value) :: indentedMembers margin rest

end

/-- The form of a value with a line for each item and member. -/
def pretty (j : Json) : String := indented "" j

mutual

/-- The value with the members of every object in order of their keys. -/
def sorted : Json → Json
  | number n => number n
  | string s => string s
  | array items => array (sortedItems items)
  | object members =>
    object ((sortedMembers members).mergeSort fun a b => (compare a.1 b.1).isLE)

/-- The items of an array, each one sorted. -/
def sortedItems : List Json → List Json
  | [] => []
  | item :: rest => sorted item :: sortedItems rest

/-- The members of an object in their order, each value sorted. -/
def sortedMembers : List (String × Json) → List (String × Json)
  | [] => []
  | (key, value) :: rest => (key, sorted value) :: sortedMembers rest

end

end Json

/-! ### Releases and plans -/

/-- A text, or an array of texts. -/
def PropertyValue.json : PropertyValue → Json
  | .text value => .string value
  | .list values => .array (values.map .string)

/-- The dependencies always stand there, the properties only if there are any. -/
def Release.json (r : Release) : Json :=
  .object <|
    [("name", .string r.name), ("version", .string r.version.text),
      ("dependencies", .object (r.dependencies.toList.map fun d =>
        (d.name, .string d.constraint.text)))] ++
    if r.properties.toList.isEmpty then []
    else [("properties", .object (r.properties.toList.map fun p => (p.key, p.value.json)))]

/-- The added and the removed releases. -/
def Plan.json (p : Plan) : Json :=
  .object [("add", .array (p.added.map Release.json)),
    ("remove", .array (p.removed.map Release.json))]

/-- The three counts. -/
def PlanSummary.json (s : PlanSummary) : Json :=
  .object [("to_add", .number s.toAdd), ("to_remove", .number s.toRemove),
    ("upgrades", .number s.upgrades)]

end PackagePlanner
