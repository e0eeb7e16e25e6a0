import PackagePlanner.Toml.Document
import PackagePlanner.Toml.Scalar

/-!
Reading a TOML document.

* `Toml.path?` reads a key, dotted or not, `Toml.value` a value, and `Toml.statement?` a line.
* `Toml.read?` reads a whole text: all its statements first, then the tables that they build.

Each reader gives what it read and what follows it. A key has fewer than eighty names, and arrays
and tables between braces lie less than eighty deep in each other; these limits are also what bounds
the recursion. A loop over items is bounded by the length of the text, for each item but the last
takes a comma and each statement a character.
-/

namespace PackagePlanner.Toml

/-- The number of names in a key, and of arrays and inline tables in each other, that is too
many. -/
def limit : Nat := 80

/-! ### Blanks -/

/-- What follows the blanks of a line. -/
def skipSpaces (cs : List Char) : List Char := cs.dropWhile isSpace

/-- What follows blanks, line ends and comments; `comment` says that a comment has begun. -/
def skipLines (comment : Bool) : List Char → List Char
  | [] => []
  | '\n' :: rest => skipLines false rest
  | '\r' :: '\n' :: rest => skipLines false rest
  | c :: rest =>
    if comment then if isText c then skipLines true rest else c :: rest
    else if isSpace c then skipLines false rest
    else if c = '#' then skipLines true rest
    else c :: rest

/-- What follows the end of a line, before which there may be blanks and a comment. -/
def lineEnd? (cs : List Char) : Option (List Char) :=
  let rest := match skipSpaces cs with
    | '#' :: comment => comment.dropWhile isText
    | rest => rest
  match rest with
  | [] => some []
  | '\n' :: rest => some rest
  | '\r' :: '\n' :: rest => some rest
  | _ => none

/-! ### Keys -/

/-- A character of a key without quotes. -/
def isBare (c : Char) : Bool := c.isAlphanum || c == '_' || c == '-'

/-- Reads one name: bare, or between quotes on one line. -/
def name? : List Char → Option (String × List Char)
  | '"' :: rest => (basic rest).map fun (name, rest) => (String.ofList name, rest)
  | '\'' :: rest => (literal rest).map fun (name, rest) => (String.ofList name, rest)
  | cs =>
    match cs.span isBare with
    | ([], _) => none
    | (name, rest) => some (String.ofList name, rest)

/-- Reads names between dots, at most the given number, with blanks around each. -/
def names? : Nat → List Char → Option (Path × List Char)
  | 0, _ => none
  | n + 1, cs =>
    match name? (skipSpaces cs) with
    | none => none
    | some (name, rest) =>
      match skipSpaces rest with
      | '.' :: more => (names? n more).map fun (p, rest) => (⟨name :: p.parents, p.name⟩, rest)
      | rest => some (⟨[], name⟩, rest)

/-- Reads a key, dotted or not. -/
def path? (cs : List Char) : Option (Path × List Char) := names? (limit - 1) cs

/-! ### Values -/

/-- Reads something, and gives what follows it. -/
abbrev Reads (α : Type) := List Char → Option (α × List Char)

/-- Reads the items of an array up to its bracket. Line ends and comments may stand anywhere, and
a comma may follow the last item. -/
def items? (item : Reads Value) : Nat → Reads (List Value)
  | 0, _ => none
  | n + 1, cs =>
    match skipLines false cs with
    | ']' :: rest => some ([], rest)
    | cs =>
      match item cs with
      | none => none
      | some (v, rest) =>
        match skipLines false rest with
        | ',' :: more => (items? item n more).map fun (vs, rest) => (v :: vs, rest)
        | ']' :: rest => some ([v], rest)
        | _ => none

/-- Reads a key, an equals sign and a value. -/
def pair? (value : Reads Value) (cs : List Char) : Option ((Path × Value) × List Char) :=
  match path? cs with
  | some (path, '=' :: rest) =>
    (value (skipSpaces rest)).map fun (v, rest) => ((path, v), rest)
  | _ => none

/-- Reads the keys and values between braces up to the closing one, on one line and without a comma
after the last. -/
def pairs? (value : Reads Value) : Nat → Reads (List (Path × Value))
  | 0, _ => none
  | n + 1, cs =>
    match pair? value cs with
    | none => none
    | some (pair, rest) =>
      match skipSpaces rest with
      | ',' :: more => (pairs? value n more).map fun (pairs, rest) => (pair :: pairs, rest)
      | '\x7d' :: rest => some ([pair], rest)
      | _ => none

/-- Reads what stands between braces. -/
def braces? (value : Reads Value) (cs : List Char) : Option (List (Path × Value) × List Char) :=
  match skipSpaces cs with
  | '\x7d' :: rest => some ([], rest)
  | _ => pairs? value cs.length cs

/-- Reads a value in which arrays and tables lie at most the given number deep. -/
def value : Nat → Reads Value
  | 0, cs => scalar? cs
  | n + 1, cs =>
    match cs with
    | '[' :: rest => (items? (value n) rest.length rest).map fun (vs, rest) => (.array vs, rest)
    | '\x7b' :: rest =>
      match braces? (value n) rest with
      | none => none
      | some (pairs, rest) => (inlineTable? pairs).map fun t => (t, rest)
    | _ => scalar? cs

/-! ### Documents -/

/-- Reads a statement to the end of its line. -/
def statement? : Reads Statement
  | '[' :: '[' :: cs =>
    match path? cs with
    | some (path, ']' :: ']' :: rest) => (lineEnd? rest).map fun rest => (.item path, rest)
    | _ => none
  | '[' :: cs =>
    match path? cs with
    | some (path, ']' :: rest) => (lineEnd? rest).map fun rest => (.header path, rest)
    | _ => none
  | cs =>
    match pair? (value (limit - 1)) cs with
    | some ((path, v), rest) => (lineEnd? rest).map fun rest => (.assign path v, rest)
    | none => none

/-- Reads statements to the end of the text. -/
def statements? : Nat → List Char → Option (List Statement)
  | n, cs =>
    match skipLines false cs with
    | [] => some []
    | cs =>
      match n with
      | 0 => none
      | n + 1 =>
        match statement? cs with
        | none => none
        | some (s, rest) => (statements? n rest).map (s :: ·)

/-- The tables of a document; a byte order mark may stand before it. -/
def read? (cs : List Char) : Option Members :=
  let cs := match cs with
    | '\ufeff' :: rest => rest
    | _ => cs
  (statements? cs.length cs).bind document?

end PackagePlanner.Toml
