/-!
Texts between quotes in TOML.

* `Toml.basic` and `Toml.literal` read a text on one line, with and without escapes, from behind its
  opening quote; `Toml.multiBasic` and `Toml.multiLiteral` read one that may have several lines.
* `Toml.quoted?` tells the four forms apart by the quotes that open them.

Each reader gives the characters of the text and what follows the closing quotes.
-/

namespace PackagePlanner.Toml

/-! ### Characters -/

/-- A blank inside a line. -/
def isSpace (c : Char) : Bool := c == ' ' || c == '\t'

/-- A character that may stand in a comment or a text: no control character but the tab. -/
def isText (c : Char) : Bool := c == '\t' || (32 ≤ c.toNat && c.toNat != 127)

/-- The value of a hexadecimal digit of either case. -/
def hexDigit? (c : Char) : Option Nat :=
  if c.isDigit then some (c.toNat - '0'.toNat)
  else if 'a' ≤ c ∧ c ≤ 'f' then some (c.toNat - 'a'.toNat + 10)
  else if 'A' ≤ c ∧ c ≤ 'F' then some (c.toNat - 'A'.toNat + 10)
  else none

/-- The character whose code point is written in hexadecimal digits. -/
def codePoint? (digits : List Char) : Option Char :=
  match digits.mapM hexDigit? with
  | none => none
  | some values =>
    let n := values.foldl (fun n d => 16 * n + d) 0
    if n.isValidChar then some (Char.ofNat n) else none

/-- The character that a backslash and a letter stand for. -/
def escaped? (c : Char) : Option Char :=
  match c with
  | 'b' => some '\x08'
  | 't' => some '\t'
  | 'n' => some '\n'
  | 'f' => some '\x0c'
  | 'r' => some '\r'
  | '"' => some '"'
  | '\\' => some '\\'
  | _ => none

/-- Puts a character before what was read after it. -/
def prepend (c : Option Char) (read : Option (List Char × List Char)) :
    Option (List Char × List Char) :=
  match c, read with
  | some c, some (text, rest) => some (c :: text, rest)
  | _, _ => none

/-! ### Texts on one line -/

/-- Reads a text with escapes up to its closing quote. -/
def basic : List Char → Option (List Char × List Char)
  | [] => none
  | '"' :: rest => some ([], rest)
  | '\\' :: 'u' :: a :: b :: c :: d :: rest => prepend (codePoint? [a, b, c, d]) (basic rest)
  | '\\' :: 'U' :: a :: b :: c :: d :: e :: f :: g :: h :: rest =>
    prepend (codePoint? [a, b, c, d, e, f, g, h]) (basic rest)
  | '\\' :: c :: rest => prepend (escaped? c) (basic rest)
  | c :: rest => if isText c && c != '\\' then prepend (some c) (basic rest) else none

/-- Reads a text without escapes up to its closing quote. -/
def literal : List Char → Option (List Char × List Char)
  | [] => none
  | '\'' :: rest => some ([], rest)
  | c :: rest => if isText c then prepend (some c) (literal rest) else none

/-! ### Texts of several lines -/

/-- Whether nothing but blanks comes before the end of the line. -/
def endsLine (cs : List Char) : Bool :=
  match cs.dropWhile isSpace with
  | '\n' :: _ => true
  | '\r' :: '\n' :: _ => true
  | _ => false

/-- Reads a text with escapes up to its three closing quotes, before which one or two quotes may
belong to the text. A backslash at the end of a line skips the blanks and line ends after it, and
`skipping` says that it does so now. -/
def multiBasic (skipping : Bool) : List Char → Option (List Char × List Char)
  | [] => none
  | '"' :: '"' :: '"' :: '"' :: '"' :: rest => some (['"', '"'], rest)
  | '"' :: '"' :: '"' :: '"' :: rest => some (['"'], rest)
  | '"' :: '"' :: '"' :: rest => some ([], rest)
  | '\n' :: rest =>
    if skipping then multiBasic true rest else prepend (some '\n') (multiBasic false rest)
  | '\r' :: '\n' :: rest =>
    if skipping then multiBasic true rest else prepend (some '\n') (multiBasic false rest)
  | '\\' :: 'u' :: a :: b :: c :: d :: rest =>
    prepend (codePoint? [a, b, c, d]) (multiBasic false rest)
  | '\\' :: 'U' :: a :: b :: c :: d :: e :: f :: g :: h :: rest =>
    prepend (codePoint? [a, b, c, d, e, f, g, h]) (multiBasic false rest)
  | '\\' :: c :: rest =>
    if endsLine (c :: rest) then multiBasic true (c :: rest)
    else prepend (escaped? c) (multiBasic false rest)
  | c :: rest =>
    if skipping && isSpace c then multiBasic true rest
    else if isText c && c != '\\' then prepend (some c) (multiBasic false rest)
    else none

/-- Reads a text without escapes up to its three closing quotes, before which one or two quotes may
belong to the text. -/
def multiLiteral : List Char → Option (List Char × List Char)
  | [] => none
  | '\'' :: '\'' :: '\'' :: '\'' :: '\'' :: rest => some (['\'', '\''], rest)
  | '\'' :: '\'' :: '\'' :: '\'' :: rest => some (['\''], rest)
  | '\'' :: '\'' :: '\'' :: rest => some ([], rest)
  | '\n' :: rest => prepend (some '\n') (multiLiteral rest)
  | '\r' :: '\n' :: rest => prepend (some '\n') (multiLiteral rest)
  | c :: rest => if isText c then prepend (some c) (multiLiteral rest) else none

/-- A text of several lines does not begin with a line end right behind the opening quotes. -/
def dropLineEnd : List Char → List Char
  | '\n' :: rest => rest
  | '\r' :: '\n' :: rest => rest
  | cs => cs

/-- Reads a text of one of the four forms. -/
def quoted? : List Char → Option (List Char × List Char)
  | '"' :: '"' :: '"' :: rest => multiBasic false (dropLineEnd rest)
  | '"' :: rest => basic rest
  | '\'' :: '\'' :: '\'' :: rest => multiLiteral (dropLineEnd rest)
  | '\'' :: rest => literal rest
  | _ => none

end PackagePlanner.Toml
