import PackagePlanner.Toml.Quoted
import PackagePlanner.Toml.Value

/-!
Numbers, truth values and words in TOML.

* A `word` is a run of the characters that such a value is made of; what follows it in a document
  is never one of them.
* `Toml.integer?`, `Toml.isFloat` and `Toml.Moment.read?` say which words are values.
* `Toml.scalar?` reads a text or a word.
-/

namespace PackagePlanner.Toml

/-! ### Digits -/

/-- The digits of a number in which single underscores may stand between digits. -/
def digitRun? (isDigit : Char → Bool) : List Char → Option (List Char)
  | [] => none
  | c :: rest =>
    if isDigit c then
      match rest with
      | [] => some [c]
      | '_' :: more => (digitRun? isDigit more).map (c :: ·)
      | d :: more => (digitRun? isDigit (d :: more)).map (c :: ·)
    else none

/-- The sign of a number, true for minus, and what follows it. -/
def sign : List Char → Bool × List Char
  | '+' :: rest => (false, rest)
  | '-' :: rest => (true, rest)
  | cs => (false, cs)

/-- The digits of a decimal number without sign; a zero leads only if it is alone. -/
def decimal? (cs : List Char) : Option (List Char) :=
  match cs with
  | '0' :: _ :: _ => none
  | _ => digitRun? Char.isDigit cs

/-- The value of digits in some base. -/
def valueIn (base : Nat) (digits : List Char) : Nat :=
  digits.foldl (fun n c => base * n + (hexDigit? c).getD 0) 0

/-- An integer that has 64 bits. -/
def int64? (n : Int) : Option Int :=
  if Int64.minValue.toInt ≤ n ∧ n ≤ Int64.maxValue.toInt then some n else none

/-- Reads an integer: decimal with a sign, or in base 16, 8 or 2 without one. -/
def integer? : List Char → Option Int
  | '0' :: 'x' :: cs =>
    (digitRun? (fun c => (hexDigit? c).isSome) cs).bind fun ds => int64? (valueIn 16 ds)
  | '0' :: 'o' :: cs =>
    (digitRun? (fun c => '0' ≤ c && c ≤ '7') cs).bind fun ds => int64? (valueIn 8 ds)
  | '0' :: 'b' :: cs =>
    (digitRun? (fun c => c == '0' || c == '1') cs).bind fun ds => int64? (valueIn 2 ds)
  | cs =>
    let (negative, body) := sign cs
    (decimal? body).bind fun ds =>
      int64? (if negative then -(valueIn 10 ds : Int) else valueIn 10 ds)

/-! ### Floats -/

/-- Whether `m · 10 ^ e` is past the largest number that rounds to a finite double. -/
def overflows (m : Nat) (e : Int) : Bool :=
  let bound := (Nat.pow 2 54 - 1) * Nat.pow 2 970
  let size := (Nat.toDigits 10 m).length + e
  if m = 0 || size < 300 then false
  else if size > 320 then true
  else if 0 ≤ e then bound ≤ m * Nat.pow 10 e.toNat
  else bound * Nat.pow 10 (-e).toNat ≤ m

/-- The exponent behind an `e`, with its sign. -/
def exponent? (cs : List Char) : Option Int :=
  let (negative, body) := sign cs
  (digitRun? Char.isDigit body).map fun ds =>
    if negative then -(valueIn 10 ds : Int) else valueIn 10 ds

/-- The fraction and the exponent behind the digits before the point; one of them must be there. -/
def fractionAndExponent? : List Char → Option (List Char × Int)
  | '.' :: cs =>
    let (fraction, rest) := cs.span fun c => c.isDigit || c == '_'
    match digitRun? Char.isDigit fraction, rest with
    | none, _ => none
    | some ds, [] => some (ds, 0)
    | some ds, c :: more =>
      if c == 'e' || c == 'E' then (exponent? more).map fun e => (ds, e) else none
  | c :: cs => if c == 'e' || c == 'E' then (exponent? cs).map fun e => ([], e) else none
  | [] => none

/-- Whether a word is a float: infinity, not a number, or a decimal number with a fraction or an
exponent that is not too large. -/
def isFloat (cs : List Char) : Bool :=
  let (negative, body) := sign cs
  if body = ['i', 'n', 'f'] || body = ['n', 'a', 'n'] then true
  else
    let (whole, rest) := body.span fun c => c.isDigit || c == '_'
    match decimal? whole, fractionAndExponent? rest with
    | some ds, some (fraction, e) =>
      negative || !overflows (valueIn 10 (ds ++ fraction)) (e - fraction.length)
    | _, _ => false

/-! ### Words -/

/-- A character of a word. -/
def isWordChar (c : Char) : Bool :=
  c.isAlphanum || c == '_' || c == '+' || c == '-' || c == '.' || c == ':'

/-- Reads a word; a date and a time behind one blank are one word. -/
def word (cs : List Char) : List Char × List Char :=
  let (first, rest) := cs.span isWordChar
  match rest with
  | ' ' :: c :: more =>
    if (Date.read? first).any (fun d => d.2.isEmpty) && c.isDigit then
      let (second, rest) := (c :: more).span isWordChar
      (first ++ ' ' :: second, rest)
    else (first, rest)
  | _ => (first, rest)

/-- The value of a word. -/
def valueOfWord? (cs : List Char) : Option Value :=
  if cs = ['t', 'r', 'u', 'e'] then some (.boolean true)
  else if cs = ['f', 'a', 'l', 's', 'e'] then some (.boolean false)
  else match integer? cs with
    | some n => some (.integer n)
    | none =>
      if isFloat cs then some (.float (String.ofList cs))
      else (Moment.read? cs).map .moment

/-- Reads a value that is neither an array nor a table. -/
def scalar? (cs : List Char) : Option (Value × List Char) :=
  match cs with
  | '"' :: _ | '\'' :: _ => (quoted? cs).map fun (text, rest) => (.text (String.ofList text), rest)
  | _ =>
    let (w, rest) := word cs
    (valueOfWord? w).map fun v => (v, rest)

end PackagePlanner.Toml
