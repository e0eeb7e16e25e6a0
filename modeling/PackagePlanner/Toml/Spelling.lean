import PackagePlanner.Toml.Reader

/-!
Writing keys and texts in TOML.

* `Toml.spellKey` writes a name as a key: bare if it can be, else between quotes.
* `Toml.spellText` writes a text in the plainest of the forms that can hold it: between quotes, between
  apostrophes, between three of either, or with escapes.
* `Toml.spellTexts` writes an array of texts, one on a line if there are several.

Between double quotes a tab is always written `\t`.
-/

namespace PackagePlanner.Toml

/-! ### Characters -/

/-- A control character other than tab and line feed. -/
def isControl (c : Char) : Bool := (c.toNat < 32 || c.toNat == 127) && c != '\t' && c != '\n'

/-- A digit of base 16, in upper case. -/
def upperHex (n : Nat) : Char := if n < 10 then Char.ofNat (48 + n) else Char.ofNat (55 + n)

/-- A character between double quotes. -/
def escapeChar (c : Char) : List Char :=
  match c with
  | '\x08' => ['\\', 'b']
  | '\t' => ['\\', 't']
  | '\n' => ['\\', 'n']
  | '\x0c' => ['\\', 'f']
  | '\r' => ['\\', 'r']
  | '"' => ['\\', '"']
  | '\\' => ['\\', '\\']
  | _ =>
    if isControl c then ['\\', 'u', '0', '0', upperHex (c.toNat / 16), upperHex (c.toNat % 16)]
    else [c]

/-- A tab as it is written between double quotes; other characters as they are. -/
def escapeTab (c : Char) : List Char := if c = '\t' then ['\\', 't'] else [c]

/-- Whether a character comes three times running. -/
def hasTriple (c : Char) : List Char → Bool
  | [] => false
  | d :: rest =>
    match rest with
    | e :: f :: _ => (d == c && e == c && f == c) || hasTriple c rest
    | _ => false

/-- The escaped characters of a text of several lines; `run` quotes stand before it. Line ends stay,
and of a run of quotes each third one is escaped. -/
def escapeLines (run : Nat) : List Char → List Char
  | [] => []
  | '"' :: rest =>
    if run = 2 then '\\' :: '"' :: escapeLines 0 rest else '"' :: escapeLines (run + 1) rest
  | '\n' :: rest => '\n' :: escapeLines 0 rest
  | c :: rest => escapeChar c ++ escapeLines 0 rest

/-! ### Keys -/

/-- Writes a name as a key. -/
def spellKey (cs : List Char) : List Char :=
  if cs ≠ [] ∧ cs.all isBare then cs
  else if cs.all fun c => c != '"' && c != '\\' && c != '\n' && !isControl c then
    '"' :: (cs.flatMap escapeTab ++ ['"'])
  else if cs.all fun c => c != '\'' && c != '\n' && !isControl c then '\'' :: (cs ++ ['\''])
  else '"' :: (cs.flatMap escapeChar ++ ['"'])

/-! ### Texts -/

/-- What stands before and after a text of the three-quote forms. -/
def triple (quote : Char) (text body : List Char) : List Char :=
  [quote, quote, quote] ++ (if text.contains '\n' then ['\n'] else []) ++ body ++
    [quote, quote, quote]

/-- Writes a text. -/
def spellText (cs : List Char) : List Char :=
  if cs.all fun c => c != '"' && c != '\\' && c != '\n' && !isControl c then
    '"' :: (cs.flatMap escapeTab ++ ['"'])
  else if cs.all fun c => c != '\'' && c != '\n' && !isControl c then '\'' :: (cs ++ ['\''])
  else if (cs.all fun c => c != '\\' && !isControl c) && !hasTriple '"' cs then
    triple '"' cs (cs.flatMap escapeTab)
  else if (cs.all fun c => !isControl c) && !hasTriple '\'' cs then triple '\'' cs cs
  else if cs.contains '\n' then triple '"' cs (escapeLines 0 cs)
  else '"' :: (cs.flatMap escapeChar ++ ['"'])

/-- Writes an array of texts: on one line if there is at most one, or else one on a line. -/
def spellTexts : List (List Char) → List Char
  | [] => ['[', ']']
  | [text] => '[' :: (spellText text ++ [']'])
  | texts =>
    ['[', '\n'] ++ texts.flatMap (fun text => [' ', ' ', ' ', ' '] ++ spellText text ++ [',', '\n']) ++
      [']']

/-- Writes a key and what it is given, as a line. -/
def spellLine (key : String) (value : List Char) : List Char :=
  spellKey key.toList ++ [' ', '=', ' '] ++ value ++ ['\n']

end PackagePlanner.Toml
