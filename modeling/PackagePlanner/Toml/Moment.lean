/-!
Dates and times in TOML.

* A `Moment` is a date, a time of day, or both; with both it may say how far the clock is from
  universal time.
* `Moment.read?` reads a moment. `Moment.text` writes it: a `T` stands between date and time, and a
  fraction of a second has no zeros at its end and at most nine digits.
-/

namespace PackagePlanner.Toml

/-- A day of a year. -/
structure Date where
  year : Nat
  month : Nat
  day : Nat
deriving DecidableEq, Repr

/-- A time of day; a minute may have a sixty-first second. -/
structure Clock where
  hour : Nat
  minute : Nat
  second : Nat
  nanosecond : Nat := 0
deriving DecidableEq, Repr

/-- How far a clock is from universal time: not at all, or by some minutes. -/
inductive Offset where
  | none
  | minutes (n : Int)
deriving DecidableEq, Repr

/-- A date, a time, or both. -/
inductive Moment where
  | date (date : Date)
  | clock (clock : Clock)
  | both (date : Date) (clock : Clock) (offset : Option Offset)
deriving DecidableEq, Repr

/-! ### Reading -/

/-- The number that some digits write. -/
def digits? (cs : List Char) : Option Nat :=
  if cs.all Char.isDigit then some (Nat.ofDigitChars 10 cs 0) else none

/-- How many days a month has. -/
def daysIn (year month : Nat) : Nat :=
  if month = 2 then
    if year % 4 = 0 ∧ (year % 100 ≠ 0 ∨ year % 400 = 0) then 29 else 28
  else if month = 4 ∨ month = 6 ∨ month = 9 ∨ month = 11 then 30
  else 31

/-- Reads a date, and gives what follows it. -/
def Date.read? : List Char → Option (Date × List Char)
  | y₁ :: y₂ :: y₃ :: y₄ :: '-' :: m₁ :: m₂ :: '-' :: d₁ :: d₂ :: rest =>
    match digits? [y₁, y₂, y₃, y₄], digits? [m₁, m₂], digits? [d₁, d₂] with
    | some year, some month, some day =>
      if 1 ≤ month ∧ month ≤ 12 ∧ 1 ≤ day ∧ day ≤ daysIn year month then
        some (⟨year, month, day⟩, rest)
      else none
    | _, _, _ => none
  | _ => none

/-- Reads an hour and a minute, and gives what follows them. -/
def hourAndMinute? : List Char → Option (Nat × Nat × List Char)
  | h₁ :: h₂ :: ':' :: m₁ :: m₂ :: rest =>
    match digits? [h₁, h₂], digits? [m₁, m₂] with
    | some hour, some minute =>
      if hour ≤ 23 ∧ minute ≤ 59 then some (hour, minute, rest) else none
    | _, _ => none
  | _ => none

/-- The nanoseconds of a fraction. Digits behind the ninth do not count. -/
def nanoseconds (fraction : List Char) : Nat :=
  let kept := fraction.take 9
  Nat.ofDigitChars 10 kept 0 * Nat.pow 10 (9 - kept.length)

/-- Reads a time of day, and gives what follows it; a second may have a fraction. -/
def Clock.read? (cs : List Char) : Option (Clock × List Char) :=
  match hourAndMinute? cs with
  | some (hour, minute, ':' :: s₁ :: s₂ :: rest) =>
    match digits? [s₁, s₂] with
    | some second =>
      if second ≤ 60 then
        match rest with
        | '.' :: more =>
          match more.span Char.isDigit with
          | ([], _) => some (⟨hour, minute, second, 0⟩, rest)
          | (fraction, others) => some (⟨hour, minute, second, nanoseconds fraction⟩, others)
        | _ => some (⟨hour, minute, second, 0⟩, rest)
      else none
    | none => none
  | _ => none

/-- The offset that is all of a word; an empty word is none. -/
def Offset.read? : List Char → Option (Option Offset)
  | [] => some Option.none
  | ['Z'] => some (some none)
  | ['z'] => some (some none)
  | '+' :: cs =>
    match hourAndMinute? cs with
    | some (hour, minute, []) => some (some (minutes (60 * hour + minute)))
    | _ => Option.none
  | '-' :: cs =>
    match hourAndMinute? cs with
    | some (hour, minute, []) => some (some (minutes (-(60 * hour + minute))))
    | _ => Option.none
  | _ => Option.none

/-- Whether a character stands between a date and a time. -/
def isDelimiter (c : Char) : Bool := c == 'T' || c == 't' || c == ' '

/-- The moment that is all of a word. -/
def Moment.read? (cs : List Char) : Option Moment :=
  match Date.read? cs with
  | some (d, []) => some (.date d)
  | some (d, c :: rest) =>
    if isDelimiter c then
      (Clock.read? rest).bind fun (t, rest) => (Offset.read? rest).map fun o => .both d t o
    else none
  | none =>
    match Clock.read? cs with
    | some (t, []) => some (.clock t)
    | _ => none

/-! ### Writing -/

/-- A number with zeros before it up to some width. -/
def padded (width n : Nat) : List Char :=
  let digits := Nat.toDigits 10 n
  List.replicate (width - digits.length) '0' ++ digits

/-- The characters of a date. -/
def Date.chars (d : Date) : List Char :=
  padded 4 d.year ++ '-' :: (padded 2 d.month ++ '-' :: padded 2 d.day)

/-- The digits of a fraction of a second behind a point; a second without a fraction has none. -/
def fractionChars (nanosecond : Nat) : List Char :=
  if nanosecond = 0 then []
  else '.' :: ((padded 9 nanosecond).reverse.dropWhile (· == '0')).reverse

/-- The characters of a time of day. -/
def Clock.chars (t : Clock) : List Char :=
  padded 2 t.hour ++ ':' :: (padded 2 t.minute ++ ':' :: padded 2 t.second) ++
    fractionChars t.nanosecond

/-- The characters of an offset. -/
def Offset.chars : Offset → List Char
  | none => ['Z']
  | minutes n =>
    (if n < 0 then '-' else '+') :: (padded 2 (n.natAbs / 60) ++ ':' :: padded 2 (n.natAbs % 60))

/-- The characters of a moment. -/
def Moment.chars : Moment → List Char
  | date d => d.chars
  | clock t => t.chars
  | both d t o => d.chars ++ 'T' :: (t.chars ++ (o.map Offset.chars).getD [])

/-- The text of a moment. -/
def Moment.text (m : Moment) : String := String.ofList m.chars

/-- The key of a moment that is taken for a table. -/
def Moment.key : String := "$__toml_private_datetime"

end PackagePlanner.Toml
