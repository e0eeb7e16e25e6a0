import PackagePlanner.Text.Blank

/-!
Versions of packages: three 64-bit numbers `major.minor.revision`.

* `Version` is ordered number by number, so that `1.10.0` is newer than `1.9.0`.
* `Version.parse` reads one to three runs of digits between dots, the missing ones being zero,
  and `Version.text` writes all three.
-/

namespace PackagePlanner

/-- A text that is not a version, or not a version constraint. -/
inductive Malformed where
  | version (text : String)
  | constraint (text : String)
deriving DecidableEq, Repr

/-- The message quotes the text as it was given. -/
def Malformed.message : Malformed → String
  | .version text => "Malformed version '" ++ text ++ "'"
  | .constraint text => "Malformed version spec '" ++ text ++ "'"

/-- The version of a release. -/
structure Version where
  major : UInt64
  minor : UInt64
  revision : UInt64
deriving DecidableEq, Repr, Inhabited

namespace Version

/-! ### Order -/

/-- The first number that differs decides. -/
instance : Ord Version :=
  ⟨compareLex (compareOn major) (compareLex (compareOn minor) (compareOn revision))⟩

instance : LE Version := leOfOrd
instance : LT Version := ltOfOrd

instance : Std.TransOrd Version :=
  inferInstanceAs (Std.TransCmp
    (compareLex (compareOn major) (compareLex (compareOn minor) (compareOn revision))))

instance : Std.LawfulEqOrd Version where
  eq_of_compare {a b} h := by
    obtain ⟨h₁, h₂₃⟩ := compareLex_eq_eq.mp h
    obtain ⟨h₂, h₃⟩ := compareLex_eq_eq.mp h₂₃
    have h₁ := Std.LawfulEqOrd.eq_of_compare h₁
    have h₂ := Std.LawfulEqOrd.eq_of_compare h₂
    have h₃ := Std.LawfulEqOrd.eq_of_compare h₃
    cases a
    cases b
    simp_all

/-- The versions in ascending order. -/
def sort (versions : List Version) : List Version :=
  versions.mergeSort fun a b => (compare a b).isLE

/-! ### Text -/

/-- One number of a version: digits only, at least one, and less than two to the power 64. -/
def number? (digits : List Char) : Option UInt64 :=
  if digits ≠ [] ∧ digits.all Char.isDigit then
    let n := Nat.ofDigitChars 10 digits 0
    if h : n < UInt64.size then some (UInt64.ofNatLT n h) else none
  else none

/-- Reads the characters of a version; blanks around them do not count. -/
def read? (cs : List Char) : Option Version :=
  match (Text.fields '.' (Text.trim cs)).mapM number? with
  | some [major] => some ⟨major, 0, 0⟩
  | some [major, minor] => some ⟨major, minor, 0⟩
  | some [major, minor, revision] => some ⟨major, minor, revision⟩
  | _ => none

/-- The version that a text denotes. -/
def parse (text : String) : Except Malformed Version :=
  match read? text.toList with
  | some version => .ok version
  | none => .error (.version text)

/-- The characters of a version: its three numbers in decimal, between dots. -/
def chars (v : Version) : List Char :=
  Nat.toDigits 10 v.major.toNat ++ '.' :: (Nat.toDigits 10 v.minor.toNat ++ '.' ::
    Nat.toDigits 10 v.revision.toNat)

/-- The text of a version. -/
def text (v : Version) : String := String.ofList v.chars

end Version

end PackagePlanner
