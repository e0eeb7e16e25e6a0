import PackagePlanner.Version

/-!
Version constraints: which versions of a package a request or a dependency accepts.

* Every `Constraint` accepts an interval of versions, given by `lower?` and `upper?`; `position`
  says on which side of the interval a version lies, and `admits` that it lies inside.
* `compatible` compares two intervals.
* `Constraint.read?` reads the written forms `*`, `1.2.3!`, `1.2.3+`, `1.2.3-` and
  `1.2.3-4.5.6`, where a bare version is a lower bound; `Constraint.text` writes them.
-/

namespace PackagePlanner

/-- Which versions are accepted. -/
inductive Constraint where
  | any
  | exact (version : Version)
  | atLeast (version : Version)
  | atMost (version : Version)
  | range (lower upper : Version) (ordered : (compare lower upper).isLE = true)
deriving DecidableEq, Repr

namespace Constraint

/-- The versions between two, whichever of them is given first. -/
def between (a b : Version) : Constraint :=
  if h : (compare a b).isLE = true then range a b h
  else range b a (by
    rw [Std.OrientedOrd.eq_swap (a := b), Ordering.isLE_swap]
    cases hc : compare a b <;> simp_all)

/-! ### The accepted interval -/

/-- The oldest accepted version, if there is a bound. -/
def lower? : Constraint → Option Version
  | any => none
  | exact v => some v
  | atLeast v => some v
  | atMost _ => none
  | range lower _ _ => some lower

/-- The newest accepted version, if there is a bound. -/
def upper? : Constraint → Option Version
  | any => none
  | exact v => some v
  | atLeast _ => none
  | atMost v => some v
  | range _ upper _ => some upper

/-- Where a version lies: `lt` before the accepted interval, `eq` in it, `gt` behind it. -/
def position (c : Constraint) (v : Version) : Ordering :=
  if c.lower?.any (fun lower => compare v lower == .lt) then .lt
  else if c.upper?.any (fun upper => compare v upper == .gt) then .gt
  else .eq

/-- Whether a version is accepted. -/
def admits (c : Constraint) (v : Version) : Bool :=
  c.position v == .eq

/-- The later of two lower bounds, a missing one being no bound. -/
def laterBound : Option Version → Option Version → Option Version
  | none, b => b
  | some a, none => some a
  | some a, some b => some (if (compare a b).isLE then b else a)

/-- The earlier of two upper bounds, a missing one being no bound. -/
def earlierBound : Option Version → Option Version → Option Version
  | none, b => b
  | some a, none => some a
  | some a, some b => some (if (compare a b).isLE then a else b)

/-- Whether the accepted intervals of two constraints meet. -/
def compatible (a b : Constraint) : Bool :=
  match laterBound a.lower? b.lower?, earlierBound a.upper? b.upper? with
  | some lower, some upper => (compare lower upper).isLE
  | _, _ => true

/-- Whether the accepted intervals of any two constraints in a list meet. -/
def pairwiseCompatible : List Constraint → Bool
  | [] => true
  | c :: rest => rest.all c.compatible && pairwiseCompatible rest

/-! ### Text -/

/-- Reads the characters of a constraint. A last `!`, `+` or `-` is a suffix, tried in this
order; only then is the first `-` between two versions a range. -/
def read? (cs : List Char) : Option Constraint :=
  let trimmed := Text.trim cs
  if trimmed = [] ∨ trimmed = ['*'] then some any
  else match trimmed.getLast? with
    | some '!' => (Version.read? trimmed.dropLast).map exact
    | some '+' => (Version.read? trimmed.dropLast).map atLeast
    | some '-' => (Version.read? trimmed.dropLast).map atMost
    | _ =>
      match trimmed.span (· ≠ '-') with
      | (_, []) => (Version.read? trimmed).map atLeast
      | (first, _ :: second) =>
        (Version.read? first).bind fun a => (Version.read? second).map fun b => between a b

/-- The constraint that a text denotes. -/
def parse (text : String) : Except Malformed Constraint :=
  match read? text.toList with
  | some c => .ok c
  | none => .error (.constraint text)

/-- The characters of a constraint. -/
def chars : Constraint → List Char
  | any => ['*']
  | exact v => v.chars ++ ['!']
  | atLeast v => v.chars ++ ['+']
  | atMost v => v.chars ++ ['-']
  | range lower upper _ => lower.chars ++ '-' :: upper.chars

/-- The text of a constraint. -/
def text (c : Constraint) : String := String.ofList c.chars

end Constraint

end PackagePlanner
