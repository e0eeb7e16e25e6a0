import PackagePlanner.Config
import PackagePlanner.Json
import PackagePlanner.Manifest.Render
import PackagePlanner.Planner

/-!
What a run prints.

* `Report.failure` is the report of an error: what could not be done, and behind it the causes.
* `planText` and `catalogText` show results as text, `planJson` and `catalogJson` as JSON.
-/

namespace PackagePlanner.Report

/-! ### Errors -/

/-- Why a run fails: what it could not do, and the causes behind that, the nearest first. -/
structure Failure where
  context : String
  causes : List String
deriving DecidableEq, Repr

/-- The failure to load something. -/
def Failure.ofLoad (context : String) (e : LoadError) : Failure :=
  ⟨context, e.message :: e.cause?.toList⟩

/-- The failure to plan something. -/
def Failure.ofPlan (context : String) (e : PlanError) : Failure :=
  ⟨context, [e.message]⟩

/-- A text with a margin before each line but the first. -/
def indent (margin text : String) : String :=
  ("\n" ++ margin).intercalate ((Text.fields '\n' text.toList).map String.ofList)

/-- The causes, numbered from some number. -/
def numbered (n : Nat) : List String → String
  | [] => ""
  | cause :: rest =>
    "    " ++ String.ofList (Nat.toDigits 10 n) ++ ": " ++ indent "       " cause ++ "\n" ++
      numbered (n + 1) rest

/-- The report of a failure. A single cause has no number. -/
def failure (f : Failure) : String :=
  "Error: " ++ f.context ++ "\n" ++
    match f.causes with
    | [] => ""
    | [cause] => "\nCaused by:\n    " ++ indent "    " cause ++ "\n"
    | causes => "\nCaused by:\n" ++ numbered 0 causes

/-! ### Results -/

/-- The number of something, in decimal. -/
def count (n : Nat) : String := String.ofList (Nat.toDigits 10 n)

/-- A plan as text: its lines, and how many there are unless nothing is to be done. -/
def planText (p : Plan) : String :=
  let s := p.summary
  p.text ++
    if p.isEmpty then ""
    else count s.toAdd ++ " to add, " ++ count s.toRemove ++ " to remove (" ++ count s.upgrades ++
      " upgrades)\n"

/-- A plan as JSON, with its summary and all keys in order. -/
def planJson (p : Plan) : String :=
  (Json.object [("add", .array (p.added.map Release.json)),
    ("remove", .array (p.removed.map Release.json)),
    ("summary", p.summary.json)]).sorted.pretty ++ "\n"

/-- A catalog as text: a line for each package with its versions. -/
def catalogText (c : Catalog) : String :=
  String.join (c.visible.map fun p =>
    p.name ++ " (" ++ ", ".intercalate (p.releases.toList.map fun r => r.version.text) ++ ")\n")

/-- A catalog as JSON: an array of its releases. -/
def catalogJson (c : Catalog) : String :=
  (Json.array (c.releases.map Release.json)).pretty ++ "\n"

end PackagePlanner.Report
