import PackagePlanner.Release

/-!
Plans: the releases to add to a project and the releases to remove from it.

* The added releases stand in the order in which they can be installed.
* `Plan.text` lists a plan, and `Plan.summary` counts it.
-/

namespace PackagePlanner

/-- What one operation changes in a project. -/
structure Plan where
  added : List Release := []
  removed : List Release := []
deriving DecidableEq

/-- The size of a plan. -/
structure PlanSummary where
  toAdd : Nat
  toRemove : Nat
  upgrades : Nat
deriving DecidableEq, Repr

namespace Plan

/-- Whether a plan changes nothing. -/
def isEmpty (p : Plan) : Bool := p.added.isEmpty && p.removed.isEmpty

/-- An added release of a package that also loses a release counts as an upgrade. -/
def summary (p : Plan) : PlanSummary where
  toAdd := p.added.length
  toRemove := p.removed.length
  upgrades := p.added.countP fun r => p.removed.any fun old => old.name == r.name

/-- One line for each release, the removed ones first. -/
def text (p : Plan) : String :=
  if p.isEmpty then "Nothing to do\n"
  else String.join (p.removed.map fun r => "- " ++ r.id.text ++ "\n") ++
    String.join (p.added.map fun r => "+ " ++ r.id.text ++ "\n")

/-- Whether two plans add and remove the same releases in the same order. -/
def agrees (a b : Plan) : Bool :=
  sameReleases a.added b.added && sameReleases a.removed b.removed
where
  /-- Whether two lists of releases agree one by one. -/
  sameReleases (rs ss : List Release) : Bool :=
    rs.length == ss.length && (rs.zip ss).all fun (r, s) => r.agrees s

end Plan

end PackagePlanner
