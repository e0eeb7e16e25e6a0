import PackagePlanner.Resolution.Departure
import PackagePlanner.Graph.InstallOrder

/-!
The plan of a finished selection.

* `Problem.planOf` adds the chosen releases that are not installed, dependencies first, and
  removes what leaves: first what gives way to an added release, in the order of those, then the
  rest.
* `Problem.finish` settles a selection before it is carried out.
-/

namespace PackagePlanner

namespace Problem

/-- The chosen releases that are not installed, in an order in which they can be installed. -/
def arrivals (s : Selection) : List Release :=
  (((s.graph.installOrder s.roots).filterMap s.graph.node?).filter fun n => !n.installed).map
    Graph.Node.release

/-- The leaving releases in the order of the added releases whose name they bear, then those
whose name no added release bears. -/
def departures (added leaving : List Release) : List Release :=
  let names := (added.map Release.name).eraseDups
  (names.flatMap fun name => leaving.filter fun r => r.name == name) ++
    leaving.filter fun r => !names.contains r.name

/-- The plan that carries a selection out. -/
def planOf (p : Problem) (s : Selection) : Plan :=
  let kept := { s with graph := s.graph.retain s.roots }
  let added := arrivals kept
  { added, removed := departures added (p.leaving kept).toList }

/-- The selection once those who stay have what they need, which is looked at only if dependencies
are followed. -/
def finish (p : Problem) (s : Selection) : Except PlanError Selection :=
  if p.rules.follow then p.settle s else .ok s

end Problem

end PackagePlanner
