import PackagePlanner.Resolution.Selection

/-!
The steps of a resolution.

* A `Task` is work that a selection still owes: to meet a requirement, to follow the rest of the
  dependencies of a release, or to drop what is no longer needed.
* `Problem.perform` does one task and says which tasks it gives rise to; these come before all
  others, so the releases that one release needs are chosen before the next task is looked at.
* `reselect` changes the choice for a package when a new requirement rules it out and releases may
  not stand side by side.
-/

namespace PackagePlanner

/-- Work still to do. -/
inductive Task where
  | require (name : String) (constraint : Constraint) (requirer : Requirer)
  | follow (id : ReleaseId) (rest : List Dependency)
  | prune
deriving DecidableEq

namespace Selection

/-- Notes the requirement of a release as an edge; the caller's is among the requests. -/
def note (s : Selection) (name : String) (c : Constraint) : Requirer → Selection
  | .request => s
  | .release id => { s with graph := s.graph.addEdge ⟨id, name, c⟩ }

/-- Takes back the choices for a package. -/
def deselect (s : Selection) (name : String) : Selection :=
  let old := (s.graph.nodesNamed name).map Graph.Node.id
  { s with
    graph := old.foldl Graph.remove s.graph
    resolving := s.resolving.filter fun id => !old.contains id }

end Selection

namespace Problem

/-- Chooses a release. Its dependencies are to be followed, unless they are already. -/
def select (p : Problem) (s : Selection) (n : Graph.Node) : Selection × List Task :=
  if p.rules.follow && !s.resolving.contains n.id then
    ({ s with graph := s.graph.addNode n, resolving := n.id :: s.resolving },
      [.follow n.id n.release.dependencies.toList])
  else ({ s with graph := s.graph.addNode n }, [])

/-- Chooses a release of a package, which has none, for the given constraints. -/
def selectFor (p : Problem) (s : Selection) (name : String) (c : Constraint)
    (requirer : Requirer) (required : List Constraint) :
    Except Conflict (Selection × List Task) :=
  match p.choose s name required with
  | none => .error (p.unsatisfiable name c requirer)
  | some n => .ok (p.select s n)

/-- Chooses another release of a package, one that satisfies every requirement. A package may
change its choice as often as it has candidates. -/
def reselect (p : Problem) (s : Selection) (name : String) (c : Constraint)
    (requirer : Requirer) : Except Conflict (Selection × List Task) :=
  match p.choose s name (s.constraintsOn name) with
  | none => .error (p.incompatible s name c requirer)
  | some n =>
    let attempts := s.reselected.count name + 1
    if attempts > (p.candidates s name).length then .error (.unsettled name attempts)
    else
      let chosen := p.select ({ s with reselected := name :: s.reselected }.deselect name) n
      .ok (chosen.1, chosen.2 ++ [.prune])

/-- Meets a requirement by a release already chosen, or by a new choice. -/
def require (p : Problem) (s : Selection) (name : String) (c : Constraint)
    (requirer : Requirer) : Except Conflict (Selection × List Task) :=
  if (s.graph.target? name c).isSome then .ok (s, [])
  else if p.rules.sideBySide then p.selectFor s name c requirer [c]
  else if (s.graph.nodesNamed name).isEmpty then
    p.selectFor s name c requirer (s.constraintsOn name)
  else p.reselect s name c requirer

/-- Does one task: the selection after it and the tasks to do next. Dependencies are followed
only as long as their release is chosen, for another requirement may have changed the choice. -/
def perform (p : Problem) (s : Selection) : Task → Except Conflict (Selection × List Task)
  | .require name c requirer => p.require (s.note name c requirer) name c requirer
  | .follow id [] => .ok ({ s with resolving := s.resolving.filter (· != id) }, [])
  | .follow id (d :: rest) =>
    if s.graph.contains id then
      .ok (s, [.require d.name d.constraint (.release id), .follow id rest])
    else .ok ({ s with resolving := s.resolving.filter (· != id) }, [])
  | .prune => .ok (s.prune, [])

end Problem

end PackagePlanner
