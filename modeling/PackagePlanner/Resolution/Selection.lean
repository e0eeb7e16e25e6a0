import PackagePlanner.Catalog
import PackagePlanner.Conflict
import PackagePlanner.Graph.Reachable

/-!
The choice of releases for an operation, half-way.

* `Problem` is what an operation starts from: what is available, what is installed, and the rules.
* `Selection` is what has been chosen so far and on whose behalf.
* `Problem.choose` is the next choice for a package: installed releases come before available
  ones and newer before older; among those that fit, one that the remaining dependents of the
  package accept is preferred.
-/

namespace PackagePlanner

/-- The rules of an operation: whether releases of one package may stand side by side, whether
dependencies are followed, and whether a dependent that an upgrade breaks is upgraded too. -/
structure Rules where
  sideBySide : Bool
  follow : Bool
  cascade : Bool
deriving DecidableEq, Repr

/-- What an operation starts from. -/
structure Problem where
  available : Catalog
  installed : Catalog
  rules : Rules

/-- A package that the caller asked for. -/
structure Request where
  name : String
  constraint : Constraint
deriving DecidableEq, Repr

/-- Who needs a package: the caller, or a selected release. -/
inductive Requirer where
  | request
  | release (id : ReleaseId)
deriving DecidableEq, Repr

/-- The requirer that no version satisfies. -/
def Requirer.text : Requirer → String
  | .request => "request"
  | .release id => id.text

/-- The requirer in a list of conflicting requirements. -/
def Requirer.label : Requirer → String
  | .request => "requested"
  | .release id => id.text

/-- What has been chosen so far. -/
structure Selection where
  /-- The chosen releases with the dependencies followed so far. -/
  graph : Graph := .empty
  /-- What the caller asked for, in order. -/
  requests : List Request := []
  /-- The installed releases that an upgrade replaces. -/
  replaced : Keyed Release.id := .empty
  /-- The releases whose dependencies are being followed. -/
  resolving : List ReleaseId := []
  /-- A package name for every time that its choice was changed. -/
  reselected : List String := []

namespace Selection

/-- Every requirement on a package: first those of the caller, then those of chosen releases. -/
def requirementsOn (s : Selection) (name : String) : List (Requirer × Constraint) :=
  ((s.requests.filter fun r => r.name == name).map fun r => (Requirer.request, r.constraint)) ++
    (s.graph.requirementsOn name).map fun e => (.release e.source, e.constraint)

/-- The constraints of all requirements on a package. -/
def constraintsOn (s : Selection) (name : String) : List Constraint :=
  (s.requirementsOn name).map Prod.snd

/-- The chosen releases that serve the requests. -/
def roots (s : Selection) : List ReleaseId :=
  s.requests.filterMap fun r => (s.graph.target? r.name r.constraint).map Graph.Node.id

/-- Drops what the requests no longer need. -/
def prune (s : Selection) : Selection :=
  let dropped := (s.graph.unreachable s.roots).map Graph.Node.id
  { s with
    graph := s.graph.retain s.roots
    resolving := s.resolving.filter fun id => !dropped.contains id }

end Selection

namespace Problem

/-- What can be chosen for a package: its installed releases but for the replaced ones, then its
available releases that are not installed, both newest first. -/
def candidates (p : Problem) (s : Selection) (name : String) : List Graph.Node :=
  (((p.installed.releasesOf name).reverse.filter fun r => !s.replaced.contains r.id).map
    fun r => ⟨r, true⟩) ++
  ((p.available.releasesOf name).reverse.filter fun r => !p.installed.containsRelease r.id).map
    fun r => ⟨r, false⟩

/-- Whether an installed release goes when the selection is carried out: it is not chosen, and it
is replaced or gives way to a chosen release that is not installed. -/
def isLeaving (p : Problem) (s : Selection) (r : Release) : Bool :=
  !s.graph.contains r.id &&
    (s.replaced.contains r.id ||
      (!p.rules.sideBySide && (s.graph.nodesNamed r.name).any fun n => !n.installed))

/-- What the installed releases that stay need of a package. -/
def hints (p : Problem) (s : Selection) (name : String) : List Constraint :=
  if p.rules.sideBySide || !p.rules.follow then []
  else ((p.installed.dependentsOf name).filter fun d => !p.isLeaving s d.1).map Prod.snd

/-- The first candidate that satisfies the required constraints and the hints, or else the first
that satisfies the required constraints. -/
def choose (p : Problem) (s : Selection) (name : String) (required : List Constraint) :
    Option Graph.Node :=
  let hints := p.hints s name
  let fitting := (p.candidates s name).filter fun n =>
    required.all fun c => c.admits n.release.version
  (fitting.find? fun n => hints.all fun c => c.admits n.release.version).or fitting.head?

/-- The conflict of a requirement that no candidate satisfies. -/
def unsatisfiable (p : Problem) (name : String) (c : Constraint) (requirer : Requirer) :
    Conflict :=
  match ((p.available.package? name).or (p.installed.package? name)).bind (·.closest? c) with
  | none => .missing name [requirer.text]
  | some r => .unsatisfiable name (some r.version.text) c.text requirer.text

/-- The conflict of the requirements on a package that no candidate satisfies together. If any
version could satisfy them, only a release is wanting. -/
def incompatible (p : Problem) (s : Selection) (name : String) (c : Constraint)
    (requirer : Requirer) : Conflict :=
  if Constraint.pairwiseCompatible (s.constraintsOn name) then p.unsatisfiable name c requirer
  else .conflicting name ((s.requirementsOn name).map fun (r, c) => (r.label, c.text))

end Problem

end PackagePlanner
