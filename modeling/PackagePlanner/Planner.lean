import PackagePlanner.Resolution.Outcome

/-!
The three operations on a project.

* `Planner.install` plans a package with what it needs.
* `Planner.remove` plans to take releases out, dependents first; nobody who stays may need them.
* `Planner.upgrade` plans the newest releases of installed packages, and upgrades with them the
  dependents that would not accept these.
* `Planner.installSelection` and `Planner.upgradeSelection` are what these two choose; the plan
  carries it out.

Constraints are given as texts, and a text that is none is an error.
-/

namespace PackagePlanner

/-- A project and a repository, and whether releases of one package may stand side by side. -/
structure Planner where
  available : Catalog
  installed : Catalog
  sideBySide : Bool := false

namespace Planner

/-- The constraint of an operation. -/
def constraint (text : String) : Except PlanError Constraint :=
  (Constraint.parse text).mapError .malformed

/-! ### Installing -/

/-- What an install starts from. -/
def installProblem (p : Planner) (follow : Bool) : Problem :=
  { available := p.available, installed := p.installed,
    rules := { sideBySide := p.sideBySide, follow, cascade := false } }

/-- What is chosen to install a version of an available package. An installed version is kept if
the constraint accepts it. -/
def installSelection (p : Planner) (name text : String) (follow : Bool) :
    Except PlanError Selection :=
  match p.available.package? name with
  | none => .error (.unknownPackage name)
  | some package =>
    match constraint text with
    | .error e => .error e
    | .ok c =>
      if (package.find? c).isNone && (p.installed.find? name c).isNone then
        .error (.unknownVersion name text)
      else
        match (p.installProblem follow).request {} name c with
        | .error conflict => .error (.resolution conflict)
        | .ok s => (p.installProblem follow).finish s

/-- Plans to install a version of an available package. -/
def install (p : Planner) (name text : String) (follow : Bool) : Except PlanError Plan :=
  (p.installSelection name text follow).map (p.installProblem follow).planOf

/-! ### Removing -/

/-- The installed releases of some packages that a constraint accepts; each package must have
one. -/
def matched (p : Planner) (c : Constraint) (names : List String) :
    Except PlanError (List Release) :=
  match names with
  | [] => .ok []
  | name :: rest =>
    match ((p.installed.package? name).map fun package => package.matching c).getD [] with
    | [] => .error (.notInstalled name)
    | found =>
      match p.matched c rest with
      | .error e => .error e
      | .ok others => .ok (found ++ others)

/-- The first package of the batch that a release outside the batch still needs. -/
def blocked? (p : Planner) (removing : Keyed Release.id) : Option PlanError :=
  removing.toList.findSome? fun r =>
    ((p.installed.dependentsOf r.name).find? fun d =>
      !removing.contains d.1.id && !(p.installed.releasesOf r.name).any fun q =>
        !removing.contains q.id && d.2.admits q.version).map
          fun d => .hasDependent r.name d.1.name

/-- The graph of some releases with all they declare. -/
def batchGraph (removing : Keyed Release.id) : Graph :=
  let nodes := removing.toList.foldl (fun g r => g.addNode ⟨r, true⟩) Graph.empty
  removing.toList.foldl
    (fun g r => r.dependencies.toList.foldl
      (fun g d => g.addEdge ⟨r.id, d.name, d.constraint⟩) g)
    nodes

/-- The releases of a batch, dependents before what they depend on. -/
def removalOrder (removing : Keyed Release.id) : List Release :=
  ((batchGraph removing).installOrder removing.keys).reverse.filterMap removing.find?

/-- Plans to remove the accepted releases of some packages together. -/
def remove (p : Planner) (names : List String) (text : String) (follow : Bool) :
    Except PlanError Plan :=
  match constraint text with
  | .error e => .error e
  | .ok c =>
    match p.matched c names with
    | .error e => .error e
    | .ok found =>
      let removing := Keyed.ofList found
      match if follow then p.blocked? removing else none with
      | some e => .error e
      | none => .ok { removed := removalOrder removing }

/-! ### Upgrading -/

/-- What an upgrade starts from. -/
def upgradeProblem (p : Planner) (follow : Bool) : Problem :=
  { available := p.available, installed := p.installed,
    rules := { sideBySide := p.sideBySide, follow, cascade := true } }

/-- The newest installed release of each package. -/
def newestInstalled (p : Planner) (names : List String) : Except PlanError (List Release) :=
  names.mapM fun name =>
    match (p.installed.package? name).bind Package.newest? with
    | some r => .ok r
    | none => .error (.notInstalled name)

/-- The newest accepted release of a package that is newer than the given one. -/
def upgradeOf (p : Planner) (c : Constraint) (r : Release) : Option Release :=
  match p.available.package? r.name with
  | some package => (package.newerThan r.version).find? fun q => c.admits q.version
  | none => none

/-- Asks for the upgrade of each of some installed releases; one without an upgrade is left
alone. -/
def pinUpgrades (p : Planner) (follow : Bool) (c : Constraint) (s : Selection) :
    List Release → Except Conflict Selection
  | [] => .ok s
  | r :: rest =>
    match p.upgradeOf c r with
    | none => pinUpgrades p follow c s rest
    | some wanted =>
      match (p.upgradeProblem follow).pin s wanted (some r) with
      | .error conflict => .error conflict
      | .ok t => pinUpgrades p follow c t rest

/-- What is chosen to upgrade installed packages to the newest accepted versions. -/
def upgradeSelection (p : Planner) (names : List String) (text : String) (follow : Bool) :
    Except PlanError Selection :=
  match constraint text with
  | .error e => .error e
  | .ok c =>
    match p.newestInstalled names with
    | .error e => .error e
    | .ok current =>
      match p.pinUpgrades follow c {} current with
      | .error conflict => .error (.resolution conflict)
      | .ok s => (p.upgradeProblem follow).finish s

/-- Plans to upgrade installed packages to the newest accepted versions. -/
def upgrade (p : Planner) (names : List String) (text : String) (follow : Bool) :
    Except PlanError Plan :=
  (p.upgradeSelection names text follow).map (p.upgradeProblem follow).planOf

end Planner

end PackagePlanner
