import PackagePlanner.Release

/-!
Dependency graphs: selected releases and the dependencies between them.

* A node is a release; an edge leads from a release to a package name with a constraint. Which
  node an edge leads to is not stored: `target?` is the newest node of that name which the
  constraint accepts, so an edge survives when another release is selected for the name.
* `requirementsOn` is the other direction: the edges that lead to a package name.
-/

namespace PackagePlanner

/-- A selected release, and whether the project has it already. -/
structure Graph.Node where
  release : Release
  installed : Bool
deriving DecidableEq

/-- The name of the release of a node. -/
def Graph.Node.id (n : Graph.Node) : ReleaseId := n.release.id

/-- A dependency of the release `source` on the package `target`. -/
structure Graph.Edge where
  source : ReleaseId
  target : String
  constraint : Constraint
deriving DecidableEq

/-- Nodes in order of selection, and edges in order of addition. -/
@[ext] structure Graph where
  nodes : Keyed Graph.Node.id := .empty
  edges : List Graph.Edge := []
deriving DecidableEq

namespace Graph

/-- The graph without nodes and edges. -/
def empty : Graph := {}

@[simp] theorem nodes_empty : empty.nodes = .empty := rfl

@[simp] theorem edges_empty : empty.edges = [] := rfl

/-! ### Looking up -/

/-- The node of a release. -/
def node? (g : Graph) (id : ReleaseId) : Option Node := g.nodes.find? id

/-- Whether a release is selected. -/
def contains (g : Graph) (id : ReleaseId) : Bool := g.nodes.contains id

/-- The selected releases of a package. -/
def nodesNamed (g : Graph) (name : String) : List Node :=
  g.nodes.toList.filter fun n => n.release.name == name

/-- The node of the newest release among some nodes. -/
def newestOf : List Node → Option Node
  | [] => none
  | n :: rest =>
    match newestOf rest with
    | none => some n
    | some m => some (if (compare n.release.version m.release.version).isLE then m else n)

/-- The newest selected release of a package that a constraint accepts. -/
def target? (g : Graph) (name : String) (constraint : Constraint) : Option Node :=
  newestOf ((g.nodesNamed name).filter fun n => constraint.admits n.release.version)

/-- The edges that leave a release. -/
def outgoing (g : Graph) (id : ReleaseId) : List Edge :=
  g.edges.filter fun e => e.source == id

/-- The releases that the edges of a release lead to. -/
def targets (g : Graph) (id : ReleaseId) : List ReleaseId :=
  (g.outgoing id).filterMap fun e => (g.target? e.target e.constraint).map Node.id

/-- The edges that lead to a package, those of one release together, the releases in the order
of their first such edge. -/
def requirementsOn (g : Graph) (name : String) : List Edge :=
  let incoming := g.edges.filter fun e => e.target == name
  (incoming.map Edge.source).eraseDups.flatMap fun id =>
    incoming.filter fun e => e.source == id

/-! ### Changing -/

/-- Adds a node; one of the same release gives way in its place. -/
def addNode (g : Graph) (n : Node) : Graph :=
  { g with nodes := g.nodes.insert n }

/-- Adds an edge, unless there is an equal one. -/
def addEdge (g : Graph) (e : Edge) : Graph :=
  if e ∈ g.edges then g else { g with edges := g.edges ++ [e] }

/-- Removes a node with the edges that leave it; edges of a release that is no node stay. -/
def remove (g : Graph) (id : ReleaseId) : Graph :=
  if g.contains id then
    { nodes := g.nodes.erase id, edges := g.edges.filter fun e => e.source != id }
  else g

/-! ### Counting -/

/-- Counts of nodes and edges. -/
structure Stats where
  packages : Nat
  dependencies : Nat
  maxDependencies : Nat
  maxDependents : Nat
deriving DecidableEq, Repr

/-- How large a graph is, how many edges leave one release at most, and how many releases have
an edge to one package at most. -/
def stats (g : Graph) : Stats where
  packages := g.nodes.toList.length
  dependencies := g.edges.length
  maxDependencies := ((g.edges.map Edge.source).eraseDups.map fun id =>
    (g.outgoing id).length).foldl max 0
  maxDependents := ((g.edges.map Edge.target).eraseDups.map fun name =>
    ((g.requirementsOn name).map Edge.source).eraseDups.length).foldl max 0

theorem contains_addNode {g : Graph} {n : Node} {id : ReleaseId} :
    (g.addNode n).contains id = (g.contains id || n.id == id) :=
  Keyed.contains_insert

/-! ### Sizes -/

theorem length_targets_le (g : Graph) (id : ReleaseId) :
    (g.targets id).length ≤ g.edges.length :=
  Nat.le_trans (List.length_filterMap_le _ _) (List.length_filter_le _ _)

theorem mem_of_newestOf {ns : List Node} {n : Node} (h : newestOf ns = some n) : n ∈ ns := by
  induction ns generalizing n with
  | nil => simp [newestOf] at h
  | cons m rest ih =>
    simp only [newestOf] at h
    split at h
    · simp_all
    · rename_i k hk
      have := ih hk
      split at h <;> simp_all

theorem target?_eq_none_iff {g : Graph} {name : String} {c : Constraint} :
    g.target? name c = none ↔
      ∀ n ∈ g.nodes.toList, n.release.name = name → c.admits n.release.version = false := by
  have key (ns : List Node) : newestOf ns = none ↔ ns = [] := by
    cases ns with
    | nil => simp [newestOf]
    | cons m rest =>
      simp only [newestOf]
      split <;> simp
  simp only [target?, key, nodesNamed, List.filter_eq_nil_iff, List.mem_filter, beq_iff_eq,
    Bool.not_eq_true, and_imp]

end Graph

end PackagePlanner
