import PackagePlanner.Graph.Reachable

/-!
Dependency graphs with an index of who needs a package.

* `Graph.Index` holds, for each package that an edge leads to, the releases that have such an edge.
* `Graph.Indexed` is a graph with its index. `Indexed.requirementsOn` looks at the releases that the
  index names instead of at all edges; every change of the graph changes the index by what it adds
  and removes.
-/

namespace PackagePlanner

namespace Graph

/-! ### The index -/

/-- The releases that have an edge to a package, in the order of their first one. -/
structure Requirers where
  name : String
  ids : List ReleaseId
deriving DecidableEq

/-- The requirers of packages, by the names of the packages. -/
structure Index where
  entries : Keyed Requirers.name := .empty

namespace Index

/-- The releases that have an edge to a package. -/
def requirers (index : Index) (name : String) : List ReleaseId :=
  match index.entries.find? name with
  | some entry => entry.ids
  | none => []

/-- Notes that a release has an edge to a package; further edges to it make no difference. -/
def enter (index : Index) (name : String) (id : ReleaseId) : Index :=
  let ids := index.requirers name
  { entries := index.entries.insert ⟨name, if id ∈ ids then ids else ids ++ [id]⟩ }

/-- Notes that a release has no edge to a package any more. A package that nobody requires has no
entry. -/
def strike (index : Index) (name : String) (id : ReleaseId) : Index :=
  match (index.requirers name).filter (· != id) with
  | [] => { entries := index.entries.erase name }
  | left => { entries := index.entries.insert ⟨name, left⟩ }

end Index

/-! ### Graphs with an index -/

/-- A graph and the requirers of the packages to which its edges lead. -/
structure Indexed where
  graph : Graph := .empty
  index : Index := {}

namespace Indexed

/-- The edges that lead to a package, those of one release together. -/
def requirementsOn (x : Indexed) (name : String) : List Edge :=
  (x.index.requirers name).flatMap fun id =>
    (x.graph.outgoing id).filter fun e => e.target == name

/-- Adds a node. Edges of its release may be there already, and are indexed. -/
def addNode (x : Indexed) (n : Node) : Indexed :=
  { x with graph := x.graph.addNode n }

/-- Adds an edge, unless there is an equal one. -/
def addEdge (x : Indexed) (e : Edge) : Indexed where
  graph := x.graph.addEdge e
  index := x.index.enter e.target e.source

/-- Removes a node with the edges that leave it, and strikes it from the packages these led to. -/
def remove (x : Indexed) (id : ReleaseId) : Indexed :=
  if x.graph.contains id then
    { graph := x.graph.remove id
      index := (x.graph.outgoing id).foldl (fun index e => index.strike e.target id) x.index }
  else x

/-- Removes nodes one by one. What is left comes with the nodes that were there. -/
def drop (x : Indexed) : List ReleaseId → Indexed × List Node
  | [] => (x, [])
  | id :: rest =>
    let (left, dropped) := (x.remove id).drop rest
    (left, (x.graph.node? id).toList ++ dropped)

/-- Drops the nodes that the roots do not reach. -/
def retain (x : Indexed) (roots : List ReleaseId) : Indexed × List Node :=
  x.drop ((x.graph.unreachable roots).map Node.id)

end Indexed

end Graph

end PackagePlanner
