import PackagePlanner.Graph.Basic

/-!
What can be reached in a dependency graph.

* `Graph.reachable` lists the nodes that some roots reach along edges; each round of `gather`
  takes one node out of those not yet found, so cycles need no care.
* `Graph.retain` drops the other nodes.
-/

namespace PackagePlanner

namespace Graph

theorem mem_of_dropWhile_eq_cons {α : Type} [DecidableEq α] {remaining pending rest : List α}
    {a : α} (h : pending.dropWhile (fun b => !remaining.contains b) = a :: rest) :
    a ∈ remaining := by
  have hkept := List.head?_dropWhile_not (fun b => !remaining.contains b) pending
  rw [h] at hkept
  simpa using hkept

/-- The elements of `remaining` that are pending or follow from a pending one. -/
def gather {α : Type} [DecidableEq α] (next : α → List α) (remaining pending : List α) :
    List α :=
  match _found : pending.dropWhile fun a => !remaining.contains a with
  | [] => []
  | a :: rest => a :: gather next (remaining.erase a) (next a ++ rest)
termination_by remaining.length
decreasing_by
  have member := mem_of_dropWhile_eq_cons _found
  have smaller := List.length_erase_of_mem member
  have positive := List.length_pos_of_mem member
  omega

/-- The nodes that the roots reach along edges, the roots themselves included. -/
def reachable (g : Graph) (roots : List ReleaseId) : List ReleaseId :=
  gather g.targets g.nodes.keys roots

/-- The nodes that the roots do not reach, in order of selection. -/
def unreachable (g : Graph) (roots : List ReleaseId) : List Node :=
  let reached := g.reachable roots
  g.nodes.toList.filter fun n => !reached.contains n.id

/-- Drops the nodes that the roots do not reach, with the edges that leave them. -/
def retain (g : Graph) (roots : List ReleaseId) : Graph :=
  let dropped := (g.unreachable roots).map Node.id
  { nodes := g.nodes.filter fun n => !dropped.contains n.id
    edges := g.edges.filter fun e => !dropped.contains e.source }

end Graph

end PackagePlanner
