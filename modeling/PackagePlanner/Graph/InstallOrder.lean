import PackagePlanner.Graph.Basic

/-!
An order of the nodes in which dependencies come before their dependents.

* `Graph.installOrder` walks depth first from each root in turn and lists a node when it leaves
  it. A node on the current path is not entered again, so a cycle is broken at the edge that
  closes it.
* `Graph.walk` holds the path as a stack of steps still to take.
-/

namespace PackagePlanner

namespace Graph

/-- A step of the walk: to go into a release, or to leave one whose dependencies are listed. -/
inductive Step where
  | enter (id : ReleaseId)
  | leave (id : ReleaseId)
deriving DecidableEq

/-- Takes the steps in turn. Entering a node not seen before first enters its targets; leaving it
lists it. -/
def walk (g : Graph) (unseen : List ReleaseId) (steps : List Step) : List ReleaseId :=
  match steps with
  | [] => []
  | .leave id :: rest => id :: walk g unseen rest
  | .enter id :: rest =>
    if id ∈ unseen then
      walk g (unseen.erase id) ((g.targets id).map .enter ++ .leave id :: rest)
    else walk g unseen rest
termination_by unseen.length * (g.edges.length + 2) + steps.length
decreasing_by
  · simp
  · rename_i h
    have shorter := List.length_erase_of_mem h
    have positive := List.length_pos_of_mem h
    have few := g.length_targets_le id
    obtain ⟨n, hn⟩ : ∃ n, unseen.length = n + 1 := ⟨unseen.length - 1, by omega⟩
    simp only [shorter, hn, Nat.add_sub_cancel, List.length_append, List.length_map,
      List.length_cons, Nat.add_mul, Nat.one_mul]
    omega
  · simp

/-- The nodes that the roots reach, each one after the targets of its edges unless a cycle
leads back to it. -/
def installOrder (g : Graph) (roots : List ReleaseId) : List ReleaseId :=
  g.walk g.nodes.keys (roots.map .enter)

end Graph

end PackagePlanner
