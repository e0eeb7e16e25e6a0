import PackagePlanner.Graph.Index
import PackagePlanner.Proofs.Graph.Reachability

/-!
The index of a graph answers as the graph itself does.

* `Indexed.Exact`: the index names just the sources of the edges that are there, package by package
  in their order, and each edge is there once. Every change keeps it so, though the index is not
  computed anew: `Exact.addEdge`, `Exact.remove`, `Exact.drop`.
* `Exact.requirementsOn_eq`: hence the index leads to the edges that a search through all of them
  finds, and to each of them once.
* `drop_eq`: removing nodes one by one takes out these nodes and their edges. `retains` says what
  this means for nodes that are not reached.
* `exact_build`: all of this holds of every graph that is built step by step.
-/

namespace PackagePlanner

namespace Graph

/-! ### Entries of the index -/

namespace Index

lemma requirers_insert (index : Index) (name : String) (ids : List ReleaseId) (other : String) :
    ({ entries := index.entries.insert ⟨name, ids⟩ } : Index).requirers other =
      if name = other then ids else index.requirers other := by
  by_cases h : name = other <;> simp [requirers, Keyed.find?_insert, h]

lemma requirers_erase (index : Index) (name other : String) :
    ({ entries := index.entries.erase name } : Index).requirers other =
      if name = other then [] else index.requirers other := by
  by_cases h : name = other <;> simp [requirers, Keyed.find?_erase, h]

lemma requirers_enter (index : Index) (name : String) (id : ReleaseId) (other : String) :
    (index.enter name id).requirers other =
      if name = other then
        if id ∈ index.requirers name then index.requirers name else index.requirers name ++ [id]
      else index.requirers other :=
  index.requirers_insert name _ other

lemma requirers_strike (index : Index) (name : String) (id : ReleaseId) (other : String) :
    (index.strike name id).requirers other =
      if name = other then (index.requirers name).filter (· != id) else index.requirers other := by
  rw [strike]
  split
  · rename_i hnone
    rw [requirers_erase, hnone]
  · rw [requirers_insert]

/-- Striking a release from the packages to which its edges lead takes it out of all entries. -/
lemma requirers_foldl_strike {index : Index} {id : ReleaseId} {es : List Edge} {name : String}
    (h : id ∈ index.requirers name → ∃ e ∈ es, e.target = name) :
    (es.foldl (fun index e => index.strike e.target id) index).requirers name =
      (index.requirers name).filter (· != id) := by
  induction es generalizing index with
  | nil =>
      have hnot : id ∉ index.requirers name := fun hid => by simpa using h hid
      rw [List.foldl_nil, List.filter_eq_self.mpr]
      intro other hother
      simpa using fun heq : other = id => hnot (heq ▸ hother)
  | cons e rest ih =>
      rw [List.foldl_cons, ih, requirers_strike]
      · split
        · rename_i hname
          rw [hname, List.filter_filter]
          simp
        · rfl
      · intro hid
        rw [requirers_strike] at hid
        split at hid
        · simp at hid
        · rename_i hname
          obtain ⟨f, hf, rfl⟩ := h hid
          exact ⟨f, (List.mem_cons.mp hf).resolve_left fun heq => hname (heq ▸ rfl), rfl⟩

end Index

/-! ### Changes of the edges -/

variable {g : Graph}

/-- The releases with an edge to a package, in the order of their first one. -/
lemma requirementsOn_eq (g : Graph) (name : String) :
    g.requirementsOn name =
      ((g.edges.filter fun e => e.target == name).map Edge.source).eraseDups.flatMap fun id =>
        (g.outgoing id).filter fun e => e.target == name := by
  rw [requirementsOn]
  refine List.flatMap_congr fun id _ => ?_
  rw [outgoing, List.filter_comm]

/-- What is required of a package is listed once. -/
lemma nodup_requirementsOn (h : g.edges.Nodup) (name : String) : (g.requirementsOn name).Nodup := by
  rw [requirementsOn_eq, List.nodup_flatMap]
  refine ⟨fun id _ => (h.filter _).filter _, (nodup_eraseDups _).imp fun hne => ?_⟩
  intro e he he'
  have hsource := (List.mem_filter.mp (List.mem_filter.mp he).1).2
  have hsource' := (List.mem_filter.mp (List.mem_filter.mp he').1).2
  exact hne ((beq_iff_eq.mp hsource).symm.trans (beq_iff_eq.mp hsource'))

lemma nodup_edges_addEdge (h : g.edges.Nodup) (e : Edge) : (g.addEdge e).edges.Nodup := by
  rw [addEdge]
  split
  · exact h
  · rename_i he
    exact List.nodup_append.mpr ⟨h, List.nodup_singleton e, by
      rintro f hf _ hmem rfl
      exact he (List.mem_singleton.mp hmem ▸ hf)⟩

/-- Removing a node takes out this node and the edges that leave it. -/
lemma remove_of_contains {id : ReleaseId} (h : g.contains id = true) :
    (g.remove id).nodes.toList = (g.nodes.toList.filter fun n => n.id != id) ∧
      (g.remove id).edges = g.edges.filter fun e => e.source != id := by
  rw [remove, if_pos h]
  exact ⟨rfl, rfl⟩

/-- The other nodes are found as before. -/
lemma node?_remove_of_ne {id other : ReleaseId} (h : other ≠ id) :
    (g.remove id).node? other = g.node? other := by
  rw [remove]
  split
  · rw [node?, Keyed.find?_erase, if_neg h.symm]
    rfl
  · rfl

namespace Indexed

/-- The index names the sources of the edges that are there. -/
structure Exact (x : Indexed) : Prop where
  /-- No edge is there twice. -/
  once : x.graph.edges.Nodup
  /-- The index has the sources of the edges to each package, each once. -/
  requirers : ∀ name, x.index.requirers name =
    ((x.graph.edges.filter fun e => e.target == name).map Edge.source).eraseDups

variable {x : Indexed}

namespace Exact

lemma empty : Exact {} where
  once := List.nodup_nil
  requirers _ := rfl

/-- The index leads to what a search through all edges finds. -/
theorem requirementsOn_eq (h : x.Exact) (name : String) :
    x.requirementsOn name = x.graph.requirementsOn name := by
  rw [Indexed.requirementsOn, h.requirers, Graph.requirementsOn_eq]

lemma addNode (h : x.Exact) (n : Node) : (x.addNode n).Exact :=
  ⟨h.once, h.requirers⟩

lemma addEdge (h : x.Exact) (e : Edge) : (x.addEdge e).Exact where
  once := nodup_edges_addEdge h.once e
  requirers name := by
    rw [Indexed.addEdge, Index.requirers_enter, h.requirers, h.requirers, Graph.addEdge]
    by_cases he : e ∈ x.graph.edges
    -- an equal edge has brought its source into the index
    · have hsource : e.source ∈
          ((x.graph.edges.filter fun f => f.target == e.target).map Edge.source).eraseDups :=
        List.mem_eraseDups.mpr (List.mem_map_of_mem (List.mem_filter.mpr ⟨he, beq_self_eq_true _⟩))
      rw [if_pos hsource, if_pos he]
      split
      · rename_i hname
        rw [hname]
      · rfl
    · rw [if_neg he, List.filter_append, List.map_append]
      by_cases hname : e.target = name
      · subst hname
        rw [if_pos rfl, List.filter_singleton, beq_self_eq_true, cond_true, List.map_singleton,
          eraseDups_concat]
        exact ite_congr (by rw [List.mem_eraseDups]) (fun _ => rfl) (fun _ => rfl)
      · rw [if_neg hname, List.filter_cons_of_neg (by simpa using hname), List.filter_nil,
          List.map_nil, List.append_nil]

lemma remove (h : x.Exact) (id : ReleaseId) : (x.remove id).Exact := by
  rw [Indexed.remove]
  split
  · rename_i hid
    obtain ⟨_, hedges⟩ := remove_of_contains hid
    refine ⟨hedges ▸ h.once.filter _, fun name => ?_⟩
    rw [Index.requirers_foldl_strike, h.requirers, ← eraseDups_filter, hedges, List.filter_comm,
      List.filter_map]
    · rfl
    · rw [h.requirers, List.mem_eraseDups, List.mem_map]
      rintro ⟨e, he, hsource⟩
      obtain ⟨he, hname⟩ := List.mem_filter.mp he
      exact ⟨e, List.mem_filter.mpr ⟨he, beq_iff_eq.mpr hsource⟩, beq_iff_eq.mp hname⟩
  · exact h

lemma drop (h : x.Exact) (ids : List ReleaseId) : (x.drop ids).1.Exact := by
  induction ids generalizing x with
  | nil => exact h
  | cons id rest ih => exact ih (h.remove id)

end Exact

/-! ### Dropping nodes -/

lemma graph_remove (x : Indexed) (id : ReleaseId) : (x.remove id).graph = x.graph.remove id := by
  rw [Indexed.remove, Graph.remove]
  split <;> rfl

/-- Nodes that are removed one by one are taken out with the edges that leave them. -/
lemma drop_eq {ids : List ReleaseId} (hids : ∀ id ∈ ids, x.graph.contains id = true)
    (honce : ids.Nodup) :
    (x.drop ids).1.graph.nodes.toList = (x.graph.nodes.toList.filter fun n => !ids.contains n.id) ∧
      (x.drop ids).1.graph.edges = (x.graph.edges.filter fun e => !ids.contains e.source) ∧
        (x.drop ids).2 = ids.filterMap x.graph.node? := by
  induction ids generalizing x with
  | nil => simp [drop]
  | cons id rest ih =>
      obtain ⟨hid, hrest⟩ := List.forall_mem_cons.mp hids
      obtain ⟨hnew, honce⟩ := List.nodup_cons.mp honce
      have hne : ∀ other ∈ rest, other ≠ id := fun other hother heq => hnew (heq ▸ hother)
      -- the others are still there, and still the same nodes
      have hleft : ∀ other ∈ rest, (x.remove id).graph.contains other = true := fun other hother =>
        graph_remove x id ▸ contains_remove_iff.mpr ⟨hrest other hother, hne other hother⟩
      obtain ⟨hnodes, hedges, hdropped⟩ := ih hleft honce
      obtain ⟨hnodes', hedges'⟩ := remove_of_contains hid
      rw [graph_remove] at hnodes hedges hdropped
      refine ⟨?_, ?_, ?_⟩
      · simp only [drop, hnodes, hnodes', List.filter_filter, List.contains_cons, Bool.not_or, bne,
          Bool.and_comm]
      · simp only [drop, hedges, hedges', List.filter_filter, List.contains_cons, Bool.not_or, bne,
          Bool.and_comm]
      · have hsame : rest.filterMap (x.graph.remove id).node? = rest.filterMap x.graph.node? :=
          List.filterMap_congr fun other hother => node?_remove_of_ne (hne other hother)
        obtain ⟨n, hn, hkey⟩ := contains_iff.mp hid
        simp only [drop, hdropped, hsame, List.filterMap_cons, node?_eq_some_iff.mpr ⟨hn, hkey⟩,
          Option.toList_some, List.singleton_append]

lemma nodup_unreachable_ids (g : Graph) (roots : List ReleaseId) :
    ((g.unreachable roots).map Node.id).Nodup :=
  g.nodes.nodup.sublist (List.filter_sublist.map Node.id)

/-- Dropping unreached nodes one by one is dropping them at once. -/
lemma retain_eq (x : Indexed) (roots : List ReleaseId) :
    (x.retain roots).1.graph = x.graph.retain roots ∧
      (x.retain roots).2 = x.graph.unreachable roots := by
  obtain ⟨hnodes, hedges, hdropped⟩ :=
    drop_eq (fun id hid => (mem_unreachable_ids_iff.mp hid).1) (nodup_unreachable_ids x.graph roots)
  refine ⟨Graph.ext (Keyed.ext hnodes) hedges, ?_⟩
  rw [retain, hdropped, List.filterMap_map]
  calc (x.graph.unreachable roots).filterMap (x.graph.node? ∘ Node.id)
      = (x.graph.unreachable roots).filterMap some :=
        List.filterMap_congr fun n hn =>
          node?_eq_some_iff.mpr ⟨(List.mem_filter.mp hn).1, rfl⟩
    _ = x.graph.unreachable roots := List.filterMap_some

lemma Exact.retain (h : x.Exact) (roots : List ReleaseId) : (x.retain roots).1.Exact :=
  h.drop _

end Indexed

/-! ### Graphs built step by step -/

/-- A change of a graph. -/
inductive Edit where
  | addNode (n : Node)
  | addEdge (e : Edge)
  | remove (id : ReleaseId)
  | retain (roots : List ReleaseId)
deriving DecidableEq

/-- The graph after a change. -/
def edit (g : Graph) : Edit → Graph
  | .addNode n => g.addNode n
  | .addEdge e => g.addEdge e
  | .remove id => g.remove id
  | .retain roots => g.retain roots

namespace Indexed

/-- The graph after a change, with its index. -/
def edit (x : Indexed) : Edit → Indexed
  | .addNode n => x.addNode n
  | .addEdge e => x.addEdge e
  | .remove id => x.remove id
  | .retain roots => (x.retain roots).1

/-- What becomes of the graph without nodes and edges by some changes. -/
def build (edits : List Edit) : Indexed :=
  edits.foldl edit {}

variable {x : Indexed}

/-- A change keeps the index exact. -/
lemma Exact.edit (h : x.Exact) (change : Edit) : (x.edit change).Exact := by
  cases change with
  | addNode n => exact h.addNode n
  | addEdge e => exact h.addEdge e
  | remove id => exact h.remove id
  | retain roots => exact h.retain roots

/-- The index does not bear on the graph. -/
lemma graph_edit (x : Indexed) (change : Edit) :
    (x.edit change).graph = x.graph.edit change := by
  cases change with
  | addNode n => rfl
  | addEdge e => rfl
  | remove id => exact graph_remove x id
  | retain roots => exact (retain_eq x roots).1

/-- However a graph is built, its index is exact. -/
lemma Exact.build (edits : List Edit) : (build edits).Exact :=
  List.foldlRecOn edits Indexed.edit Exact.empty fun _ hx change _ => Exact.edit hx change

lemma graph_build (edits : List Edit) :
    (build edits).graph = edits.foldl Graph.edit .empty :=
  (List.foldl_hom graph fun y change => (graph_edit y change).symm).symm

/-- What leads to a package is found, each edge once. -/
structure Answers (x : Indexed) : Prop where
  /-- An edge is stored once. -/
  once : x.graph.edges.Nodup
  /-- The index leads to what a search through all edges finds. -/
  search : ∀ name, x.requirementsOn name = x.graph.requirementsOn name
  /-- The requirements on a package are the edges that lead to it. -/
  perm : ∀ name, (x.requirementsOn name).Perm (x.graph.edges.filter fun e => e.target == name)

/-- Removing a node takes out the node and the edges that leave it. -/
structure Removes (x : Indexed) (id : ReleaseId) : Prop where
  nodes : (x.remove id).graph.nodes.toList = x.graph.nodes.toList.filter fun n => n.id != id
  edges : (x.remove id).graph.edges = x.graph.edges.filter fun e => e.source != id

/-- Dropping what the roots do not reach divides the nodes, and changes nothing for the others. -/
structure Retains (x : Indexed) (roots : List ReleaseId) : Prop where
  /-- What the roots reach is kept in its order. -/
  kept : (x.retain roots).1.graph.nodes.toList =
    x.graph.nodes.toList.filter fun n => n.id ∈ x.graph.reachable roots
  /-- What the roots do not reach is returned in its order. -/
  dropped : (x.retain roots).2 =
    x.graph.nodes.toList.filter fun n => n.id ∉ x.graph.reachable roots
  /-- A kept node has the edges that it had. -/
  outgoing : ∀ id ∈ x.graph.reachable roots,
    (x.retain roots).1.graph.outgoing id = x.graph.outgoing id
  /-- They lead to the nodes to which they led, and nowhere if they led nowhere. -/
  targets : ∀ e ∈ x.graph.edges, e.source ∈ x.graph.reachable roots →
    (x.retain roots).1.graph.target? e.target e.constraint = x.graph.target? e.target e.constraint
  /-- Once this is done there is nothing more to drop. -/
  again : (x.retain roots).1.retain roots = ((x.retain roots).1, [])

lemma Exact.answers (h : x.Exact) : x.Answers where
  once := h.once
  search := h.requirementsOn_eq
  perm name := by
    rw [h.requirementsOn_eq, List.perm_ext_iff_of_nodup (nodup_requirementsOn h.once name)
      (h.once.filter _)]
    intro e
    rw [mem_requirementsOn_iff, List.mem_filter, beq_iff_eq]

lemma removes {id : ReleaseId} (h : x.graph.contains id = true) : x.Removes id where
  nodes := graph_remove x id ▸ (remove_of_contains h).1
  edges := graph_remove x id ▸ (remove_of_contains h).2

lemma retains (x : Indexed) (roots : List ReleaseId) : x.Retains roots := by
  obtain ⟨hkept, hdropped⟩ := retain_eq x roots
  refine ⟨?_, ?_, ?_, ?_, ?_⟩
  · rw [hkept, toList_nodes_retain]
  · rw [hdropped, unreachable]
    simp only [List.contains_eq_mem, decide_not]
  · exact fun id hid => hkept ▸ outgoing_retain hid
  · exact fun e he hsource => hkept ▸ target?_retain_of_mem he hsource
  · rw [retain, hkept, unreachable_retain, List.map_nil, drop]

/-- However a graph is built, it is the one that the same changes make without an index. Looking up
what leads to a package gives the edges that do, removing a node removes it and what leaves it, and
dropping what some roots do not reach drops just that. -/
theorem exact_build (edits : List Edit) :
    (build edits).graph = edits.foldl Graph.edit .empty ∧
      (build edits).Answers ∧
      (∀ id, (build edits).graph.contains id = true → (build edits).Removes id) ∧
      ∀ roots, (build edits).Retains roots :=
  ⟨graph_build edits, (Exact.build edits).answers, fun _ => removes, retains _⟩

/-- An application with two constraints on a library, which is added again after them as one of them
is; a tool that needs the library too; and a release that needs it and is no node. -/
def libraryInDemand : List Edit :=
  let one : Version := ⟨1, 0, 0⟩
  [.addNode ⟨{ name := "tool", version := one }, false⟩, .addEdge ⟨⟨"tool", one⟩, "lib", .any⟩,
    .addNode ⟨{ name := "app", version := one }, false⟩,
    .addEdge ⟨⟨"app", one⟩, "lib", .atLeast one⟩, .addEdge ⟨⟨"app", one⟩, "lib", .atMost one⟩,
    .addEdge ⟨⟨"plugin", one⟩, "lib", .any⟩, .addNode ⟨{ name := "lib", version := one }, true⟩,
    .addNode ⟨{ name := "app", version := one }, true⟩,
    .addEdge ⟨⟨"app", one⟩, "lib", .atLeast one⟩]

/-- The application has two edges to the library. Its removal leaves the edges of the others, and it
does not reach the tool. -/
theorem exact_build_libraryInDemand :
    let one : Version := ⟨1, 0, 0⟩
    let app : ReleaseId := ⟨"app", one⟩
    let x := build libraryInDemand
    (x.requirementsOn "lib").map (fun e => (e.source.name, e.constraint)) =
        [("tool", .any), ("app", .atLeast one), ("app", .atMost one), ("plugin", .any)] ∧
      x.graph.contains app = true ∧
      ((x.remove app).requirementsOn "lib").map (fun e => e.source.name) = ["tool", "plugin"] ∧
      (x.retain [app]).2.map Node.id = [⟨"tool", one⟩] ∧
      x.Answers ∧ x.Removes app ∧ x.Retains [app] := by
  have hcontains : (build libraryInDemand).graph.contains ⟨"app", ⟨1, 0, 0⟩⟩ = true := by
    decide +kernel
  obtain ⟨_, hanswers, hremoves, hretains⟩ := exact_build libraryInDemand
  exact ⟨by decide +kernel, hcontains, by decide +kernel, by decide +kernel, hanswers,
    hremoves _ hcontains, hretains _⟩

end Indexed

end Graph

end PackagePlanner
