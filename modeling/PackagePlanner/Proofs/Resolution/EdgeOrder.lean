import PackagePlanner.Proofs.Resolution.Sound

/-!
In which order the edges of a release are added.

* `Selection.Arranged`: the edges of a node are the first of the dependencies that it declares, and
  the next task for the node goes on with the others.
* `Arranged.move`: each move keeps this, so that in the end the edges of a node are all that it
  declares, in the order of the declaration (`Arranged.outgoing_eq`).

Several tasks may follow one release. If its choice is taken back and made again while its
dependencies are followed, the task for the first choice waits behind the one for the second. By the
time it comes up the edges are complete, and it adds none. So only the next task counts.
-/

namespace PackagePlanner

namespace Graph

/-! ### The edges of one release -/

lemma mem_outgoing_iff {g : Graph} {e : Edge} {id : ReleaseId} :
    e ∈ g.outgoing id ↔ e ∈ g.edges ∧ e.source = id := by
  rw [outgoing, List.mem_filter, beq_iff_eq]

lemma outgoing_addEdge {g : Graph} {e : Edge} {id : ReleaseId} :
    (g.addEdge e).outgoing id =
      if e.source = id ∧ e ∉ g.outgoing id then g.outgoing id ++ [e] else g.outgoing id := by
  rw [addEdge]
  by_cases he : e ∈ g.edges <;> by_cases hid : e.source = id <;> simp [he, hid, outgoing]

lemma outgoing_remove_of_ne {g : Graph} {id id' : ReleaseId} (h : id ≠ id') :
    (g.remove id').outgoing id = g.outgoing id := by
  rw [remove]
  split
  · rw [outgoing, List.filter_filter]
    refine List.filter_congr fun e _ => ?_
    by_cases he : e.source = id <;> simp [he, h]
  · rfl

lemma outgoing_foldl_remove {g : Graph} {ids : List ReleaseId} {id : ReleaseId} (h : id ∉ ids) :
    (ids.foldl remove g).outgoing id = g.outgoing id := by
  induction ids generalizing g with
  | nil => rfl
  | cons id' rest ih =>
      rw [List.mem_cons, not_or] at h
      rw [List.foldl_cons, ih h.2, outgoing_remove_of_ne h.1]

end Graph

/-- The edge of a dependency that a release declares. -/
def Dependency.edge (d : Dependency) (source : ReleaseId) : Graph.Edge :=
  ⟨source, d.name, d.constraint⟩

/-- A release declares no edge twice. -/
lemma Release.nodup_edges (r : Release) (source : ReleaseId) :
    (r.dependencies.toList.map (·.edge source)).Nodup := by
  refine List.Nodup.of_map Graph.Edge.target ?_
  rw [List.map_map]
  exact r.dependencies.nodup

/-- The dependencies of a release that the next task for it goes on with. -/
def Task.upcoming (id : ReleaseId) : List Task → List Dependency
  | [] => []
  | .require name c (.release source) :: rest =>
    if source = id then ⟨name, c⟩ :: upcoming id rest else upcoming id rest
  | .follow source deps :: rest => if source = id then deps else upcoming id rest
  | _ :: rest => upcoming id rest

namespace Selection

lemma outgoing_note {s : Selection} {name : String} {c : Constraint} {id id' : ReleaseId} :
    (s.note name c (.release id')).graph.outgoing id =
      if id' = id ∧ (⟨name, c⟩ : Dependency).edge id ∉ s.graph.outgoing id then
        s.graph.outgoing id ++ [(⟨name, c⟩ : Dependency).edge id]
      else s.graph.outgoing id := by
  rw [note, Graph.outgoing_addEdge]
  by_cases h : id' = id <;> simp [h, Dependency.edge]

/-- The edges of a node are the first of its declared dependencies, and the next task for it goes on
with the others, if there are any. -/
def Arranged (s : Selection) (tasks : List Task) : Prop :=
  ∀ n ∈ s.graph.nodes.toList, ∃ rest,
    s.graph.outgoing n.id ++ rest.map (·.edge n.id) =
        n.release.dependencies.toList.map (·.edge n.id) ∧
      (rest = [] ∨ rest = Task.upcoming n.id tasks)

namespace Arranged

open Problem

variable {p : Problem} {s t : Selection} {tasks tasks' : List Task}

/-- Once nothing is left to do the edges of a node are its dependencies. -/
lemma outgoing_eq (h : s.Arranged []) {n : Graph.Node} (hn : n ∈ s.graph.nodes.toList) :
    s.graph.outgoing n.id = n.release.dependencies.toList.map (·.edge n.id) := by
  obtain ⟨rest, hout, hrest⟩ := h n hn
  obtain rfl : rest = [] := hrest.elim id id
  simpa using hout

/-- Of the graph only the nodes with their edges matter, and of the tasks what they go on with. -/
lemma mono (h : s.Arranged tasks) (hnodes : t.graph.nodes.toList ⊆ s.graph.nodes.toList)
    (hout : ∀ n ∈ t.graph.nodes.toList, t.graph.outgoing n.id = s.graph.outgoing n.id)
    (htasks : ∀ n ∈ t.graph.nodes.toList, Task.upcoming n.id tasks = [] ∨
      Task.upcoming n.id tasks' = Task.upcoming n.id tasks) :
    t.Arranged tasks' := by
  intro n hn
  obtain ⟨rest, hrest, hupcoming⟩ := h n (hnodes hn)
  rw [← hout n hn] at hrest
  refine ⟨rest, hrest, hupcoming.elim .inl fun heq => ?_⟩
  exact (htasks n hn).imp heq.trans fun hsame => heq.trans hsame.symm

/-! ### The changes one by one -/

/-- Noting a dependency adds its edge behind those of the dependencies before it. -/
lemma note {name : String} {c : Constraint} {requirer : Requirer}
    (h : s.Arranged (.require name c requirer :: tasks))
    (hg : p.Grounded s (.require name c requirer)) :
    (s.note name c requirer).Arranged tasks := by
  cases requirer with
  | request => exact h.mono (List.Subset.refl _) (fun _ _ => rfl) fun _ _ => .inr rfl
  | release id =>
      intro n hn
      rw [nodes_note] at hn
      obtain ⟨rest, hout, hrest⟩ := h n hn
      rw [outgoing_note]
      rw [Task.upcoming] at hrest
      by_cases hid : id = n.id
      · obtain ⟨m, hm, rfl, hd⟩ := hg
        obtain rfl := Keyed.eq_of_mem hm hn hid
        rw [if_pos rfl] at hrest
        rcases hrest with rfl | rfl
        -- the edges are complete, for the release was followed by another task meanwhile
        · rw [List.map_nil, List.append_nil] at hout
          have hold : (⟨name, c⟩ : Dependency).edge m.id ∈ s.graph.outgoing m.id :=
            hout ▸ List.mem_map_of_mem hd
          rw [if_neg fun hnew => hnew.2 hold]
          exact ⟨[], by simpa using hout, .inl rfl⟩
        · have hnodup := hout ▸ m.release.nodup_edges m.id
          have hnew : (⟨name, c⟩ : Dependency).edge m.id ∉ s.graph.outgoing m.id := fun hold =>
            (List.nodup_append.mp hnodup).2.2 _ hold _ (List.mem_map_of_mem List.mem_cons_self) rfl
          exact ⟨Task.upcoming m.id tasks, by simp [hnew, ← hout], .inr rfl⟩
      · rw [if_neg hid] at hrest
        exact ⟨rest, by simp [hid, hout], hrest⟩

/-- A release that is chosen has no edges yet, and all its dependencies are to come. -/
lemma select {n : Graph.Node} (h : s.Arranged tasks) (hc : p.Coherent s tasks')
    (hfollow : p.rules.follow = true) (hfresh : ∀ m ∈ s.graph.nodes.toList, m.id ≠ n.id) :
    (p.select s n).1.Arranged ((p.select s n).2 ++ tasks) := by
  rw [hc.select_eq hfresh, if_pos hfollow]
  intro m hm
  rcases Graph.mem_nodes_addNode_iff.mp hm with rfl | ⟨hm, hne⟩
  · have hnone : s.graph.outgoing m.id = [] := by
      rw [List.eq_nil_iff_forall_not_mem]
      intro e he
      obtain ⟨he, hsource⟩ := Graph.mem_outgoing_iff.mp he
      obtain ⟨k, hk, hid, _⟩ := hc.declared e he
      exact hfresh k hk (hid.trans hsource)
    refine ⟨m.release.dependencies.toList, ?_, .inr (by simp [Task.upcoming])⟩
    rw [Graph.outgoing, Graph.edges_addNode, ← Graph.outgoing, hnone, List.nil_append]
  · obtain ⟨rest, hout, hrest⟩ := h m hm
    refine ⟨rest, hout, ?_⟩
    simpa [Task.upcoming, hne.symm] using hrest

/-- Taking the choices for a package back leaves the edges of the others. -/
lemma deselect (h : s.Arranged tasks) (name : String) : (s.deselect name).Arranged tasks := by
  refine h.mono (fun n hn => (mem_nodes_deselect_iff.mp hn).1) (fun n hn => ?_) fun _ _ => .inr rfl
  refine Graph.outgoing_foldl_remove fun hid => ?_
  exact (mem_nodes_deselect_iff.mp hn).2 (mem_old_ids_iff.mp hid).2

/-- Dropping leaves the edges of what is kept. -/
lemma prune (h : s.Arranged (.prune :: tasks)) : s.prune.Arranged tasks :=
  h.mono (fun _ hn => (mem_nodes_prune_iff.mp hn).1)
    (fun _ hn => Graph.outgoing_retain (mem_nodes_prune_iff.mp hn).2) fun _ _ => .inr rfl

/-- Each move keeps the edges in the order of the dependencies. -/
theorem move {task : Task} {more : List Task} (h : s.Arranged (task :: tasks))
    (hsound : p.Sound s (task :: tasks)) (hfollow : p.rules.follow = true)
    (hmove : p.Move s task t more) : t.Arranged (more ++ tasks) := by
  cases hmove with
  | met _ => exact h.note hsound.ready.1
  | @beside name c requirer n _ hunmet hn hadmits =>
      refine (h.note hsound.ready.1).select (hsound.toCoherent.note hsound.ready.1) hfollow ?_
      have hname := (mem_releases_of_mem_candidates hn).2
      rw [nodes_note]
      exact Graph.id_ne_of_target?_eq_none hunmet ⟨hname, hadmits⟩
  | @first name c requirer n hno hn _ =>
      refine (h.note hsound.ready.1).select (hsound.toCoherent.note hsound.ready.1) hfollow ?_
      have hname := (mem_releases_of_mem_candidates hn).2
      rw [nodes_note]
      exact Graph.id_ne_of_name_ne hno hname
  | @changed name c requirer n u _ _ hn _ hu =>
      have hname := (mem_releases_of_mem_candidates hn).2
      have hnoted : p.Coherent { s.note name c requirer with
          reselected := name :: (s.note name c requirer).reselected } tasks :=
        (hsound.toCoherent.note hsound.ready.1).congr rfl rfl
      have hcoherent : p.Coherent u tasks := hu ▸ hnoted.deselect name
      have harranged : u.Arranged tasks := hu ▸ (h.note hsound.ready.1).deselect name
      have hlater : u.Arranged (.prune :: tasks) :=
        harranged.mono (List.Subset.refl _) (fun _ _ => rfl) fun _ _ => .inr rfl
      rw [List.append_assoc]
      refine hlater.select hcoherent hfollow (Graph.id_ne_of_name_ne (fun m hm => ?_) hname)
      subst hu
      exact (mem_nodes_deselect_iff.mp hm).2
  | @followed id d rest _ =>
      refine h.mono (List.Subset.refl _) (fun _ _ => rfl) fun n _ => .inr ?_
      by_cases hid : id = n.id <;> simp [Task.upcoming, hid]
  | @left id rest hend =>
      refine h.mono (List.Subset.refl _) (fun _ _ => rfl) fun n hn => ?_
      by_cases hid : id = n.id
      · have hcontains : s.graph.contains id = true := hid ▸ Graph.contains_of_mem hn
        obtain rfl := hend.resolve_right (by simp [hcontains])
        exact .inl (by simp [Task.upcoming, hid])
      · exact .inr (by simp [Task.upcoming, hid])
  | pruned => exact h.prune

end Arranged

end Selection

end PackagePlanner
