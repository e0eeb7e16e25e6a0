import PackagePlanner.Proofs.Resolution.Step

/-!
What holds of the graph of a selection at every moment of a resolution.

* `Problem.Coherent`: the nodes are offered releases, one for each package unless releases may
  stand side by side; the edges are declared dependencies of the nodes; and every declared
  dependency of a node is an edge, unless a task owes it still.
* One lemma for each change of a selection says that it keeps this: `Coherent.note`,
  `Coherent.deselect`, `Coherent.select`, `Coherent.follow`, `Coherent.leave`, `Coherent.prune`.

That a changed choice leaves no node behind with some of its dependencies not followed comes from
the field `resolving`: a release whose dependencies are being followed is a node, so one that is
chosen again is followed from the start.
-/

namespace PackagePlanner

/-- A task will make an edge of the dependency of a release. -/
def Task.Owes : Task → ReleaseId → Dependency → Prop
  | .require name c (.release source), id, d => source = id ∧ d = ⟨name, c⟩
  | .follow source rest, id, d => source = id ∧ d ∈ rest
  | _, _, _ => False

/-- One of the tasks will make an edge of the dependency of a release. -/
def Task.Owed (tasks : List Task) (id : ReleaseId) (d : Dependency) : Prop :=
  ∃ task ∈ tasks, task.Owes id d

namespace Problem

/-! ### Tasks that fit a selection -/

/-- A task that may wait behind others: the dependencies it follows are declared. -/
def Waiting (p : Problem) : Task → Prop
  | .require _ _ _ => False
  | .follow id rest =>
    ∃ n, p.Offers n ∧ n.id = id ∧ ∀ d ∈ rest, d ∈ n.release.dependencies.toList
  | .prune => True

/-- A task that may come next: what it requires is requested, or a dependency of a node. -/
def Grounded (p : Problem) (s : Selection) : Task → Prop
  | .require name c .request => ⟨name, c⟩ ∈ s.requests
  | .require name c (.release id) =>
    ∃ n ∈ s.graph.nodes.toList, n.id = id ∧ ⟨name, c⟩ ∈ n.release.dependencies.toList
  | task => p.Waiting task

lemma Waiting.grounded {p : Problem} {task : Task} (h : p.Waiting task) (s : Selection) :
    p.Grounded s task := by
  cases task with
  | require => exact h.elim
  | follow => exact h
  | prune => exact h

/-- The task of following what a chosen release needs may wait. -/
lemma waiting_of_mem_select {p : Problem} {s : Selection} {n : Graph.Node} (hn : p.Offers n)
    {task : Task} (h : task ∈ (p.select s n).2) : p.Waiting task := by
  unfold select at h
  split at h
  · obtain rfl := List.mem_singleton.mp h
    exact ⟨n, hn, rfl, fun d hd => hd⟩
  · simp at h

/-- A requirement that is noted counts among those on its package. -/
lemma mem_constraintsOn_note {p : Problem} {s : Selection} {name : String} {c : Constraint}
    {requirer : Requirer} (h : p.Grounded s (.require name c requirer)) :
    c ∈ (s.note name c requirer).constraintsOn name := by
  rw [Selection.mem_constraintsOn_iff, Selection.requests_note]
  cases requirer with
  | request => exact .inl h
  | release id =>
      exact .inr ⟨⟨id, name, c⟩, Selection.mem_edges_note_iff.mpr (.inr ⟨id, rfl, rfl⟩), rfl, rfl⟩

/-! ### Coherent selections -/

/-- The nodes and the edges of a selection are what the problem and the tasks allow. -/
structure Coherent (p : Problem) (s : Selection) (tasks : List Task) : Prop where
  /-- Every node is an offered release. -/
  offered : ∀ n ∈ s.graph.nodes.toList, p.Offers n
  /-- A package has one node, unless releases may stand side by side. -/
  single : p.rules.sideBySide = false → ∀ n ∈ s.graph.nodes.toList,
    ∀ m ∈ s.graph.nodes.toList, n.release.name = m.release.name → n = m
  /-- Every edge is a declared dependency of a node. -/
  declared : ∀ e ∈ s.graph.edges, ∃ n ∈ s.graph.nodes.toList,
    n.id = e.source ∧ ⟨e.target, e.constraint⟩ ∈ n.release.dependencies.toList
  /-- Every declared dependency of a node is an edge, or owed. -/
  followed : p.rules.follow = true → ∀ n ∈ s.graph.nodes.toList,
    ∀ d ∈ n.release.dependencies.toList,
      ⟨n.id, d.name, d.constraint⟩ ∈ s.graph.edges ∨ Task.Owed tasks n.id d
  /-- A release whose dependencies are being followed is a node, and a task follows them. -/
  resolving : ∀ id ∈ s.resolving,
    s.graph.contains id = true ∧ ∃ rest, Task.follow id rest ∈ tasks

namespace Coherent

variable {p : Problem} {s : Selection} {tasks : List Task}

lemma empty (p : Problem) : Coherent p {} [] where
  offered := by simp
  single := by simp
  declared := by simp
  followed := by simp
  resolving := by simp

/-- Once nothing is left to do no dependencies are being followed. -/
lemma resolving_eq_nil (h : Coherent p s []) : s.resolving = [] := by
  rw [List.eq_nil_iff_forall_not_mem]
  intro id hid
  obtain ⟨_, rest, hmem⟩ := h.resolving id hid
  simp at hmem

/-- Only the graph and the releases being followed matter. -/
lemma congr (h : Coherent p s tasks) {t : Selection} (hg : t.graph = s.graph)
    (hr : t.resolving = s.resolving) : Coherent p t tasks where
  offered := hg ▸ h.offered
  single := hg ▸ h.single
  declared := hg ▸ h.declared
  followed := hg ▸ h.followed
  resolving := by
    rw [hg, hr]
    exact h.resolving

lemma of_subset (h : Coherent p s tasks) {tasks' : List Task} (hsub : tasks ⊆ tasks') :
    Coherent p s tasks' where
  offered := h.offered
  single := h.single
  declared := h.declared
  followed hf n hn d hd :=
    (h.followed hf n hn d hd).imp_right fun ⟨task, hmem, howes⟩ => ⟨task, hsub hmem, howes⟩
  resolving id hid :=
    (h.resolving id hid).imp_right fun ⟨rest, hmem⟩ => ⟨rest, hsub hmem⟩

/-- Noting a requirement makes the edge that it owes. -/
lemma note {name : String} {c : Constraint} {requirer : Requirer}
    (h : Coherent p s (.require name c requirer :: tasks))
    (hg : p.Grounded s (.require name c requirer)) :
    Coherent p (s.note name c requirer) tasks where
  offered := by
    rw [Selection.nodes_note]
    exact h.offered
  single := by
    rw [Selection.nodes_note]
    exact h.single
  declared e he := by
    rw [Selection.nodes_note]
    rcases Selection.mem_edges_note_iff.mp he with he | ⟨id, rfl, rfl⟩
    · exact h.declared e he
    · exact hg
  followed hf n hn d hd := by
    rw [Selection.nodes_note] at hn
    rcases h.followed hf n hn d hd with he | ⟨task, hmem, howes⟩
    · exact .inl (Selection.mem_edges_note_iff.mpr (.inl he))
    · rcases List.mem_cons.mp hmem with rfl | hmem
      · cases requirer with
        | request => exact howes.elim
        | release id =>
            obtain ⟨rfl, rfl⟩ := howes
            exact .inl (Selection.mem_edges_note_iff.mpr (.inr ⟨_, rfl, rfl⟩))
      · exact .inr ⟨task, hmem, howes⟩
  resolving id hid := by
    rw [Selection.resolving_note] at hid
    obtain ⟨hc, rest, hmem⟩ := h.resolving id hid
    rw [Selection.contains_note]
    exact ⟨hc, rest, by simpa using hmem⟩

/-- Taking the choices for a package back takes their edges with them. -/
lemma deselect (h : Coherent p s tasks) (name : String) :
    Coherent p (s.deselect name) tasks where
  offered n hn := h.offered n (Selection.mem_nodes_deselect_iff.mp hn).1
  single hs n hn m hm := h.single hs n (Selection.mem_nodes_deselect_iff.mp hn).1 m
    (Selection.mem_nodes_deselect_iff.mp hm).1
  declared e he := by
    obtain ⟨he, hkept⟩ := Selection.mem_edges_deselect_iff.mp he
    obtain ⟨n, hn, hid, hd⟩ := h.declared e he
    have hne : n.release.name ≠ name := fun hname =>
      hkept ⟨hid ▸ Graph.contains_of_mem hn, hid ▸ hname⟩
    exact ⟨n, Selection.mem_nodes_deselect_iff.mpr ⟨hn, hne⟩, hid, hd⟩
  followed hf n hn d hd := by
    obtain ⟨hn, hne⟩ := Selection.mem_nodes_deselect_iff.mp hn
    refine (h.followed hf n hn d hd).imp_left fun he => ?_
    exact Selection.mem_edges_deselect_iff.mpr ⟨he, fun hkept => hne hkept.2⟩
  resolving id hid := by
    obtain ⟨hid, hkept⟩ := Selection.mem_resolving_deselect_iff.mp hid
    obtain ⟨hc, htask⟩ := h.resolving id hid
    obtain ⟨n, hn, rfl⟩ := Graph.contains_iff.mp hc
    have hne : n.release.name ≠ name := fun hname => hkept ⟨hc, hname⟩
    exact ⟨Graph.contains_of_mem (Selection.mem_nodes_deselect_iff.mpr ⟨hn, hne⟩), htask⟩

/-- A release that is no node is followed when it is chosen. -/
lemma select_eq (h : Coherent p s tasks) {n : Graph.Node}
    (hfresh : ∀ m ∈ s.graph.nodes.toList, m.id ≠ n.id) :
    p.select s n =
      if p.rules.follow = true then
        ({ s with graph := s.graph.addNode n, resolving := n.id :: s.resolving },
          [.follow n.id n.release.dependencies.toList])
      else ({ s with graph := s.graph.addNode n }, []) := by
  have hnot : n.id ∉ s.resolving := by
    intro hmem
    obtain ⟨m, hm, hid⟩ := Graph.contains_iff.mp (h.resolving _ hmem).1
    exact hfresh m hm hid
  simp [Problem.select, hnot]

/-- Choosing a release for which there is no node yet. -/
lemma select (h : Coherent p s tasks) {n : Graph.Node} (ho : p.Offers n)
    (hfresh : ∀ m ∈ s.graph.nodes.toList, m.id ≠ n.id)
    (hsingle : p.rules.sideBySide = false →
      ∀ m ∈ s.graph.nodes.toList, m.release.name ≠ n.release.name) :
    Coherent p (p.select s n).1 ((p.select s n).2 ++ tasks) := by
  have hmem (m : Graph.Node) : m ∈ (p.select s n).1.graph.nodes.toList ↔
      m = n ∨ m ∈ s.graph.nodes.toList := by
    rw [graph_select, Graph.mem_nodes_addNode_iff]
    exact or_congr_right ⟨fun hm => hm.1, fun hm => ⟨hm, hfresh m hm⟩⟩
  refine ⟨fun m hm => ?_, fun hs m hm k hk hname => ?_, fun e he => ?_, fun hf m hm d hd => ?_,
    fun id hid => ?_⟩
  · rcases (hmem m).mp hm with rfl | hm
    · exact ho
    · exact h.offered m hm
  · rcases (hmem m).mp hm with hmn | hmold <;> rcases (hmem k).mp hk with hkn | hkold
    · rw [hmn, hkn]
    · exact absurd (hname.symm.trans (hmn ▸ rfl)) (hsingle hs k hkold)
    · exact absurd (hname.trans (hkn ▸ rfl)) (hsingle hs m hmold)
    · exact h.single hs m hmold k hkold hname
  · rw [graph_select, Graph.edges_addNode] at he
    obtain ⟨m, hm, hdecl⟩ := h.declared e he
    exact ⟨m, (hmem m).mpr (.inr hm), hdecl⟩
  · rcases (hmem m).mp hm with rfl | hm
    · refine .inr ⟨.follow m.id m.release.dependencies.toList, ?_, rfl, hd⟩
      simp [h.select_eq hfresh, hf]
    · rw [graph_select, Graph.edges_addNode]
      refine (h.followed hf m hm d hd).imp_right fun ⟨task, htask, howes⟩ => ?_
      exact ⟨task, List.mem_append_right _ htask, howes⟩
  · have hold (hid : id ∈ s.resolving) : (p.select s n).1.graph.contains id = true ∧
        ∃ rest, Task.follow id rest ∈ (p.select s n).2 ++ tasks := by
      obtain ⟨hc, rest, htask⟩ := h.resolving id hid
      obtain ⟨m, hm, rfl⟩ := Graph.contains_iff.mp hc
      exact ⟨Graph.contains_of_mem ((hmem m).mpr (.inr hm)), rest,
        List.mem_append_right _ htask⟩
    rw [h.select_eq hfresh] at hid
    split at hid
    · rename_i hf
      rcases List.mem_cons.mp hid with rfl | hid
      · refine ⟨Graph.contains_of_mem ((hmem n).mpr (.inl rfl)),
          n.release.dependencies.toList, ?_⟩
        simp [h.select_eq hfresh, hf]
      · exact hold hid
    · exact hold hid

/-- Going on to the next dependency. -/
lemma follow {id : ReleaseId} {d : Dependency} {rest : List Dependency}
    (h : Coherent p s (.follow id (d :: rest) :: tasks)) :
    Coherent p s (.require d.name d.constraint (.release id) :: .follow id rest :: tasks) where
  offered := h.offered
  single := h.single
  declared := h.declared
  followed hf n hn d' hd := by
    refine (h.followed hf n hn d' hd).imp_right fun ⟨task, hmem, howes⟩ => ?_
    rcases List.mem_cons.mp hmem with rfl | hmem
    · obtain ⟨rfl, hd'⟩ := howes
      rcases List.mem_cons.mp hd' with rfl | hd'
      · exact ⟨_, List.mem_cons_self, rfl, rfl⟩
      · exact ⟨_, List.mem_cons_of_mem _ List.mem_cons_self, rfl, hd'⟩
    · exact ⟨task, by simp [hmem], howes⟩
  resolving id' hid := by
    refine (h.resolving id' hid).imp_right fun ⟨rest', hmem⟩ => ?_
    rcases List.mem_cons.mp hmem with heq | hmem
    · obtain ⟨rfl, _⟩ := Task.follow.inj heq
      exact ⟨rest, by simp⟩
    · exact ⟨rest', by simp [hmem]⟩

/-- Nothing is owed by a release with no dependency left, or by one that is no node. -/
lemma leave {id : ReleaseId} {rest : List Dependency}
    (h : Coherent p s (.follow id rest :: tasks))
    (hend : rest = [] ∨ s.graph.contains id = false) :
    Coherent p { s with resolving := s.resolving.filter (· != id) } tasks where
  offered := h.offered
  single := h.single
  declared := h.declared
  followed hf n hn d hd := by
    refine (h.followed hf n hn d hd).imp_right fun ⟨task, hmem, howes⟩ => ?_
    rcases List.mem_cons.mp hmem with rfl | hmem
    · obtain ⟨rfl, hd'⟩ := howes
      rcases hend with rfl | hend
      · simp at hd'
      · rw [Graph.contains_of_mem hn] at hend
        simp at hend
    · exact ⟨task, hmem, howes⟩
  resolving id' hid := by
    obtain ⟨hid, hne⟩ := List.mem_filter.mp hid
    refine (h.resolving id' hid).imp_right fun ⟨rest', hmem⟩ => ⟨rest', ?_⟩
    refine (List.mem_cons.mp hmem).resolve_left fun heq => ?_
    rw [(Task.follow.inj heq).1] at hne
    simp at hne

/-- Dropping a node drops its edges. -/
lemma prune (h : Coherent p s (.prune :: tasks)) : Coherent p s.prune tasks where
  offered n hn := h.offered n (Selection.mem_nodes_prune_iff.mp hn).1
  single hs n hn m hm := h.single hs n (Selection.mem_nodes_prune_iff.mp hn).1 m
    (Selection.mem_nodes_prune_iff.mp hm).1
  declared e he := by
    obtain ⟨he, hkept⟩ := Selection.mem_edges_prune_iff.mp he
    obtain ⟨n, hn, hid, hd⟩ := h.declared e he
    have hreach := hid ▸ hkept (hid ▸ Graph.contains_of_mem hn)
    exact ⟨n, Selection.mem_nodes_prune_iff.mpr ⟨hn, hreach⟩, hid, hd⟩
  followed hf n hn d hd := by
    obtain ⟨hn, hreach⟩ := Selection.mem_nodes_prune_iff.mp hn
    rcases h.followed hf n hn d hd with he | ⟨task, hmem, howes⟩
    · exact .inl (Selection.mem_edges_prune_iff.mpr ⟨he, fun _ => hreach⟩)
    · rcases List.mem_cons.mp hmem with rfl | hmem
      · exact howes.elim
      · exact .inr ⟨task, hmem, howes⟩
  resolving id hid := by
    obtain ⟨hid, hkept⟩ := Selection.mem_resolving_prune_iff.mp hid
    obtain ⟨hc, rest, htask⟩ := h.resolving id hid
    obtain ⟨n, hn, rfl⟩ := Graph.contains_iff.mp hc
    exact ⟨Graph.contains_of_mem (Selection.mem_nodes_prune_iff.mpr ⟨hn, hkept hc⟩), rest,
      by simpa using htask⟩

end Coherent

end Problem

end PackagePlanner
