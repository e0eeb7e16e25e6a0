import PackagePlanner.Resolution.Run
import PackagePlanner.Proofs.Resolution.Coherent

/-!
What a run of tasks ends with.

* `Problem.Sound` adds to a coherent selection that its requirements are met and its nodes needed:
  each requirement has a target unless it is to be dealt with next, and, unless releases may stand
  side by side, the requests reach each node or the rest is going to be dropped.
* `Sound.move`: each move keeps this. `Sound.run`, `Sound.request` and `Sound.pin` follow by
  induction on the run.
-/

namespace PackagePlanner

namespace Selection

/-! ### What the requests reach -/

/-- The requests reach a release. -/
def Live (s : Selection) (id : ReleaseId) : Prop := id ∈ s.graph.reachable s.roots

lemma mem_roots_iff {s : Selection} {id : ReleaseId} :
    id ∈ s.roots ↔
      ∃ r ∈ s.requests, ∃ n, s.graph.target? r.name r.constraint = some n ∧ n.id = id := by
  simp only [roots, List.mem_filterMap, Option.map_eq_some_iff]

lemma contains_of_mem_roots {s : Selection} {id : ReleaseId} (h : id ∈ s.roots) :
    s.graph.contains id = true := by
  obtain ⟨_, _, n, hn, rfl⟩ := mem_roots_iff.mp h
  exact Graph.contains_of_mem (Graph.mem_of_target? hn)

lemma live_iff {s : Selection} {id : ReleaseId} :
    s.Live id ↔ ∃ root ∈ s.roots, s.graph.Reaches root id := by
  rw [Live, Graph.mem_reachable_iff]
  exact ⟨fun ⟨root, hr, _, h⟩ => ⟨root, hr, h⟩,
    fun ⟨root, hr, h⟩ => ⟨root, hr, contains_of_mem_roots hr, h⟩⟩

/-- The target of a request is live. -/
lemma live_of_request {s : Selection} {name : String} {c : Constraint} {n : Graph.Node}
    (h : ⟨name, c⟩ ∈ s.requests) (ht : s.graph.target? name c = some n) : s.Live n.id :=
  live_iff.mpr ⟨n.id, mem_roots_iff.mpr ⟨_, h, n, ht, rfl⟩, .refl⟩

/-- The target of an edge of a live release is live. -/
lemma Live.target {s : Selection} {id : ReleaseId} {name : String} {c : Constraint}
    {n : Graph.Node} (h : s.Live id) (he : ⟨id, name, c⟩ ∈ s.graph.edges)
    (ht : s.graph.target? name c = some n) : s.Live n.id := by
  obtain ⟨root, hroot, hreach⟩ := live_iff.mp h
  exact live_iff.mpr ⟨root, hroot,
    hreach.tail (Graph.mem_targets_iff.mpr ⟨_, he, rfl, n, ht, rfl⟩)⟩

/-- What is live stays live if requests and edges are only added and lead where they led. -/
lemma Live.mono {s t : Selection} {id : ReleaseId} (h : s.Live id)
    (hrequests : s.requests ⊆ t.requests) (hedges : s.graph.edges ⊆ t.graph.edges)
    (htargets : ∀ name c n, s.graph.target? name c = some n →
      t.graph.target? name c = some n) : t.Live id := by
  obtain ⟨root, hroot, hreach⟩ := live_iff.mp h
  induction hreach with
  | refl =>
      obtain ⟨r, hr, n, hn, rfl⟩ := mem_roots_iff.mp hroot
      exact live_of_request (hrequests hr) (htargets _ _ _ hn)
  | tail _ hstep ih =>
      obtain ⟨e, he, rfl, n, hn, rfl⟩ := Graph.mem_targets_iff.mp hstep
      exact (ih (live_iff.mpr ⟨root, hroot, ‹_›⟩)).target (hedges he) (htargets _ _ _ hn)

/-- Noting a requirement adds an edge at most. -/
lemma Live.note {s : Selection} {id : ReleaseId} (h : s.Live id) (name : String) (c : Constraint)
    (requirer : Requirer) : (s.note name c requirer).Live id := by
  refine h.mono ?_ ?_ ?_
  · rw [requests_note]
    exact List.Subset.refl _
  · exact fun e he => mem_edges_note_iff.mpr (.inl he)
  · exact fun name' c' m hm => (target?_note ..).trans hm

/-- Dropping the rest leaves the targets of what is kept. -/
lemma target?_prune {s : Selection} {name : String} {c : Constraint} {n : Graph.Node}
    (h : s.graph.target? name c = some n) (hn : s.Live n.id) :
    s.prune.graph.target? name c = some n :=
  Graph.target?_retain h hn

/-- What is live stays live when the rest is dropped. -/
lemma Live.prune {s : Selection} {id : ReleaseId} (h : s.Live id) : s.prune.Live id := by
  obtain ⟨root, hroot, hreach⟩ := live_iff.mp h
  refine live_iff.mpr ⟨root, ?_, Graph.reaches_retain hroot (contains_of_mem_roots hroot) hreach⟩
  obtain ⟨r, hr, n, hn, rfl⟩ := mem_roots_iff.mp hroot
  exact mem_roots_iff.mpr ⟨r, hr, n, target?_prune hn (live_of_request hr hn), rfl⟩

/-- If the requests reach every node there is nothing to drop. -/
lemma prune_eq_self {s : Selection} (hlive : ∀ n ∈ s.graph.nodes.toList, s.Live n.id)
    (hresolving : s.resolving = []) : s.prune = s := by
  have hgraph : s.prune.graph = s.graph := Graph.retain_eq_self hlive
  cases s
  simp_all [Selection.prune]

end Selection

namespace Problem

/-! ### What a choice serves -/

section Select

variable {p : Problem}

/-- A requirement that had a target has one, and so has one that a chosen release satisfies. -/
lemma isSome_target?_select {u : Selection} {n : Graph.Node}
    (hfresh : ∀ m ∈ u.graph.nodes.toList, m.id ≠ n.id) {name : String} {c : Constraint}
    (h : (u.graph.target? name c).isSome = true ∨
      (⟨name, c⟩ : Dependency).Accepts n.release) :
    ((p.select u n).1.graph.target? name c).isSome = true := by
  rw [graph_select, Graph.isSome_target?_iff]
  rcases h with h | hacc
  · obtain ⟨m, hm, hacc⟩ := Graph.isSome_target?_iff.mp h
    exact ⟨m, Graph.mem_nodes_addNode_iff.mpr (.inr ⟨hm, hfresh m hm⟩), hacc⟩
  · exact ⟨n, Graph.mem_nodes_addNode_iff.mpr (.inl rfl), hacc⟩

/-- The only node of a package is the target of what it satisfies. -/
lemma target?_select_new {u : Selection} {n : Graph.Node}
    (hno : ∀ m ∈ u.graph.nodes.toList, m.release.name ≠ n.release.name) {c : Constraint}
    (hadmits : c.admits n.release.version = true) :
    (p.select u n).1.graph.target? n.release.name c = some n := by
  rw [graph_select, Graph.target?_eq_some_iff]
  refine ⟨Graph.mem_nodes_addNode_iff.mpr (.inl rfl), ⟨rfl, hadmits⟩, fun m hm hacc => ?_⟩
  rcases Graph.mem_nodes_addNode_iff.mp hm with rfl | ⟨hm, _⟩
  · exact .refl m
  · exact absurd hacc.1 (hno m hm)

/-- What had a target keeps it when a release of a package without nodes is chosen. -/
lemma target?_select_old {u : Selection} {n : Graph.Node}
    (hno : ∀ m ∈ u.graph.nodes.toList, m.release.name ≠ n.release.name) {name : String}
    {c : Constraint} {m : Graph.Node} (hm : u.graph.target? name c = some m) :
    (p.select u n).1.graph.target? name c = some m := by
  have hmem := Graph.mem_of_target? hm
  rw [graph_select]
  refine Graph.target?_of_subset hm (Graph.mem_nodes_addNode_iff.mpr (.inr ⟨hmem, ?_⟩)) ?_
  · exact fun hid => hno m hmem (congrArg ReleaseId.name hid)
  · intro k hk hname
    rcases Graph.mem_nodes_addNode_iff.mp hk with rfl | ⟨hk, _⟩
    · exact absurd ((Graph.accepts_of_target? hm).1.trans hname.symm) (hno m hmem)
    · exact hk

/-- What is chosen for a request is live. -/
lemma live_select_of_request {u : Selection} {n : Graph.Node} {c : Constraint}
    (hno : ∀ m ∈ u.graph.nodes.toList, m.release.name ≠ n.release.name)
    (hadmits : c.admits n.release.version = true) (hr : ⟨n.release.name, c⟩ ∈ u.requests) :
    (p.select u n).1.Live n.id :=
  Selection.live_of_request (by rwa [requests_select]) (target?_select_new hno hadmits)

/-- What is chosen for a live release is live. -/
lemma live_select_of_edge {u : Selection} {n : Graph.Node} {c : Constraint} {id : ReleaseId}
    (hno : ∀ m ∈ u.graph.nodes.toList, m.release.name ≠ n.release.name)
    (hadmits : c.admits n.release.version = true) (he : ⟨id, n.release.name, c⟩ ∈ u.graph.edges)
    (hid : (p.select u n).1.Live id) : (p.select u n).1.Live n.id :=
  hid.target (by rwa [graph_select, Graph.edges_addNode]) (target?_select_new hno hadmits)

/-- What is live stays live when a release of a package without nodes is chosen. -/
lemma live_select_old {s : Selection} {n : Graph.Node} {name : String} {c : Constraint}
    {requirer : Requirer}
    (hno : ∀ m ∈ (s.note name c requirer).graph.nodes.toList, m.release.name ≠ n.release.name)
    {id : ReleaseId} (h : s.Live id) : (p.select (s.note name c requirer) n).1.Live id := by
  refine (h.note name c requirer).mono ?_ ?_ fun name' c' m hm => target?_select_old hno hm
  · rw [requests_select]
    exact List.Subset.refl _
  · rw [graph_select, Graph.edges_addNode]
    exact List.Subset.refl _

end Select

/-! ### Sound selections -/

/-- The first task fits the selection, and the others may wait. -/
def Ready (p : Problem) (s : Selection) : List Task → Prop
  | [] => True
  | task :: rest => p.Grounded s task ∧ ∀ t ∈ rest, p.Waiting t

lemma ready_of_waiting {p : Problem} {s : Selection} {tasks : List Task}
    (h : ∀ t ∈ tasks, p.Waiting t) : p.Ready s tasks := by
  cases tasks with
  | nil => trivial
  | cons task rest =>
      exact ⟨(h task List.mem_cons_self).grounded s, fun t ht => h t (List.mem_cons_of_mem _ ht)⟩

/-- A coherent selection that is as it should be once the tasks are done. -/
structure Sound (p : Problem) (s : Selection) (tasks : List Task) : Prop
    extends Coherent p s tasks where
  /-- The tasks can be performed in turn. -/
  ready : p.Ready s tasks
  /-- A requirement has a target, or a task deals with it. -/
  served : ∀ name, ∀ c ∈ s.constraintsOn name,
    (s.graph.target? name c).isSome = true ∨ ∃ requirer, .require name c requirer ∈ tasks
  /-- The requests reach a node, or a task drops what they do not reach. -/
  live : p.rules.sideBySide = false → ∀ n ∈ s.graph.nodes.toList, s.Live n.id ∨ .prune ∈ tasks

namespace Sound

variable {p : Problem} {s t : Selection} {tasks : List Task}

lemma empty (p : Problem) : Sound p {} [] where
  toCoherent := .empty p
  ready := trivial
  served := by simp [Selection.mem_constraintsOn_iff]
  live := by simp

/-- Which releases are replaced does not matter. -/
lemma congr (h : Sound p s tasks) {replaced : Keyed Release.id} :
    Sound p { s with replaced } tasks where
  toCoherent := h.toCoherent.congr rfl rfl
  ready := by
    cases tasks with
    | nil => trivial
    | cons task rest =>
        refine ⟨?_, h.ready.2⟩
        have hg := h.ready.1
        cases task with
        | require name c requirer => cases requirer <;> exact hg
        | follow => exact hg
        | prune => exact hg
  served := h.served
  live := h.live

/-- Once nothing is left to do every requirement has a target. -/
lemma target (h : Sound p s []) {name : String} {c : Constraint}
    (hc : c ∈ s.constraintsOn name) : ∃ n, s.graph.target? name c = some n := by
  rcases h.served name c hc with hsome | ⟨_, hmem⟩
  · exact Option.isSome_iff_exists.mp hsome
  · simp at hmem

/-! ### The moves one by one -/

/-- A requirement that is not to be dealt with next has a target. -/
lemma served_tail {name : String} {c : Constraint} {task : Task} (h : Sound p s (task :: tasks))
    (hc : c ∈ s.constraintsOn name) :
    (s.graph.target? name c).isSome = true ∨ ∃ requirer, task = .require name c requirer := by
  refine (h.served name c hc).imp_right fun ⟨requirer, hmem⟩ => ⟨requirer, ?_⟩
  rcases List.mem_cons.mp hmem with heq | hmem
  · exact heq.symm
  · exact (h.ready.2 _ hmem).elim

/-- The requirements on a package are those of before and the one that is noted. -/
lemma served_note {name name' : String} {c c' : Constraint} {requirer : Requirer}
    (h : Sound p s (.require name c requirer :: tasks))
    (hc : c' ∈ (s.note name c requirer).constraintsOn name') :
    (s.graph.target? name' c').isSome = true ∨ (name' = name ∧ c' = c) := by
  have hold (hc : c' ∈ s.constraintsOn name') :
      (s.graph.target? name' c').isSome = true ∨ (name' = name ∧ c' = c) := by
    refine (h.served_tail hc).imp_right fun ⟨_, heq⟩ => ?_
    obtain ⟨hname, hc', _⟩ := Task.require.inj heq
    exact ⟨hname.symm, hc'.symm⟩
  rw [Selection.mem_constraintsOn_iff, Selection.requests_note] at hc
  rcases hc with hc | ⟨e, he, rfl, rfl⟩
  · exact hold (Selection.mem_constraintsOn_iff.mpr (.inl hc))
  · rcases Selection.mem_edges_note_iff.mp he with he | ⟨_, _, rfl⟩
    · exact hold (Selection.mem_constraintsOn_iff.mpr (.inr ⟨e, he, rfl, rfl⟩))
    · exact .inr ⟨rfl, rfl⟩

/-- A requirement that has a target is only noted. -/
lemma met {name : String} {c : Constraint} {requirer : Requirer}
    (h : Sound p s (.require name c requirer :: tasks))
    (hmet : (s.graph.target? name c).isSome = true) :
    Sound p (s.note name c requirer) tasks where
  toCoherent := h.toCoherent.note h.ready.1
  ready := ready_of_waiting h.ready.2
  served name' c' hc := by
    rw [Selection.target?_note]
    rcases h.served_note hc with hsome | ⟨rfl, rfl⟩
    · exact .inl hsome
    · exact .inl hmet
  live hs n hn := by
    rw [Selection.nodes_note] at hn
    exact (h.live hs n hn).imp (·.note name c requirer) (by simpa using ·)

/-- A choice beside others. -/
lemma beside {name : String} {c : Constraint} {requirer : Requirer} {n : Graph.Node}
    (h : Sound p s (.require name c requirer :: tasks)) (hside : p.rules.sideBySide = true)
    (hunmet : s.graph.target? name c = none)
    (hn : n ∈ p.candidates (s.note name c requirer) name)
    (hadmits : c.admits n.release.version = true) :
    Sound p (p.select (s.note name c requirer) n).1
      ((p.select (s.note name c requirer) n).2 ++ tasks) := by
  have ho := offers_of_mem_candidates hn
  have hname := (mem_releases_of_mem_candidates hn).2
  have hfresh : ∀ m ∈ (s.note name c requirer).graph.nodes.toList, m.id ≠ n.id := by
    rw [Selection.nodes_note]
    exact Graph.id_ne_of_target?_eq_none hunmet ⟨hname, hadmits⟩
  exact
    { toCoherent := (h.toCoherent.note h.ready.1).select ho hfresh (by simp [hside])
      ready := ready_of_waiting fun task htask =>
        (List.mem_append.mp htask).elim (waiting_of_mem_select ho) (h.ready.2 task)
      served := fun name' c' hc => by
        rw [constraintsOn_select] at hc
        refine .inl (isSome_target?_select hfresh ?_)
        rw [Selection.target?_note]
        refine (h.served_note hc).imp_right ?_
        rintro ⟨rfl, rfl⟩
        exact ⟨hname, hadmits⟩
      live := by simp [hside] }

/-- The first choice for a package is needed by the caller or by the release that requires it, and
what was needed before is needed still. -/
lemma live_first {c : Constraint} {requirer : Requirer} {n : Graph.Node}
    (h : Sound p s (.require n.release.name c requirer :: tasks))
    (hno : ∀ m ∈ (s.note n.release.name c requirer).graph.nodes.toList,
      m.release.name ≠ n.release.name)
    (hadmits : c.admits n.release.version = true) (hs : p.rules.sideBySide = false)
    {m : Graph.Node}
    (hm : m ∈ (p.select (s.note n.release.name c requirer) n).1.graph.nodes.toList) :
    (p.select (s.note n.release.name c requirer) n).1.Live m.id ∨ .prune ∈ tasks := by
  have keep {k : Graph.Node} (hk : k ∈ s.graph.nodes.toList) :
      (p.select (s.note n.release.name c requirer) n).1.Live k.id ∨ .prune ∈ tasks :=
    (h.live hs k hk).imp (live_select_old hno) (by simpa using ·)
  rw [graph_select] at hm
  rcases Graph.mem_nodes_addNode_iff.mp hm with rfl | ⟨hm, _⟩
  · cases requirer with
    | request => exact .inl (live_select_of_request hno hadmits h.ready.1)
    | release id =>
        obtain ⟨k, hk, rfl, _⟩ := h.ready.1
        exact (keep hk).imp_left (live_select_of_edge hno hadmits
          (Selection.mem_edges_note_iff.mpr (.inr ⟨k.id, rfl, rfl⟩)))
  · rw [Selection.nodes_note] at hm
    exact keep hm

/-- The first choice for a package satisfies all that is required of it. -/
lemma first {name : String} {c : Constraint} {requirer : Requirer} {n : Graph.Node}
    (h : Sound p s (.require name c requirer :: tasks))
    (hno : ∀ m ∈ s.graph.nodes.toList, m.release.name ≠ name)
    (hn : n ∈ p.candidates (s.note name c requirer) name)
    (hadmits : ∀ d ∈ (s.note name c requirer).constraintsOn name,
      d.admits n.release.version = true) :
    Sound p (p.select (s.note name c requirer) n).1
      ((p.select (s.note name c requirer) n).2 ++ tasks) := by
  have ho := offers_of_mem_candidates hn
  obtain rfl := (mem_releases_of_mem_candidates hn).2
  have hno' : ∀ m ∈ (s.note n.release.name c requirer).graph.nodes.toList,
      m.release.name ≠ n.release.name := by
    rw [Selection.nodes_note]
    exact hno
  have hfresh : ∀ m ∈ (s.note n.release.name c requirer).graph.nodes.toList, m.id ≠ n.id :=
    Graph.id_ne_of_name_ne hno' rfl
  have hc := hadmits c (mem_constraintsOn_note h.ready.1)
  exact
    { toCoherent := (h.toCoherent.note h.ready.1).select ho hfresh fun _ => hno'
      ready := ready_of_waiting fun task htask =>
        (List.mem_append.mp htask).elim (waiting_of_mem_select ho) (h.ready.2 task)
      served := fun name' c' hc' => by
        rw [constraintsOn_select] at hc'
        refine .inl (isSome_target?_select hfresh ?_)
        rw [Selection.target?_note]
        refine (h.served_note hc').imp_right ?_
        rintro ⟨rfl, rfl⟩
        exact ⟨rfl, hc⟩
      live := fun hs m hm =>
        (h.live_first hno' hc hs hm).imp_right (List.mem_append_right _) }

/-- Another choice for a package satisfies all that is required of it, and drops what the old one
needed. -/
lemma changed {name : String} {c : Constraint} {requirer : Requirer} {n : Graph.Node}
    {u : Selection} (h : Sound p s (.require name c requirer :: tasks))
    (hn : n ∈ p.candidates (s.note name c requirer) name)
    (hadmits : ∀ d ∈ (s.note name c requirer).constraintsOn name,
      d.admits n.release.version = true)
    (hu : u = { s.note name c requirer with
      reselected := name :: (s.note name c requirer).reselected }.deselect name) :
    Sound p (p.select u n).1 ((p.select u n).2 ++ [.prune] ++ tasks) := by
  have ho := offers_of_mem_candidates hn
  obtain rfl := (mem_releases_of_mem_candidates hn).2
  have hnodes (m : Graph.Node) : m ∈ u.graph.nodes.toList ↔
      m ∈ s.graph.nodes.toList ∧ m.release.name ≠ n.release.name := by
    rw [hu, Selection.mem_nodes_deselect_iff]
    simp only [Selection.nodes_note]
  have hnoted : Coherent p { s.note n.release.name c requirer with
      reselected := n.release.name :: (s.note n.release.name c requirer).reselected } tasks :=
    (h.toCoherent.note h.ready.1).congr rfl rfl
  have hcoherent : Coherent p u tasks := hu ▸ hnoted.deselect n.release.name
  have hno : ∀ m ∈ u.graph.nodes.toList, m.release.name ≠ n.release.name :=
    fun m hm => ((hnodes m).mp hm).2
  have hfresh : ∀ m ∈ u.graph.nodes.toList, m.id ≠ n.id :=
    Graph.id_ne_of_name_ne hno rfl
  refine
    { toCoherent := (hcoherent.select ho hfresh fun _ => hno).of_subset (by simp)
      ready := ready_of_waiting fun task htask => ?_
      served := fun name' c' hc' => .inl (isSome_target?_select hfresh ?_)
      live := fun _ _ _ => .inr (by simp) }
  · simp only [List.mem_append, List.mem_singleton] at htask
    rcases htask with (htask | rfl) | htask
    · exact waiting_of_mem_select ho htask
    · trivial
    · exact h.ready.2 task htask
  · have hc' : c' ∈ (s.note n.release.name c requirer).constraintsOn name' := by
      rw [constraintsOn_select, Selection.mem_constraintsOn_iff, hu] at hc'
      refine Selection.mem_constraintsOn_iff.mpr (hc'.imp_right ?_)
      rintro ⟨e, he, hname, hce⟩
      exact ⟨e, (Selection.mem_edges_deselect_iff.mp he).1, hname, hce⟩
    by_cases hname : name' = n.release.name
    · subst hname
      exact .inr ⟨rfl, hadmits c' hc'⟩
    · refine .inl ?_
      obtain ⟨m, hm, hacc⟩ := Graph.isSome_target?_iff.mp
        ((h.served_note hc').resolve_right fun heq => hname heq.1)
      exact Graph.isSome_target?_iff.mpr
        ⟨m, (hnodes m).mpr ⟨hm, fun heq => hname (hacc.1.symm.trans heq)⟩, hacc⟩

/-- The next dependency of a node. -/
lemma follow_next {id : ReleaseId} {d : Dependency} {rest : List Dependency}
    (h : Sound p s (.follow id (d :: rest) :: tasks)) (hid : s.graph.contains id = true) :
    Sound p s (.require d.name d.constraint (.release id) :: .follow id rest :: tasks) where
  toCoherent := h.toCoherent.follow
  ready := by
    obtain ⟨m, hm, rfl⟩ := Graph.contains_iff.mp hid
    obtain ⟨n, hn, heq, hdeps⟩ := h.ready.1
    obtain rfl := (h.offered m hm).eq_of_id_eq hn heq.symm
    refine ⟨⟨m, hm, rfl, hdeps d List.mem_cons_self⟩, fun task htask => ?_⟩
    rcases List.mem_cons.mp htask with rfl | htask
    · exact ⟨m, hn, rfl, fun d' hd' => hdeps d' (List.mem_cons_of_mem d hd')⟩
    · exact h.ready.2 task htask
  served name c hc := by
    rcases h.served_tail hc with hsome | ⟨_, heq⟩
    · exact .inl hsome
    · simp at heq
  live hs n hn := (h.live hs n hn).imp_right fun hmem => by simpa using hmem

/-- The end of the dependencies of a release. -/
lemma left {id : ReleaseId} {rest : List Dependency}
    (h : Sound p s (.follow id rest :: tasks)) (hend : rest = [] ∨ s.graph.contains id = false) :
    Sound p { s with resolving := s.resolving.filter (· != id) } tasks where
  toCoherent := h.toCoherent.leave hend
  ready := ready_of_waiting h.ready.2
  served name c hc := by
    rcases h.served_tail hc with hsome | ⟨_, heq⟩
    · exact .inl hsome
    · simp at heq
  live hs n hn := (h.live hs n hn).imp_right fun hmem => by simpa using hmem

/-- What is not needed is dropped. -/
lemma pruned (h : Sound p s (.prune :: tasks)) : Sound p s.prune tasks where
  toCoherent := h.toCoherent.prune
  ready := ready_of_waiting h.ready.2
  served name c hc := by
    have hold : c ∈ s.constraintsOn name := by
      rw [Selection.mem_constraintsOn_iff] at hc ⊢
      refine hc.imp_right ?_
      rintro ⟨e, he, hname, hce⟩
      exact ⟨e, (Selection.mem_edges_prune_iff.mp he).1, hname, hce⟩
    rcases h.served_tail hold with hsome | ⟨_, heq⟩
    · obtain ⟨n, hn⟩ := Option.isSome_iff_exists.mp hsome
      have hlive : s.Live n.id := by
        rcases Selection.mem_constraintsOn_iff.mp hc with hr | ⟨e, he, rfl, rfl⟩
        · exact Selection.live_of_request hr hn
        · obtain ⟨he, hsource⟩ := Selection.mem_edges_prune_iff.mp he
          obtain ⟨m, hm, hid, _⟩ := h.declared e he
          exact Selection.Live.target (hsource (hid ▸ Graph.contains_of_mem hm)) he hn
      exact .inl (by simp [Selection.target?_prune hn hlive])
    · simp at heq
  live _ _ hn := .inl (Selection.Live.prune (Selection.mem_nodes_prune_iff.mp hn).2)

/-! ### Runs -/

/-- Each move keeps a selection sound. -/
theorem move {task : Task} {more : List Task} (h : Sound p s (task :: tasks))
    (hmove : p.Move s task t more) : Sound p t (more ++ tasks) := by
  cases hmove with
  | met hmet => exact h.met hmet
  | beside hside hunmet hn hadmits => exact h.beside hside hunmet hn hadmits
  | first hno hn hadmits => exact h.first hno hn hadmits
  | changed _ _ hn hadmits hu => exact h.changed hn hadmits hu
  | followed hid => exact h.follow_next hid
  | left hend => exact h.left hend
  | pruned => exact h.pruned

/-- A run ends with a sound selection and nothing left to do. -/
theorem run (h : Sound p s tasks) (hrun : p.run s tasks = .ok t) : Sound p t [] := by
  have hkeeps : p.Keeps p.Sound := fun _ _ _ _ _ h hperform => h.move (move_of_perform hperform)
  exact (hkeeps.run h).1 t hrun

/-- A requirement of the caller is to be dealt with next. -/
lemma ask (h : Sound p s []) (name : String) (c : Constraint) :
    Sound p { s with requests := s.requests ++ [⟨name, c⟩] } [.require name c .request] where
  toCoherent := (h.toCoherent.of_subset (by simp)).congr rfl rfl
  ready := ⟨List.mem_append_right _ List.mem_cons_self, by simp⟩
  served name' c' hc := by
    rw [Selection.mem_constraintsOn_iff] at hc
    rcases hc with hc | he
    · rcases List.mem_append.mp hc with hc | hc
      · obtain ⟨n, hn⟩ := h.target (Selection.mem_constraintsOn_iff.mpr (.inl hc))
        exact .inl (Option.isSome_iff_exists.mpr ⟨n, hn⟩)
      · obtain ⟨rfl, rfl⟩ := Request.mk.inj (List.mem_singleton.mp hc)
        exact .inr ⟨.request, List.mem_cons_self⟩
    · obtain ⟨n, hn⟩ := h.target (Selection.mem_constraintsOn_iff.mpr (.inr he))
      exact .inl (Option.isSome_iff_exists.mpr ⟨n, hn⟩)
  live hs n hn := (h.live hs n hn).imp
    (fun hlive => hlive.mono (List.subset_append_left _ _) (List.Subset.refl _) fun _ _ _ hm => hm)
    (by simp)

/-- Meeting a requirement of the caller. -/
theorem request {name : String} {c : Constraint} (h : Sound p s [])
    (hrequest : p.request s name c = .ok t) : Sound p t [] :=
  (h.ask name c).run hrequest

/-- Asking for one release. -/
theorem pin {wanted : Release} {old : Option Release} (h : Sound p s [])
    (hpin : p.pin s wanted old = .ok t) : Sound p t [] :=
  h.congr.request hpin

/-- What the requests do not reach is dropped in the end. -/
lemma prune (h : Sound p s []) : Sound p s.prune [] := by
  refine pruned ⟨h.toCoherent.of_subset (by simp), ⟨trivial, by simp⟩, ?_, ?_⟩
  · exact fun name c hc => (h.served name c hc).imp_right (by simp)
  · exact fun _ _ _ => .inr List.mem_cons_self

end Sound

end Problem

end PackagePlanner
