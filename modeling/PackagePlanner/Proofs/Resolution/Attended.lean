import PackagePlanner.Proofs.Resolution.Bounds

/-!
On whose behalf a resolution works.

* `Task.source?` is the release that a task is done for, and `Task.beforeDrop` lists the tasks that
  come before the next drop.
* `Selection.Attends`: what is done before the next drop is done for releases that the requests
  reach, as long as these are chosen at all. `Attends.move` and `Underway.attends`: without releases
  side by side this holds at every moment of a resolution.

A changed choice may cut the requests off from releases that were reached by way of the old one, and
these stay chosen until the drop that follows. The new choice is reached all the same
(`live_or_live_changed`): on the way to the requirer the first release that requires the package is
reached without the old choice, and the new one satisfies it.
-/

namespace PackagePlanner

namespace Task

/-- The release on whose behalf a task is done. -/
def source? : Task → Option ReleaseId
  | .require _ _ (.release id) => some id
  | .follow id _ => some id
  | _ => none

/-- The tasks that come before the next drop. -/
def beforeDrop (tasks : List Task) : List Task := tasks.takeWhile fun task => !task.isPrune

lemma mem_of_mem_beforeDrop {task : Task} {tasks : List Task} (h : task ∈ beforeDrop tasks) :
    task ∈ tasks :=
  (List.takeWhile_sublist _).subset h

/-- Tasks that come after others come before the next drop only if none of these is one. -/
lemma mem_beforeDrop_append {task : Task} {before after : List Task}
    (h : task ∈ beforeDrop (before ++ after)) :
    task ∈ before ∨ (task ∈ beforeDrop after ∧ .prune ∉ before) := by
  induction before with
  | nil => exact .inr ⟨h, by simp⟩
  | cons first rest ih =>
      rw [List.cons_append, beforeDrop, List.takeWhile_cons] at h
      split at h
      · rename_i hfirst
        rcases List.mem_cons.mp h with rfl | h
        · exact .inl List.mem_cons_self
        · refine (ih h).imp (List.mem_cons_of_mem _) fun ⟨hafter, hrest⟩ => ⟨hafter, ?_⟩
          rintro (_ | ⟨_, hmem⟩)
          · simp [isPrune] at hfirst
          · exact hrest hmem
      · simp at h

lemma mem_beforeDrop_cons {task first : Task} {tasks : List Task}
    (h : task ∈ beforeDrop tasks) (hfirst : first.isPrune = false) :
    task ∈ beforeDrop (first :: tasks) := by
  rw [beforeDrop, List.takeWhile_cons, hfirst]
  exact List.mem_cons_of_mem _ h

end Task

namespace Selection

/-- The requests reach each chosen release for which something is done before the next drop. -/
def Attends (s : Selection) (tasks : List Task) : Prop :=
  ∀ task ∈ Task.beforeDrop tasks, ∀ id, task.source? = some id →
    s.graph.contains id = true → s.Live id

end Selection

namespace Problem

variable {p : Problem} {s t : Selection} {tasks : List Task}

/-! ### A changed choice -/

/-- When the choice for a package is changed, what was reached is reached still unless it was
reached by way of the old choice; and then the new choice is reached. -/
lemma live_or_live_changed {u : Selection} {n : Graph.Node} (hrequests : s.requests ⊆ u.requests)
    (hedges : s.graph.edges ⊆ u.graph.edges) (hnodes : u.graph.nodes = s.graph.nodes)
    (hadmits : ∀ c ∈ u.constraintsOn n.release.name, c.admits n.release.version = true)
    {id : ReleaseId} (h : s.Live id) :
    (p.select (u.deselect n.release.name) n).1.Live n.id ∨
      (id.name ≠ n.release.name ∧ (p.select (u.deselect n.release.name) n).1.Live id) := by
  have hno : ∀ m ∈ (u.deselect n.release.name).graph.nodes.toList,
      m.release.name ≠ n.release.name :=
    fun m hm => (Selection.mem_nodes_deselect_iff.mp hm).2
  have hkept {name : String} {c : Constraint} {m : Graph.Node}
      (hm : s.graph.target? name c = some m) (hne : m.release.name ≠ n.release.name) :
      (p.select (u.deselect n.release.name) n).1.graph.target? name c = some m := by
    refine target?_select_old hno (Graph.target?_of_subset hm ?_ fun k hk _ => ?_)
    · exact Selection.mem_nodes_deselect_iff.mpr ⟨hnodes ▸ Graph.mem_of_target? hm, hne⟩
    · exact hnodes ▸ (Selection.mem_nodes_deselect_iff.mp hk).1
  obtain ⟨root, hroot, hreach⟩ := Selection.live_iff.mp h
  clear h
  induction hreach with
  | refl =>
      obtain ⟨r, hr, m, hm, rfl⟩ := Selection.mem_roots_iff.mp hroot
      by_cases hname : m.release.name = n.release.name
      · have hrequest : ⟨n.release.name, r.constraint⟩ ∈ u.requests := by
          rw [← hname, (Graph.accepts_of_target? hm).1]
          exact hrequests hr
        have hc := hadmits r.constraint (Selection.mem_constraintsOn_iff.mpr (.inl hrequest))
        exact .inl (live_select_of_request hno hc hrequest)
      · exact .inr ⟨hname, Selection.live_of_request
          (by rw [requests_select]; exact hrequests hr) (hkept hm hname)⟩
  | tail _ hstep ih =>
      obtain ⟨e, he, rfl, m, hm, rfl⟩ := Graph.mem_targets_iff.mp hstep
      rcases ih with hnew | ⟨hsource, hlive⟩
      · exact .inl hnew
      have hedge : e ∈ (u.deselect n.release.name).graph.edges :=
        Selection.mem_edges_deselect_iff.mpr ⟨hedges he, fun hold => hsource hold.2⟩
      by_cases hname : m.release.name = n.release.name
      · have htarget : e.target = n.release.name := (Graph.accepts_of_target? hm).1.symm.trans hname
        have hc := hadmits e.constraint
          (Selection.mem_constraintsOn_iff.mpr (.inr ⟨e, hedges he, htarget, rfl⟩))
        exact .inl (live_select_of_edge hno hc (htarget ▸ hedge) hlive)
      · exact .inr ⟨hname, hlive.target
          (by rwa [graph_select, Graph.edges_addNode]) (hkept hm hname)⟩

/-- The new choice for a package is reached if its requirer was. -/
lemma live_changed {c : Constraint} {requirer : Requirer} {n : Graph.Node} {u : Selection}
    (hsound : p.Sound s (.require n.release.name c requirer :: tasks))
    (hrequirer : ∀ id, requirer = .release id → s.Live id)
    (hadmits : ∀ d ∈ (s.note n.release.name c requirer).constraintsOn n.release.name,
      d.admits n.release.version = true)
    (hu : u = { s.note n.release.name c requirer with
      reselected := n.release.name :: (s.note n.release.name c requirer).reselected }.deselect
        n.release.name) :
    (p.select u n).1.Live n.id := by
  subst hu
  have hno : ∀ m ∈ ({ s.note n.release.name c requirer with
      reselected := n.release.name :: (s.note n.release.name c requirer).reselected }.deselect
        n.release.name).graph.nodes.toList, m.release.name ≠ n.release.name :=
    fun m hm => (Selection.mem_nodes_deselect_iff.mp hm).2
  have hc := hadmits c (mem_constraintsOn_note hsound.ready.1)
  cases requirer with
  | request => exact live_select_of_request hno hc hsound.ready.1
  | release id =>
      have hedge : ⟨id, n.release.name, c⟩ ∈ (s.note n.release.name c (.release id)).graph.edges :=
        Selection.mem_edges_note_iff.mpr (.inr ⟨id, rfl, rfl⟩)
      rcases live_or_live_changed (p := p) (u := { s.note n.release.name c (.release id) with
          reselected := n.release.name :: (s.note n.release.name c (.release id)).reselected })
          (by simp) (fun e he => Selection.mem_edges_note_iff.mpr (.inl he)) (by simp) hadmits
          (hrequirer id rfl) with hnew | ⟨hsource, hlive⟩
      · exact hnew
      · exact live_select_of_edge hno hc
          (Selection.mem_edges_deselect_iff.mpr ⟨hedge, fun hold => hsource hold.2⟩) hlive

/-! ### Moves -/

/-- The dependencies of a chosen release are all that a choice gives rise to. -/
lemma source?_of_mem_select {n : Graph.Node} {task : Task} {id : ReleaseId}
    (h : task ∈ (p.select s n).2) (hid : task.source? = some id) : id = n.id := by
  unfold select at h
  split at h
  · obtain rfl := List.mem_singleton.mp h
    exact (Option.some.inj hid).symm
  · simp at h

end Problem

namespace Selection.Attends

open Problem

variable {p : Problem} {s t : Selection} {tasks : List Task}

/-- The release whose dependency is dealt with next is reached. -/
lemma live_requirer {name : String} {c : Constraint} {requirer : Requirer}
    (h : s.Attends (.require name c requirer :: tasks))
    (hsound : p.Sound s (.require name c requirer :: tasks)) (id : ReleaseId)
    (hid : requirer = .release id) : s.Live id := by
  subst hid
  obtain ⟨n, hn, rfl, _⟩ := hsound.ready.1
  exact h _ List.mem_cons_self n.id rfl (Graph.contains_of_mem hn)

lemma tail {task : Task} (h : s.Attends (task :: tasks)) (htask : task.isPrune = false) :
    s.Attends tasks :=
  fun later hlater => h later (Task.mem_beforeDrop_cons hlater htask)

/-- The first choice for a package is made for a release that is reached. -/
lemma first {name : String} {c : Constraint} {requirer : Requirer} {n : Graph.Node}
    (h : s.Attends (.require name c requirer :: tasks))
    (hsound : p.Sound s (.require name c requirer :: tasks))
    (hno : ∀ m ∈ s.graph.nodes.toList, m.release.name ≠ n.release.name)
    (hname : n.release.name = name) (hadmits : c.admits n.release.version = true) :
    (p.select (s.note name c requirer) n).1.Attends
      ((p.select (s.note name c requirer) n).2 ++ tasks) := by
  subst hname
  have hno' : ∀ m ∈ (s.note n.release.name c requirer).graph.nodes.toList,
      m.release.name ≠ n.release.name := by
    rw [nodes_note]
    exact hno
  have hnew : (p.select (s.note n.release.name c requirer) n).1.Live n.id := by
    cases requirer with
    | request => exact live_select_of_request hno' hadmits hsound.ready.1
    | release id =>
        exact live_select_of_edge hno' hadmits (mem_edges_note_iff.mpr (.inr ⟨id, rfl, rfl⟩))
          (live_select_old hno' (h.live_requirer hsound id rfl))
  intro task htask id hid hcontains
  rcases Task.mem_beforeDrop_append htask with htask | ⟨htask, _⟩
  · rw [source?_of_mem_select htask hid]
    exact hnew
  · rw [graph_select, Graph.contains_addNode, contains_note, Bool.or_eq_true,
      beq_iff_eq] at hcontains
    rcases hcontains with hcontains | rfl
    · exact live_select_old hno' (h.tail rfl task htask id hid hcontains)
    · exact hnew

/-- Each move keeps it so that work is done for what is reached. -/
theorem move {task : Task} {more : List Task} (h : s.Attends (task :: tasks))
    (hsound : p.Sound s (task :: tasks)) (hside : p.rules.sideBySide = false)
    (hmove : p.Move s task t more) : t.Attends (more ++ tasks) := by
  cases hmove with
  | @met name c requirer _ =>
      intro later hlater id hid hcontains
      rw [contains_note] at hcontains
      exact (h.tail rfl later hlater id hid hcontains).note name c requirer
  | beside hs => simp [hside] at hs
  | first hno hn hadmits =>
      have hname := (mem_releases_of_mem_candidates hn).2
      exact h.first hsound (hname ▸ hno) hname (hadmits _ (mem_constraintsOn_note hsound.ready.1))
  | changed _ _ hn hadmits hu =>
      obtain rfl := (mem_releases_of_mem_candidates hn).2
      intro later hlater id hid _
      -- nothing but the new choice is worked for before the drop
      rcases Task.mem_beforeDrop_append hlater with hmem | ⟨_, hnone⟩
      · rcases List.mem_append.mp hmem with hmem | hmem
        · rw [source?_of_mem_select hmem hid]
          exact live_changed hsound (h.live_requirer hsound) hadmits hu
        · rw [List.mem_singleton.mp hmem] at hid
          simp [Task.source?] at hid
      · simp at hnone
  | @followed source d rest hid =>
      have hsource : s.Live source := h _ List.mem_cons_self source rfl hid
      intro later hlater id hid' hcontains
      rcases Task.mem_beforeDrop_append hlater with hmem | ⟨hmem, _⟩
      · simp only [List.mem_cons, List.not_mem_nil, or_false] at hmem
        rcases hmem with rfl | rfl <;> obtain rfl := Option.some.inj hid' <;> exact hsource
      · exact h.tail rfl later hmem id hid' hcontains
  | left _ => exact h.tail rfl
  | pruned =>
      intro later _ id _ hcontains
      obtain ⟨n, hn, rfl⟩ := Graph.contains_iff.mp hcontains
      exact Live.prune (mem_nodes_prune_iff.mp hn).2

end Selection.Attends

namespace Problem

/-- At every moment of a resolution work is done for what is reached. -/
theorem Underway.attends {p : Problem} {tally : Tally} {s : Selection} {tasks : List Task}
    (h : p.Underway tally s tasks) (hside : p.rules.sideBySide = false) : s.Attends tasks := by
  induction h with
  | start => simp [Selection.Attends, Task.beforeDrop]
  | asked _ _ _ =>
      intro task htask id hid
      rw [List.mem_singleton.mp (Task.mem_of_mem_beforeDrop htask)] at hid
      simp [Task.source?] at hid
  | performed hs hperformed ih => exact ih.move hs.sound.1 hside (move_of_perform hperformed)

end Problem

end PackagePlanner
