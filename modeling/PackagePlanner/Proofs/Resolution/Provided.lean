import PackagePlanner.Proofs.Resolution.Departure

/-!
Resolutions that cannot fail.

* `Selection.Within`: a selection of nodes of one kind, for requests of another kind.
* `Problem.Provides`: among such selections a node of the kind is chosen for each due dependency,
  and all that it declares is due in turn.
* `Provides.run`: a run that starts within such a kind does not fail and stays within it, for each
  task can be performed (`Provides.perform`).
* `leaving_eq_empty`: where no chosen release has an installed one to replace, nothing leaves, and
  the resolution ends there (`finish_eq_ok`).
-/

namespace PackagePlanner

namespace Selection

/-- A selection of nodes of one kind for requests of another, in which nothing is replaced. -/
structure Within (kept : Graph.Node → Prop) (due : Dependency → Prop) (s : Selection) : Prop where
  /-- Nothing is replaced. -/
  replaced : s.replaced.toList = []
  /-- Every node is of the kind. -/
  nodes : ∀ n ∈ s.graph.nodes.toList, kept n
  /-- What the caller asked for is due. -/
  requests : ∀ r ∈ s.requests, due ⟨r.name, r.constraint⟩

namespace Within

variable {kept : Graph.Node → Prop} {due : Dependency → Prop} {s : Selection}

lemma contains_replaced (h : s.Within kept due) (id : ReleaseId) :
    s.replaced.contains id = false := by
  simp [Keyed.contains, h.replaced]

lemma note (h : s.Within kept due) (name : String) (c : Constraint) (requirer : Requirer) :
    (s.note name c requirer).Within kept due where
  replaced := by
    rw [replaced_note]
    exact h.replaced
  nodes := by
    rw [nodes_note]
    exact h.nodes
  requests := by
    rw [requests_note]
    exact h.requests

/-- Choosing a node of the kind. -/
lemma select (h : s.Within kept due) (p : Problem) {n : Graph.Node} (hn : kept n) :
    (p.select s n).1.Within kept due where
  replaced := (congrArg Keyed.toList (Problem.select_eq (p := p) (s := s) rfl).2.2.1).trans
    h.replaced
  nodes m hm := by
    rw [Problem.graph_select] at hm
    rcases Graph.mem_nodes_addNode_iff.mp hm with rfl | ⟨hm, _⟩
    · exact hn
    · exact h.nodes m hm
  requests := by
    rw [Problem.requests_select]
    exact h.requests

lemma prune (h : s.Within kept due) : s.prune.Within kept due :=
  ⟨h.replaced, fun n hn => h.nodes n (mem_nodes_prune_iff.mp hn).1, h.requests⟩

end Within

end Selection

namespace Problem

/-! ### Nodes that are chosen for what is due -/

/-- For each due dependency a node of the kind is chosen, and what such a node declares is due. -/
structure Provides (p : Problem) (kept : Graph.Node → Prop) (due : Dependency → Prop) : Prop where
  /-- Every declared dependency of a node of the kind is due. -/
  declared : ∀ n, kept n → ∀ d ∈ n.release.dependencies.toList, due d
  /-- Without releases side by side a node of the kind satisfies all that is due of its package. -/
  accepted : p.rules.sideBySide = false → ∀ n, kept n → p.Offers n →
    ∀ d, due d → n.release.name = d.name → d.Accepts n.release
  /-- A node of the kind is chosen for what is due. -/
  chosen : ∀ s : Selection, s.Within kept due → ∀ d, due d →
    ∀ required, d.constraint ∈ required → (∀ v ∈ required, due ⟨d.name, v⟩) →
      (p.rules.sideBySide = true → required = [d.constraint]) →
        ∃ n, kept n ∧ p.choose s d.name required = some n

namespace Provides

variable {p : Problem} {kept : Graph.Node → Prop} {due : Dependency → Prop} {s : Selection}

/-- What is required next is due. -/
lemma due_of_grounded (h : p.Provides kept due) (hs : s.Within kept due) {name : String}
    {c : Constraint} {requirer : Requirer} (hg : p.Grounded s (.require name c requirer)) :
    due ⟨name, c⟩ := by
  cases requirer with
  | request => exact hs.requests _ hg
  | release id =>
      obtain ⟨n, hn, _, hd⟩ := hg
      exact h.declared n (hs.nodes n hn) _ hd

/-- Every requirement of a coherent selection is due. -/
lemma due_of_mem_constraintsOn (h : p.Provides kept due) (hs : s.Within kept due)
    {tasks : List Task} (hcoherent : p.Coherent s tasks) {name : String} {c : Constraint}
    (hc : c ∈ s.constraintsOn name) : due ⟨name, c⟩ := by
  rcases Selection.mem_constraintsOn_iff.mp hc with hr | ⟨e, he, rfl, rfl⟩
  · exact hs.requests _ hr
  · obtain ⟨n, hn, _, hd⟩ := hcoherent.declared e he
    exact h.declared n (hs.nodes n hn) _ hd

/-- A choice for what is due succeeds. -/
lemma exists_selectFor_eq (h : p.Provides kept due) (hs : s.Within kept due) {name : String}
    {c : Constraint} (requirer : Requirer) {required : List Constraint} (hd : due ⟨name, c⟩)
    (hmem : c ∈ required) (hdue : ∀ v ∈ required, due ⟨name, v⟩)
    (hside : p.rules.sideBySide = true → required = [c]) :
    ∃ t more, p.selectFor s name c requirer required = .ok (t, more) ∧ t.Within kept due := by
  obtain ⟨n, hn, hchoose⟩ := h.chosen s hs _ hd required hmem hdue hside
  rw [selectFor, hchoose]
  exact ⟨_, _, rfl, hs.select p hn⟩

/-- With one release per package, a chosen release of a package meets what is due of it. -/
lemma isSome_target? (h : p.Provides kept due) (hs : s.Within kept due)
    (hside : p.rules.sideBySide = false) {tasks : List Task} (hcoherent : p.Coherent s tasks)
    {d : Dependency} (hd : due d) {n : Graph.Node} (hn : n ∈ s.graph.nodes.toList)
    (hname : n.release.name = d.name) : (s.graph.target? d.name d.constraint).isSome = true :=
  Graph.isSome_target?_iff.mpr
    ⟨n, hn, h.accepted hside n (hs.nodes n hn) (hcoherent.offered n hn) d hd hname⟩

/-- A requirement is met by a node of the kind. -/
lemma require (h : p.Provides kept due) (hs : s.Within kept due) {name : String} {c : Constraint}
    {requirer : Requirer} {tasks : List Task}
    (hsound : p.Sound s (.require name c requirer :: tasks)) :
    ∃ t more, p.perform s (.require name c requirer) = .ok (t, more) ∧ t.Within kept due := by
  have hnote := hs.note name c requirer
  have hcoherent := hsound.toCoherent.note hsound.ready.1
  have hd := h.due_of_grounded hs hsound.ready.1
  simp only [Problem.perform, Problem.require]
  split
  · exact ⟨_, _, rfl, hnote⟩
  · rename_i hunmet
    split
    · exact h.exists_selectFor_eq hnote requirer hd List.mem_cons_self (by simpa using hd)
        fun _ => rfl
    · rename_i hside
      split
      · exact h.exists_selectFor_eq hnote requirer hd (mem_constraintsOn_note hsound.ready.1)
          (fun v hv => h.due_of_mem_constraintsOn hnote hcoherent hv) fun ht => absurd ht hside
      · rename_i hnonempty
        obtain ⟨n, hn⟩ := List.exists_mem_of_ne_nil _ (by simpa using hnonempty)
        obtain ⟨hn, hname⟩ := Graph.mem_nodesNamed_iff.mp hn
        exact absurd (h.isSome_target? hnote (Bool.eq_false_iff.mpr hside) hcoherent hd hn hname)
          hunmet

/-- Each task can be performed. -/
theorem perform (h : p.Provides kept due) (hs : s.Within kept due) {task : Task}
    {tasks : List Task} (hsound : p.Sound s (task :: tasks)) :
    ∃ t more, p.perform s task = .ok (t, more) ∧ t.Within kept due := by
  match task with
  | .require name c requirer => exact h.require hs hsound
  | .follow id [] => exact ⟨_, _, rfl, hs.replaced, hs.nodes, hs.requests⟩
  | .follow id (d :: rest) =>
      rw [Problem.perform]
      split
      · exact ⟨_, _, rfl, hs⟩
      · exact ⟨_, _, rfl, hs.replaced, hs.nodes, hs.requests⟩
  | .prune => exact ⟨_, _, rfl, hs.prune⟩

/-- A run does not fail, and chooses nodes of the kind only. -/
theorem run (h : p.Provides kept due) (hs : s.Within kept due) {tasks : List Task}
    (hsound : p.Sound s tasks) : ∃ t, p.run s tasks = .ok t ∧ t.Within kept due := by
  have hkeeps : p.Keeps fun s tasks => s.Within kept due ∧ p.Sound s tasks := by
    rintro s task rest t more ⟨hs, hsound⟩ hperform
    obtain ⟨u, more', hok, hu⟩ := h.perform hs hsound
    obtain ⟨rfl, rfl⟩ := Prod.mk.inj (Except.ok.inj (hperform.symm.trans hok))
    exact ⟨hu, hsound.move (move_of_perform hperform)⟩
  obtain ⟨hok, herror⟩ := hkeeps.run ⟨hs, hsound⟩
  cases hrun : p.run s tasks with
  | ok t => exact ⟨t, rfl, (hok t hrun).1⟩
  | error conflict =>
      obtain ⟨u, task, rest, ⟨hu, husound⟩, hfails⟩ := herror conflict hrun
      obtain ⟨_, _, hperform, _⟩ := h.perform hu husound
      rw [hfails] at hperform
      simp at hperform

end Provides

/-! ### Nothing leaves -/

/-- Nothing leaves if nothing is replaced and no chosen release comes in the place of another, as
none does beside others. -/
lemma leaving_eq_empty {p : Problem} {s : Selection} (hreplaced : s.replaced.toList = [])
    (hnew : p.rules.sideBySide = false → ∀ n ∈ s.graph.nodes.toList, n.installed = false →
      p.installed.releasesOf n.release.name = []) : p.leaving s = .empty := by
  cases hside : p.rules.sideBySide with
  | true => simp [leaving, hside, hreplaced, Keyed.ofList]
  | false =>
      have harriving : (s.graph.nodes.toList.filter fun n => !n.installed).flatMap (fun n =>
          (p.installed.releasesOf n.release.name).filter fun r => !s.graph.contains r.id) = [] := by
        rw [List.flatMap_eq_nil_iff]
        intro n hn
        obtain ⟨hn, hi⟩ := List.mem_filter.mp hn
        rw [hnew hside n hn (by simpa using hi), List.filter_nil]
      simp [leaving, hside, hreplaced, harriving, Keyed.ofList]

/-- Where nothing leaves nobody is broken. -/
lemma finish_eq_ok {p : Problem} {s : Selection} (h : p.leaving s = .empty) :
    p.finish s = .ok s := by
  have hbroken : p.broken? s = none := by
    simp [broken?, h]
  rw [finish]
  split
  · rw [settle, hbroken]
  · rfl

end Problem

end PackagePlanner
