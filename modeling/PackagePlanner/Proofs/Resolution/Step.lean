import PackagePlanner.Resolution.Run
import PackagePlanner.Proofs.Graph.Reachability

/-!
What one task of a resolution can do.

* `Problem.Move` lists the possibilities, and `move_of_perform` says that these are all: a
  requirement is met already, or a release is chosen for it, or another release is chosen for its
  package; a dependency is followed, or there is none to follow; what is not needed is dropped.
* `Problem.Keeps`: what every task keeps. `Keeps.run`: a run keeps it to its end, or up to the task
  that cannot be performed.
* `Problem.Offers` is where a chosen release may come from: an installed release is chosen as it is
  installed, any other as it is available (`offers_of_mem_candidates`).
* The membership lemmas say what noting a requirement, taking choices back, choosing and dropping
  do to the nodes, the edges and the requirements of a selection.
-/

namespace PackagePlanner

namespace Selection

/-! ### Requirements -/

lemma mem_constraintsOn_iff {s : Selection} {name : String} {c : Constraint} :
    c ∈ s.constraintsOn name ↔
      ⟨name, c⟩ ∈ s.requests ∨ ∃ e ∈ s.graph.edges, e.target = name ∧ e.constraint = c := by
  simp only [constraintsOn, requirementsOn, List.map_append, List.map_map, List.mem_append,
    List.mem_map, List.mem_filter, beq_iff_eq, Graph.mem_requirementsOn_iff, Function.comp_apply,
    and_assoc]
  refine or_congr ⟨?_, fun h => ⟨_, h, rfl, rfl⟩⟩ Iff.rfl
  rintro ⟨⟨name, c⟩, h, rfl, rfl⟩
  exact h

/-! ### Noting a requirement -/

lemma mem_edges_note_iff {s : Selection} {name : String} {c : Constraint} {requirer : Requirer}
    {e : Graph.Edge} :
    e ∈ (s.note name c requirer).graph.edges ↔
      e ∈ s.graph.edges ∨ ∃ id, requirer = .release id ∧ e = ⟨id, name, c⟩ := by
  cases requirer with
  | request => simp [note]
  | release id => simp [note, Graph.mem_edges_addEdge_iff]

@[simp] lemma nodes_note (s : Selection) (name : String) (c : Constraint) (requirer : Requirer) :
    (s.note name c requirer).graph.nodes = s.graph.nodes :=
  (Problem.nodes_note s name c requirer).1

@[simp] lemma requests_note (s : Selection) (name : String) (c : Constraint)
    (requirer : Requirer) : (s.note name c requirer).requests = s.requests :=
  (Problem.nodes_note s name c requirer).2.2.2

@[simp] lemma replaced_note (s : Selection) (name : String) (c : Constraint)
    (requirer : Requirer) : (s.note name c requirer).replaced = s.replaced :=
  (Problem.nodes_note s name c requirer).2.2.1

@[simp] lemma reselected_note (s : Selection) (name : String) (c : Constraint)
    (requirer : Requirer) : (s.note name c requirer).reselected = s.reselected :=
  (Problem.nodes_note s name c requirer).2.1

@[simp] lemma resolving_note (s : Selection) (name : String) (c : Constraint)
    (requirer : Requirer) : (s.note name c requirer).resolving = s.resolving := by
  cases requirer <;> rfl

@[simp] lemma contains_note (s : Selection) (name : String) (c : Constraint)
    (requirer : Requirer) (id : ReleaseId) :
    (s.note name c requirer).graph.contains id = s.graph.contains id := by
  simp [Graph.contains]

@[simp] lemma target?_note (s : Selection) (name : String) (c : Constraint)
    (requirer : Requirer) (name' : String) (c' : Constraint) :
    (s.note name c requirer).graph.target? name' c' = s.graph.target? name' c' := by
  simp [Graph.target?, Graph.nodesNamed]

/-! ### Taking choices back -/

lemma mem_old_ids_iff {s : Selection} {name : String} {id : ReleaseId} :
    id ∈ (s.graph.nodesNamed name).map Graph.Node.id ↔
      s.graph.contains id = true ∧ id.name = name := by
  simp only [List.mem_map, Graph.mem_nodesNamed_iff, Graph.contains_iff]
  refine ⟨?_, ?_⟩
  · rintro ⟨n, ⟨hn, hname⟩, rfl⟩
    exact ⟨⟨n, hn, rfl⟩, hname⟩
  · rintro ⟨⟨n, hn, rfl⟩, hname⟩
    exact ⟨n, ⟨hn, hname⟩, rfl⟩

lemma mem_nodes_deselect_iff {s : Selection} {name : String} {n : Graph.Node} :
    n ∈ (s.deselect name).graph.nodes.toList ↔
      n ∈ s.graph.nodes.toList ∧ n.release.name ≠ name := by
  rw [deselect, Graph.mem_nodes_foldl_remove_iff, mem_old_ids_iff]
  exact and_congr_right fun hn => not_congr (and_iff_right (Graph.contains_of_mem hn))

lemma mem_edges_deselect_iff {s : Selection} {name : String} {e : Graph.Edge} :
    e ∈ (s.deselect name).graph.edges ↔
      e ∈ s.graph.edges ∧ ¬ (s.graph.contains e.source = true ∧ e.source.name = name) := by
  rw [deselect, Graph.mem_edges_foldl_remove_iff, mem_old_ids_iff]
  exact and_congr_right fun _ => not_congr ⟨fun h => h.2, fun h => ⟨h.1, h⟩⟩

lemma mem_resolving_deselect_iff {s : Selection} {name : String} {id : ReleaseId} :
    id ∈ (s.deselect name).resolving ↔
      id ∈ s.resolving ∧ ¬ (s.graph.contains id = true ∧ id.name = name) := by
  simp only [deselect, List.mem_filter, Bool.not_eq_true', List.contains_eq_mem,
    decide_eq_false_iff_not, mem_old_ids_iff]

/-! ### Dropping what is not needed -/

lemma mem_nodes_prune_iff {s : Selection} {n : Graph.Node} :
    n ∈ s.prune.graph.nodes.toList ↔
      n ∈ s.graph.nodes.toList ∧ n.id ∈ s.graph.reachable s.roots :=
  Graph.mem_nodes_retain_iff

lemma mem_edges_prune_iff {s : Selection} {e : Graph.Edge} :
    e ∈ s.prune.graph.edges ↔
      e ∈ s.graph.edges ∧
        (s.graph.contains e.source = true → e.source ∈ s.graph.reachable s.roots) :=
  Graph.mem_edges_retain_iff

lemma mem_resolving_prune_iff {s : Selection} {id : ReleaseId} :
    id ∈ s.prune.resolving ↔
      id ∈ s.resolving ∧ (s.graph.contains id = true → id ∈ s.graph.reachable s.roots) := by
  simp only [prune, List.mem_filter, Bool.not_eq_true', List.contains_eq_mem,
    decide_eq_false_iff_not, Graph.mem_unreachable_ids_iff, not_and, not_not]

end Selection

namespace Problem

/-! ### Candidates -/

/-- What a project has, and what its repository offers besides. -/
inductive Offers (p : Problem) : Graph.Node → Prop
  | installed {r : Release} : r ∈ p.installed.releases → p.Offers ⟨r, true⟩
  | available {r : Release} : r ∈ p.available.releases →
      (∀ q ∈ p.installed.releases, q.id ≠ r.id) → p.Offers ⟨r, false⟩

/-- A release is offered in one form only. -/
lemma Offers.eq_of_id_eq {p : Problem} {n m : Graph.Node} (hn : p.Offers n) (hm : p.Offers m)
    (h : n.id = m.id) : n = m := by
  cases hn with
  | installed hr =>
      cases hm with
      | installed hq => rw [Catalog.eq_of_id_eq hr hq h]
      | available _ hnot => exact absurd h (hnot _ hr)
  | available hr hnot =>
      cases hm with
      | installed hq => exact absurd h.symm (hnot _ hq)
      | available hq _ => rw [Catalog.eq_of_id_eq hr hq h]

lemma Offers.mem_releases {p : Problem} {n : Graph.Node} (h : p.Offers n) :
    n.release ∈ p.releases := by
  cases h with
  | installed hr => exact List.mem_append_left _ hr
  | available hr _ => exact List.mem_append_right _ hr

lemma Offers.mem_installed {p : Problem} {n : Graph.Node} (h : p.Offers n)
    (hi : n.installed = true) : n.release ∈ p.installed.releases := by
  cases h with
  | installed hr => exact hr
  | available => simp at hi

lemma Offers.id_ne_of_not_installed {p : Problem} {n : Graph.Node} (h : p.Offers n)
    (hi : n.installed = false) {q : Release} (hq : q ∈ p.installed.releases) : q.id ≠ n.id := by
  cases h with
  | installed => simp at hi
  | available _ hnot => exact hnot q hq

lemma offers_of_mem_candidates {p : Problem} {s : Selection} {name : String} {n : Graph.Node}
    (h : n ∈ p.candidates s name) : p.Offers n := by
  rcases List.mem_append.mp h with h | h <;> obtain ⟨r, hr, rfl⟩ := List.mem_map.mp h <;>
    obtain ⟨hr, htest⟩ := List.mem_filter.mp hr <;>
    have hr := (Catalog.mem_releasesOf_iff.mp (List.mem_reverse.mp hr)).1
  · exact .installed hr
  · refine .available hr fun q hq hid => ?_
    have hcontains : p.installed.containsRelease r.id = true :=
      Catalog.containsRelease_iff.mpr ⟨q, hq, hid⟩
    simp [hcontains] at htest

/-- A release that is offered can be chosen for its package, unless it is replaced. -/
lemma mem_candidates_of_offers {p : Problem} {s : Selection} {n : Graph.Node} (h : p.Offers n)
    (hreplaced : s.replaced.contains n.id = false) : n ∈ p.candidates s n.release.name := by
  cases h with
  | @installed r hr =>
      have hkept : s.replaced.contains r.id = false := hreplaced
      have hmem := List.mem_reverse.mpr (Catalog.mem_releasesOf_iff.mpr ⟨hr, rfl⟩)
      exact List.mem_append_left _ (List.mem_map_of_mem
        (List.mem_filter.mpr ⟨hmem, by simp [hkept]⟩))
  | @available r hr hnew =>
      have hnot : p.installed.containsRelease r.id = false := by
        rw [Bool.eq_false_iff, Ne, Catalog.containsRelease_iff]
        rintro ⟨q, hq, hid⟩
        exact hnew q hq hid
      have hmem := List.mem_reverse.mpr (Catalog.mem_releasesOf_iff.mpr ⟨hr, rfl⟩)
      exact List.mem_append_right _ (List.mem_map_of_mem
        (List.mem_filter.mpr ⟨hmem, by simp [hnot]⟩))

@[simp] lemma candidates_note (p : Problem) (s : Selection) (name name' : String) (c : Constraint)
    (requirer : Requirer) :
    p.candidates (s.note name' c requirer) name = p.candidates s name := by
  simp only [candidates, Selection.replaced_note]

/-- A choice is made if some candidate satisfies what is required. -/
lemma exists_choose_eq_some {p : Problem} {s : Selection} {name : String}
    {required : List Constraint} {n : Graph.Node} (hn : n ∈ p.candidates s name)
    (hadmits : ∀ c ∈ required, c.admits n.release.version = true) :
    ∃ m, p.choose s name required = some m := by
  have hfits : n ∈ (p.candidates s name).filter fun n =>
      required.all fun c => c.admits n.release.version :=
    List.mem_filter.mpr ⟨hn, List.all_eq_true.mpr hadmits⟩
  rw [← Option.isSome_iff_exists, choose, Option.isSome_or, Bool.or_eq_true, List.isSome_head?]
  exact .inr (by simpa using List.ne_nil_of_mem hfits)

/-! ### Choosing -/

@[simp] lemma graph_select (p : Problem) (s : Selection) (n : Graph.Node) :
    (p.select s n).1.graph = s.graph.addNode n :=
  (select_eq rfl).1

@[simp] lemma requests_select (p : Problem) (s : Selection) (n : Graph.Node) :
    (p.select s n).1.requests = s.requests :=
  (select_eq rfl).2.2.2.1

@[simp] lemma reselected_select (p : Problem) (s : Selection) (n : Graph.Node) :
    (p.select s n).1.reselected = s.reselected :=
  (select_eq rfl).2.1

@[simp] lemma countP_isPrune_select (p : Problem) (s : Selection) (n : Graph.Node) :
    (p.select s n).2.countP Task.isPrune = 0 :=
  (select_eq rfl).2.2.2.2.1

/-- A choice requires nothing by itself. -/
lemma constraintsOn_select (p : Problem) (s : Selection) (n : Graph.Node) (name : String) :
    (p.select s n).1.constraintsOn name = s.constraintsOn name := by
  simp [Selection.constraintsOn, Selection.requirementsOn, Graph.requirementsOn]

/-! ### What a task chooses -/

/-- The release that is chosen to do a task. -/
def choice? (p : Problem) (s : Selection) : Task → Option Graph.Node
  | .require name c requirer =>
    let noted := s.note name c requirer
    if (noted.graph.target? name c).isSome then none
    else p.choose noted name (if p.rules.sideBySide then [c] else noted.constraintsOn name)
  | _ => none

/-- The package whose choice has to be changed to do a task. -/
def change? (p : Problem) (s : Selection) (task : Task) : Option String :=
  ((p.choice? s task).map fun n => n.release.name).filter fun name =>
    !p.rules.sideBySide && !(s.graph.nodesNamed name).isEmpty

lemma name_of_choice? {p : Problem} {s : Selection} {name : String} {c : Constraint}
    {requirer : Requirer} {n : Graph.Node}
    (h : p.choice? s (.require name c requirer) = some n) : n.release.name = name := by
  simp only [choice?] at h
  split at h
  · simp at h
  · exact (mem_releases_of_mem_candidates (mem_candidates_of_choose h).1).2

lemma change?_eq_some_iff {p : Problem} {s : Selection} {task : Task} {name : String} :
    p.change? s task = some name ↔ p.rules.sideBySide = false ∧
      (∃ m ∈ s.graph.nodes.toList, m.release.name = name) ∧
        ∃ n, p.choice? s task = some n ∧ n.release.name = name := by
  simp only [change?, Option.filter_eq_some_iff, Option.map_eq_some_iff, Bool.and_eq_true,
    Bool.not_eq_true', List.isEmpty_eq_false_iff_exists_mem, Graph.mem_nodesNamed_iff]
  tauto

/-! ### Moves -/

/-- What performing a task does to a selection, and which tasks it gives rise to. -/
inductive Move (p : Problem) (s : Selection) : Task → Selection → List Task → Prop
  /-- A requirement that a chosen release meets. -/
  | met {name : String} {c : Constraint} {requirer : Requirer} :
      (s.graph.target? name c).isSome = true →
      Move p s (.require name c requirer) (s.note name c requirer) []
  /-- A choice beside others. -/
  | beside {name : String} {c : Constraint} {requirer : Requirer} {n : Graph.Node} :
      p.rules.sideBySide = true →
      s.graph.target? name c = none →
      n ∈ p.candidates (s.note name c requirer) name →
      c.admits n.release.version = true →
      Move p s (.require name c requirer) (p.select (s.note name c requirer) n).1
        (p.select (s.note name c requirer) n).2
  /-- The first choice for a package, made for all that is required of it. -/
  | first {name : String} {c : Constraint} {requirer : Requirer} {n : Graph.Node} :
      (∀ m ∈ s.graph.nodes.toList, m.release.name ≠ name) →
      n ∈ p.candidates (s.note name c requirer) name →
      (∀ d ∈ (s.note name c requirer).constraintsOn name, d.admits n.release.version = true) →
      Move p s (.require name c requirer) (p.select (s.note name c requirer) n).1
        (p.select (s.note name c requirer) n).2
  /-- Another choice for a package, made for all that is required of it; the package has more
  candidates than changes so far. -/
  | changed {name : String} {c : Constraint} {requirer : Requirer} {n : Graph.Node}
      {u : Selection} :
      p.change? s (.require name c requirer) = some name →
      s.reselected.count name < (p.candidates (s.note name c requirer) name).length →
      n ∈ p.candidates (s.note name c requirer) name →
      (∀ d ∈ (s.note name c requirer).constraintsOn name, d.admits n.release.version = true) →
      u = { s.note name c requirer with
        reselected := name :: (s.note name c requirer).reselected }.deselect name →
      Move p s (.require name c requirer) (p.select u n).1 ((p.select u n).2 ++ [.prune])
  /-- The next dependency of a chosen release. -/
  | followed {id : ReleaseId} {d : Dependency} {rest : List Dependency} :
      s.graph.contains id = true →
      Move p s (.follow id (d :: rest)) s
        [.require d.name d.constraint (.release id), .follow id rest]
  /-- The end of the dependencies, or of the choice of their release. -/
  | left {id : ReleaseId} {rest : List Dependency} :
      rest = [] ∨ s.graph.contains id = false →
      Move p s (.follow id rest) { s with resolving := s.resolving.filter (· != id) } []
  /-- The end of a changed choice. -/
  | pruned : Move p s .prune s.prune []

/-- A release that is chosen for some constraints is a candidate which they all accept. -/
lemma exists_of_selectFor {p : Problem} {s t : Selection} {name : String} {c : Constraint}
    {requirer : Requirer} {required : List Constraint} {more : List Task}
    (h : p.selectFor s name c requirer required = .ok (t, more)) :
    ∃ n ∈ p.candidates s name, (∀ d ∈ required, d.admits n.release.version = true) ∧
      (p.select s n).1 = t ∧ (p.select s n).2 = more := by
  rw [selectFor] at h
  split at h
  · simp at h
  · rename_i n hn
    obtain ⟨hmem, hadmits⟩ := mem_candidates_of_choose hn
    exact ⟨n, hmem, hadmits, Prod.ext_iff.mp (Except.ok.inj h)⟩

/-- A choice is changed while there are more candidates than changes. -/
lemma exists_of_reselect {p : Problem} {s t : Selection} {name : String} {c : Constraint}
    {requirer : Requirer} {more : List Task}
    (h : p.reselect s name c requirer = .ok (t, more)) :
    ∃ n, p.choose s name (s.constraintsOn name) = some n ∧
      s.reselected.count name < (p.candidates s name).length ∧
      (p.select ({ s with reselected := name :: s.reselected }.deselect name) n).1 = t ∧
      (p.select ({ s with reselected := name :: s.reselected }.deselect name) n).2 ++ [.prune] =
        more := by
  rw [reselect] at h
  split at h
  · simp at h
  · rename_i n hn
    simp only at h
    split at h
    · simp at h
    · rename_i hfew
      exact ⟨n, hn, by omega, Prod.ext_iff.mp (Except.ok.inj h)⟩

lemma move_of_require {p : Problem} {s t : Selection} {name : String} {c : Constraint}
    {requirer : Requirer} {more : List Task}
    (h : p.require (s.note name c requirer) name c requirer = .ok (t, more)) :
    p.Move s (.require name c requirer) t more := by
  rw [require] at h
  split at h
  · rename_i hmet
    obtain ⟨rfl, rfl⟩ := Prod.mk.inj (Except.ok.inj h)
    exact .met (by simpa using hmet)
  · rename_i hunmet
    split at h
    · rename_i hside
      obtain ⟨n, hmem, hadmits, rfl, rfl⟩ := exists_of_selectFor h
      exact .beside hside (by simpa using hunmet) hmem (hadmits c List.mem_cons_self)
    · rename_i hside
      split at h
      · rename_i hempty
        obtain ⟨n, hmem, hadmits, rfl, rfl⟩ := exists_of_selectFor h
        refine .first (fun m hm hname => ?_) hmem hadmits
        have hnamed : m ∈ (s.note name c requirer).graph.nodesNamed name :=
          Graph.mem_nodesNamed_iff.mpr ⟨by simpa using hm, hname⟩
        rw [List.isEmpty_iff.mp hempty] at hnamed
        simp at hnamed
      · rename_i hnamed
        obtain ⟨n, hn, hfew, rfl, rfl⟩ := exists_of_reselect h
        obtain ⟨hmem, hadmits⟩ := mem_candidates_of_choose hn
        rw [Selection.reselected_note] at hfew
        refine .changed (change?_eq_some_iff.mpr ⟨by simpa using hside, ?_, n, ?_,
          (mem_releases_of_mem_candidates hmem).2⟩) hfew hmem hadmits rfl
        · obtain ⟨m, hm⟩ := List.exists_mem_of_ne_nil _ (by simpa using hnamed)
          rw [Graph.mem_nodesNamed_iff, Selection.nodes_note] at hm
          exact ⟨m, hm⟩
        · simpa [choice?, hside] using ⟨by simpa using hunmet, hn⟩

/-- These are all the moves. -/
theorem move_of_perform {p : Problem} {s t : Selection} {task : Task} {more : List Task}
    (h : p.perform s task = .ok (t, more)) : p.Move s task t more := by
  match task with
  | .require name c requirer => exact move_of_require h
  | .follow id [] =>
      obtain ⟨rfl, rfl⟩ := Prod.mk.inj (Except.ok.inj h)
      exact .left (.inl rfl)
  | .follow id (d :: rest) =>
      rw [perform] at h
      split at h
      · rename_i hid
        obtain ⟨rfl, rfl⟩ := Prod.mk.inj (Except.ok.inj h)
        exact .followed hid
      · rename_i hid
        obtain ⟨rfl, rfl⟩ := Prod.mk.inj (Except.ok.inj h)
        exact .left (.inr (by simpa using hid))
  | .prune =>
      obtain ⟨rfl, rfl⟩ := Prod.mk.inj (Except.ok.inj h)
      exact .pruned

/-! ### Runs -/

/-- Every task that can be performed keeps a property of what is chosen and what is owed. -/
def Keeps (p : Problem) (holds : Selection → List Task → Prop) : Prop :=
  ∀ s task rest t more, holds s (task :: rest) → p.perform s task = .ok (t, more) →
    holds t (more ++ rest)

/-- What every task keeps holds at the end of a run, or when a task cannot be performed. -/
theorem Keeps.run {p : Problem} {holds : Selection → List Task → Prop} (h : p.Keeps holds)
    {s : Selection} {tasks : List Task} (hs : holds s tasks) :
    (∀ t, p.run s tasks = .ok t → holds t []) ∧
      ∀ conflict, p.run s tasks = .error conflict → ∃ u task rest, holds u (task :: rest) ∧
        p.perform u task = .error conflict := by
  fun_induction Problem.run p s tasks with
  | case1 s =>
      refine ⟨fun t ht => ?_, fun _ he => by simp at he⟩
      obtain rfl := Except.ok.inj ht
      exact hs
  | case2 s task rest conflict performed =>
      refine ⟨fun _ ht => by simp at ht, fun e he => ?_⟩
      obtain rfl := Except.error.inj he
      exact ⟨s, task, rest, hs, performed⟩
  | case3 s task rest t more performed ih => exact ih (h s task rest t more hs performed)

end Problem

end PackagePlanner
