import PackagePlanner.Proofs.Planner.Termination
import PackagePlanner.Proofs.Resolution.Attended
import PackagePlanner.Proofs.Resolution.Conflict

/-!
Who is listed when the requirements on a package conflict.

* `Selection.Lists`: the listed requirers are the caller and chosen releases that declare the
  dependency. The requests reach these, but for those that a drop to come will take out.
* `Planner.requirers_of_conflict`: this holds of each conflict of an install or an upgrade without
  releases side by side; the requirer at hand is always reached (`Underway.attends`).
* `exists_conflict_listing_unreached`: while the dependencies of a changed choice are followed, a
  release that only the old choice needed is still listed.
-/

namespace PackagePlanner

namespace Selection

lemma mem_requirementsOn_iff {s : Selection} {name : String} {r : Requirer × Constraint} :
    r ∈ s.requirementsOn name ↔
      (r.1 = .request ∧ ⟨name, r.2⟩ ∈ s.requests) ∨
        ∃ e ∈ s.graph.edges, r = (.release e.source, e.constraint) ∧ e.target = name := by
  obtain ⟨requirer, c⟩ := r
  simp only [requirementsOn, List.mem_append, List.mem_map, List.mem_filter, beq_iff_eq,
    Graph.mem_requirementsOn_iff, Prod.mk.injEq]
  refine or_congr ⟨?_, ?_⟩ ⟨?_, ?_⟩
  · rintro ⟨⟨name, c⟩, ⟨hr, rfl⟩, rfl, rfl⟩
    exact ⟨rfl, hr⟩
  · rintro ⟨rfl, hr⟩
    exact ⟨_, ⟨hr, rfl⟩, rfl, rfl⟩
  · rintro ⟨e, ⟨he, hname⟩, rfl, rfl⟩
    exact ⟨e, he, ⟨rfl, rfl⟩, hname⟩
  · rintro ⟨e, he, ⟨rfl, rfl⟩, hname⟩
    exact ⟨e, ⟨he, hname⟩, rfl, rfl⟩

/-- What is listed of the requirements on a package when the last one, of `requirer`, cannot be met
together with the others and the tasks `rest` come later. -/
structure Lists (s : Selection) (package : String) (requirer : Requirer) (rest : List Task)
    (listed : List (String × String)) : Prop where
  /-- All requirements on the package are listed. -/
  listed_eq : listed = (s.requirementsOn package).map fun r => (r.1.label, r.2.text)
  /-- A requirement is a request, or a dependency of a chosen release. The requests reach this
  release, unless it is not the one at hand and a drop is still to come. -/
  requirers : ∀ r ∈ s.requirementsOn package, (r.1 = .request ∧ ⟨package, r.2⟩ ∈ s.requests) ∨
    ∃ n ∈ s.graph.nodes.toList, r.1 = .release n.id ∧
      ⟨package, r.2⟩ ∈ n.release.dependencies.toList ∧
        (s.Live n.id ∨ (r.1 ≠ requirer ∧ .prune ∈ rest))

end Selection

namespace Problem

variable {p : Problem} {tally : Tally} {s : Selection} {package : String}
  {listed : List (String × String)}

/-! ### Conflicting requirements -/

lemma unsatisfiable_ne_conflicting (p : Problem) (name : String) (c : Constraint)
    (requirer : Requirer) : p.unsatisfiable name c requirer ≠ .conflicting package listed := by
  rw [unsatisfiable]
  split <;> simp

/-- Requirements on a package conflict when one more is to be met. -/
lemma eq_of_conflicting {task : Task}
    (h : p.perform s task = .error (.conflicting package listed)) :
    ∃ c requirer, task = .require package c requirer ∧
      listed = ((s.note package c requirer).requirementsOn package).map fun r =>
        (r.1.label, r.2.text) := by
  generalize hconflict : Conflict.conflicting package listed = conflict at h
  cases perform_eq_error_iff.mp h with
  | first => exact absurd hconflict.symm (p.unsatisfiable_ne_conflicting _ _ _)
  | @changed name c requirer =>
      rw [incompatible] at hconflict
      split at hconflict
      · exact absurd hconflict.symm (p.unsatisfiable_ne_conflicting _ _ _)
      · obtain ⟨rfl, rfl⟩ := Conflict.conflicting.inj hconflict
        exact ⟨c, requirer, rfl, rfl⟩
  | unsettled => simp at hconflict

/-- Whoever is listed has the requirement, and is reached unless a drop is still to come. -/
theorem Underway.lists {task : Task} {rest : List Task} (h : p.Underway tally s (task :: rest))
    (hside : p.rules.sideBySide = false)
    (hconflict : p.perform s task = .error (.conflicting package listed)) :
    ∃ c requirer, task = .require package c requirer ∧
      (s.note package c requirer).Lists package requirer rest listed := by
  obtain ⟨c, requirer, rfl, hlisted⟩ := eq_of_conflicting hconflict
  refine ⟨c, requirer, rfl, hlisted, fun r hr => ?_⟩
  obtain ⟨hsound, _⟩ := h.sound
  refine (Selection.mem_requirementsOn_iff.mp hr).imp_right ?_
  rintro ⟨e, he, rfl, rfl⟩
  obtain ⟨n, hn, hid, hd⟩ := (hsound.toCoherent.note hsound.ready.1).declared e he
  refine ⟨n, hn, by rw [hid], hd, ?_⟩
  rw [Selection.nodes_note] at hn
  by_cases hrequirer : requirer = .release n.id
  · have hlive := (h.attends hside).live_requirer hsound n.id hrequirer
    exact .inl (hlive.note ..)
  · refine (hsound.live hside n hn).imp (·.note ..) fun hdrop => ⟨?_, by simpa using hdrop⟩
    rw [← hid]
    exact fun heq => hrequirer heq.symm

/-! ### One moment after the other -/

/-- What is chosen and what is still to be done after a number of tasks. -/
def after (p : Problem) : Nat → Selection → List Task → Option (Selection × List Task)
  | 0, s, tasks => some (s, tasks)
  | _ + 1, _, [] => none
  | k + 1, s, task :: rest =>
    match p.perform s task with
    | .error _ => none
    | .ok (t, more) => p.after k t (more ++ rest)

/-- The choices at the moment a task is taken up: if it is a requirement, this is noted first. -/
def takenUp (s : Selection) : Task → Selection
  | .require package c requirer => s.note package c requirer
  | _ => s

/-- What every task keeps holds after any number of tasks. -/
lemma Keeps.after {holds : Selection → List Task → Prop} (h : p.Keeps holds)
    {tasks tasks' : List Task} {t : Selection} {k : Nat} (hs : holds s tasks)
    (hafter : p.after k s tasks = some (t, tasks')) : holds t tasks' := by
  induction k generalizing s tasks with
  | zero =>
      obtain ⟨rfl, rfl⟩ := Prod.mk.inj (Option.some.inj hafter)
      exact hs
  | succ k ih =>
      cases tasks with
      | nil => simp [Problem.after] at hafter
      | cons task rest =>
          rw [Problem.after] at hafter
          split at hafter
          · simp at hafter
          · rename_i performed
            exact ih (h _ _ _ _ _ hs performed) hafter

lemma Underway.after {tasks tasks' : List Task} {t : Selection} {k : Nat}
    (h : p.Underway tally s tasks) (hafter : p.after k s tasks = some (t, tasks')) :
    ∃ tally', p.Underway tally' t tasks' := by
  have hkeeps : p.Keeps fun s tasks => ∃ tally, p.Underway tally s tasks := by
    rintro _ _ _ _ _ ⟨tally, h⟩ hperform
    exact ⟨_, h.performed hperform⟩
  exact hkeeps.after ⟨tally, h⟩ hafter

end Problem

namespace Planner

variable {p : Planner} {change : Change} {package : String} {listed : List (String × String)}

/-- A change that fails on conflicting requirements does so when one more requirement is to be met.
Whenever this happens the listed requirers are the caller and chosen releases with the dependency.
The requests reach these releases, apart from some that wait for the drop after a changed choice, of
which the requirer at hand is none. -/
theorem requirers_of_conflict (hside : p.sideBySide = false)
    (h : p.plan change = .error (.resolution (.conflicting package listed))) :
    (∃ tally s task rest, (p.problem change).Underway tally s (task :: rest) ∧
        (p.problem change).perform s task = .error (.conflicting package listed)) ∧
      ∀ tally s task rest, (p.problem change).Underway tally s (task :: rest) →
        (p.problem change).perform s task = .error (.conflicting package listed) →
          ∃ c requirer, task = .require package c requirer ∧
            (s.note package c requirer).Lists package requirer rest listed := by
  refine ⟨?_, fun tally s task rest hs => hs.lists (sideBySide_problemWith.trans hside)⟩
  have hfails := planWith_eq_error_iff.mp h
  obtain ⟨tally, s, tasks, hs, _, hends⟩ := concludes_selectionWith p true change
  rw [hfails] at hends
  cases hends with
  | stuck hstuck => exact ⟨tally, s, _, _, hs, hstuck⟩
  | broken _ he =>
      rcases he with he | he <;> simp [Problem.Broken.blocked, Problem.Broken.conflict] at he
  | refused he => exact absurd rfl (he _)

/-- A tool that needs the old `x` takes away the `y` that only the new one needs, and with it the
oldest library; two others then disagree on the library. -/
def dividedLibrary : Planner where
  available := .ofReleases .repository [
    { name := "lib", version := ⟨1, 0, 0⟩ },
    { name := "lib", version := ⟨2, 0, 0⟩ },
    { name := "lib", version := ⟨3, 0, 0⟩ },
    { name := "y", version := ⟨1, 0, 0⟩, dependencies := Keyed.ofList [⟨"lib", .exact ⟨1, 0, 0⟩⟩] },
    { name := "x", version := ⟨1, 0, 0⟩ },
    { name := "x", version := ⟨2, 0, 0⟩, dependencies := Keyed.ofList [⟨"y", .any⟩] },
    { name := "t", version := ⟨1, 0, 0⟩, dependencies := Keyed.ofList [⟨"x", .exact ⟨1, 0, 0⟩⟩] },
    { name := "b", version := ⟨1, 0, 0⟩, dependencies := Keyed.ofList [⟨"lib", .exact ⟨2, 0, 0⟩⟩] },
    { name := "c", version := ⟨1, 0, 0⟩, dependencies := Keyed.ofList [⟨"lib", .exact ⟨3, 0, 0⟩⟩] },
    { name := "app", version := ⟨1, 0, 0⟩,
      dependencies := Keyed.ofList [⟨"x", .any⟩, ⟨"t", .any⟩, ⟨"b", .any⟩, ⟨"c", .any⟩] }]
  installed := .empty .installed

/-- The `y` that was chosen before is not listed. -/
theorem requirers_of_conflict_dividedLibrary :
    dividedLibrary.plan (.install "app" "*") = .error (.resolution (.conflicting "lib"
        [("b@1.0.0", "2.0.0!"), ("c@1.0.0", "3.0.0!")])) ∧
      ∃ s c requirer rest, (dividedLibrary.installProblem true).after 26
          { requests := [⟨"app", .any⟩] } [.require "app" .any .request] =
            some (s, .require "lib" c requirer :: rest) ∧
        .prune ∉ rest ∧ (s.note "lib" c requirer).Lists "lib" requirer rest
          [("b@1.0.0", "2.0.0!"), ("c@1.0.0", "3.0.0!")] := by
  have hfails : (dividedLibrary.plan (.install "app" "*")).map (fun _ => ()) =
      .error (.resolution (.conflicting "lib" [("b@1.0.0", "2.0.0!"), ("c@1.0.0", "3.0.0!")])) := by
    decide +kernel
  have hplan := map_eq_error_iff.mp hfails
  have hmoment : ((dividedLibrary.installProblem true).after 26
      { requests := [⟨"app", .any⟩] } [.require "app" .any .request]).bind (fun m =>
        m.2.head?.map fun task =>
          (((dividedLibrary.installProblem true).perform m.1 task).map fun _ => (),
            m.2.any Task.isPrune)) =
      some (.error (.conflicting "lib" [("b@1.0.0", "2.0.0!"), ("c@1.0.0", "3.0.0!")]), false) := by
    decide +kernel
  obtain ⟨⟨s, tasks⟩, hafter, hhead⟩ := Option.bind_eq_some_iff.mp hmoment
  obtain ⟨task, htask, hstuck⟩ := Option.map_eq_some_iff.mp hhead
  obtain ⟨rest, rfl⟩ := List.head?_eq_some_iff.mp htask
  obtain ⟨hconflict, hdrop⟩ := Prod.mk.inj hstuck
  have hstart : (dividedLibrary.installProblem true).Underway { asked := 1 }
      { requests := [⟨"app", .any⟩] } [.require "app" .any .request] := .asked .start (by simp)
  obtain ⟨tally, hs⟩ := hstart.after hafter
  obtain ⟨c, requirer, rfl, hlists⟩ :=
    (requirers_of_conflict rfl hplan).2 tally s task rest hs (map_eq_error_iff.mp hconflict)
  refine ⟨hplan, s, c, requirer, rest, hafter, fun hmem => ?_, hlists⟩
  rw [List.any_eq_false] at hdrop
  exact hdrop .prune (List.mem_cons_of_mem _ hmem) rfl

/-- An application that a new `x` serves with `y`, and a tool that needs the old `x`; `y` and the
old `x` need different versions of `z`. -/
def swappedDependency : Planner where
  available := .ofReleases .repository [
    { name := "app", version := ⟨1, 0, 0⟩,
      dependencies := Keyed.ofList [⟨"x", .any⟩, ⟨"t", .any⟩] },
    { name := "x", version := ⟨1, 0, 0⟩, dependencies := Keyed.ofList [⟨"z", .exact ⟨2, 0, 0⟩⟩] },
    { name := "x", version := ⟨2, 0, 0⟩, dependencies := Keyed.ofList [⟨"y", .any⟩] },
    { name := "y", version := ⟨1, 0, 0⟩, dependencies := Keyed.ofList [⟨"z", .exact ⟨1, 0, 0⟩⟩] },
    { name := "z", version := ⟨1, 0, 0⟩ },
    { name := "z", version := ⟨2, 0, 0⟩ },
    { name := "t", version := ⟨1, 0, 0⟩, dependencies := Keyed.ofList [⟨"x", .exact ⟨1, 0, 0⟩⟩] }]
  installed := .empty .installed

/-- A listed requirer need not be reached: while what the old `x` needs is looked for, `y` is still
chosen, although only the new one needed it. -/
theorem exists_conflict_listing_unreached :
    ¬ ∀ (p : Planner) (name text : String) (c : Constraint) (package : String)
      (listed : List (String × String)) (k : Nat) (s : Selection) (d : Constraint)
      (requirer : Requirer) (rest : List Task),
      p.sideBySide = false → Constraint.parse text = .ok c →
        p.install name text true = .error (.resolution (.conflicting package listed)) →
        (p.installProblem true).after k { requests := [⟨name, c⟩] } [.require name c .request] =
          some (s, .require package d requirer :: rest) →
        (p.installProblem true).perform s (.require package d requirer) =
          .error (.conflicting package listed) →
        ∀ id v, (.release id, v) ∈ (s.note package d requirer).requirementsOn package →
          (s.note package d requirer).Live id := by
  intro hall
  have hfails : (swappedDependency.install "app" "*" true).map (fun _ => ()) =
      .error (.resolution (.conflicting "z" [("y@1.0.0", "1.0.0!"), ("x@1.0.0", "2.0.0!")])) := by
    decide +kernel
  have hmoment : ((swappedDependency.installProblem true).after 15
      { requests := [⟨"app", .any⟩] } [.require "app" .any .request]).bind (fun m =>
        m.2.head?.map fun task =>
          ((swappedDependency.installProblem true).perform m.1 task).map fun _ => ()) =
      some (.error (.conflicting "z" [("y@1.0.0", "1.0.0!"), ("x@1.0.0", "2.0.0!")])) := by
    decide +kernel
  obtain ⟨⟨s, tasks⟩, hafter, hhead⟩ := Option.bind_eq_some_iff.mp hmoment
  obtain ⟨task, htask, hstuck⟩ := Option.map_eq_some_iff.mp hhead
  obtain ⟨rest, rfl⟩ := List.head?_eq_some_iff.mp htask
  obtain ⟨d, requirer, rfl, _⟩ := Problem.eq_of_conflicting (map_eq_error_iff.mp hstuck)
  have hunreached : ((swappedDependency.installProblem true).after 15
      { requests := [⟨"app", .any⟩] } [.require "app" .any .request]).bind (fun m =>
        (m.2.head?.map (Problem.takenUp m.1)).map fun t =>
          ((t.requirementsOn "z").contains (.release ⟨"y", ⟨1, 0, 0⟩⟩, .exact ⟨1, 0, 0⟩),
            (t.graph.reachable t.roots).contains ⟨"y", ⟨1, 0, 0⟩⟩)) = some (true, false) := by
    decide +kernel
  rw [hafter] at hunreached
  obtain ⟨hlisted, hnot⟩ := Prod.mk.inj (Option.some.inj hunreached)
  have hlive := hall swappedDependency "app" "*" .any "z" _ 15 s d requirer rest rfl
    (by decide +kernel) (map_eq_error_iff.mp hfails) hafter (map_eq_error_iff.mp hstuck)
    ⟨"y", ⟨1, 0, 0⟩⟩ (.exact ⟨1, 0, 0⟩) (List.contains_iff_mem.mp hlisted)
  exact Bool.false_ne_true (hnot.symm.trans (List.contains_iff_mem.mpr hlive))

end Planner

end PackagePlanner
