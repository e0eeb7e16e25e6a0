import PackagePlanner.Proofs.Planner.Change
import PackagePlanner.Proofs.Planner.Removal

/-!
Projects in the course of time.

* `Operation` is anything that can be asked for, and `Catalog.advance` carries it out without
  releases side by side: the plan is applied if there is one, and else the project stays as it is.
* `Catalog.history` lists the states of a project through a number of operations, each with the
  repository of its time. `consistent_of_mem_history`: if the first state is consistent all are.
-/

namespace PackagePlanner

/-- An operation on a project. -/
inductive Operation where
  | change (change : Change)
  | remove (names : List String) (text : String)
deriving DecidableEq

/-- The plan of an operation when dependencies are followed. -/
def Planner.planFor (p : Planner) : Operation → Except PlanError Plan
  | .change change => p.plan change
  | .remove names text => p.remove names text true

namespace Catalog

/-- The project after an operation; one that fails leaves it as it is. -/
def advance (installed : Catalog) (step : Catalog × Operation) : Catalog :=
  match Planner.planFor { available := step.1, installed } step.2 with
  | .ok plan => installed.apply plan
  | .error _ => installed

/-- The states of a project through some operations, the first one included. -/
def history (installed : Catalog) (steps : List (Catalog × Operation)) : List Catalog :=
  steps.scanl advance installed

/-! ### Consistency -/

/-- A change leaves a consistent project consistent. -/
lemma consistent_plan {p : Planner} (hside : p.sideBySide = false)
    (hinstalled : p.installed.Consistent) {change : Change} {plan : Plan}
    (h : p.plan change = .ok plan) : (p.installed.apply plan).Consistent := by
  obtain ⟨s, hs, rfl⟩ := Planner.planWith_eq_ok_iff.mp h
  have hsettled := Planner.settled_of_selectionWith hs
  have hconsistent := hsettled.consistent Planner.follow_problemWith
    (Planner.sideBySide_problemWith.trans hside) (by rwa [Planner.installed_problemWith])
  rwa [Planner.installed_problemWith] at hconsistent

/-- One operation leaves a consistent project consistent. -/
theorem consistent_advance {installed : Catalog} (h : installed.Consistent)
    (step : Catalog × Operation) : (installed.advance step).Consistent := by
  obtain ⟨available, operation⟩ := step
  rw [advance]
  split
  · rename_i plan hplan
    cases operation with
    | change change => exact consistent_plan rfl h hplan
    | remove names text => exact Planner.consistent_remove h hplan
  · exact h

/-- Every state of a project that was consistent at first is consistent. -/
theorem consistent_of_mem_history {installed : Catalog} (h : installed.Consistent)
    (steps : List (Catalog × Operation)) :
    ∀ state ∈ installed.history steps, state.Consistent := by
  induction steps generalizing installed with
  | nil =>
      intro state hstate
      obtain rfl := List.mem_singleton.mp hstate
      exact h
  | cons step rest ih =>
      intro state hstate
      rw [history, List.scanl_cons, List.mem_cons] at hstate
      rcases hstate with rfl | hstate
      · exact h
      · exact ih (consistent_advance h step) state hstate

/-- A library, and an application of the same version that needs just this version of it. -/
def libraryWithApp (version : Version) : List Release :=
  [{ name := "lib", version },
    { name := "app", version, dependencies := Keyed.ofList [⟨"lib", .exact version⟩] }]

/-- An upgrade of the library takes the application along; the library cannot go alone, the two go
together, and an old application brings the old library back. -/
theorem consistent_of_mem_history_libraryWithApp :
    let one : Version := ⟨1, 0, 0⟩
    let two : Version := ⟨2, 0, 0⟩
    let installed := ofReleases .installed (libraryWithApp one)
    let available := ofReleases .repository (libraryWithApp one ++ libraryWithApp two)
    let steps := [(available, Operation.change (.upgrade ["lib"] "*")),
      (available, .remove ["lib"] "*"), (available, .remove ["lib", "app"] "*"),
      (available, .change (.install "app" "1!"))]
    installed.Consistent ∧
      (installed.history steps).map (fun state => state.releases.map Release.id) =
        [[⟨"lib", one⟩, ⟨"app", one⟩], [⟨"lib", two⟩, ⟨"app", two⟩],
          [⟨"lib", two⟩, ⟨"app", two⟩], [], [⟨"lib", one⟩, ⟨"app", one⟩]] ∧
      ∀ state ∈ installed.history steps, state.Consistent := by
  have h : (ofReleases .installed (libraryWithApp ⟨1, 0, 0⟩)).Consistent :=
    ⟨by decide +kernel, by decide +kernel⟩
  exact ⟨h, by decide +kernel, consistent_of_mem_history h _⟩

end Catalog

end PackagePlanner
