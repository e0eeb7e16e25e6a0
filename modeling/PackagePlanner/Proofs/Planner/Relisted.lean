import PackagePlanner.Proofs.Planner.Change
import PackagePlanner.Proofs.Resolution.Alike

/-!
Installs do not depend on the order in which releases are listed.

* `Problem.Relists`: two problems with the same rules whose catalogs hold the same releases.
* `Relists.run_eq`: a resolution goes the same way for both (`Relists.alike`). Only the dependents
  on a package come in another order, and a choice looks at all of them (`Relists.all_hints_eq`).
* `Relists.broken?_eq_none_iff`: the first broken release may be another one, but there is one for
  both or for neither. `Planner.install_relisted`: hence an install has the same plan.
-/

namespace PackagePlanner

namespace Problem

/-- Two problems with the same rules whose catalogs hold the same releases, in any order. -/
structure Relists (p q : Problem) : Prop where
  /-- The same releases are available. -/
  available : ∀ r, r ∈ p.available.releases ↔ r ∈ q.available.releases
  /-- The same releases are installed. -/
  installed : ∀ r, r ∈ p.installed.releases ↔ r ∈ q.installed.releases
  /-- The rules are the same. -/
  rules : p.rules = q.rules

namespace Relists

variable {p q : Problem} (h : p.Relists q)

include h

/-! ### Runs -/

lemma isLeaving_eq (s : Selection) (r : Release) : p.isLeaving s r = q.isLeaving s r := by
  rw [isLeaving, isLeaving, h.rules]

/-- The hints are the same, though perhaps in another order. -/
lemma all_hints_eq (s : Selection) (name : String) (test : Constraint → Bool) :
    (p.hints s name).all test = (q.hints s name).all test := by
  rw [hints, hints, h.rules]
  split
  · rfl
  · rw [Bool.eq_iff_iff]
    simp only [List.all_eq_true, List.mem_map, List.mem_filter, h.isLeaving_eq,
      Catalog.mem_dependentsOf_congr h.installed]

lemma alike (name : String) : p.Alike q name where
  rules := h.rules
  available := Catalog.releasesOf_congr h.available name
  installed := Catalog.releasesOf_congr h.installed name
  hints s test := h.all_hints_eq s name test

/-- A resolution goes the same way. -/
theorem run_eq (s : Selection) (tasks : List Task) : p.run s tasks = q.run s tasks := by
  have hkeeps : p.Keeps fun _ _ => True := fun _ _ _ _ _ _ _ => trivial
  exact hkeeps.run_eq (fun _ _ _ _ => perform_eq fun name _ _ _ => h.alike name) trivial

lemma request_eq (s : Selection) (name : String) (c : Constraint) :
    p.request s name c = q.request s name c :=
  h.run_eq ..

/-! ### What leaves -/

lemma leaving_eq (s : Selection) : p.leaving s = q.leaving s := by
  simp only [leaving, h.rules, Catalog.releasesOf_congr h.installed]

lemma planOf_eq (s : Selection) : p.planOf s = q.planOf s := by
  simp only [planOf, h.leaving_eq]

lemma remains_eq (s : Selection) (leaving : Keyed Release.id) (name : String) (c : Constraint) :
    p.remains s leaving name c = q.remains s leaving name c := by
  simp only [remains, Catalog.releasesOf_congr h.installed]

/-- There is a broken release for both or for neither. -/
lemma broken?_eq_none_iff (s : Selection) : p.broken? s = none ↔ q.broken? s = none := by
  simp only [broken?, List.findSome?_eq_none_iff, Option.map_eq_none_iff, List.find?_eq_none,
    h.leaving_eq, h.remains_eq, Catalog.mem_dependentsOf_congr h.installed]

end Relists

end Problem

namespace Planner

/-- Two planners with the same rules whose catalogs hold the same releases, in any order. -/
structure Relists (p q : Planner) : Prop where
  /-- The same releases are available. -/
  available : ∀ r, r ∈ p.available.releases ↔ r ∈ q.available.releases
  /-- The same releases are installed. -/
  installed : ∀ r, r ∈ p.installed.releases ↔ r ∈ q.installed.releases
  /-- Releases may stand side by side for both or for neither. -/
  sideBySide : p.sideBySide = q.sideBySide

variable {p q : Planner} {name text : String} {follow : Bool}

lemma Relists.installProblem (h : p.Relists q) (follow : Bool) :
    (p.installProblem follow).Relists (q.installProblem follow) where
  available := h.available
  installed := h.installed
  rules := by rw [Planner.installProblem, Planner.installProblem, h.sideBySide]

lemma Relists.installSelection_eq_ok_iff (h : p.Relists q) {s : Selection} :
    p.installSelection name text follow = .ok s ↔ q.installSelection name text follow = .ok s := by
  have hproblem := h.installProblem follow
  rw [installSelection, installSelection, Catalog.package?_congr h.available]
  split
  · rfl
  · split
    · rfl
    · rw [Catalog.find?, Catalog.package?_congr h.installed, ← Catalog.find?]
      split
      · rfl
      · rw [hproblem.request_eq]
        split
        · rfl
        · rw [finish_eq_ok_iff rfl, finish_eq_ok_iff rfl, hproblem.broken?_eq_none_iff]
          rfl

/-- An install depends on which releases are available and installed, but not on the order in which
they are listed: it succeeds for both listings or for neither, with the same plan. -/
theorem install_relisted (h : p.Relists q) (plan : Plan) :
    p.install name text follow = .ok plan ↔ q.install name text follow = .ok plan := by
  rw [install, install, map_eq_ok_iff, map_eq_ok_iff]
  simp only [h.installSelection_eq_ok_iff, (h.installProblem follow).planOf_eq]

/-- A project with two old versions of a library, on which two others of its releases depend. -/
def libraryFirst : Planner where
  available := .ofReleases .repository [
    { name := "lib", version := ⟨1, 0, 0⟩ },
    { name := "lib", version := ⟨2, 0, 0⟩ },
    { name := "tool", version := ⟨1, 0, 0⟩,
      dependencies := Keyed.ofList [⟨"lib", .exact ⟨2, 0, 0⟩⟩] },
    { name := "app", version := ⟨1, 0, 0⟩,
      dependencies := Keyed.ofList [⟨"lib", .any⟩, ⟨"tool", .any⟩] }]
  installed := .ofReleases .installed [
    { name := "lib", version := ⟨0, 4, 0⟩ },
    { name := "lib", version := ⟨0, 5, 0⟩ },
    { name := "viewer", version := ⟨1, 0, 0⟩, dependencies := Keyed.ofList [⟨"lib", .any⟩] },
    { name := "editor", version := ⟨1, 0, 0⟩,
      dependencies := Keyed.ofList [⟨"lib", .atMost ⟨3, 0, 0⟩⟩] }]

/-- The releases of a planner, listed the other way round. -/
def reversed (p : Planner) : Planner where
  available := .ofReleases .repository p.available.releases.reverse
  installed := .ofReleases .installed p.installed.releases.reverse
  sideBySide := p.sideBySide

/-- The library comes last, and the plan is the same. -/
theorem install_relisted_libraryFirst :
    libraryFirst.installed.releases ≠ libraryFirst.reversed.installed.releases ∧
      ∃ plan, libraryFirst.install "app" "*" true = .ok plan ∧
        libraryFirst.reversed.install "app" "*" true = .ok plan ∧
        plan.added.map Release.id = [⟨"lib", ⟨2, 0, 0⟩⟩, ⟨"tool", ⟨1, 0, 0⟩⟩, ⟨"app", ⟨1, 0, 0⟩⟩] ∧
        plan.removed.map Release.id = [⟨"lib", ⟨0, 4, 0⟩⟩, ⟨"lib", ⟨0, 5, 0⟩⟩] := by
  have hsame {rs qs : List Release} (h : rs ⊆ qs ∧ qs ⊆ rs) (r : Release) : r ∈ rs ↔ r ∈ qs :=
    ⟨fun hr => h.1 hr, fun hr => h.2 hr⟩
  have hrelists : libraryFirst.Relists libraryFirst.reversed :=
    ⟨hsame (by decide +kernel), hsame (by decide +kernel), rfl⟩
  have hids : (libraryFirst.install "app" "*" true).map (fun plan =>
      (plan.added.map Release.id, plan.removed.map Release.id)) =
        .ok ([⟨"lib", ⟨2, 0, 0⟩⟩, ⟨"tool", ⟨1, 0, 0⟩⟩, ⟨"app", ⟨1, 0, 0⟩⟩],
          [⟨"lib", ⟨0, 4, 0⟩⟩, ⟨"lib", ⟨0, 5, 0⟩⟩]) := by decide +kernel
  obtain ⟨plan, hplan, hlists⟩ := map_eq_ok_iff.mp hids
  obtain ⟨hadded, hremoved⟩ := Prod.mk.inj hlists
  exact ⟨by decide +kernel, plan, hplan, (install_relisted hrelists plan).mp hplan, hadded,
    hremoved⟩

end Planner

end PackagePlanner
