import PackagePlanner.Proofs.Planner.Undo
import PackagePlanner.Proofs.Planner.Upgrade

/-!
Packages through an install or an upgrade.

* `Planner.renews_of_selectionWith`: what a change replaces gives way to a release that the change
  asks for, so that the package is served in the end (`Standing.exists_planned_of_installed`).
* `Planner.keeps_packages`: no package is lost, and a package to which something is added has just
  this one release afterwards, unless releases may stand side by side.
-/

namespace PackagePlanner

namespace Catalog

/-- A package all of whose releases are the same one has one release. -/
lemma releasesOf_eq_singleton {c : Catalog} {r : Release} (hr : r ∈ c.releases)
    (h : ∀ q ∈ c.releases, q.name = r.name → q = r) : c.releasesOf r.name = [r] := by
  have hnodup : (c.releasesOf r.name).Nodup := (c.nodup_versions r.name).of_map
  rw [← List.perm_singleton, List.perm_ext_iff_of_nodup hnodup (List.nodup_singleton r)]
  intro q
  rw [mem_releasesOf_iff, List.mem_singleton]
  constructor
  · rintro ⟨hq, hname⟩
    exact h q hq hname
  · rintro rfl
    exact ⟨hr, rfl⟩

end Catalog

/-! ### Plans -/

namespace Problem.Standing

variable {p : Problem} {s : Selection}

/-- A package that has a release has one afterwards: the release stays, or another one of the
package was asked for or is added. -/
lemma exists_planned_of_installed (h : p.Standing s) (hrenews : s.Renews) {r : Release}
    (hr : r ∈ p.installed.releases) :
    ∃ q ∈ (p.installed.apply (p.planOf s)).releases, q.name = r.name := by
  rcases h.place_of_installed hrenews hr with hstays | ⟨q, hq, hname, _⟩ | ⟨_, q, hq, hname⟩
  · exact ⟨r, hstays, rfl⟩
  · exact ⟨q, h.chosen_subset hq, hname⟩
  · exact ⟨q, h.chosen_subset (added_subset_chosen hq), hname⟩

/-- Without releases side by side an added release is all that its package has afterwards. -/
lemma releasesOf_added (h : p.Standing s) (hside : p.rules.sideBySide = false) {r : Release}
    (hr : r ∈ (p.planOf s).added) :
    (p.installed.apply (p.planOf s)).releasesOf r.name = [r] := by
  refine Catalog.releasesOf_eq_singleton (h.chosen_subset (added_subset_chosen hr)) ?_
  intro q hq hname
  exact h.eq_of_added hside hr hq hname

/-- Without releases side by side a package has one added release at most. -/
lemma nodup_names_added (h : p.Standing s) (hside : p.rules.sideBySide = false) :
    ((p.planOf s).added.map Release.name).Nodup := by
  refine List.Nodup.map_on ?_ h.exact.added_once.of_map
  intro r hr q hq hname
  exact h.eq_of_added hside hq (h.chosen_subset (added_subset_chosen hr)) hname

end Problem.Standing

/-! ### Changes -/

namespace Planner

variable {p : Planner} {change : Change} {follow : Bool} {plan : Plan}

/-- What a change replaces gives way to a newer release that it asks for. An install replaces
nothing in this sense. -/
lemma renews_of_selectionWith {s : Selection} (h : p.selectionWith follow change = .ok s) :
    s.Renews := by
  cases change with
  | install name text =>
      obtain ⟨_, _, _, _, hreplaced, _⟩ := installSelection_eq_ok h
      intro r hr
      rw [hreplaced] at hr
      simp at hr
  | upgrade names text =>
      obtain ⟨_, _, hrenews, _⟩ := renews_upgradeSelection h
      exact hrenews

/-- An install or an upgrade loses no package. Without releases side by side it adds at most one
release of a package, and this is then the only one that the package has, however many there were
before. -/
theorem keeps_packages (h : p.planWith follow change = .ok plan) :
    (∀ name, p.installed.containsPackage name = true →
        (p.installed.apply plan).containsPackage name = true) ∧
      (p.sideBySide = false → (plan.added.map Release.name).Nodup ∧
        ∀ r ∈ plan.added, (p.installed.apply plan).releasesOf r.name = [r]) := by
  obtain ⟨s, hs, rfl⟩ := planWith_eq_ok_iff.mp h
  have hstanding := (settled_of_selectionWith hs).toStanding
  have hrenews := renews_of_selectionWith hs
  have hinstalled : (p.problemWith follow change).installed = p.installed := installed_problemWith
  constructor
  · intro name hname
    obtain ⟨r, hr, rfl⟩ := Catalog.containsPackage_iff.mp hname
    rw [← hinstalled] at hr ⊢
    exact Catalog.containsPackage_iff.mpr (hstanding.exists_planned_of_installed hrenews hr)
  · intro hside
    have hrules : (p.problemWith follow change).rules.sideBySide = false :=
      sideBySide_problemWith.trans hside
    refine ⟨hstanding.nodup_names_added hrules, ?_⟩
    intro r hr
    rw [← hinstalled]
    exact hstanding.releasesOf_added hrules hr

/-- Two versions of a library side by side, though only one is allowed by now, and an application
that needs a newer one. -/
def crowdedLibrary : Planner where
  available := .ofReleases .repository [
    { name := "lib", version := ⟨3, 0, 0⟩ },
    { name := "app", version := ⟨2, 0, 0⟩,
      dependencies := Keyed.ofList [⟨"lib", .atLeast ⟨3, 0, 0⟩⟩] }]
  installed := .ofReleases .installed [
    { name := "lib", version := ⟨1, 0, 0⟩ },
    { name := "lib", version := ⟨2, 0, 0⟩ },
    { name := "app", version := ⟨1, 0, 0⟩, dependencies := Keyed.ofList [⟨"lib", .any⟩] }]

/-- The new library takes the place of both. -/
theorem keeps_packages_crowdedLibrary :
    ∃ plan, crowdedLibrary.planWith true (.upgrade ["app"] "*") = .ok plan ∧
      plan.added.map Release.id = [⟨"lib", ⟨3, 0, 0⟩⟩, ⟨"app", ⟨2, 0, 0⟩⟩] ∧
      plan.removed.map Release.id =
        [⟨"lib", ⟨1, 0, 0⟩⟩, ⟨"lib", ⟨2, 0, 0⟩⟩, ⟨"app", ⟨1, 0, 0⟩⟩] ∧
      (crowdedLibrary.installed.apply plan).containsPackage "lib" = true ∧
      ∀ r ∈ plan.added, (crowdedLibrary.installed.apply plan).releasesOf r.name = [r] := by
  have hplan : (crowdedLibrary.planWith true (.upgrade ["app"] "*")).map
      (fun plan => (plan.added.map Release.id, plan.removed.map Release.id)) =
        .ok ([⟨"lib", ⟨3, 0, 0⟩⟩, ⟨"app", ⟨2, 0, 0⟩⟩],
          [⟨"lib", ⟨1, 0, 0⟩⟩, ⟨"lib", ⟨2, 0, 0⟩⟩, ⟨"app", ⟨1, 0, 0⟩⟩]) := by decide +kernel
  obtain ⟨plan, h, hids⟩ := map_eq_ok_iff.mp hplan
  obtain ⟨hadded, hremoved⟩ := Prod.mk.inj hids
  obtain ⟨hkept, hsingle⟩ := keeps_packages h
  exact ⟨plan, h, hadded, hremoved, hkept "lib" (by decide +kernel), (hsingle rfl).2⟩

end Planner

end PackagePlanner
