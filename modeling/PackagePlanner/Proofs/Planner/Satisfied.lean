import PackagePlanner.Proofs.Planner.Closure
import PackagePlanner.Proofs.Resolution.Unchanged

/-!
Installs that have nothing to do.

* `install_eq_empty`: nothing is planned if what is asked for leads to installed releases that lead
  to each other, none of which gives way to an available one.
* `install_again`: a project that meets all its dependencies has nothing left to do once an install
  is carried out.
* `install_satisfied`: the same for a request that an installed release satisfies, whatever else the
  project lacks, if the releases that it needs are welcome to all others; `exists_install_replaces`:
  an unwelcome one may give way to an available release.
-/

namespace PackagePlanner

namespace Catalog

/-- A dependency of the first release accepts the second, which is in the catalog. -/
def Needs (c : Catalog) (r q : Release) : Prop :=
  q ∈ c.releases ∧ ∃ d ∈ r.dependencies.toList, d.Accepts q

/-- What a release needs, in any number of steps, lies in every list that is closed under it. -/
lemma mem_of_needs {c : Catalog} {members : List Release} {root r : Release}
    (hroot : root ∈ members)
    (hclosed : ∀ r ∈ members, ∀ q ∈ c.releases,
      (∃ d ∈ r.dependencies.toList, d.Accepts q) → q ∈ members)
    (h : Relation.ReflTransGen c.Needs root r) : r ∈ members := by
  induction h with
  | refl => exact hroot
  | tail _ hstep ih => exact hclosed _ ih _ hstep.1 hstep.2

end Catalog

/-- In a closed project every installed release is kept for what it satisfies. -/
lemma Problem.secures_of_closed {p : Problem} (hclosed : p.installed.Closed)
    (hunique : p.rules.sideBySide = false → ∀ r ∈ p.installed.releases,
      ∀ q ∈ p.installed.releases, r.name = q.name → r = q)
    {d : Dependency} (hd : p.installed.Meets d) : p.Secures (· ∈ p.installed.releases) d where
  met := hd
  kept r hr _ := hr
  preferred hs r hr _ := by
    refine .inl fun q hq _ d' hd' hname => ?_
    obtain ⟨r', hr', hacc⟩ := hclosed q hq d' hd'
    obtain rfl := hunique hs r' hr' r hr (hacc.1.trans hname)
    exact hacc

/-- A closed project stays closed when a change replaces nothing beside what it adds. -/
lemma Problem.Standing.closed_planned {p : Problem} {s : Selection} (h : p.Standing s)
    (hfollow : p.rules.follow = true) (hs : p.rules.sideBySide = true)
    (hreplaced : s.replaced = .empty) (hclosed : p.installed.Closed) :
    (p.installed.apply (p.planOf s)).Closed := by
  have hstays (r : Release) : p.isLeaving s.prune r = false := by
    have hnone : s.prune.replaced.contains r.id = false := by
      show s.replaced.contains r.id = false
      simp [hreplaced, Keyed.contains]
    simp [isLeaving, hs, hnone]
  intro r hr d hd
  rcases h.mem_releases_planned_iff.mp hr with ⟨n, hn, rfl⟩ | ⟨hri, _⟩
  · obtain ⟨m, hm, hacc⟩ := h.exists_accepted_of_chosen hfollow hn hd
    exact ⟨m.release, h.mem_planned_of_chosen hm, hacc⟩
  · obtain ⟨q, hq, hacc⟩ := hclosed r hri d hd
    exact ⟨q, (h.mem_planned_iff hq).mpr (hstays q), hacc⟩

namespace Planner

variable {p : Planner} {name text : String} {c : Constraint}

/-- Nothing is planned for a request that leads to installed releases only. -/
theorem install_eq_empty {kept : Release → Prop}
    (havailable : p.available.containsPackage name = true) (hc : Constraint.parse text = .ok c)
    (hstable : (p.installProblem true).Stable kept)
    (hd : (p.installProblem true).Secures kept ⟨name, c⟩) :
    p.install name text true = .ok {} := by
  have hstart : (p.installProblem true).Unchanged kept { requests := [⟨name, c⟩] } :=
    ⟨rfl, by simp, fun r hr => by rwa [List.mem_singleton.mp hr]⟩
  obtain ⟨s, hs, hunchanged⟩ := hstart.run hstable rfl ((Problem.Sound.empty _).ask name c)
  have hselection : p.installSelection name text true = .ok s :=
    (installSelection_eq havailable hc (.inr hd.met) hs).trans hunchanged.finish
  rw [install, hselection, Except.map, hunchanged.planOf_eq_empty]

/-! ### Installing again -/

/-- Once an install is carried out the same install has nothing left to do. -/
theorem install_again {plan : Plan} (hclosed : p.installed.Closed)
    (hunique : p.sideBySide = false → ∀ r ∈ p.installed.releases,
      ∀ q ∈ p.installed.releases, r.name = q.name → r = q)
    (h : p.install name text true = .ok plan) :
    { p with installed := p.installed.apply plan }.install name text true = .ok {} := by
  obtain ⟨s, hs, rfl⟩ := map_eq_ok_iff.mp h
  obtain ⟨c, hc, hrequests, hsettled, hreplaced, havailable⟩ := installSelection_eq_ok hs
  have hstanding := hsettled.toStanding
  -- the project after the plan is closed again
  obtain ⟨hclosed', hunique'⟩ :
      (p.installed.apply ((p.installProblem true).planOf s)).Closed ∧
        (p.sideBySide = false →
          ∀ r ∈ (p.installed.apply ((p.installProblem true).planOf s)).releases,
            ∀ q ∈ (p.installed.apply ((p.installProblem true).planOf s)).releases,
              r.name = q.name → r = q) := by
    cases hside : p.sideBySide with
    | true => exact ⟨hstanding.closed_planned rfl hside hreplaced hclosed, by simp⟩
    | false =>
        have hconsistent := hsettled.consistent rfl hside ⟨hunique hside, hclosed⟩
        exact ⟨hconsistent.closed, fun _ => hconsistent.unique⟩
  have hrequest : ⟨name, c⟩ ∈ s.requests := hrequests ▸ List.mem_cons_self
  obtain ⟨r, hr, hacc⟩ := hstanding.exists_chosen_of_request hrequest
  exact install_eq_empty havailable hc
    ⟨hunique', fun q hq d hd => Problem.secures_of_closed hclosed' hunique' (hclosed' q hq d hd)⟩
    (Problem.secures_of_closed hclosed' hunique' ⟨r, hstanding.chosen_subset hr, hacc⟩)

/-- A project with an old library, and a repository with an application that needs the new one. -/
def oldLibrary : Planner where
  available := .ofReleases .repository [
    { name := "lib", version := ⟨1, 0, 0⟩ },
    { name := "lib", version := ⟨2, 0, 0⟩ },
    { name := "lib", version := ⟨3, 0, 0⟩ },
    { name := "log", version := ⟨0, 3, 0⟩, dependencies := Keyed.ofList [⟨"app", .any⟩] },
    { name := "app", version := ⟨1, 0, 0⟩,
      dependencies := Keyed.ofList [⟨"lib", .exact ⟨2, 0, 0⟩⟩, ⟨"log", .any⟩] }]
  installed := .ofReleases .installed [{ name := "lib", version := ⟨1, 0, 0⟩ }]

/-- The first install replaces the library, the second one changes nothing. -/
theorem install_again_oldLibrary :
    oldLibrary.installed.Closed ∧
      ∃ plan, oldLibrary.install "app" "*" true = .ok plan ∧
        plan.added.map Release.id =
          [⟨"lib", ⟨2, 0, 0⟩⟩, ⟨"log", ⟨0, 3, 0⟩⟩, ⟨"app", ⟨1, 0, 0⟩⟩] ∧
        plan.removed.map Release.id = [⟨"lib", ⟨1, 0, 0⟩⟩] ∧
        { oldLibrary with installed := oldLibrary.installed.apply plan }.install "app" "*" true =
          .ok {} := by
  have hclosed : oldLibrary.installed.Closed := by decide +kernel
  have hplan : (oldLibrary.install "app" "*" true).map
      (fun plan => (plan.added.map Release.id, plan.removed.map Release.id)) =
        .ok ([⟨"lib", ⟨2, 0, 0⟩⟩, ⟨"log", ⟨0, 3, 0⟩⟩, ⟨"app", ⟨1, 0, 0⟩⟩],
          [⟨"lib", ⟨1, 0, 0⟩⟩]) := by decide +kernel
  cases h : oldLibrary.install "app" "*" true with
  | error e => simp [h, Except.map] at hplan
  | ok plan =>
      rw [h] at hplan
      obtain ⟨hadded, hremoved⟩ := Prod.mk.inj (Except.ok.inj hplan)
      exact ⟨hclosed, plan, rfl, hadded, hremoved,
        install_again hclosed (fun _ => by decide +kernel) h⟩

/-! ### What is satisfied already -/

/-- An install of a package whose installed release will do, and finds in the project all that it
needs in turn, plans nothing, whatever else the project lacks. Unless releases may stand side by
side, each installed release that it leads to has to be welcome to the dependents on its package, or
else no available release in its place may be. -/
theorem install_satisfied {root : Release}
    (havailable : p.available.containsPackage name = true) (hc : Constraint.parse text = .ok c)
    (hunique : ∀ r ∈ p.installed.releases, ∀ q ∈ p.installed.releases, r.name = q.name → r = q)
    (hroot : root ∈ p.installed.releases) (hacc : (⟨name, c⟩ : Dependency).Accepts root)
    (hclosed : ∀ r, Relation.ReflTransGen p.installed.Needs root r →
      ∀ d ∈ r.dependencies.toList, p.installed.Meets d)
    (hpreferred : p.sideBySide = false →
      ∀ d, (d = ⟨name, c⟩ ∨ ∃ r, Relation.ReflTransGen p.installed.Needs root r ∧
          d ∈ r.dependencies.toList) →
        ∀ q ∈ p.installed.releases, d.Accepts q → p.installed.Welcomes q ∨
          ∀ a ∈ p.available.releases, d.Accepts a → ¬ p.installed.Welcomes a) :
    p.install name text true = .ok {} := by
  have hstable : (p.installProblem true).Stable (Relation.ReflTransGen p.installed.Needs root) :=
    ⟨fun _ => hunique, fun r hr d hd => ⟨hclosed r hr d hd,
      fun q hq hacc => hr.tail ⟨hq, d, hd, hacc⟩,
      fun hs => hpreferred hs d (.inr ⟨r, hr, hd⟩)⟩⟩
  refine install_eq_empty havailable hc hstable
    ⟨⟨root, hroot, hacc⟩, fun q hq hqacc => ?_, fun hs => hpreferred hs _ (.inl rfl)⟩
  obtain rfl := hunique q hq root hroot (hqacc.1.trans hacc.1.symm)
  exact .refl

/-- The library that the application needs. -/
def strandedTool.lib : Release := { name := "lib", version := ⟨1, 0, 0⟩ }

/-- The application. -/
def strandedTool.app : Release :=
  { name := "app", version := ⟨1, 0, 0⟩, dependencies := Keyed.ofList [⟨"lib", .any⟩] }

/-- An application with the library that it needs, and a tool that lacks one library and needs a
version of the other that there is not. -/
def strandedTool : Planner where
  available := .ofReleases .repository [
    { name := "lib", version := ⟨2, 0, 0⟩ },
    { name := "app", version := ⟨2, 0, 0⟩ }]
  installed := .ofReleases .installed [strandedTool.lib, strandedTool.app,
    { name := "tool", version := ⟨1, 0, 0⟩,
      dependencies := Keyed.ofList [⟨"lib", .atLeast ⟨3, 0, 0⟩⟩, ⟨"ghost", .any⟩] }]

/-- The application and its library are kept, although the project is not closed and the tool does
not welcome the library. -/
theorem install_satisfied_strandedTool :
    ¬ strandedTool.installed.Closed ∧ strandedTool.install "app" "*" true = .ok {} := by
  let members := [strandedTool.lib, strandedTool.app]
  have hmembers : ∀ r, Relation.ReflTransGen strandedTool.installed.Needs strandedTool.app r →
      r ∈ members :=
    fun r => Catalog.mem_of_needs (by decide +kernel) (by decide +kernel)
  have hmet : ∀ r ∈ members, ∀ d ∈ r.dependencies.toList, strandedTool.installed.Meets d := by
    decide +kernel
  have hpreferred : ∀ d ∈ (⟨"app", .any⟩ : Dependency) ::
      members.flatMap (fun r => r.dependencies.toList),
      ∀ q ∈ strandedTool.installed.releases, d.Accepts q → strandedTool.installed.Welcomes q ∨
        ∀ a ∈ strandedTool.available.releases, d.Accepts a →
          ¬ strandedTool.installed.Welcomes a := by decide +kernel
  have hroot : strandedTool.app ∈ strandedTool.installed.releases := by decide +kernel
  refine ⟨by decide +kernel, install_satisfied (c := .any) (by decide +kernel)
    (by decide +kernel) (by decide +kernel) hroot (by decide +kernel)
    (fun r hr => hmet r (hmembers r hr)) fun _ d hd => hpreferred d ?_⟩
  rcases hd with rfl | ⟨r, hr, hd⟩
  · exact List.mem_cons_self
  · exact List.mem_cons_of_mem _ (List.mem_flatMap.mpr ⟨r, hmembers r hr, hd⟩)

/-- A package of which a new version is available, and an installed dependent that needs it. -/
def outdatedLibrary : Planner where
  available := .ofReleases .repository [{ name := "lib", version := ⟨2, 0, 0⟩ }]
  installed := .ofReleases .installed [
    { name := "lib", version := ⟨1, 0, 0⟩ },
    { name := "app", version := ⟨1, 0, 0⟩,
      dependencies := Keyed.ofList [⟨"lib", .atLeast ⟨2, 0, 0⟩⟩] }]

/-- An installed release that is all that was asked for can be replaced: the dependent is none of
what the request leads to, and yet the release that it welcomes is preferred. -/
theorem exists_install_replaces :
    ¬ ∀ (p : Planner) (name text : String) (c : Constraint) (root : Release),
      p.sideBySide = false → p.available.containsPackage name = true →
        Constraint.parse text = .ok c →
        (∀ r ∈ p.installed.releases, ∀ q ∈ p.installed.releases, r.name = q.name → r = q) →
        root ∈ p.installed.releases → (⟨name, c⟩ : Dependency).Accepts root →
        (∀ r, Relation.ReflTransGen p.installed.Needs root r →
          ∀ d ∈ r.dependencies.toList, p.installed.Meets d) →
        p.install name text true = .ok {} := by
  intro hall
  have hreplaced : (outdatedLibrary.install "lib" "*" true).map
      (fun plan => plan.removed.map Release.id) = .ok [⟨"lib", ⟨1, 0, 0⟩⟩] := by decide +kernel
  have hempty := hall outdatedLibrary "lib" "*" .any { name := "lib", version := ⟨1, 0, 0⟩ } rfl
    (by decide +kernel) (by decide +kernel) (by decide +kernel) (by decide +kernel)
    (by decide +kernel) ?_
  · rw [hempty] at hreplaced
    simp [Except.map] at hreplaced
  · intro r hr d hd
    have hmem : r ∈ [({ name := "lib", version := ⟨1, 0, 0⟩ } : Release)] :=
      Catalog.mem_of_needs List.mem_cons_self (by decide +kernel) hr
    rw [List.mem_singleton.mp hmem] at hd
    simp at hd

end Planner

end PackagePlanner
