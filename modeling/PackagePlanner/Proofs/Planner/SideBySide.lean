import PackagePlanner.Proofs.Planner.Connected
import PackagePlanner.Proofs.Planner.Forced
import PackagePlanner.Proofs.Resolution.Conflict

/-!
Installs with releases side by side.

* `Planner.Led`: what the request leads to among the releases that can be chosen. Nothing else is
  chosen for an install (`keeps_led`).
* `Planner.Unmet`: a release that the request leads to declares a dependency which nothing
  satisfies. If the request itself can be met, this is the only conflict there is
  (`request_or_unmet`).
* `install_beside`: hence such an install removes nothing, fails for an unmet dependency only, and
  succeeds if there is none.
-/

namespace PackagePlanner

namespace Planner

variable {p : Planner} {name text : String} {c : Constraint} {follow : Bool} {request : Dependency}
  {conflict : Conflict}

/-! ### What is chosen for a request -/

lemma rules_beside (hside : p.sideBySide = true) :
    (p.installProblem follow).rules.sideBySide ≠ false := by
  simp [installProblem, hside]

/-- The request leads to an offered release. -/
def Led (p : Planner) (request : Dependency) (n : Graph.Node) : Prop :=
  (p.installProblem true).Offers n ∧ request.LeadsTo p.usable n.release

/-- Whatever satisfies a requirement that may come next is led to. -/
lemma led_of_grounded {s : Selection} {requirer : Requirer} {n : Graph.Node}
    (hs : s.Within (p.Led request) (· = request))
    (hg : (p.installProblem true).Grounded s (.require name c requirer))
    (hn : (p.installProblem true).Offers n) (hacc : (⟨name, c⟩ : Dependency).Accepts n.release) :
    p.Led request n := by
  have husable : n.release ∈ p.usable := (mem_usable_iff true).mpr ⟨n, hn, rfl⟩
  cases requirer with
  | request =>
      obtain rfl := hs.requests _ hg
      exact ⟨hn, .accepted husable hacc⟩
  | release id =>
      obtain ⟨m, hm, _, hd⟩ := hg
      exact ⟨hn, .needed (hs.nodes m hm).2 hd husable hacc⟩

/-- Only what is led to is chosen. -/
lemma keeps_led (hside : p.sideBySide = true) (request : Dependency) :
    (p.installProblem true).Keeps fun s tasks =>
      s.Within (p.Led request) (· = request) ∧ (p.installProblem true).Sound s tasks := by
  intro s task rest t more ⟨hs, hsound⟩ hperform
  have hmove := Problem.move_of_perform hperform
  refine ⟨?_, hsound.move hmove⟩
  have hchosen {name : String} {c : Constraint} {requirer : Requirer} {n : Graph.Node}
      (hg : (p.installProblem true).Grounded s (.require name c requirer))
      (hn : n ∈ (p.installProblem true).candidates (s.note name c requirer) name)
      (hadmits : c.admits n.release.version = true) : p.Led request n :=
    led_of_grounded hs hg (Problem.offers_of_mem_candidates hn)
      ⟨(Problem.mem_releases_of_mem_candidates hn).2, hadmits⟩
  cases hmove with
  | met => exact hs.note ..
  | beside _ _ hn hadmits => exact (hs.note ..).select _ (hchosen hsound.ready.1 hn hadmits)
  | first _ hn hadmits =>
      have hnoted := Problem.mem_constraintsOn_note hsound.ready.1
      exact (hs.note ..).select _ (hchosen hsound.ready.1 hn (hadmits _ hnoted))
  | changed hchange =>
      exact absurd (Problem.change?_eq_some_iff.mp hchange).1 (rules_beside hside)
  | followed => exact hs
  | left => exact ⟨hs.replaced, hs.nodes, hs.requests⟩
  | pruned => exact hs.prune

/-! ### What nothing satisfies -/

/-- A conflict that comes from a dependency which nothing satisfies. -/
structure Unmet (p : Planner) (request : Dependency) (r : Release) (d : Dependency)
    (conflict : Conflict) : Prop where
  /-- The request leads to a release. -/
  reached : request.LeadsTo p.usable r
  /-- The release declares the dependency. -/
  declared : d ∈ r.dependencies.toList
  /-- No release of either catalog is accepted. -/
  unmet : ¬ p.available.Meets d ∧ ¬ p.installed.Meets d
  /-- The package is missing just if neither catalog has a release of it. -/
  reported : ((∀ q ∈ p.installed.releases ++ p.available.releases, q.name ≠ d.name) ∧
      conflict = .missing d.name [r.id.text]) ∨
    ∃ q ∈ p.installed.releases ++ p.available.releases, q.name = d.name ∧
      conflict = .unsatisfiable d.name (some q.version.text) d.constraint.text r.id.text

/-- A task that cannot be performed has to meet a requirement that no release satisfies. -/
lemma unmet_of_fails (hside : p.sideBySide = true) {s : Selection} {task : Task}
    (hs : s.Within (p.Led request) (· = request))
    (hfails : (p.installProblem true).Fails s task conflict) :
    ∃ name c requirer, task = .require name c requirer ∧
      conflict = (p.installProblem true).unsatisfiable name c requirer ∧
        ¬ p.available.Meets ⟨name, c⟩ ∧ ¬ p.installed.Meets ⟨name, c⟩ := by
  cases hfails with
  | @first name c requirer _ _ hnone =>
      rw [Problem.considered_of_sideBySide hside, Problem.choose_eq_none_iff] at hnone
      refine ⟨name, c, requirer, rfl, rfl, not_or.mp fun hmeets => ?_⟩
      obtain ⟨n, hn, hname, hadmits⟩ :=
        (Problem.meets_iff_offers (p := p.installProblem true)).mp hmeets
      have hcandidate := Problem.mem_candidates_of_offers hn
        ((hs.note name c requirer).contains_replaced n.id)
      rw [hname] at hcandidate
      exact hnone n hcandidate (by simpa using hadmits)
  | changed _ hsingle => exact absurd hsingle (rules_beside hside)
  | unsettled hchange =>
      exact absurd (Problem.change?_eq_some_iff.mp hchange).1 (rules_beside hside)

/-- A request that some release satisfies is met, unless an unmet dependency comes up. -/
theorem request_or_unmet (hside : p.sideBySide = true)
    (hmet : p.available.Meets ⟨name, c⟩ ∨ p.installed.Meets ⟨name, c⟩) :
    (∃ s, (p.installProblem true).request {} name c = .ok s) ∨
      ∃ conflict r d, (p.installProblem true).request {} name c = .error conflict ∧
        p.Unmet ⟨name, c⟩ r d conflict := by
  cases hrun : (p.installProblem true).request {} name c with
  | ok s => exact .inl ⟨s, rfl⟩
  | error conflict =>
      right
      have hstart : Selection.Within (p.Led ⟨name, c⟩) (· = ⟨name, c⟩)
          { requests := [⟨name, c⟩] } := ⟨rfl, by simp, by simp⟩
      obtain ⟨u, task, rest, ⟨hu, hsound⟩, hperform⟩ :=
        ((keeps_led hside _).run ⟨hstart, (Problem.Sound.empty _).ask name c⟩).2 conflict hrun
      obtain ⟨name', c', requirer, rfl, rfl, hunmet⟩ :=
        unmet_of_fails hside hu (Problem.perform_eq_error_iff.mp hperform)
      cases requirer with
      | request =>
          have hrequest : (⟨name', c'⟩ : Dependency) = ⟨name, c⟩ := hu.requests _ hsound.ready.1
          rw [hrequest] at hunmet
          exact absurd hmet (not_or.mpr hunmet)
      | release id =>
          obtain ⟨n, hn, rfl, hd⟩ := hsound.ready.1
          refine ⟨_, n.release, ⟨name', c'⟩, rfl, (hu.nodes n hn).2, hd, hunmet, ?_⟩
          by_cases hknown : ∃ q ∈ (p.installProblem true).releases, q.name = name'
          · exact .inr (Problem.exists_unsatisfiable_eq hknown c' _)
          · have hmissing : ∀ q ∈ (p.installProblem true).releases, q.name ≠ name' :=
              fun q hq hname => hknown ⟨q, hq, hname⟩
            exact .inl ⟨hmissing, Problem.unsatisfiable_eq_missing hmissing⟩

/-! ### Installs -/

/-- Nothing leaves for what comes beside it. -/
lemma leaving_beside (hside : p.sideBySide = true) {s : Selection}
    (hreplaced : s.replaced = .empty) : (p.installProblem follow).leaving s = .empty := by
  refine Problem.leaving_eq_empty (congrArg Keyed.toList hreplaced) fun hsingle => ?_
  exact absurd hsingle (rules_beside hside)

/-- So nobody is broken by it. -/
lemma finish_beside (hside : p.sideBySide = true) {s : Selection}
    (hrequest : (p.installProblem true).request {} name c = .ok s) :
    (p.installProblem true).finish s = .ok s :=
  Problem.finish_eq_ok (leaving_beside hside (Problem.kept_run hrequest).1)

/-- With releases side by side, an install removes nothing. If it runs into a conflict, then the
request leads to a release with a dependency that no release of the two catalogs satisfies, and the
conflict names this dependency. If all dependencies that are declared in the catalogs are satisfied
there, each install of an available package succeeds for which some version will do. -/
theorem install_beside (hside : p.sideBySide = true) :
    (∀ plan, p.install name text true = .ok plan → plan.removed = []) ∧
      (∀ conflict, p.install name text true = .error (.resolution conflict) →
        ∃ c, Constraint.parse text = .ok c ∧ ∃ r d, p.Unmet ⟨name, c⟩ r d conflict) ∧
      ((∀ r ∈ p.installed.releases ++ p.available.releases, ∀ d ∈ r.dependencies.toList,
          p.available.Meets d ∨ p.installed.Meets d) →
        ∀ c, Constraint.parse text = .ok c → p.available.containsPackage name = true →
          p.available.Meets ⟨name, c⟩ ∨ p.installed.Meets ⟨name, c⟩ →
            ∃ plan, p.install name text true = .ok plan) := by
  refine ⟨fun plan hplan => ?_, fun conflict herror => ?_, fun hclosed c hc havailable hmet => ?_⟩
  · obtain ⟨s, hs, rfl⟩ := map_eq_ok_iff.mp hplan
    obtain ⟨_, _, _, _, hreplaced, _⟩ := installSelection_eq_ok hs
    exact Problem.removed_eq_nil (leaving_beside hside hreplaced)
  · obtain ⟨c, hc, hmet, hconflict⟩ := installSelection_eq_error (map_eq_error_iff.mp herror)
    refine ⟨c, hc, ?_⟩
    rcases hconflict with hrequest | ⟨s, hrequest, hfinish⟩
    · rcases request_or_unmet hside hmet with ⟨s, hok⟩ | ⟨_, r, d, herror', hunmet⟩
      · rw [hrequest] at hok
        simp at hok
      · obtain rfl := Except.error.inj (hrequest.symm.trans herror')
        exact ⟨r, d, hunmet⟩
    · rw [finish_beside hside hrequest] at hfinish
      simp at hfinish
  · rcases request_or_unmet hside hmet with ⟨s, hrequest⟩ | ⟨_, r, d, _, hunmet⟩
    · have hs := (installSelection_eq havailable hc hmet hrequest).trans
        (finish_beside hside hrequest)
      exact ⟨(p.installProblem true).planOf s, by rw [install, hs, Except.map]⟩
    · have hr := mem_catalogs_of_usable hunmet.reached.mem
      exact absurd (hclosed r hr d hunmet.declared) (not_or.mpr hunmet.unmet)

/-- An application that needs the new library and a tool, which needs an older one. An even older
library is installed. -/
def toolBesideLibrary : Planner where
  available := .ofReleases .repository [
    { name := "lib", version := ⟨1, 0, 0⟩ },
    { name := "lib", version := ⟨2, 0, 0⟩ },
    { name := "tool", version := ⟨1, 0, 0⟩,
      dependencies := Keyed.ofList [⟨"lib", .exact ⟨1, 0, 0⟩⟩] },
    { name := "app", version := ⟨1, 0, 0⟩,
      dependencies := Keyed.ofList [⟨"lib", .atLeast ⟨2, 0, 0⟩⟩, ⟨"tool", .any⟩] }]
  installed := .ofReleases .installed [{ name := "lib", version := ⟨0, 5, 0⟩ }]
  sideBySide := true

/-- A shell with a plugin that needs a package which nobody has. -/
def shellWithoutGhost : Planner where
  available := .ofReleases .repository [
    { name := "shell", version := ⟨1, 0, 0⟩, dependencies := Keyed.ofList [⟨"plugin", .any⟩] },
    { name := "plugin", version := ⟨1, 0, 0⟩, dependencies := Keyed.ofList [⟨"ghost", .any⟩] }]
  installed := .ofReleases .installed []
  sideBySide := true

/-- Both new libraries come beside the installed one; the shell fails for its plugin. -/
theorem install_beside_toolBesideLibrary :
    (∃ plan, toolBesideLibrary.install "app" "*" true = .ok plan ∧ plan.removed = [] ∧
      plan.added.map Release.id = [⟨"lib", ⟨2, 0, 0⟩⟩, ⟨"lib", ⟨1, 0, 0⟩⟩, ⟨"tool", ⟨1, 0, 0⟩⟩,
        ⟨"app", ⟨1, 0, 0⟩⟩]) ∧
      ∃ c, Constraint.parse "*" = .ok c ∧
        ∃ r d, shellWithoutGhost.Unmet ⟨"shell", c⟩ r d (.missing "ghost" ["plugin@1.0.0"]) := by
  have hparse : Constraint.parse "*" = .ok .any := by decide +kernel
  have havailable : toolBesideLibrary.available.containsPackage "app" = true := by decide +kernel
  have hmet : toolBesideLibrary.available.Meets ⟨"app", .any⟩ ∨
      toolBesideLibrary.installed.Meets ⟨"app", .any⟩ := by decide +kernel
  have hadded : (toolBesideLibrary.install "app" "*" true).map
      (fun plan => plan.added.map Release.id) = .ok [⟨"lib", ⟨2, 0, 0⟩⟩, ⟨"lib", ⟨1, 0, 0⟩⟩,
        ⟨"tool", ⟨1, 0, 0⟩⟩, ⟨"app", ⟨1, 0, 0⟩⟩] := by decide +kernel
  have herror : shellWithoutGhost.install "shell" "*" true =
      .error (.resolution (.missing "ghost" ["plugin@1.0.0"])) := by decide +kernel
  obtain ⟨hremoved, _, hsucceeds⟩ :=
    @install_beside toolBesideLibrary "app" "*" rfl
  obtain ⟨_, hfails, _⟩ :=
    @install_beside shellWithoutGhost "shell" "*" rfl
  obtain ⟨plan, hplan⟩ := hsucceeds (by decide +kernel) .any hparse havailable hmet
  rw [hplan] at hadded
  exact ⟨⟨plan, hplan, hremoved plan hplan, Except.ok.inj hadded⟩, hfails _ herror⟩

end Planner

end PackagePlanner
