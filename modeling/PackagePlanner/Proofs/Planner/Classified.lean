import PackagePlanner.Proofs.Constraint.Overlap
import PackagePlanner.Proofs.Planner.Requirers
import PackagePlanner.Proofs.Planner.States

/-!
Which conflict is reported.

* `Problem.report`: for a package with a choice this is the only conflict, unless the choice was
  changed too often (`fails_iff_of_named`).
* `Problem.Classifies`: what is reported, by whether any version at all could satisfy what is
  required of the package (`Problem.Suits`), and by whether a release does (`Problem.Counts`).
  Whatever planning passes through is classified so (`Passes.classifies`).
* `exists_unsatisfiable_though_published`: with releases side by side, a release that an upgrade
  replaces is not counted.
-/

namespace PackagePlanner

namespace Problem

variable {p : Problem} {s : Selection} {tasks : List Task} {name : String} {c : Constraint}
  {requirer : Requirer} {conflict : Conflict}

/-! ### A package with a choice -/

/-- The conflict of a package with a choice if nothing can be chosen in its place or beside it. -/
def report (p : Problem) (s : Selection) (name : String) (c : Constraint) (requirer : Requirer) :
    Conflict :=
  if Constraint.pairwiseCompatible (p.considered s name c requirer) then
    p.unsatisfiable name c requirer
  else .conflicting name (((s.note name c requirer).requirementsOn name).map fun r =>
    (r.1.label, r.2.text))

lemma report_of_sideBySide (hside : p.rules.sideBySide = true) :
    p.report s name c requirer = p.unsatisfiable name c requirer := by
  rw [report, considered_of_sideBySide hside]
  simp [Constraint.pairwiseCompatible]

lemma report_of_single (hside : p.rules.sideBySide = false) :
    p.report s name c requirer = p.incompatible (s.note name c requirer) name c requirer := by
  rw [report, considered_of_single hside, incompatible]

/-- Nothing else is reported if nothing can be chosen. -/
lemma fails_iff_of_named (htarget : s.graph.target? name c = none)
    (hnamed : ∃ n ∈ s.graph.nodes.toList, n.release.name = name)
    (hsettled : ∀ attempts, conflict ≠ .unsettled name attempts) :
    p.Fails s (.require name c requirer) conflict ↔
      p.choose (s.note name c requirer) name (p.considered s name c requirer) = none ∧
        p.report s name c requirer = conflict := by
  constructor
  · intro h
    cases h with
    | first _ hone hnone =>
        obtain ⟨n, hn, hname⟩ := hnamed
        have hside := hone.resolve_right fun hno => hno n hn hname
        exact ⟨hnone, report_of_sideBySide hside⟩
    | changed _ hside _ hnone => exact ⟨hnone, report_of_single hside⟩
    | unsettled => exact absurd rfl (hsettled _)
  · rintro ⟨hnone, rfl⟩
    cases hside : p.rules.sideBySide with
    | true =>
        rw [report_of_sideBySide hside]
        exact .first htarget (.inl hside) hnone
    | false =>
        rw [report_of_single hside]
        exact .changed htarget hside hnamed hnone

/-- A version satisfies all that is considered when a requirement is to be met. -/
def Suits (p : Problem) (s : Selection) (name : String) (c : Constraint) (requirer : Requirer)
    (v : Version) : Prop :=
  ∀ d ∈ p.considered s name c requirer, d.admits v = true

/-- A release of a package that can be chosen: with releases side by side, one that is not replaced.
Without, a replaced release is ruled out by what was asked for in its place. -/
def Counts (p : Problem) (s : Selection) (name : String) (r : Release) : Prop :=
  r ∈ p.releases ∧ r.name = name ∧ (p.rules.sideBySide = true → s.replaced.contains r.id = false)

/-- A release that is replaced does not satisfy what was asked for in its place. -/
lemma Passes.not_suits_of_replaced (h : p.Passes s tasks) (hside : p.rules.sideBySide = false)
    {r : Release} (hr : s.replaced.contains r.id = true) :
    ¬ p.Suits s r.name c requirer r.version := by
  intro hsuits
  obtain ⟨q, hq, hid⟩ := Keyed.contains_iff.mp hr
  obtain ⟨hname, hversion⟩ := ReleaseId.mk.inj hid
  obtain ⟨v, hv, hrequest⟩ := h.renews q hq
  have hconsidered : Constraint.exact v ∈ p.considered s r.name c requirer := by
    rw [considered_of_single hside, Selection.mem_constraintsOn_iff, Selection.requests_note,
      ← hname]
    exact .inl hrequest
  have hadmits := (Constraint.admits_iff.mp (hsuits _ hconsidered)).1 v rfl
  rw [← hversion] at hadmits
  exact absurd hv (not_lt.mpr hadmits)

/-- Nothing can be chosen if no release that counts suits. -/
lemma Passes.choose_eq_none_iff (h : p.Passes s tasks) :
    p.choose (s.note name c requirer) name (p.considered s name c requirer) = none ↔
      ∀ r, p.Counts s name r → ¬ p.Suits s name c requirer r.version := by
  obtain ⟨tally, hunderway⟩ := h.underway
  have hcandidates {n : Graph.Node} : n ∈ p.candidates s name ↔
      p.Offers n ∧ n.release.name = name ∧ s.replaced.contains n.id = false :=
    mem_candidates_iff hunderway.sound.2
  rw [Problem.choose_eq_none_iff, candidates_note]
  constructor
  · rintro hnone r ⟨hr, rfl, hcounts⟩ hsuits
    obtain ⟨n, hn, hid⟩ := exists_offers hr
    obtain ⟨hname, hversion⟩ := ReleaseId.mk.inj hid
    have hkept : s.replaced.contains n.id = false := by
      rw [hid]
      cases hside : p.rules.sideBySide with
      | true => exact hcounts hside
      | false => exact Bool.eq_false_iff.mpr fun hin => h.not_suits_of_replaced hside hin hsuits
    exact hnone n (hcandidates.mpr ⟨hn, hname, hkept⟩) (hversion ▸ hsuits)
  · intro hnone n hn
    obtain ⟨hoffers, hname, hkept⟩ := hcandidates.mp hn
    exact hnone n.release ⟨hoffers.mem_releases, hname, fun _ => hkept⟩

/-- What is reported when a package has a choice that does not satisfy a further requirement. -/
structure Classifies (p : Problem) (s : Selection) (name : String) (c : Constraint)
    (requirer : Requirer) : Prop where
  /-- Requirements conflict just if no version at all satisfies all that are considered. -/
  conflicting : (∃ package listed,
      p.perform s (.require name c requirer) = .error (.conflicting package listed)) ↔
    ¬ ∃ v, p.Suits s name c requirer v
  /-- A requirement is unsatisfiable just if there could be such a version, but no release has
  one. -/
  unsatisfiable : (∃ package closest required requiredBy, p.perform s (.require name c requirer) =
      .error (.unsatisfiable package closest required requiredBy)) ↔
    (∃ v, p.Suits s name c requirer v) ∧
      ∀ r, p.Counts s name r → ¬ p.Suits s name c requirer r.version
  /-- A conflict is about the package. It lists all requirements on it or names the one at hand,
  unless the package has changed its choice too often. -/
  reported : ∀ conflict, p.perform s (.require name c requirer) = .error conflict →
    (conflict = .conflicting name (((s.note name c requirer).requirementsOn name).map fun r =>
        (r.1.label, r.2.text))) ∨
      (∃ closest, conflict = .unsatisfiable name closest c.text requirer.text) ∨
        ∃ attempts, conflict = .unsettled name attempts

theorem Passes.classifies (h : p.Passes s tasks) (htarget : s.graph.target? name c = none)
    (hnamed : ∃ n ∈ s.graph.nodes.toList, n.release.name = name) :
    p.Classifies s name c requirer := by
  obtain ⟨closest, hclosest⟩ : ∃ closest, p.unsatisfiable name c requirer =
      .unsatisfiable name closest c.text requirer.text := by
    obtain ⟨tally, hunderway⟩ := h.underway
    obtain ⟨n, hn, hname⟩ := hnamed
    have hoffers := hunderway.sound.1.toCoherent.offered n hn
    obtain ⟨r, _, _, hr⟩ :=
      exists_unsatisfiable_eq ⟨n.release, hoffers.mem_releases, hname⟩ c requirer
    exact ⟨_, hr⟩
  have hcompatible : Constraint.pairwiseCompatible (p.considered s name c requirer) = true ↔
      ∃ v, p.Suits s name c requirer v := Constraint.pairwiseCompatible_iff
  have hfails {conflict : Conflict} (hsettled : ∀ attempts, conflict ≠ .unsettled name attempts) :
      p.perform s (.require name c requirer) = .error conflict ↔
        (∀ r, p.Counts s name r → ¬ p.Suits s name c requirer r.version) ∧
          p.report s name c requirer = conflict := by
    rw [perform_eq_error_iff, fails_iff_of_named htarget hnamed hsettled, h.choose_eq_none_iff]
  refine ⟨?_, ?_, ?_⟩
  · constructor
    · rintro ⟨package, listed, hconflict⟩ hsome
      have hreport := ((hfails (by simp)).mp hconflict).2
      rw [report, if_pos (hcompatible.mpr hsome), hclosest] at hreport
      simp at hreport
    · intro hnone
      have hreport : p.report s name c requirer = .conflicting name _ :=
        if_neg (hcompatible.not.mpr hnone)
      exact ⟨name, _, (hfails (by simp)).mpr ⟨fun r _ hsuits => hnone ⟨_, hsuits⟩, hreport⟩⟩
  · constructor
    · rintro ⟨package, closest', required, requiredBy, hconflict⟩
      obtain ⟨hnone, hreport⟩ := (hfails (by simp)).mp hconflict
      refine ⟨hcompatible.mp ?_, hnone⟩
      by_contra hdisjoint
      rw [report, if_neg hdisjoint] at hreport
      simp at hreport
    · rintro ⟨hsome, hnone⟩
      refine ⟨name, closest, c.text, requirer.text, (hfails (by simp)).mpr ⟨hnone, ?_⟩⟩
      rw [report, if_pos (hcompatible.mpr hsome), hclosest]
  · intro conflict hconflict
    by_cases hsettled : ∃ attempts, conflict = .unsettled name attempts
    · exact .inr (.inr hsettled)
    · obtain rfl := ((hfails (by simpa using hsettled)).mp hconflict).2
      rw [report]
      split
      · exact .inr (.inl ⟨closest, hclosest⟩)
      · exact .inl rfl

/-- A state of a change, given by the number of tasks until then, in which nothing can be chosen. -/
lemma Passes.exists_after (h : p.Passes s tasks) (k : Nat) (name : String) (c : Constraint)
    (requirer : Requirer) (conflict : Conflict)
    (hmoment : (p.after k s tasks).map (fun m => (m.2.head?, (m.1.graph.target? name c).isNone,
      (m.1.graph.nodesNamed name).isEmpty,
        (p.perform m.1 (.require name c requirer)).map fun _ => ())) =
      some (some (.require name c requirer), true, false, .error conflict)) :
    ∃ t rest, p.Passes t (.require name c requirer :: rest) ∧ t.graph.target? name c = none ∧
      (∃ n ∈ t.graph.nodes.toList, n.release.name = name) ∧
        p.perform t (.require name c requirer) = .error conflict := by
  obtain ⟨⟨t, tasks'⟩, hafter, hstate⟩ := Option.map_eq_some_iff.mp hmoment
  simp only [Prod.mk.injEq] at hstate
  obtain ⟨hhead, htarget, hnamed, hconflict⟩ := hstate
  obtain ⟨rest, rfl⟩ := List.head?_eq_some_iff.mp hhead
  obtain ⟨n, hn⟩ := List.isEmpty_eq_false_iff_exists_mem.mp hnamed
  exact ⟨t, rest, p.keeps_passes.after h hafter, Option.isNone_iff_eq_none.mp htarget,
    ⟨n, Graph.mem_nodesNamed_iff.mp hn⟩, Planner.map_eq_error_iff.mp hconflict⟩

end Problem

namespace Planner

/-- Constraints are compatible two by two if and only if one version satisfies all of them, and two
constraints are compatible, in either order, if and only if one version satisfies both. Each
conflict of an install or an upgrade arises in a state that planning passes through. Whenever a
package has a choice in such a state that does not satisfy a further requirement, the requirements
on it conflict just if no version satisfies all that are considered, and a requirement is
unsatisfiable just if there could be such a version but no release has one. -/
theorem conflicts_classified :
    (∀ cs, Constraint.pairwiseCompatible cs = true ↔ ∃ v, ∀ c ∈ cs, c.admits v = true) ∧
    (∀ a b : Constraint, a.compatible b = b.compatible a ∧
      (a.compatible b = true ↔ ∃ v, a.admits v = true ∧ b.admits v = true)) ∧
    ∀ (p : Planner) (follow : Bool) (change : Change),
      (∀ conflict, p.planWith follow change = .error (.resolution conflict) →
        (p.problemWith follow change).Arises conflict) ∧
      ∀ s name c requirer rest,
        (p.problemWith follow change).Passes s (.require name c requirer :: rest) →
        s.graph.target? name c = none →
        (∃ n ∈ s.graph.nodes.toList, n.release.name = name) →
        (p.problemWith follow change).Classifies s name c requirer := by
  refine ⟨fun cs => Constraint.pairwiseCompatible_iff, fun a b => ?_, fun p follow change => ?_⟩
  · exact ⟨Bool.eq_iff_iff.mpr Constraint.compatible_symm, Constraint.compatible_iff_exists⟩
  · refine ⟨fun conflict hconflict => ?_, fun _ _ _ _ _ hs => hs.classifies⟩
    exact (accounts_selectionWith p follow change).arises conflict
      (planWith_eq_error_iff.mp hconflict)

/-- A library with two versions, a tool that waits for the next one, and a relic that accepts only
what came before; an application goes with the tool, and a site with the relic. -/
def datedLibrary : Planner where
  available := .ofReleases .repository [
    { name := "lib", version := ⟨1, 0, 0⟩ },
    { name := "lib", version := ⟨2, 0, 0⟩ },
    { name := "tool", version := ⟨1, 0, 0⟩,
      dependencies := Keyed.ofList [⟨"lib", .atLeast ⟨3, 0, 0⟩⟩] },
    { name := "relic", version := ⟨1, 0, 0⟩,
      dependencies := Keyed.ofList [⟨"lib", .atMost ⟨0, 9, 0⟩⟩] },
    { name := "app", version := ⟨1, 0, 0⟩,
      dependencies := Keyed.ofList [⟨"lib", .atLeast ⟨1, 0, 0⟩⟩, ⟨"tool", .any⟩] },
    { name := "site", version := ⟨1, 0, 0⟩,
      dependencies := Keyed.ofList [⟨"lib", .atLeast ⟨1, 0, 0⟩⟩, ⟨"relic", .any⟩] }]
  installed := .empty .installed

/-- The application could have a version of the library that is not there yet; the site could have
none. -/
theorem conflicts_classified_datedLibrary :
    (∃ s c requirer rest, (datedLibrary.installProblem true).Passes s
        (.require "lib" c requirer :: rest) ∧
      (datedLibrary.installProblem true).perform s (.require "lib" c requirer) =
        .error (.unsatisfiable "lib" (some "2.0.0") "3.0.0+" "tool@1.0.0") ∧
      (∃ v, (datedLibrary.installProblem true).Suits s "lib" c requirer v) ∧
      ∀ r, (datedLibrary.installProblem true).Counts s "lib" r →
        ¬ (datedLibrary.installProblem true).Suits s "lib" c requirer r.version) ∧
    ∃ s c requirer rest, (datedLibrary.installProblem true).Passes s
        (.require "lib" c requirer :: rest) ∧
      (datedLibrary.installProblem true).perform s (.require "lib" c requirer) =
        .error (.conflicting "lib" [("site@1.0.0", "1.0.0+"), ("relic@1.0.0", "0.9.0-")]) ∧
      ¬ ∃ v, (datedLibrary.installProblem true).Suits s "lib" c requirer v := by
  have hstart (name : String) : (datedLibrary.installProblem true).Passes
      { requests := [⟨name, .any⟩] } [.require name .any .request] := .asked .start
  obtain ⟨s, rest, hs, htarget, hnamed, hfails⟩ := (hstart "app").exists_after 7 "lib"
    (.atLeast ⟨3, 0, 0⟩) (.release ⟨"tool", ⟨1, 0, 0⟩⟩)
    (.unsatisfiable "lib" (some "2.0.0") "3.0.0+" "tool@1.0.0") (by decide +kernel)
  obtain ⟨t, rest', ht, htarget', hnamed', hconflict⟩ := (hstart "site").exists_after 7 "lib"
    (.atMost ⟨0, 9, 0⟩) (.release ⟨"relic", ⟨1, 0, 0⟩⟩)
    (.conflicting "lib" [("site@1.0.0", "1.0.0+"), ("relic@1.0.0", "0.9.0-")]) (by decide +kernel)
  have hclassifies := (conflicts_classified.2.2 datedLibrary true (.install "app" "*")).2
  have happ := hclassifies s "lib" _ _ rest hs htarget hnamed
  have hsite := hclassifies t "lib" _ _ rest' ht htarget' hnamed'
  exact ⟨⟨s, _, _, rest, hs, hfails, happ.unsatisfiable.mp ⟨_, _, _, _, hfails⟩⟩,
    t, _, _, rest', ht, hconflict, hsite.conflicting.mp ⟨_, _, hconflict⟩⟩

/-- A library whose new version needs a tool that needs the old one. -/
def circularLibrary : Planner where
  available := .ofReleases .repository [
    { name := "lib", version := ⟨1, 0, 0⟩ },
    { name := "lib", version := ⟨2, 0, 0⟩, dependencies := Keyed.ofList [⟨"tool", .any⟩] },
    { name := "tool", version := ⟨1, 0, 0⟩,
      dependencies := Keyed.ofList [⟨"lib", .exact ⟨1, 0, 0⟩⟩] }]
  installed := .ofReleases .installed [{ name := "lib", version := ⟨1, 0, 0⟩ }]
  sideBySide := true

/-- With releases side by side, a requirement can be reported as unsatisfiable though the version
that it asks for is both available and installed: the upgrade of the library replaces this version,
and what is replaced is not chosen any more. -/
theorem exists_unsatisfiable_though_published :
    circularLibrary.upgrade ["lib"] "*" true =
        .error (.resolution (.unsatisfiable "lib" (some "1.0.0") "1.0.0!" "tool@1.0.0")) ∧
      ¬ ∀ s name c requirer rest,
        (circularLibrary.upgradeProblem true).Passes s (.require name c requirer :: rest) →
        s.graph.target? name c = none →
        (∃ n ∈ s.graph.nodes.toList, n.release.name = name) →
        ((∃ package closest required requiredBy,
          (circularLibrary.upgradeProblem true).perform s (.require name c requirer) =
            .error (.unsatisfiable package closest required requiredBy)) ↔
          (∃ v, (circularLibrary.upgradeProblem true).Suits s name c requirer v) ∧
            ∀ r ∈ circularLibrary.installed.releases ++ circularLibrary.available.releases,
              r.name = name →
                ¬ (circularLibrary.upgradeProblem true).Suits s name c requirer r.version) := by
  refine ⟨by decide +kernel, fun hall => ?_⟩
  have hstart : (circularLibrary.upgradeProblem true).Passes _ _ :=
    @Problem.Passes.renewed _ {} { name := "lib", version := ⟨2, 0, 0⟩ }
      { name := "lib", version := ⟨1, 0, 0⟩ } .start (by decide +kernel) rfl (by decide +kernel)
  obtain ⟨s, rest, hs, htarget, hnamed, hfails⟩ := hstart.exists_after 4 "lib"
    (.exact ⟨1, 0, 0⟩) (.release ⟨"tool", ⟨1, 0, 0⟩⟩)
    (.unsatisfiable "lib" (some "1.0.0") "1.0.0!" "tool@1.0.0") (by decide +kernel)
  have hnone := ((hall s "lib" _ _ rest hs htarget hnamed).mp ⟨_, _, _, _, hfails⟩).2
  refine hnone { name := "lib", version := ⟨1, 0, 0⟩ } (by decide +kernel) rfl ?_
  rw [Problem.Suits, Problem.considered_of_sideBySide rfl]
  decide +kernel

end Planner

end PackagePlanner
