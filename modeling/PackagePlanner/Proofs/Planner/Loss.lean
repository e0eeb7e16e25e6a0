import PackagePlanner.Proofs.Planner.Change
import PackagePlanner.Proofs.Resolution.Bounds

/-!
What a release that is reported as broken has lost.

* `Problem.Bereft`: a release stays, and nothing is left of what it accepts of another package,
  which loses a release. `Standing.bereft_of_broken?`: whoever is reported is bereft.
* `Planner.Checks`: the selections in which a change looks for broken releases; what it ends with
  is decided by the report (`Planner.selection_of_broken?`).
* `Planner.bereft_of_report`: a bereft release has lost something if what it needs was met before.
  The check does not ask for this, so a release that never had what it needs is reported as well
  (`Planner.exists_report_without_loss`).
-/

namespace PackagePlanner

/-- Every dependency of a release on a package of the catalog is met. -/
def Catalog.Served (c : Catalog) : Prop :=
  ∀ r ∈ c.releases, ∀ d ∈ r.dependencies.toList, c.containsPackage d.name = true → c.Meets d

instance (c : Catalog) : Decidable c.Served :=
  inferInstanceAs (Decidable (∀ r ∈ c.releases, ∀ d ∈ r.dependencies.toList,
    c.containsPackage d.name = true → c.Meets d))

namespace Problem

/-- The dependency that a broken release is reported for. -/
def Broken.need (b : Broken) : Dependency := ⟨b.name, b.constraint⟩

/-- A release is bereft if it stays without anything that it accepts of a package that loses a
release. -/
structure Bereft (p : Problem) (s : Selection) (b : Broken) : Prop where
  /-- It is installed. -/
  installed : b.dependent ∈ p.installed.releases
  /-- It stays. -/
  stays : b.dependent ∈ (p.installed.apply (p.planOf s)).releases
  /-- It declares the dependency. -/
  declared : b.need ∈ b.dependent.dependencies.toList
  /-- The dependency is on another package. -/
  other : b.name ≠ b.dependent.name
  /-- The package loses a release. -/
  loses : ∃ q ∈ p.installed.releases, q.name = b.name ∧
    q ∉ (p.installed.apply (p.planOf s)).releases
  /-- No release is left that the dependency accepts. -/
  unmet : ¬ (p.installed.apply (p.planOf s)).Meets b.need

section

variable {p : Problem} {s : Selection} {b : Broken}

/-! ### Before and after the last drop -/

/-- What leaves before the last drop leaves after it. -/
lemma Standing.isLeaving_prune (h : p.Standing s) {r : Release} (hr : p.isLeaving s r = true) :
    p.isLeaving s.prune r = true := by
  cases hside : p.rules.sideBySide with
  | false => rwa [h.prune_eq_self hside]
  | true =>
      obtain ⟨hnot, hreplaced⟩ := isLeaving_iff.mp hr
      refine isLeaving_iff.mpr ⟨?_, .inl (hreplaced.resolve_right (by simp [hside]))⟩
      rw [Bool.eq_false_iff] at hnot ⊢
      intro hin
      obtain ⟨n, hn, hid⟩ := Graph.contains_iff.mp hin
      exact hnot (Graph.contains_iff.mpr ⟨n, (Selection.mem_nodes_prune_iff.mp hn).1, hid⟩)

/-- What stays before the last drop stays after it, unless it is replaced. -/
lemma Standing.stays_prune (h : p.Standing s) {r : Release} (hr : p.isLeaving s r = false)
    (hreplaced : s.replaced.contains r.id = false) : p.isLeaving s.prune r = false := by
  cases hside : p.rules.sideBySide with
  | false => rwa [h.prune_eq_self hside]
  | true =>
      rw [Bool.eq_false_iff]
      intro hleaving
      rcases (isLeaving_iff.mp hleaving).2 with hin | ⟨hno, _⟩
      · rw [show s.prune.replaced = s.replaced from rfl, hreplaced] at hin
        simp at hin
      · simp [hside] at hno

/-- Whoever is reported as broken is bereft. -/
theorem Standing.bereft_of_broken? (h : p.Standing s) (hfollow : p.rules.follow = true)
    (hb : p.broken? s = some b) : p.Bereft s b := by
  obtain ⟨hinstalled, hstays, hd, hne, hnothing, q, hq, hname, hleaving⟩ := h.broken?_eq_some hb
  have hafter := h.stays_prune hstays (h.not_replaced_of_broken? hfollow hb)
  have hgone := h.isLeaving_prune hleaving
  refine ⟨hinstalled, (h.mem_planned_iff hinstalled).mpr hafter, hd, hne, ⟨q, hq, hname, ?_⟩, ?_⟩
  · rw [h.mem_planned_iff hq, hgone]
    simp
  · -- what serves the dependency after the drop served it before
    intro hmet
    rw [Bool.eq_false_iff] at hnothing
    apply hnothing
    rw [h.remains_iff]
    rcases h.prune.remains_iff.mp (h.remains_prune_iff.mpr hmet) with
      ⟨k, hk, hkstays, hacc⟩ | ⟨n, hn, hacc⟩
    · refine .inl ⟨k, hk, ?_, hacc⟩
      rw [Bool.eq_false_iff]
      intro hkleaving
      rw [h.isLeaving_prune hkleaving] at hkstays
      simp at hkstays
    · exact .inr ⟨n, (Selection.mem_nodes_prune_iff.mp hn).1, hacc⟩

namespace Bereft

/-- What a bereft release needs was met before just if it has lost something. -/
lemma met_iff (h : p.Bereft s b) :
    p.installed.Meets b.need ↔ ∃ q ∈ p.installed.releases, b.need.Accepts q ∧
      q ∉ (p.installed.apply (p.planOf s)).releases := by
  constructor
  · rintro ⟨q, hq, hacc⟩
    exact ⟨q, hq, hacc, fun hafter => h.unmet ⟨q, hafter, hacc⟩⟩
  · rintro ⟨q, hq, hacc, _⟩
    exact ⟨q, hq, hacc⟩

lemma met_of_served (h : p.Bereft s b) (hserved : p.installed.Served) :
    p.installed.Meets b.need := by
  obtain ⟨q, hq, hname, _⟩ := h.loses
  exact hserved _ h.installed _ h.declared (Catalog.containsPackage_iff.mpr ⟨q, hq, hname⟩)

end Bereft

/-- A broken release is upgraded and the check made again, or else it is the end. -/
lemma settle_of_broken? (hb : p.broken? s = some b) :
    p.settle s = if p.rules.cascade then (p.cascade s b).bind p.settle
      else .error (.resolution (b.conflict s)) := by
  rw [settle]
  split
  · simp_all
  · rename_i b' hb'
    obtain rfl : b' = b := by simp_all
    split
    · split <;> simp_all [Except.bind]
    · rfl

end

end Problem

namespace Planner

/-! ### The checks of a change -/

/-- The selections in which a change looks for broken releases when dependencies are followed. -/
inductive Checks (p : Planner) : Change → Selection → Prop
  /-- An install looks for them once it has chosen what it asks for. -/
  | install {name text : String} {c : Constraint} {s : Selection} :
      p.available.containsPackage name = true → Constraint.parse text = .ok c →
      p.available.Meets ⟨name, c⟩ ∨ p.installed.Meets ⟨name, c⟩ →
      (p.installProblem true).request {} name c = .ok s → p.Checks (.install name text) s
  /-- So does an upgrade. -/
  | upgrade {names : List String} {text : String} {c : Constraint} {current : List Release}
      {s : Selection} :
      Constraint.parse text = .ok c → p.newestInstalled names = .ok current →
      p.pinUpgrades true c {} current = .ok s → p.Checks (.upgrade names text) s
  /-- An upgrade that finds a broken release upgrades it too, and looks again. -/
  | cascade {names : List String} {text : String} {s t : Selection} {b : Problem.Broken} :
      p.Checks (.upgrade names text) s → (p.upgradeProblem true).broken? s = some b →
      (p.upgradeProblem true).cascade s b = .ok t → p.Checks (.upgrade names text) t

namespace Checks

variable {p : Planner} {change : Change} {s : Selection}

lemma standing (h : p.Checks change s) : (p.problem change).Standing s := by
  induction h with
  | install _ _ _ hrequest => exact (Problem.Standing.empty _).request hrequest
  | upgrade _ hcurrent hpins =>
      exact standing_pinUpgrades (.empty _) (mem_installed_of_newestInstalled hcurrent).2 hpins
  | cascade _ hb hcascade ih => exact ih.cascade hb hcascade

/-- A change ends as settling ends from each of its checks. -/
theorem selection_eq_settle (h : p.Checks change s) :
    p.selection change = (p.problem change).settle s := by
  induction h with
  | install havailable hc hmet hrequest =>
      exact installSelection_eq havailable hc hmet hrequest
  | upgrade hc hcurrent hpins =>
      simp [selection, selectionWith, upgradeSelection, constraint, hc, hcurrent, hpins,
        Except.mapError, Problem.finish, problem, problemWith, upgradeProblem]
  | @cascade names text s t b _ hb hcascade ih =>
      have hsettle : (p.upgradeProblem true).settle s =
          ((p.upgradeProblem true).cascade s b).bind (p.upgradeProblem true).settle :=
        Problem.settle_of_broken? hb
      rw [hcascade] at hsettle
      exact ih.trans hsettle

end Checks

variable {p : Planner} {change : Change} {s : Selection} {b : Problem.Broken}

/-- Whoever a change reports is bereft by what was chosen so far. An install fails then, and an
upgrade goes on with the upgrade of the reported release. What this one needs was met before
exactly if it has lost a release that it accepts, and so it is in a project that meets whatever its
releases need of the packages that it has. -/
theorem bereft_of_report (h : p.Checks change s)
    (hb : (p.problem change).broken? s = some b) :
    (p.problem change).Bereft s b ∧
      (p.selection change = match change with
        | .install _ _ => .error (.resolution (b.conflict s))
        | .upgrade _ _ => ((p.problem change).cascade s b).bind (p.problem change).settle) ∧
      (p.installed.Meets b.need ↔ ∃ q ∈ p.installed.releases, b.need.Accepts q ∧
        q ∉ (p.installed.apply ((p.problem change).planOf s)).releases) ∧
      (p.installed.Served → p.installed.Meets b.need) := by
  have hbereft := h.standing.bereft_of_broken? follow_problemWith hb
  have hmet := hbereft.met_iff
  have hserved := hbereft.met_of_served
  rw [problem, installed_problemWith] at hmet hserved
  refine ⟨hbereft, ?_, hmet, hserved⟩
  rw [h.selection_eq_settle, Problem.settle_of_broken? hb]
  cases change <;> rfl

/-- An application that accepts the installed version of a library only. -/
def heldLibrary : Planner where
  available := .ofReleases .repository [{ name := "lib", version := ⟨2, 0, 0⟩ }]
  installed := .ofReleases .installed [
    { name := "lib", version := ⟨1, 0, 0⟩ },
    { name := "app", version := ⟨1, 0, 0⟩,
      dependencies := Keyed.ofList [⟨"lib", .exact ⟨1, 0, 0⟩⟩] }]

/-- The application is reported when another version of the library is to be installed. -/
theorem bereft_of_report_heldLibrary :
    ∃ s b, heldLibrary.Checks (.install "lib" "2!") s ∧
      (heldLibrary.problem (.install "lib" "2!")).broken? s = some b ∧
      (b.dependent.id, b.need) = (⟨"app", ⟨1, 0, 0⟩⟩, ⟨"lib", .exact ⟨1, 0, 0⟩⟩) ∧
      (heldLibrary.problem (.install "lib" "2!")).Bereft s b ∧
      heldLibrary.selection (.install "lib" "2!") = .error (.resolution (b.conflict s)) ∧
      heldLibrary.installed.Meets b.need := by
  have hrequest : ((heldLibrary.installProblem true).request {} "lib" (.exact ⟨2, 0, 0⟩)).map
      (fun s => ((heldLibrary.installProblem true).broken? s).map fun b =>
        (b.dependent.id, b.need)) =
      .ok (some (⟨"app", ⟨1, 0, 0⟩⟩, ⟨"lib", .exact ⟨1, 0, 0⟩⟩)) := by decide +kernel
  obtain ⟨s, hs, hreport⟩ := map_eq_ok_iff.mp hrequest
  obtain ⟨b, hb, hids⟩ := Option.map_eq_some_iff.mp hreport
  have hchecks : heldLibrary.Checks (.install "lib" "2!") s :=
    .install (by decide +kernel) (by decide +kernel) (.inl (by decide +kernel)) hs
  obtain ⟨hbereft, hfails, _, hmet⟩ := bereft_of_report hchecks hb
  exact ⟨s, b, hchecks, hb, hids, hbereft, hfails, hmet (by decide +kernel)⟩

/-- An application that waits for a version of a library which is not there yet. -/
def waitingTool : Planner where
  available := .ofReleases .repository [{ name := "lib", version := ⟨2, 0, 0⟩ }]
  installed := .ofReleases .installed [
    { name := "lib", version := ⟨1, 0, 0⟩ },
    { name := "app", version := ⟨1, 0, 0⟩,
      dependencies := Keyed.ofList [⟨"lib", .atLeast ⟨3, 0, 0⟩⟩] }]

/-- The application is reported though it has nothing to lose, so that the library can neither be
replaced nor upgraded. -/
theorem exists_report_without_loss :
    ∃ s b, waitingTool.Checks (.install "lib" "2!") s ∧
      (waitingTool.problem (.install "lib" "2!")).broken? s = some b ∧
      ¬ waitingTool.installed.Meets b.need ∧
      waitingTool.selection (.install "lib" "2!") = .error (.resolution (b.conflict s)) ∧
      waitingTool.upgrade ["lib"] "2!" true = .error (.hasDependent "lib" "app") := by
  have hrequest : ((waitingTool.installProblem true).request {} "lib" (.exact ⟨2, 0, 0⟩)).map
      (fun s => ((waitingTool.installProblem true).broken? s).map Problem.Broken.need) =
      .ok (some ⟨"lib", .atLeast ⟨3, 0, 0⟩⟩) := by decide +kernel
  obtain ⟨s, hs, hreport⟩ := map_eq_ok_iff.mp hrequest
  obtain ⟨b, hb, hneed⟩ := Option.map_eq_some_iff.mp hreport
  have hchecks : waitingTool.Checks (.install "lib" "2!") s :=
    .install (by decide +kernel) (by decide +kernel) (.inl (by decide +kernel)) hs
  refine ⟨s, b, hchecks, hb, ?_, ?_, by decide +kernel⟩
  · rw [hneed]
    decide +kernel
  · exact hchecks.selection_eq_settle.trans (Problem.settle_of_broken? hb)

end Planner

end PackagePlanner
