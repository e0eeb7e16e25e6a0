import PackagePlanner.Proofs.Planner.Change

/-!
What an upgrade does to the installed releases that depend on what it replaces.

* `unharmed_upgrade_iff`: of a closed project, the releases that stay are unharmed exactly if the
  check for broken releases finds none among what is kept in the end; so they are if nothing is
  dropped in the end.
* `exists_harmed_upgrade`: releases may stand side by side and something be dropped, and then a
  release can be harmed, for the check is made before the drop.
-/

namespace PackagePlanner

namespace Planner

variable {p : Planner} {names : List String} {text : String} {plan : Plan}

/-- Who stays is unharmed by an upgrade if and only if nobody is broken by what is kept. -/
theorem unharmed_upgrade_iff (hclosed : p.installed.Closed)
    (h : p.upgrade names text true = .ok plan) :
    ∃ s, p.upgradeSelection names text true = .ok s ∧ (p.upgradeProblem true).planOf s = plan ∧
      (p.installed.Unharmed (p.installed.apply plan) ↔
        (p.upgradeProblem true).broken? s.prune = none) ∧
      ((∀ n ∈ s.graph.nodes.toList, s.Live n.id) →
        p.installed.Unharmed (p.installed.apply plan)) := by
  obtain ⟨s, hs, rfl⟩ := map_eq_ok_iff.mp h
  have hsettled := settled_upgradeSelection hs
  have hiff := hsettled.unharmed_iff hclosed
  refine ⟨s, hs, rfl, hiff, fun hlive => hiff.mpr ?_⟩
  rw [Problem.prune_eq_self hsettled.toStanding hlive]
  exact hsettled.unbroken rfl

/-- Two versions of a library side by side, and an application that needs the old one. -/
def twoLibraries : Planner where
  available := .ofReleases .repository [{ name := "lib", version := ⟨3, 0, 0⟩ }]
  installed := .ofReleases .installed [
    { name := "lib", version := ⟨1, 0, 0⟩ },
    { name := "lib", version := ⟨2, 0, 0⟩ },
    { name := "app", version := ⟨1, 0, 0⟩,
      dependencies := Keyed.ofList [⟨"lib", .exact ⟨1, 0, 0⟩⟩] }]
  sideBySide := true

/-- The newer library is replaced, and the application keeps the older one. -/
theorem unharmed_upgrade_iff_twoLibraries :
    twoLibraries.installed.Closed ∧
      ∃ plan, twoLibraries.upgrade ["lib"] "*" true = .ok plan ∧
        plan.removed.map Release.id = [⟨"lib", ⟨2, 0, 0⟩⟩] ∧
        twoLibraries.installed.Unharmed (twoLibraries.installed.apply plan) := by
  have hclosed : twoLibraries.installed.Closed := by decide +kernel
  have hremoved : (twoLibraries.upgrade ["lib"] "*" true).map
      (fun plan => plan.removed.map Release.id) = .ok [⟨"lib", ⟨2, 0, 0⟩⟩] := by decide +kernel
  have hbroken : (twoLibraries.upgradeSelection ["lib"] "*" true).map
      (fun s => (twoLibraries.upgradeProblem true).broken? s.prune) = .ok none := by
    decide +kernel
  cases h : twoLibraries.upgrade ["lib"] "*" true with
  | error e => simp [h, Except.map] at hremoved
  | ok plan =>
      rw [h] at hremoved
      obtain ⟨s, hs, _, hiff, _⟩ := unharmed_upgrade_iff hclosed h
      rw [hs] at hbroken
      exact ⟨hclosed, plan, rfl, Except.ok.inj hremoved, hiff.mpr (Except.ok.inj hbroken)⟩

/-- A package that needs another, both with new versions, and one that needs the old version of
the other. -/
def chosenAgain : Planner where
  available := .ofReleases .repository [
    { name := "a", version := ⟨2, 0, 0⟩, dependencies := Keyed.ofList [⟨"b", .any⟩] },
    { name := "b", version := ⟨2, 0, 0⟩ }]
  installed := .ofReleases .installed [
    { name := "a", version := ⟨1, 0, 0⟩ },
    { name := "b", version := ⟨1, 0, 0⟩ },
    { name := "c", version := ⟨1, 0, 0⟩,
      dependencies := Keyed.ofList [⟨"b", .exact ⟨1, 0, 0⟩⟩] }]
  sideBySide := true

/-- A release can be harmed: the installed `b` is chosen for the new `a` before it is replaced, so
it is no release that leaves when the check is made, and then it is dropped. -/
theorem exists_harmed_upgrade :
    ¬ ∀ (p : Planner) (names : List String) (text : String) (plan : Plan),
      p.sideBySide = true → p.installed.Closed → p.upgrade names text true = .ok plan →
        p.installed.Unharmed (p.installed.apply plan) := by
  intro hall
  have hharmed : (chosenAgain.upgrade ["a", "b"] "*" true).map
      (fun plan => decide (chosenAgain.installed.Unharmed (chosenAgain.installed.apply plan))) =
        .ok false := by decide +kernel
  cases h : chosenAgain.upgrade ["a", "b"] "*" true with
  | error e => simp [h, Except.map] at hharmed
  | ok plan =>
      rw [h] at hharmed
      have hunharmed := hall chosenAgain ["a", "b"] "*" plan rfl (by decide +kernel) h
      exact of_decide_eq_false (Except.ok.inj hharmed) hunharmed

end Planner

end PackagePlanner
