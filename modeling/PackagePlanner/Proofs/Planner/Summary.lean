import PackagePlanner.Proofs.Planner.Replacement
import PackagePlanner.Proofs.Planner.SideBySide

/-!
The upgrades that a plan reports, and the packages that it upgrades.

* `Plan.upgraded`: the packages that gain and lose a release. A plan reports one upgrade for each
  release that such a package gains (`upgrades_eq_length`), so it never reports too few of them.
* `Plan.upgrades_eq_card_iff`: it reports their number if and only if each of them gains one
  release.
* `Planner.upgrades_of_planWith`: this is so for installs, and for upgrades without releases side by
  side. With them an upgrade can report more upgrades than it removes releases
  (`exists_upgrades_overcounted`).
-/

namespace PackagePlanner

namespace Plan

variable {plan : Plan} {name : String}

/-! ### Counting packages -/

/-- The packages that gain a release and lose one. -/
def upgraded (plan : Plan) : Finset String :=
  (plan.added.map Release.name).toFinset ∩ (plan.removed.map Release.name).toFinset

/-- The added releases of packages that lose one. -/
def successors (plan : Plan) : List Release :=
  plan.added.filter fun r => plan.removed.any fun old => old.name == r.name

lemma mem_upgraded_iff : name ∈ plan.upgraded ↔
    (∃ r ∈ plan.added, r.name = name) ∧ ∃ old ∈ plan.removed, old.name = name := by
  simp [upgraded]

lemma mem_successors_iff {r : Release} :
    r ∈ plan.successors ↔ r ∈ plan.added ∧ ∃ old ∈ plan.removed, old.name = r.name := by
  simp [successors]

lemma mem_successors_iff_upgraded {r : Release} :
    r ∈ plan.successors ↔ r ∈ plan.added ∧ r.name ∈ plan.upgraded := by
  rw [mem_successors_iff, mem_upgraded_iff]
  exact and_congr_right fun hr => (and_iff_right ⟨r, hr, rfl⟩).symm

lemma upgrades_eq_length (plan : Plan) : plan.summary.upgrades = plan.successors.length :=
  List.countP_eq_length_filter

lemma upgraded_eq_toFinset (plan : Plan) :
    plan.upgraded = (plan.successors.map Release.name).toFinset := by
  ext name
  simp only [List.mem_toFinset, List.mem_map, mem_successors_iff_upgraded]
  constructor
  · intro hname
    obtain ⟨r, hr, rfl⟩ := (mem_upgraded_iff.mp hname).1
    exact ⟨r, ⟨hr, hname⟩, rfl⟩
  · rintro ⟨r, ⟨_, hname⟩, rfl⟩
    exact hname

/-- Each upgraded package is counted. -/
theorem card_upgraded_le_upgrades (plan : Plan) : plan.upgraded.card ≤ plan.summary.upgrades := by
  rw [upgraded_eq_toFinset, upgrades_eq_length]
  exact (List.toFinset_card_le _).trans_eq (List.length_map _)

/-- Each upgraded package loses a release of its own. -/
theorem card_upgraded_le_toRemove (plan : Plan) : plan.upgraded.card ≤ plan.summary.toRemove :=
  calc plan.upgraded.card
    _ ≤ (plan.removed.map Release.name).toFinset.card :=
        Finset.card_le_card Finset.inter_subset_right
    _ ≤ (plan.removed.map Release.name).length := List.toFinset_card_le _
    _ = plan.summary.toRemove := List.length_map _

/-- If no release is added twice, a plan reports as many upgrades as it upgrades packages if and
only if each of them gains one release. -/
theorem upgrades_eq_card_iff (hadded : plan.added.Nodup) :
    plan.summary.upgrades = plan.upgraded.card ↔
      ∀ name ∈ plan.upgraded, ∃! r, r ∈ plan.added ∧ r.name = name := by
  have hcount : plan.summary.upgrades = plan.upgraded.card ↔
      (plan.successors.map Release.name).Nodup := by
    rw [upgraded_eq_toFinset, upgrades_eq_length, ← Multiset.coe_nodup,
      ← Multiset.toFinset_card_eq_card_iff_nodup]
    simp [eq_comm]
  have hsuccessors : plan.successors.Nodup := hadded.filter _
  rw [hcount, List.nodup_map_iff_inj_on hsuccessors]
  constructor
  · intro hinj name hname
    obtain ⟨r, hr, rfl⟩ := (mem_upgraded_iff.mp hname).1
    refine ⟨r, ⟨hr, rfl⟩, ?_⟩
    rintro q ⟨hq, hqname⟩
    exact hinj q (mem_successors_iff_upgraded.mpr ⟨hq, hqname ▸ hname⟩) r
      (mem_successors_iff_upgraded.mpr ⟨hr, hname⟩) hqname
  · intro hone q hq r hr hname
    obtain ⟨hq, _⟩ := mem_successors_iff_upgraded.mp hq
    obtain ⟨hr, hrname⟩ := mem_successors_iff_upgraded.mp hr
    exact (hone r.name hrname).unique ⟨hq, hname⟩ ⟨hr, rfl⟩

end Plan

/-! ### Installs and upgrades -/

namespace Planner

variable {p : Planner} {change : Change} {follow : Bool} {plan : Plan}

/-- An install removes nothing where releases stand side by side. -/
lemma removed_install_beside (hside : p.sideBySide = true) {name text : String}
    (h : p.planWith follow (.install name text) = .ok plan) : plan.removed = [] := by
  obtain ⟨s, hs, rfl⟩ := planWith_eq_ok_iff.mp h
  obtain ⟨_, _, _, _, hreplaced, _⟩ := installSelection_eq_ok hs
  exact Problem.removed_eq_nil (leaving_beside hside hreplaced)

/-- A plan never reports fewer upgrades than it upgrades packages, nor does it upgrade more packages
than it removes releases. It reports just their number if and only if each upgraded package gains
one release. This is so for each install, and for each upgrade unless releases may stand side by
side. -/
theorem upgrades_of_planWith (h : p.planWith follow change = .ok plan) :
    plan.upgraded.card ≤ plan.summary.upgrades ∧ plan.upgraded.card ≤ plan.summary.toRemove ∧
      (plan.summary.upgrades = plan.upgraded.card ↔
        ∀ name ∈ plan.upgraded, ∃! r, r ∈ plan.added ∧ r.name = name) ∧
      ((p.sideBySide = false ∨ ∃ name text, change = .install name text) →
        plan.summary.upgrades = plan.upgraded.card) := by
  obtain ⟨s, hs, hplan⟩ := planWith_eq_ok_iff.mp h
  have hstanding := (settled_of_selectionWith hs).toStanding
  have hadded : plan.added.Nodup := hplan ▸ hstanding.exact.added_once.of_map
  have hiff := Plan.upgrades_eq_card_iff hadded
  refine ⟨plan.card_upgraded_le_upgrades, plan.card_upgraded_le_toRemove, hiff, ?_⟩
  intro hchange
  rw [hiff]
  intro name hname
  obtain ⟨⟨r, hr, rfl⟩, old, hold, _⟩ := Plan.mem_upgraded_iff.mp hname
  cases hside : p.sideBySide with
  | false =>
      have hrules : (p.problemWith follow change).rules.sideBySide = false :=
        sideBySide_problemWith.trans hside
      have hnodup : (plan.added.map Release.name).Nodup :=
        hplan ▸ hstanding.nodup_names_added hrules
      refine ⟨r, ⟨hr, rfl⟩, ?_⟩
      rintro q ⟨hq, hqname⟩
      exact List.inj_on_of_nodup_map hnodup hq hr hqname
  | true =>
      -- an install does not remove the old release
      obtain hsingle | ⟨name, text, rfl⟩ := hchange
      · simp [hside] at hsingle
      · simp [removed_install_beside hside h] at hold

/-- The new version of a library takes the place of two older ones. -/
theorem upgrades_of_planWith_crowdedLibrary :
    ∃ plan, crowdedLibrary.planWith true (.upgrade ["app"] "*") = .ok plan ∧
      plan.upgraded = {"lib", "app"} ∧ plan.summary = ⟨2, 3, 2⟩ ∧
      plan.summary.upgrades = plan.upgraded.card := by
  have hplan : (crowdedLibrary.planWith true (.upgrade ["app"] "*")).map
      (fun plan => (plan.upgraded, plan.summary)) = .ok ({"lib", "app"}, ⟨2, 3, 2⟩) := by
    decide +kernel
  obtain ⟨plan, h, hboth⟩ := map_eq_ok_iff.mp hplan
  obtain ⟨hupgraded, hsummary⟩ := Prod.mk.inj hboth
  exact ⟨plan, h, hupgraded, hsummary, (upgrades_of_planWith h).2.2.2 (.inl rfl)⟩

/-- A new version of a library needs a tool that needs an older version of it, which is available as
well. -/
def toolOnOlderLibrary : Planner where
  available := .ofReleases .repository [
    { name := "lib", version := ⟨1, 5, 0⟩ },
    { name := "lib", version := ⟨2, 0, 0⟩, dependencies := Keyed.ofList [⟨"tool", .any⟩] },
    { name := "tool", version := ⟨1, 0, 0⟩,
      dependencies := Keyed.ofList [⟨"lib", .exact ⟨1, 5, 0⟩⟩] }]
  installed := .ofReleases .installed [{ name := "lib", version := ⟨1, 0, 0⟩ }]
  sideBySide := true

/-- An upgrade of one package can be reported as two, though it removes one release. -/
theorem exists_upgrades_overcounted :
    ¬ ∀ (p : Planner) (change : Change) (plan : Plan), p.planWith true change = .ok plan →
      plan.summary.upgrades = plan.upgraded.card ∧
        plan.summary.upgrades ≤ plan.summary.toRemove := by
  intro hall
  have hplan : (toolOnOlderLibrary.planWith true (.upgrade ["lib"] "*")).map
      (fun plan => (plan.upgraded.card, plan.summary)) = .ok (1, ⟨3, 1, 2⟩) := by
    decide +kernel
  obtain ⟨plan, h, hboth⟩ := map_eq_ok_iff.mp hplan
  obtain ⟨hcard, hsummary⟩ := Prod.mk.inj hboth
  obtain ⟨hequal, _⟩ := hall toolOnOlderLibrary (.upgrade ["lib"] "*") plan h
  rw [hcard, hsummary] at hequal
  exact absurd hequal (by decide)

end Planner

end PackagePlanner
