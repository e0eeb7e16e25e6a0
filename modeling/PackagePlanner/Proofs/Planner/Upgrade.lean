import PackagePlanner.Proofs.Catalog.Newest
import PackagePlanner.Proofs.Constraint
import PackagePlanner.Proofs.Planner.Closure

/-!
What an upgrade makes of the packages that it was asked for.

* `Planner.upgradeOf_eq_some_iff`: what is asked for is the newest accepted release that is newer.
* `Selection.Renews`: each replaced release gives way to a newer one that was asked for, which is
  kept by each request (`Renews.pin`) and holds in the end (`Renews.finish`). Hence an installed
  release that leaves gives way to a newer one, or to an added one (`Standing.place_of_installed`).
* `Planner.upgrade_newest`: after an upgrade the project has what was asked for. A package is older
  than before if and only if an older release of it is added, and this happens only without releases
  side by side; `exists_upgrade_downgrades`: the dependencies of one package may do so to another.
-/

namespace PackagePlanner

/-! ### What is asked for -/

namespace Planner

variable {p : Planner} {c : Constraint} {old wanted : Release}

/-- An available release that an upgrade may lead to: a newer one of the package, and accepted. -/
def IsUpgrade (p : Planner) (c : Constraint) (old wanted : Release) : Prop :=
  wanted ∈ p.available.releases ∧ wanted.name = old.name ∧ old.version < wanted.version ∧
    c.admits wanted.version = true

instance (p : Planner) (c : Constraint) (old wanted : Release) :
    Decidable (p.IsUpgrade c old wanted) :=
  inferInstanceAs (Decidable (_ ∧ _ ∧ _ ∧ _))

lemma upgradeOf_eq_some_iff : p.upgradeOf c old = some wanted ↔
    p.IsUpgrade c old wanted ∧ ∀ q, p.IsUpgrade c old q → q.version ≤ wanted.version := by
  rw [upgradeOf]
  split
  · rename_i package hpackage
    rw [Package.find?_newerThan_eq_some_iff, Catalog.releases_of_package? hpackage]
    simp only [Catalog.mem_releasesOf_iff, IsUpgrade]
    constructor
    · rintro ⟨⟨⟨hmem, hname⟩, hnewer⟩, hadmits, hmax⟩
      exact ⟨⟨hmem, hname, hnewer, hadmits⟩,
        fun q hq => hmax q ⟨hq.1, hq.2.1⟩ hq.2.2.1 hq.2.2.2⟩
    · rintro ⟨⟨hmem, hname, hnewer, hadmits⟩, hmax⟩
      exact ⟨⟨⟨hmem, hname⟩, hnewer⟩, hadmits,
        fun q hq hqnewer hqadmits => hmax q ⟨hq.1, hq.2, hqnewer, hqadmits⟩⟩
  · rename_i hnone
    refine ⟨fun h => (nomatch h), fun h => ?_⟩
    obtain ⟨package, hpackage⟩ := Catalog.exists_package?_of_mem h.1.1
    rw [h.1.2.1, hnone] at hpackage
    simp at hpackage

lemma exists_upgradeOf (h : p.IsUpgrade c old wanted) :
    ∃ newest, p.upgradeOf c old = some newest := by
  obtain ⟨hmem, hname, hnewer, hadmits⟩ := h
  obtain ⟨package, hpackage⟩ := Catalog.exists_package?_of_mem hmem
  rw [hname] at hpackage
  rw [upgradeOf, hpackage, ← Option.isSome_iff_exists, List.find?_isSome]
  refine ⟨wanted, Package.mem_newerThan_iff.mpr ⟨?_, hnewer⟩, hadmits⟩
  rw [Catalog.releases_of_package? hpackage]
  exact Catalog.mem_releasesOf_iff.mpr ⟨hmem, hname⟩

end Planner

/-! ### What is replaced -/

/-- A broken release is kept, or a newer one is asked for in its place. -/
lemma Problem.cascade_cases (p : Problem) (s : Selection) (b : Broken) :
    p.cascade s b = .error b.blocked ∨
      ∃ r, r.name = b.dependent.name ∧ b.dependent.version < r.version ∧
        p.cascade s b = (p.pin s r (some b.dependent)).mapError .resolution := by
  rw [Problem.cascade]
  split
  · exact .inl rfl
  · dsimp only
    split
    · exact .inl rfl
    · rename_i r hr
      have hmem := List.mem_of_find?_eq_some hr
      split at hmem
      · rename_i package hpackage
        obtain ⟨hmem, hnewer⟩ := Package.mem_newerThan_iff.mp hmem
        rw [Catalog.releases_of_package? hpackage] at hmem
        exact .inr ⟨r, (Catalog.mem_releasesOf_iff.mp hmem).2, hnewer, rfl⟩
      · simp at hmem

/-- Each replaced release gives way to a newer one that was asked for. -/
def Selection.Renews (s : Selection) : Prop :=
  ∀ r ∈ s.replaced.toList, ∃ v, r.version < v ∧ ⟨r.name, .exact v⟩ ∈ s.requests

namespace Selection.Renews

variable {p : Problem} {s t : Selection}

lemma mono (h : s.Renews) {requests : List Request} (hsub : s.requests ⊆ requests) :
    Selection.Renews { s with requests } := by
  intro r hr
  obtain ⟨v, hv, hmem⟩ := h r hr
  exact ⟨v, hv, hsub hmem⟩

/-- Asking for a newer release in the place of an installed one. -/
lemma renew {wanted old : Release} (h : s.Renews) (hname : wanted.name = old.name)
    (hnewer : old.version < wanted.version) :
    Selection.Renews { s with
      replaced := s.replaced.insert old
      requests := s.requests ++ [⟨wanted.name, .exact wanted.version⟩] } := by
  intro r hr
  rcases Keyed.mem_insert hr with rfl | hr
  · exact ⟨wanted.version, hnewer, by simp [hname]⟩
  · exact h.mono (List.subset_append_left _ _) r hr

lemma pin {wanted old : Release} (h : s.Renews) (hname : wanted.name = old.name)
    (hnewer : old.version < wanted.version) (hpin : p.pin s wanted (some old) = .ok t) :
    t.Renews ∧ s.requests ⊆ t.requests ∧ ⟨wanted.name, .exact wanted.version⟩ ∈ t.requests := by
  have hrequests : t.requests = s.requests ++ [⟨wanted.name, .exact wanted.version⟩] :=
    (Problem.kept_run hpin).2
  rw [Renews, hrequests, Problem.replaced_pin hpin]
  exact ⟨h.renew hname hnewer, List.subset_append_left _ _, by simp⟩

/-- A broken release is upgraded to a newer one. -/
lemma cascade {b : Problem.Broken} (h : s.Renews) (hcascade : p.cascade s b = .ok t) :
    t.Renews ∧ s.requests ⊆ t.requests := by
  rcases p.cascade_cases s b with hblocked | ⟨r, hname, hnewer, hpin⟩
  · rw [hblocked] at hcascade
    simp at hcascade
  · rw [hpin] at hcascade
    obtain ⟨ht, hrequests, _⟩ := h.pin hname hnewer (Problem.mapError_eq_ok_iff.mp hcascade)
    exact ⟨ht, hrequests⟩

lemma finish (h : s.Renews) (hfinish : p.finish s = .ok t) :
    t.Renews ∧ s.requests ⊆ t.requests := by
  have hcascade (u : Selection) (b : Problem.Broken) (v : Selection)
      (hu : u.Renews ∧ s.requests ⊆ u.requests) (_ : p.broken? u = some b)
      (hv : p.cascade u b = .ok v) : v.Renews ∧ s.requests ⊆ v.requests :=
    (hu.1.cascade hv).imp_right (List.Subset.trans hu.2)
  exact (Problem.finish_keeps hcascade ⟨h, List.Subset.refl _⟩ hfinish).1

end Selection.Renews

/-! ### What comes in its place -/

namespace Problem.Standing

variable {p : Problem} {s : Selection}

/-- A release that was asked for is chosen. -/
lemma exists_chosen_of_exact (h : p.Standing s) {name : String} {v : Version}
    (hr : ⟨name, .exact v⟩ ∈ s.requests) : ∃ r ∈ s.chosen, r.id = ⟨name, v⟩ := by
  obtain ⟨r, hr, hname, hadmits⟩ := h.exists_chosen_of_request hr
  exact ⟨r, hr, by rw [Release.id, hname, Constraint.admits_exact_iff.mp hadmits]⟩

/-- An installed release stays, or gives way to a newer one, or to an added one if releases may not
stand side by side. -/
lemma place_of_installed (h : p.Standing s) (hrenews : s.Renews) {r : Release}
    (hr : r ∈ p.installed.releases) :
    r ∈ (p.installed.apply (p.planOf s)).releases ∨
      (∃ q ∈ s.chosen, q.name = r.name ∧ r.version < q.version) ∨
      (p.rules.sideBySide = false ∧ ∃ q ∈ (p.planOf s).added, q.name = r.name) := by
  rw [h.mem_planned_iff hr]
  cases hleaving : p.isLeaving s.prune r with
  | false => exact .inl rfl
  | true =>
      refine .inr ?_
      rcases (isLeaving_iff.mp hleaving).2 with hreplaced | ⟨hside, n, hn, hname, hnew⟩
      · obtain ⟨v, hv, hrequest⟩ := hrenews r ((h.mem_replaced_iff hr).mp hreplaced)
        obtain ⟨q, hq, hid⟩ := h.exists_chosen_of_exact hrequest
        obtain ⟨hqname, hqversion⟩ := ReleaseId.mk.inj hid
        exact .inl ⟨q, hq, hqname, hqversion.symm ▸ hv⟩
      · exact .inr ⟨hside, n.release, mem_added_iff.mpr (hnew ▸ hn), hname⟩

/-- Without releases side by side an added release is the only one of its package afterwards. -/
lemma eq_of_added (h : p.Standing s) (hside : p.rules.sideBySide = false) {q r : Release}
    (hq : q ∈ (p.planOf s).added) (hr : r ∈ (p.installed.apply (p.planOf s)).releases)
    (hname : r.name = q.name) : r = q := by
  have hqnode := mem_added_iff.mp hq
  have eq_of_node {n : Graph.Node} (hn : n ∈ s.prune.graph.nodes.toList)
      (hnname : n.release.name = q.name) : n = ⟨q, false⟩ :=
    h.prune.single hside n hn _ hqnode hnname
  rcases h.mem_releases_planned_iff.mp hr with ⟨n, hn, rfl⟩ | ⟨hri, hstays⟩
  · rw [eq_of_node hn hname]
  · by_cases hchosen : s.prune.graph.contains r.id = true
    · obtain ⟨n, hn, hid⟩ := Graph.contains_iff.mp hchosen
      obtain rfl := eq_of_node hn ((congrArg ReleaseId.name hid).trans hname)
      exact absurd hid.symm ((h.prune.offered _ hqnode).id_ne_of_not_installed rfl hri)
    · have hleaving := isLeaving_iff.mpr
        ⟨Bool.eq_false_iff.mpr hchosen, .inr ⟨hside, _, hqnode, hname.symm, rfl⟩⟩
      rw [hstays] at hleaving
      simp at hleaving

end Problem.Standing

/-! ### Upgrades -/

namespace Planner

variable {p : Planner} {names : List String} {text : String} {follow : Bool} {plan : Plan}

lemma renews_pinUpgrades {c : Constraint} {s t : Selection} {current : List Release}
    (hs : s.Renews) (h : p.pinUpgrades follow c s current = .ok t) :
    t.Renews ∧ s.requests ⊆ t.requests ∧ ∀ r ∈ current, ∀ wanted, p.upgradeOf c r = some wanted →
      ⟨wanted.name, .exact wanted.version⟩ ∈ t.requests := by
  induction current generalizing s with
  | nil =>
      obtain rfl := Except.ok.inj h
      exact ⟨hs, List.Subset.refl _, by simp⟩
  | cons r rest ih =>
      rw [pinUpgrades] at h
      split at h
      · rename_i hnone
        obtain ⟨ht, hrequests, hrest⟩ := ih hs h
        exact ⟨ht, hrequests, List.forall_mem_cons.mpr ⟨by simp [hnone], hrest⟩⟩
      · rename_i wanted hwanted
        split at h
        · simp at h
        · rename_i u hpin
          obtain ⟨⟨_, hname, hnewer, _⟩, _⟩ := upgradeOf_eq_some_iff.mp hwanted
          obtain ⟨hu, hsu, hasked⟩ := hs.pin hname hnewer hpin
          obtain ⟨ht, hut, hrest⟩ := ih hu h
          refine ⟨ht, List.Subset.trans hsu hut, List.forall_mem_cons.mpr ⟨fun w hw => ?_, hrest⟩⟩
          rw [hwanted] at hw
          exact Option.some.inj hw ▸ hut hasked

/-- An upgrade asks for the newest release of each package that has a newer one. -/
lemma renews_upgradeSelection {s : Selection} (h : p.upgradeSelection names text follow = .ok s) :
    ∃ c, Constraint.parse text = .ok c ∧ s.Renews ∧
      ∀ name ∈ names, ∃ old, p.installed.IsNewest name old ∧
        ∀ wanted, p.upgradeOf c old = some wanted →
          ⟨wanted.name, .exact wanted.version⟩ ∈ s.requests := by
  obtain ⟨c, current, t, hc, hcurrent, hpins, hfinish⟩ := pins_of_upgradeSelection h
  have hstart : Selection.Renews {} := fun r hr => by simp at hr
  obtain ⟨hrenews, _, hasked⟩ := renews_pinUpgrades hstart hpins
  obtain ⟨hs, hrequests⟩ := hrenews.finish hfinish
  refine ⟨c, hc, hs, fun name hname => ?_⟩
  obtain ⟨old, hold, hnewest⟩ := (isNewest_of_newestInstalled hcurrent).2.2 name hname
  exact ⟨old, hnewest, fun wanted hwanted => hrequests (hasked old hold wanted hwanted)⟩

/-- The release that was asked for is chosen as it is available, for it is newer than all installed
ones. -/
lemma mem_chosen_of_isUpgrade {c : Constraint} {s : Selection} {name : String}
    {old wanted : Release} (h : (p.upgradeProblem follow).Standing s)
    (hold : p.installed.IsNewest name old) (hwanted : p.IsUpgrade c old wanted)
    (hrequest : ⟨wanted.name, .exact wanted.version⟩ ∈ s.requests) : wanted ∈ s.chosen := by
  obtain ⟨hmem, hname, hnewer, _⟩ := hwanted
  obtain ⟨r, hr, hid⟩ := h.exists_chosen_of_exact hrequest
  obtain ⟨n, hn, rfl⟩ := Selection.mem_chosen_iff.mp hr
  obtain ⟨hrname, hrversion⟩ := ReleaseId.mk.inj hid
  cases h.prune.offered n hn with
  | installed hinstalled =>
      have hle := hold.2.2 _ hinstalled (hrname.trans (hname.trans hold.2.1))
      exact absurd (hrversion ▸ hnewer) (not_lt.mpr hle)
  | available havailable _ =>
      rw [← Catalog.eq_of_id_eq havailable hmem hid]
      exact hr

/-- After an upgrade the project has, of each package, the newest accepted release that is newer
than the installed ones, if there is any. The newest release of a package is not older than before
if and only if releases may stand side by side or no older release of the package is added. -/
theorem upgrade_newest (h : p.upgrade names text follow = .ok plan) :
    ∃ c, Constraint.parse text = .ok c ∧ ∀ name ∈ names, ∃ old, p.installed.IsNewest name old ∧
      ((∃ q, p.IsUpgrade c old q) → ∃ wanted ∈ (p.installed.apply plan).releases,
        p.IsUpgrade c old wanted ∧ ∀ q, p.IsUpgrade c old q → q.version ≤ wanted.version) ∧
      ((∃ newest, (p.installed.apply plan).IsNewest name newest ∧ old.version ≤ newest.version) ↔
        p.sideBySide = true ∨ ∀ q ∈ plan.added, q.name = name → old.version ≤ q.version) := by
  have hplan : p.planWith follow (.upgrade names text) = .ok plan := h
  obtain ⟨s, hs, rfl⟩ := planWith_eq_ok_iff.mp hplan
  obtain ⟨c, hc, hrenews, hasked⟩ := renews_upgradeSelection hs
  have hsettled := settled_upgradeSelection hs
  have hchosen : s.chosen ⊆
      (p.installed.apply ((p.upgradeProblem follow).planOf s)).releases := hsettled.chosen_subset
  refine ⟨c, hc, fun name hname => ?_⟩
  obtain ⟨old, hold, hwanted⟩ := hasked name hname
  refine ⟨old, hold, ?_, ?_, ?_⟩
  · rintro ⟨q, hq⟩
    obtain ⟨wanted, hfound⟩ := exists_upgradeOf hq
    obtain ⟨hupgrade, hmax⟩ := upgradeOf_eq_some_iff.mp hfound
    have hmem := mem_chosen_of_isUpgrade hsettled.toStanding hold hupgrade (hwanted wanted hfound)
    exact ⟨wanted, hchosen hmem, hupgrade, hmax⟩
  · rintro ⟨newest, hnewest, hle⟩
    cases hside : p.sideBySide with
    | true => exact .inl rfl
    | false =>
        refine .inr fun q hq hqname => ?_
        rw [← hsettled.eq_of_added hside hq hnewest.1 (hnewest.2.1.trans hqname.symm)]
        exact hle
  · intro hadded
    obtain ⟨r, hr, hrname, hle⟩ : ∃ r ∈
        (p.installed.apply ((p.upgradeProblem follow).planOf s)).releases,
          r.name = name ∧ old.version ≤ r.version := by
      rcases hsettled.place_of_installed hrenews hold.1 with
        hstays | ⟨q, hq, hqname, hnewer⟩ | ⟨hside, q, hq, hqname⟩
      · exact ⟨old, hstays, hold.2.1, le_rfl⟩
      · exact ⟨q, hchosen hq, hqname.trans hold.2.1, hnewer.le⟩
      · have hall := hadded.resolve_left fun ht => by
          rw [show p.sideBySide = false from hside] at ht
          simp at ht
        exact ⟨q, hchosen (Problem.Standing.added_subset_chosen hq), hqname.trans hold.2.1,
          hall q hq (hqname.trans hold.2.1)⟩
    obtain ⟨newest, hnewest⟩ := Catalog.exists_isNewest hr
    exact ⟨newest, hrname ▸ hnewest, hle.trans (hnewest.2.2 r hr rfl)⟩

/-- A library of which there are two newer versions, an application that needs the library of its
own version, and a tool of which there is nothing newer. -/
def toolWithoutUpgrade : Planner where
  available := .ofReleases .repository [
    { name := "lib", version := ⟨1, 5, 0⟩ },
    { name := "lib", version := ⟨2, 0, 0⟩ },
    { name := "app", version := ⟨2, 0, 0⟩,
      dependencies := Keyed.ofList [⟨"lib", .exact ⟨2, 0, 0⟩⟩] },
    { name := "tool", version := ⟨1, 0, 0⟩ }]
  installed := .ofReleases .installed [
    { name := "lib", version := ⟨1, 0, 0⟩ },
    { name := "app", version := ⟨1, 0, 0⟩,
      dependencies := Keyed.ofList [⟨"lib", .exact ⟨1, 0, 0⟩⟩] },
    { name := "tool", version := ⟨1, 2, 0⟩, dependencies := Keyed.ofList [⟨"lib", .any⟩] }]

/-- The newest library is added with the application that needs it, and the tool stays. -/
theorem upgrade_newest_toolWithoutUpgrade :
    ∃ plan, toolWithoutUpgrade.upgrade ["tool", "lib"] "*" true = .ok plan ∧
      plan.added.map Release.id = [⟨"lib", ⟨2, 0, 0⟩⟩, ⟨"app", ⟨2, 0, 0⟩⟩] ∧
      ∀ name ∈ ["tool", "lib"], ∃ old newest, toolWithoutUpgrade.installed.IsNewest name old ∧
        (toolWithoutUpgrade.installed.apply plan).IsNewest name newest ∧
        old.version ≤ newest.version := by
  have hplan : (toolWithoutUpgrade.upgrade ["tool", "lib"] "*" true).map (fun plan =>
      (plan.added.map Release.id, plan.added.all fun q =>
        toolWithoutUpgrade.installed.releases.all fun r =>
          q.name != r.name || r.version ≤ q.version)) =
      .ok ([⟨"lib", ⟨2, 0, 0⟩⟩, ⟨"app", ⟨2, 0, 0⟩⟩], true) := by decide +kernel
  obtain ⟨plan, h, hboth⟩ := map_eq_ok_iff.mp hplan
  obtain ⟨hadded, hnewer⟩ := Prod.mk.inj hboth
  obtain ⟨_, _, hnames⟩ := upgrade_newest h
  refine ⟨plan, h, hadded, fun name hname => ?_⟩
  obtain ⟨old, hold, _, hiff⟩ := hnames name hname
  obtain ⟨newest, hnewest, hle⟩ := hiff.mpr <| .inr fun q hq hqname => by
    have hall := List.all_eq_true.mp (List.all_eq_true.mp hnewer q hq) old hold.1
    simpa [hqname, hold.2.1] using hall
  exact ⟨old, newest, hold, hnewest, hle⟩

/-- A new version of one package needs the version of the other that is older than the installed
one. -/
def outdatedDependency : Planner where
  available := .ofReleases .repository [
    { name := "a", version := ⟨2, 0, 0⟩,
      dependencies := Keyed.ofList [⟨"b", .exact ⟨1, 0, 0⟩⟩] },
    { name := "b", version := ⟨1, 0, 0⟩ }]
  installed := .ofReleases .installed [
    { name := "a", version := ⟨1, 0, 0⟩ },
    { name := "b", version := ⟨2, 0, 0⟩ }]

/-- A package that an upgrade was asked for can be older afterwards. -/
theorem exists_upgrade_downgrades :
    ¬ ∀ (p : Planner) (names : List String) (text : String) (plan : Plan),
      p.upgrade names text true = .ok plan → ∀ name ∈ names, ∀ old,
        p.installed.IsNewest name old → ∃ newest,
          (p.installed.apply plan).IsNewest name newest ∧ old.version ≤ newest.version := by
  intro hall
  have hafter : (outdatedDependency.upgrade ["a", "b"] "*" true).map (fun plan =>
      (outdatedDependency.installed.apply plan).releases.map Release.id) =
      .ok [⟨"a", ⟨2, 0, 0⟩⟩, ⟨"b", ⟨1, 0, 0⟩⟩] := by decide +kernel
  obtain ⟨plan, h, hids⟩ := map_eq_ok_iff.mp hafter
  obtain ⟨newest, ⟨hmem, hname, _⟩, hle⟩ := hall outdatedDependency ["a", "b"] "*" plan h "b"
    (by simp) { name := "b", version := ⟨2, 0, 0⟩ } (by decide +kernel)
  have hversion : newest.version = ⟨1, 0, 0⟩ := by
    have hid := List.mem_map_of_mem (f := Release.id) hmem
    rw [hids] at hid
    simpa [Release.id, hname] using hid
  rw [hversion] at hle
  exact absurd hle (by decide +kernel)

end Planner

end PackagePlanner
