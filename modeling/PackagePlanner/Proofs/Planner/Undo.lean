import PackagePlanner.Proofs.Catalog.Order
import PackagePlanner.Proofs.Planner.Change

/-!
Plans that can be undone.

* `Plan.Exact`: a plan names each release once, adds what the repository offers and the project
  lacks, and removes what the project has.
* `Plan.Exact.releases_undo`, `Plan.Exact.names_undo`: carrying out an exact plan and then its
  reverse leaves the releases of the project with their contents and in their order, even if a
  package was gone in between.
* `Planner.exact_planWith`: the plans of installs and upgrades are exact, and so can be undone.
-/

namespace PackagePlanner

/-! ### Exact plans -/

/-- The plan that takes a plan back. -/
def Plan.undo (plan : Plan) : Plan := { added := plan.removed, removed := plan.added }

/-- A plan that names each release once, and none that it could not add or remove. -/
structure Plan.Exact (available installed : Catalog) (plan : Plan) : Prop where
  /-- Nothing is added twice. -/
  added_once : (plan.added.map Release.id).Nodup
  /-- Nothing is removed twice. -/
  removed_once : (plan.removed.map Release.id).Nodup
  /-- Each added release is the available one of its name. -/
  added_offered : ∀ r ∈ plan.added, available.release? r.id = some r
  /-- Nothing is added that the project has. -/
  added_new : ∀ r ∈ plan.added, installed.containsRelease r.id = false
  /-- Each removed release is the installed one of its name. -/
  removed_installed : ∀ r ∈ plan.removed, installed.release? r.id = some r
  /-- Nothing is both added and removed. -/
  disjoint : ∀ r ∈ plan.added, ∀ q ∈ plan.removed, r.id ≠ q.id

namespace Plan.Exact

variable {available installed : Catalog} {plan : Plan}

/-- Once the plan is taken back the project has the releases that it had. -/
lemma mem_releases_undo_iff (h : plan.Exact available installed) {r : Release} :
    r ∈ ((installed.apply plan).apply plan.undo).releases ↔ r ∈ installed.releases := by
  have hadded : ∀ q ∈ plan.added, ∀ q' ∈ plan.added, q.id = q'.id → q = q' :=
    fun q hq q' hq' hid => List.inj_on_of_nodup_map h.added_once hq hq' hid
  have hremoved : ∀ q ∈ plan.undo.added, ∀ q' ∈ plan.undo.added, q.id = q'.id → q = q' :=
    fun q hq q' hq' hid => List.inj_on_of_nodup_map h.removed_once hq hq' hid
  have hinstalled (q : Release) (hq : q ∈ plan.removed) : q ∈ installed.releases :=
    (Catalog.release?_eq_some_iff.mp (h.removed_installed q hq)).1
  rw [Catalog.mem_releases_apply_iff hremoved, Catalog.mem_releases_apply_iff hadded]
  constructor
  · rintro (hr | ⟨hr | ⟨hr, _⟩, hnot, _⟩)
    · exact hinstalled r hr
    · exact absurd (List.mem_map_of_mem hr) hnot
    · exact hr
  · intro hr
    have hnot : r.id ∉ plan.added.map Release.id := by
      intro hmem
      obtain ⟨q, hq, hid⟩ := List.mem_map.mp hmem
      have hnew := h.added_new q hq
      rw [Catalog.containsRelease_iff.mpr ⟨r, hr, hid.symm⟩] at hnew
      simp at hnew
    by_cases hgone : r.id ∈ plan.removed.map Release.id
    · obtain ⟨q, hq, hid⟩ := List.mem_map.mp hgone
      obtain rfl := Catalog.eq_of_id_eq (hinstalled q hq) hr hid
      exact .inl hq
    · exact .inr ⟨.inr ⟨hr, hgone, hnot⟩, hnot, hgone⟩

lemma isPrefix_keys_undo (installed : Catalog) (plan : Plan) :
    installed.packages.keys <+: ((installed.apply plan).apply plan.undo).packages.keys :=
  (installed.isPrefix_keys_apply plan).trans (Catalog.isPrefix_keys_apply _ plan.undo)

/-- Taking an exact plan back restores the releases in their order. -/
theorem releases_undo (h : plan.Exact available installed) :
    ((installed.apply plan).apply plan.undo).releases = installed.releases :=
  Catalog.releases_eq_of_isPrefix (fun _ => h.mem_releases_undo_iff.symm)
    (isPrefix_keys_undo installed plan)

/-- Taking an exact plan back restores the names in their order. -/
theorem names_undo (h : plan.Exact available installed) :
    ((installed.apply plan).apply plan.undo).names = installed.names :=
  Catalog.names_eq_of_isPrefix (fun _ => h.mem_releases_undo_iff.symm)
    (isPrefix_keys_undo installed plan)

end Plan.Exact

/-! ### The plan of a selection -/

namespace Problem

/-- The added releases come from an order that lists nothing twice. -/
lemma nodup_ids_arrivals (s : Selection) : ((arrivals s).map Release.id).Nodup := by
  rw [arrivals_eq_filterMap, List.map_filterMap]
  refine (s.graph.nodup_installOrder s.roots).filterMap fun a b id ha hb => ?_
  have hid (c : ReleaseId) (hc : id ∈ (((s.graph.node? c).filter fun n => !n.installed).map
      Graph.Node.release).map Release.id) : c = id := by
    obtain ⟨r, hr, rfl⟩ := Option.map_eq_some_iff.mp hc
    obtain ⟨n, hn, rfl⟩ := Option.map_eq_some_iff.mp hr
    exact (Graph.node?_eq_some_iff.mp (Option.filter_eq_some_iff.mp hn).1).2.symm
  rw [hid a ha, hid b hb]

/-- The leaving releases are sorted by the added names they bear, each into one place. -/
lemma nodup_departures {added leaving : List Release} (h : leaving.Nodup) :
    (departures added leaving).Nodup := by
  rw [departures]
  refine List.nodup_append.mpr ⟨List.nodup_flatMap.mpr ⟨fun _ _ => h.filter _, ?_⟩, h.filter _, ?_⟩
  · refine (nodup_eraseDups _).imp fun {a b} hne r hr hr' => hne ?_
    have hname : r.name = a := by simpa using (List.mem_filter.mp hr).2
    have hname' : r.name = b := by simpa using (List.mem_filter.mp hr').2
    exact hname.symm.trans hname'
  · intro r hr q hq heq
    subst heq
    obtain ⟨name, hname, hr⟩ := List.mem_flatMap.mp hr
    have hrname : r.name = name := by simpa using (List.mem_filter.mp hr).2
    have hnot := (List.mem_filter.mp hq).2
    rw [hrname, List.contains_iff_mem.mpr hname] at hnot
    simp at hnot

/-- The plan of a standing selection is exact. -/
theorem Standing.exact {p : Problem} {s : Selection} (h : p.Standing s) :
    (p.planOf s).Exact p.available p.installed := by
  have hinstalled (r : Release) (hr : r ∈ (p.planOf s).removed) : r ∈ p.installed.releases :=
    (h.mem_removed_iff.mp hr).1
  have hoffers (r : Release) (hr : r ∈ (p.planOf s).added) : p.Offers ⟨r, false⟩ :=
    h.prune.offered _ (mem_added_iff.mp hr)
  have hnew (r : Release) (hr : r ∈ (p.planOf s).added) :
      ∀ q ∈ p.installed.releases, q.id ≠ r.id := fun _ hq =>
    (hoffers r hr).id_ne_of_not_installed rfl hq
  constructor
  case added_once => exact nodup_ids_arrivals s.prune
  case removed_once =>
    refine List.Nodup.map_on (fun r hr q hq hid => ?_)
      (nodup_departures (p.leaving s.prune).nodup.of_map)
    exact Catalog.eq_of_id_eq (hinstalled r hr) (hinstalled q hq) hid
  case added_offered =>
    intro r hr
    cases hoffers r hr with
    | available ha _ => exact Catalog.release?_eq_some_iff.mpr ⟨ha, rfl⟩
  case added_new =>
    intro r hr
    rw [Bool.eq_false_iff, Ne, Catalog.containsRelease_iff]
    rintro ⟨q, hq, hid⟩
    exact hnew r hr q hq hid
  case removed_installed =>
    exact fun r hr => Catalog.release?_eq_some_iff.mpr ⟨hinstalled r hr, rfl⟩
  case disjoint => exact fun r hr q hq hid => hnew r hr q (hinstalled q hq) hid.symm

end Problem

namespace Planner

variable {p : Planner} {change : Change} {follow : Bool} {plan : Plan}

/-- The plan of an install or an upgrade is exact, whether or not dependencies are followed, and
taking it back restores the project. -/
theorem exact_planWith (h : p.planWith follow change = .ok plan) :
    plan.Exact p.available p.installed ∧
      ((p.installed.apply plan).apply plan.undo).releases = p.installed.releases ∧
      ((p.installed.apply plan).apply plan.undo).names = p.installed.names := by
  obtain ⟨s, hs, rfl⟩ := planWith_eq_ok_iff.mp h
  have hexact := (settled_of_selectionWith hs).exact
  rw [available_problemWith, installed_problemWith] at hexact
  exact ⟨hexact, hexact.releases_undo, hexact.names_undo⟩

/-- A library with an application that needs just this version of it, and new versions of both,
where the new application needs a log as well. -/
def appGainsLog : Planner where
  available := .ofReleases .repository [
    { name := "lib", version := ⟨2, 0, 0⟩ },
    { name := "log", version := ⟨0, 3, 0⟩ },
    { name := "app", version := ⟨2, 0, 0⟩,
      dependencies := Keyed.ofList [⟨"log", .any⟩, ⟨"lib", .atLeast ⟨2, 0, 0⟩⟩] }]
  installed := .ofReleases .installed [
    { name := "lib", version := ⟨1, 0, 0⟩ },
    { name := "app", version := ⟨1, 0, 0⟩,
      dependencies := Keyed.ofList [⟨"lib", .exact ⟨1, 0, 0⟩⟩] }]

/-- Both packages lose their only version and get it back, and the log goes again. -/
theorem exact_planWith_appGainsLog :
    ∃ plan, appGainsLog.planWith true (.upgrade ["lib"] "*") = .ok plan ∧
      plan.added.map Release.id =
        [⟨"lib", ⟨2, 0, 0⟩⟩, ⟨"log", ⟨0, 3, 0⟩⟩, ⟨"app", ⟨2, 0, 0⟩⟩] ∧
      plan.removed.map Release.id = [⟨"lib", ⟨1, 0, 0⟩⟩, ⟨"app", ⟨1, 0, 0⟩⟩] ∧
      plan.Exact appGainsLog.available appGainsLog.installed ∧
      ((appGainsLog.installed.apply plan).apply plan.undo).releases =
        appGainsLog.installed.releases ∧
      ((appGainsLog.installed.apply plan).apply plan.undo).names =
        appGainsLog.installed.names := by
  have hplan : (appGainsLog.planWith true (.upgrade ["lib"] "*")).map
      (fun plan => (plan.added.map Release.id, plan.removed.map Release.id)) =
        .ok ([⟨"lib", ⟨2, 0, 0⟩⟩, ⟨"log", ⟨0, 3, 0⟩⟩, ⟨"app", ⟨2, 0, 0⟩⟩],
          [⟨"lib", ⟨1, 0, 0⟩⟩, ⟨"app", ⟨1, 0, 0⟩⟩]) := by decide +kernel
  obtain ⟨plan, h, hids⟩ := map_eq_ok_iff.mp hplan
  obtain ⟨hadded, hremoved⟩ := Prod.mk.inj hids
  exact ⟨plan, h, hadded, hremoved, exact_planWith h⟩

end Planner

end PackagePlanner
