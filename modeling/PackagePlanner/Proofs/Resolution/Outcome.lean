import PackagePlanner.Proofs.Graph.InstallOrder
import PackagePlanner.Proofs.Resolution.Departure

/-!
What the plan of a standing selection does to the project.

* `Standing.mem_added_iff` and `Standing.mem_removed_iff`: the plan adds the chosen releases that
  are not installed and removes the installed ones that leave, both seen after the last drop. Hence
  `Standing.mem_releases_planned_iff`: the project holds what is chosen and what stays.
* `Standing.unharmed_iff`: of a project that is closed, what stays is unharmed exactly if the check
  for broken releases, made after the last drop, finds none.
* `Settled.consistent`: without releases side by side there is nothing to drop, so a consistent
  project stays consistent.
-/

namespace PackagePlanner

namespace Problem

/-! ### What a plan adds and removes -/

lemma planOf_eq (p : Problem) (s : Selection) :
    p.planOf s = ⟨arrivals s.prune, departures (arrivals s.prune) (p.leaving s.prune).toList⟩ :=
  rfl

/-- Arrivals come from the install order one by one. -/
lemma arrivals_eq_filterMap (s : Selection) :
    arrivals s = (s.graph.installOrder s.roots).filterMap fun id =>
      ((s.graph.node? id).filter fun n => !n.installed).map Graph.Node.release := by
  rw [arrivals, List.filter_filterMap, List.map_filterMap]

lemma mem_arrivals_iff {s : Selection} {r : Release} :
    r ∈ arrivals s ↔ ⟨r, false⟩ ∈ s.graph.nodes.toList ∧ s.Live r.id := by
  simp only [arrivals, List.mem_map, List.mem_filter, List.mem_filterMap, Bool.not_eq_true',
    Graph.mem_installOrder_iff, Graph.node?_eq_some_iff]
  refine ⟨?_, ?_⟩
  · rintro ⟨⟨r, installed⟩, ⟨⟨id, hlive, hn, rfl⟩, hi⟩, rfl⟩
    obtain rfl : installed = false := hi
    exact ⟨hn, hlive⟩
  · rintro ⟨hn, hlive⟩
    exact ⟨_, ⟨⟨r.id, hlive, hn, rfl⟩, rfl⟩, rfl⟩

lemma mem_departures_iff {added leaving : List Release} {r : Release} :
    r ∈ departures added leaving ↔ r ∈ leaving := by
  simp only [departures, List.mem_append, List.mem_flatMap, List.mem_filter, beq_iff_eq,
    Bool.not_eq_true', List.contains_eq_mem, decide_eq_false_iff_not]
  refine ⟨?_, ?_⟩
  · rintro (⟨_, _, hr, _⟩ | ⟨hr, _⟩) <;> exact hr
  · intro hr
    by_cases hname : r.name ∈ (added.map Release.name).eraseDups
    · exact .inl ⟨r.name, hname, hr, rfl⟩
    · exact .inr ⟨hr, hname⟩

/-- Nothing is removed if nothing leaves. -/
lemma removed_eq_nil {p : Problem} {s : Selection} (h : p.leaving s.prune = .empty) :
    (p.planOf s).removed = [] := by
  rw [List.eq_nil_iff_forall_not_mem]
  intro r hr
  rw [planOf_eq, mem_departures_iff, h] at hr
  simp at hr

namespace Standing

variable {p : Problem} {s : Selection}

/-- The added releases are the chosen ones that are not installed. -/
theorem mem_added_iff {r : Release} :
    r ∈ (p.planOf s).added ↔ ⟨r, false⟩ ∈ s.prune.graph.nodes.toList := by
  rw [planOf_eq, mem_arrivals_iff]
  exact ⟨fun h => h.1, fun h => ⟨h, Selection.Live.prune (Selection.mem_nodes_prune_iff.mp h).2⟩⟩

/-- The removed releases are the installed ones that leave. -/
theorem mem_removed_iff (h : p.Standing s) {r : Release} :
    r ∈ (p.planOf s).removed ↔ r ∈ p.installed.releases ∧ p.isLeaving s.prune r = true := by
  rw [planOf_eq, mem_departures_iff, h.prune.mem_leaving_iff]

lemma id_mem_removed_iff (h : p.Standing s) {r : Release} (hr : r ∈ p.installed.releases) :
    r.id ∈ (p.planOf s).removed.map Release.id ↔ p.isLeaving s.prune r = true := by
  rw [List.mem_map]
  refine ⟨?_, ?_⟩
  · rintro ⟨q, hq, hid⟩
    obtain ⟨hqi, hleaving⟩ := h.mem_removed_iff.mp hq
    rwa [← Catalog.eq_of_id_eq hqi hr hid]
  · exact fun hleaving => ⟨r, h.mem_removed_iff.mpr ⟨hr, hleaving⟩, rfl⟩

/-- A release is added with one content only. -/
lemma eq_of_mem_added {r q : Release} (hr : r ∈ (p.planOf s).added)
    (hq : q ∈ (p.planOf s).added) (hid : r.id = q.id) : r = q :=
  congrArg Graph.Node.release (Keyed.eq_of_mem (mem_added_iff.mp hr) (mem_added_iff.mp hq) hid)

/-! ### What the project holds afterwards -/

/-- The project holds what is chosen and what stays. -/
theorem mem_releases_planned_iff (h : p.Standing s) {r : Release} :
    r ∈ (p.installed.apply (p.planOf s)).releases ↔
      (∃ n ∈ s.prune.graph.nodes.toList, n.release = r) ∨
        (r ∈ p.installed.releases ∧ p.isLeaving s.prune r = false) := by
  rw [Catalog.mem_releases_apply_iff fun q hq q' hq' => eq_of_mem_added hq hq']
  refine ⟨?_, ?_⟩
  · rintro (hr | ⟨hr, hnot, _⟩)
    · exact .inl ⟨_, mem_added_iff.mp hr, rfl⟩
    · rw [h.id_mem_removed_iff hr, Bool.not_eq_true] at hnot
      exact .inr ⟨hr, hnot⟩
  · have stays {r : Release} (hr : r ∈ p.installed.releases)
        (hstays : p.isLeaving s.prune r = false) :
        r ∈ p.installed.releases ∧ r.id ∉ (p.planOf s).removed.map Release.id ∧
          r.id ∉ (p.planOf s).added.map Release.id := by
      refine ⟨hr, ?_, fun hadded => ?_⟩
      · rw [h.id_mem_removed_iff hr, Bool.not_eq_true]
        exact hstays
      · obtain ⟨q, hq, hid⟩ := List.mem_map.mp hadded
        have hn := mem_added_iff.mp hq
        exact (h.prune.offered _ hn).id_ne_of_not_installed rfl hr hid.symm
    rintro (⟨⟨q, installed⟩, hn, rfl⟩ | ⟨hr, hstays⟩)
    · cases installed with
      | false => exact .inl (mem_added_iff.mpr hn)
      | true =>
          exact .inr (stays ((h.prune.offered _ hn).mem_installed rfl)
            (isLeaving_eq_false_of_mem hn))
    · exact .inr (stays hr hstays)

/-- A chosen release is in the project afterwards. -/
lemma mem_planned_of_chosen (h : p.Standing s) {n : Graph.Node}
    (hn : n ∈ s.prune.graph.nodes.toList) :
    n.release ∈ (p.installed.apply (p.planOf s)).releases :=
  h.mem_releases_planned_iff.mpr (.inl ⟨n, hn, rfl⟩)

/-- An installed release is in the project afterwards if and only if it does not leave. -/
lemma mem_planned_iff (h : p.Standing s) {r : Release} (hr : r ∈ p.installed.releases) :
    r ∈ (p.installed.apply (p.planOf s)).releases ↔ p.isLeaving s.prune r = false := by
  rw [h.mem_releases_planned_iff]
  refine ⟨?_, ?_⟩
  · rintro (⟨n, hn, rfl⟩ | ⟨_, hstays⟩)
    · exact isLeaving_eq_false_of_mem hn
    · exact hstays
  · exact fun hstays => .inr ⟨hr, hstays⟩

/-- A dependency is met afterwards if and only if a version that it accepts remains. -/
lemma remains_prune_iff (h : p.Standing s) {d : Dependency} :
    p.remains s.prune (p.leaving s.prune) d.name d.constraint = true ↔
      (p.installed.apply (p.planOf s)).Meets d := by
  rw [h.prune.remains_iff]
  refine ⟨?_, ?_⟩
  · rintro (⟨r, hr, hstays, hacc⟩ | ⟨n, hn, hacc⟩)
    · exact ⟨r, (h.mem_planned_iff hr).mpr hstays, hacc⟩
    · exact ⟨n.release, h.mem_planned_of_chosen hn, hacc⟩
  · rintro ⟨r, hr, hacc⟩
    rcases h.mem_releases_planned_iff.mp hr with ⟨n, hn, rfl⟩ | ⟨hr, hstays⟩
    · exact .inr ⟨n, hn, hacc⟩
    · exact .inl ⟨r, hr, hstays, hacc⟩

/-! ### What the chosen releases need -/

/-- Each dependency of a chosen release is served by a chosen release. -/
lemma exists_accepted_of_chosen (h : p.Standing s) (hfollow : p.rules.follow = true)
    {n : Graph.Node} (hn : n ∈ s.prune.graph.nodes.toList) {d : Dependency}
    (hd : d ∈ n.release.dependencies.toList) :
    ∃ m ∈ s.prune.graph.nodes.toList, d.Accepts m.release := by
  obtain ⟨_, m, hm⟩ := h.prune.exists_target hfollow hn hd
  exact ⟨m, Graph.mem_of_target? hm, Graph.accepts_of_target? hm⟩

/-! ### What the others need -/

/-- Of a closed project what stays is unharmed exactly if nobody is broken after the last drop. -/
theorem unharmed_iff (h : p.Standing s) (hclosed : p.installed.Closed) :
    p.installed.Unharmed (p.installed.apply (p.planOf s)) ↔ p.broken? s.prune = none := by
  rw [h.prune.broken?_eq_none_iff]
  refine ⟨?_, ?_⟩
  · intro hunharmed q _ _ r hr hstays d hd _ hne
    exact h.remains_prune_iff.mpr (hunharmed r hr ((h.mem_planned_iff hr).mpr hstays) d hd hne)
  · intro hremains r hr hafter d hd hne
    have hstays := (h.mem_planned_iff hr).mp hafter
    obtain ⟨q, hq, hacc⟩ := hclosed r hr d hd
    by_cases hleaving : p.isLeaving s.prune q = true
    · exact h.remains_prune_iff.mp
        (hremains q hq hleaving r hr hstays d hd hacc.1.symm hne)
    · rw [Bool.not_eq_true] at hleaving
      exact ⟨q, (h.mem_planned_iff hq).mpr hleaving, hacc⟩

end Standing

/-! ### Without releases side by side -/

/-- If the requests reach every node there is nothing to drop. -/
lemma prune_eq_self {p : Problem} {s : Selection} (h : p.Standing s)
    (hlive : ∀ n ∈ s.graph.nodes.toList, s.Live n.id) : s.prune = s :=
  Selection.prune_eq_self hlive h.resolving_eq_nil

lemma Standing.prune_eq_self {p : Problem} {s : Selection} (h : p.Standing s)
    (hs : p.rules.sideBySide = false) : s.prune = s :=
  Problem.prune_eq_self h fun n hn => (h.live hs n hn).resolve_right (by simp)

/-- An installed release stays beside a chosen one of its package only if it is the chosen one. -/
lemma Standing.release_eq_of_stays {p : Problem} {s : Selection} (h : p.Standing s)
    (hs : p.rules.sideBySide = false) (hinstalled : p.installed.Consistent) {n : Graph.Node}
    (hn : n ∈ s.prune.graph.nodes.toList) {r : Release} (hr : r ∈ p.installed.releases)
    (hstays : p.isLeaving s.prune r = false) (hname : n.release.name = r.name) :
    n.release = r := by
  cases hi : n.installed with
  | true => exact hinstalled.unique _ ((h.prune.offered n hn).mem_installed hi) r hr hname
  | false =>
      -- the release has to give way to the new one, unless it is chosen itself
      have hchosen : s.prune.graph.contains r.id = true := by
        by_contra hnot
        have hleaving := isLeaving_iff.mpr
          ⟨Bool.eq_false_iff.mpr hnot, .inr ⟨hs, n, hn, hname, hi⟩⟩
        rw [hstays] at hleaving
        simp at hleaving
      obtain ⟨m, hm, hid⟩ := Graph.contains_iff.mp hchosen
      obtain rfl := h.prune.single hs n hn m hm (hname.trans (congrArg ReleaseId.name hid).symm)
      exact absurd hid.symm ((h.prune.offered n hn).id_ne_of_not_installed hi hr)

/-- A package has at most one release afterwards. -/
lemma Standing.unique_planned {p : Problem} {s : Selection} (h : p.Standing s)
    (hs : p.rules.sideBySide = false) (hinstalled : p.installed.Consistent) :
    ∀ r ∈ (p.installed.apply (p.planOf s)).releases,
      ∀ q ∈ (p.installed.apply (p.planOf s)).releases, r.name = q.name → r = q := by
  intro r hr q hq hname
  rcases h.mem_releases_planned_iff.mp hr with ⟨n, hn, rfl⟩ | ⟨hr, hrstays⟩ <;>
    rcases h.mem_releases_planned_iff.mp hq with ⟨m, hm, rfl⟩ | ⟨hq, hqstays⟩
  · rw [h.prune.single hs n hn m hm hname]
  · exact h.release_eq_of_stays hs hinstalled hn hq hqstays hname
  · exact (h.release_eq_of_stays hs hinstalled hm hr hrstays hname.symm).symm
  · exact hinstalled.unique r hr q hq hname

/-- A consistent project stays consistent. -/
theorem Settled.consistent {p : Problem} {s : Selection} (h : p.Settled s)
    (hfollow : p.rules.follow = true) (hs : p.rules.sideBySide = false)
    (hinstalled : p.installed.Consistent) :
    (p.installed.apply (p.planOf s)).Consistent where
  unique := h.unique_planned hs hinstalled
  closed := by
    have hbroken : p.broken? s.prune = none := by
      rw [h.prune_eq_self hs]
      exact h.unbroken hfollow
    have hunharmed := (h.unharmed_iff hinstalled.closed).mpr hbroken
    intro r hr d hd
    rcases h.mem_releases_planned_iff.mp hr with ⟨n, hn, rfl⟩ | ⟨hri, _⟩
    · obtain ⟨m, hm, hacc⟩ := h.exists_accepted_of_chosen hfollow hn hd
      exact ⟨m.release, h.mem_planned_of_chosen hm, hacc⟩
    · exact hinstalled.meets_of_unharmed hunharmed hri hr hd

end Problem

end PackagePlanner
