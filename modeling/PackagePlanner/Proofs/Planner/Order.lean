import PackagePlanner.Proofs.Planner.Change

/-!
The added releases can be installed one by one.

* `Graph.DependsOn` leads from a release to the node that serves one of its declared dependencies;
  `reaches_dependsOn` translates what the edges reach into it, and `Standing.exists_root` says that
  it leads from the requests to all that is chosen in the end.
* `ready_when_added`: when a release is added, the project has all it needs by then, but for the
  dependencies whose target depends on the release in turn.
-/

namespace PackagePlanner

/-- A declared dependency of the first release has the second one as its target. -/
def Graph.DependsOn (g : Graph) (r q : Release) : Prop :=
  ∃ d ∈ r.dependencies.toList, ∃ n, g.target? d.name d.constraint = some n ∧ n.release = q

namespace Problem

/-! ### Edges and declared dependencies -/

/-- What the edges of a coherent selection reach is reached by declared dependencies. -/
lemma Coherent.reaches_dependsOn {p : Problem} {s : Selection} {tasks : List Task}
    (h : p.Coherent s tasks) {n : Graph.Node} (hn : n ∈ s.graph.nodes.toList) {id : ReleaseId}
    (hreach : s.graph.Reaches n.id id) :
    ∃ m ∈ s.graph.nodes.toList, m.id = id ∧
      Relation.ReflTransGen s.graph.DependsOn n.release m.release := by
  induction hreach with
  | refl => exact ⟨n, hn, rfl, .refl⟩
  | tail _ hstep ih =>
      obtain ⟨m, hm, rfl, hchain⟩ := ih
      obtain ⟨e, he, hsource, k, hk, rfl⟩ := Graph.mem_targets_iff.mp hstep
      obtain ⟨m', hm', hid, hdeclared⟩ := h.declared e he
      obtain rfl := Keyed.eq_of_mem hm' hm (hid.trans hsource)
      exact ⟨k, Graph.mem_of_target? hk, rfl, hchain.tail ⟨_, hdeclared, k, hk, rfl⟩⟩

/-- What is chosen in the end is reached from the release that is chosen for a request. -/
lemma Standing.exists_root {p : Problem} {s : Selection} (h : p.Standing s) {n : Graph.Node}
    (hn : n ∈ s.prune.graph.nodes.toList) :
    ∃ request ∈ s.requests, ∃ k,
      s.prune.graph.target? request.name request.constraint = some k ∧
        Relation.ReflTransGen s.prune.graph.DependsOn k.release n.release := by
  obtain ⟨start, hstart, hreach⟩ := Selection.live_iff.mp
    (Selection.Live.prune (Selection.mem_nodes_prune_iff.mp hn).2)
  obtain ⟨request, hrequest, k, hk, rfl⟩ := Selection.mem_roots_iff.mp hstart
  obtain ⟨m, hm, hid, hchain⟩ :=
    h.prune.toCoherent.reaches_dependsOn (Graph.mem_of_target? hk) hreach
  obtain rfl := Keyed.eq_of_mem hm hn hid
  exact ⟨request, hrequest, k, hk, hchain⟩

/-- Whatever is added before a release stands before it in the install order. -/
lemma split_arrivals {s : Selection} {before after : List Release} {r : Release}
    (h : arrivals s = before ++ r :: after) :
    ∃ pre post, s.graph.installOrder s.roots = pre ++ r.id :: post ∧
      ∀ q, ⟨q, false⟩ ∈ s.graph.nodes.toList → q.id ∈ pre → q ∈ before := by
  rw [arrivals_eq_filterMap, List.filterMap_eq_append_iff] at h
  obtain ⟨pre, rest, horder, hbefore, hrest⟩ := h
  obtain ⟨skipped, id, post, rfl, hskipped, hid, _⟩ := List.filterMap_eq_cons_iff.mp hrest
  obtain ⟨n, hn, hrelease⟩ := Option.map_eq_some_iff.mp hid
  have hnid : n.id = id := (Graph.node?_eq_some_iff.mp (Option.filter_eq_some_iff.mp hn).1).2
  have hrid : r.id = id := by
    rw [← hnid, ← hrelease]
    rfl
  subst hrid
  refine ⟨pre ++ skipped, post, by rw [horder, List.append_assoc], fun q hq hmem => ?_⟩
  have hfound : ((s.graph.node? q.id).filter fun n => !n.installed).map Graph.Node.release =
      some q := by
    have hnode : s.graph.node? q.id = some ⟨q, false⟩ := Graph.node?_eq_some_iff.mpr ⟨hq, rfl⟩
    rw [hnode]
    rfl
  rcases List.mem_append.mp hmem with hmem | hmem
  · rw [← hbefore]
    exact List.mem_filterMap.mpr ⟨q.id, hmem, hfound⟩
  · rw [hskipped q.id hmem] at hfound
    simp at hfound

/-- What an added release needs is there before it, or depends on it in turn. -/
theorem Standing.ready_when_added {p : Problem} {s : Selection} (h : p.Standing s)
    (hfollow : p.rules.follow = true) {before after : List Release} {r : Release}
    (hadded : (p.planOf s).added = before ++ r :: after) {d : Dependency}
    (hd : d ∈ r.dependencies.toList) :
    (p.installed.apply ⟨before, (p.planOf s).removed⟩).Meets d ∨
      ∃ n, s.prune.graph.target? d.name d.constraint = some n ∧
        Relation.ReflTransGen s.prune.graph.DependsOn n.release r := by
  have hr : ⟨r, false⟩ ∈ s.prune.graph.nodes.toList :=
    mem_added_iff.mp (by rw [hadded]; simp)
  obtain ⟨hedge, n, hn⟩ := h.prune.exists_target hfollow hr hd
  have hmem := Graph.mem_of_target? hn
  have hacc := Graph.accepts_of_target? hn
  rw [Catalog.meets_apply_iff]
  cases hi : n.installed with
  | true =>
      have hinstalled := (h.prune.offered n hmem).mem_installed hi
      refine .inl (.inr ⟨n.release, hinstalled, ?_, hacc⟩)
      rw [h.id_mem_removed_iff hinstalled, isLeaving_eq_false_of_mem hmem]
      simp
  | false =>
      obtain ⟨pre, post, horder, hpre⟩ := split_arrivals hadded
      have hleads : s.prune.graph.LeadsTo r.id n.id :=
        Graph.mem_targets_iff.mpr ⟨_, hedge, rfl, n, hn, rfl⟩
      rcases Graph.before_or_reaches_of_installOrder horder hleads with hearlier | hreach
      · have hnode : ⟨n.release, false⟩ ∈ s.prune.graph.nodes.toList := hi ▸ hmem
        exact .inl (.inl ⟨n.release, hpre n.release hnode hearlier, hacc⟩)
      · obtain ⟨m, hm, hid, hchain⟩ := h.prune.toCoherent.reaches_dependsOn hmem hreach
        obtain rfl := Keyed.eq_of_mem hm hr hid
        exact .inr ⟨n, hn, hchain⟩

end Problem

namespace Planner

variable {p : Planner} {change : Change} {plan : Plan}

/-- The releases of a plan can be added in turn: what one of them needs is there by then, unless
the release chosen for it depends on the added one, by way of chosen releases. -/
theorem ready_when_added_in_turn (h : p.plan change = .ok plan) :
    ∃ s, p.selection change = .ok s ∧ (p.problem change).planOf s = plan ∧
      ∀ before r after, plan.added = before ++ r :: after → ∀ d ∈ r.dependencies.toList,
        (p.installed.apply ⟨before, plan.removed⟩).Meets d ∨
          ∃ n, s.prune.graph.target? d.name d.constraint = some n ∧
            Relation.ReflTransGen s.prune.graph.DependsOn n.release r := by
  obtain ⟨s, hs, rfl⟩ := planWith_eq_ok_iff.mp h
  refine ⟨s, hs, rfl, fun before r after hadded d hd => ?_⟩
  have hready := (settled_of_selectionWith hs).ready_when_added follow_problemWith hadded hd
  rwa [installed_problemWith] at hready

/-- A plugin that needs the old version of its host, which needs the plugin and an installed
library. -/
def hostWithPlugin : Planner where
  available := .ofReleases .repository [
    { name := "host", version := ⟨1, 0, 0⟩,
      dependencies := Keyed.ofList [⟨"lib", .any⟩, ⟨"plugin", .any⟩, ⟨"theme", .any⟩] },
    { name := "plugin", version := ⟨1, 0, 0⟩,
      dependencies := Keyed.ofList [⟨"host", .exact ⟨1, 0, 0⟩⟩] },
    { name := "theme", version := ⟨1, 0, 0⟩ }]
  installed := .ofReleases .installed [{ name := "lib", version := ⟨1, 0, 0⟩ }]

/-- The plugin is added before its host, which depends on the plugin. -/
theorem ready_when_added_in_turn_hostWithPlugin :
    ∃ plan, hostWithPlugin.plan (.install "host" "*") = .ok plan ∧
      plan.added.map Release.id =
        [⟨"plugin", ⟨1, 0, 0⟩⟩, ⟨"theme", ⟨1, 0, 0⟩⟩, ⟨"host", ⟨1, 0, 0⟩⟩] ∧
      ∃ s, hostWithPlugin.selection (.install "host" "*") = .ok s ∧
        (hostWithPlugin.problem (.install "host" "*")).planOf s = plan ∧
        ∀ before r after, plan.added = before ++ r :: after → ∀ d ∈ r.dependencies.toList,
          (hostWithPlugin.installed.apply ⟨before, plan.removed⟩).Meets d ∨
            ∃ n, s.prune.graph.target? d.name d.constraint = some n ∧
              Relation.ReflTransGen s.prune.graph.DependsOn n.release r := by
  have hadded : (hostWithPlugin.plan (.install "host" "*")).map
      (fun plan => plan.added.map Release.id) =
        .ok [⟨"plugin", ⟨1, 0, 0⟩⟩, ⟨"theme", ⟨1, 0, 0⟩⟩, ⟨"host", ⟨1, 0, 0⟩⟩] := by
    decide +kernel
  cases h : hostWithPlugin.plan (.install "host" "*") with
  | error e => simp [h, Except.map] at hadded
  | ok plan =>
      rw [h] at hadded
      exact ⟨plan, rfl, Except.ok.inj hadded, ready_when_added_in_turn h⟩

end Planner

end PackagePlanner
