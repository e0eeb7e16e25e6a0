import PackagePlanner.Planner
import PackagePlanner.Proofs.Graph.InstallOrder
import PackagePlanner.Proofs.Version

/-!
The order in which a batch of releases is taken out.

* `Release.LinksTo` leads from a release of the batch to the newest one of the batch that serves a
  dependency of it. The edges of `batchGraph` are these links (`leadsTo_batchGraph_iff`).
* `mem_removalOrder_iff` and `nodup_removalOrder`: the order lists the batch, each release once.
* `after_or_links_back`: a release comes before those that it links to, unless these link back to
  it.
-/

namespace PackagePlanner

/-- Of some releases, the newest one that a dependency accepts. -/
structure Dependency.ServedBy (d : Dependency) (batch : List Release) (t : Release) : Prop where
  /-- It is one of them. -/
  mem : t ∈ batch
  /-- The dependency accepts it. -/
  accepts : d.Accepts t
  /-- The dependency accepts no newer one. -/
  newest : ∀ q ∈ batch, d.Accepts q → q.version ≤ t.version

/-- A declared dependency of the first release, which is in the batch, is served by the second. -/
def Release.LinksTo (batch : List Release) (r t : Release) : Prop :=
  r ∈ batch ∧ ∃ d ∈ r.dependencies.toList, d.ServedBy batch t

/-- A plan that takes out a batch. -/
structure Plan.TakesOut (plan : Plan) (batch : Release → Prop) : Prop where
  /-- Nothing is added. -/
  added : plan.added = []
  /-- The batch is removed, and nothing else. -/
  exact : ∀ r, r ∈ plan.removed ↔ batch r
  /-- No release is removed twice. -/
  once : (plan.removed.map Release.id).Nodup
  /-- A release is removed before those that it links to, unless these link back to it. -/
  ordered : ∀ before r after, plan.removed = before ++ r :: after →
    ∀ t, Release.LinksTo plan.removed r t →
      t ∈ after ∨ Relation.ReflTransGen (Release.LinksTo plan.removed) t r

namespace Planner

variable {removing : Keyed Release.id}

/-! ### The graph of a batch -/

/-- The edge of a declared dependency. -/
def edgeOf (r : Release) (d : Dependency) : Graph.Edge := ⟨r.id, d.name, d.constraint⟩

lemma batchGraph_eq (removing : Keyed Release.id) :
    batchGraph removing =
      (removing.toList.flatMap fun r => r.dependencies.toList.map (edgeOf r)).foldl Graph.addEdge
        ((removing.toList.map fun r => ⟨r, true⟩).foldl Graph.addNode .empty) := by
  rw [List.foldl_flatMap, List.foldl_map]
  simp only [List.foldl_map]
  rfl

lemma mem_nodes_batchGraph_iff {n : Graph.Node} :
    n ∈ (batchGraph removing).nodes.toList ↔ ∃ r ∈ removing.toList, ⟨r, true⟩ = n := by
  rw [batchGraph_eq, Graph.nodes_foldl_addEdge, Graph.nodes_foldl_addNode, Graph.nodes_empty]
  refine (Keyed.mem_ofList_iff ?_).trans List.mem_map
  intro m hm k hk hid
  obtain ⟨r, hr, rfl⟩ := List.mem_map.mp hm
  obtain ⟨q, hq, rfl⟩ := List.mem_map.mp hk
  rw [Keyed.eq_of_mem hr hq hid]

lemma mem_edges_batchGraph_iff {e : Graph.Edge} :
    e ∈ (batchGraph removing).edges ↔
      ∃ r ∈ removing.toList, ∃ d ∈ r.dependencies.toList, edgeOf r d = e := by
  rw [batchGraph_eq, Graph.mem_edges_foldl_addEdge_iff, Graph.edges_foldl_addNode]
  simp [Graph.empty]

/-- The nodes of the graph of a batch are the batch. -/
lemma contains_batchGraph_iff {id : ReleaseId} :
    (batchGraph removing).contains id = true ↔ id ∈ removing.keys := by
  rw [Graph.contains_iff, Keyed.keys, List.mem_map]
  constructor
  · rintro ⟨n, hn, rfl⟩
    obtain ⟨r, hr, rfl⟩ := mem_nodes_batchGraph_iff.mp hn
    exact ⟨r, hr, rfl⟩
  · rintro ⟨r, hr, rfl⟩
    exact ⟨⟨r, true⟩, mem_nodes_batchGraph_iff.mpr ⟨r, hr, rfl⟩, rfl⟩

/-! ### The order -/

/-- The order of a batch lists the batch. -/
theorem mem_removalOrder_iff {r : Release} :
    r ∈ removalOrder removing ↔ r ∈ removing.toList := by
  simp only [removalOrder, List.mem_filterMap, List.mem_reverse, Graph.mem_installOrder_iff,
    Keyed.find?_eq_some_iff]
  constructor
  · rintro ⟨_, _, hr, _⟩
    exact hr
  · intro hr
    have hid : r.id ∈ removing.keys := List.mem_map_of_mem hr
    refine ⟨r.id, ?_, hr, rfl⟩
    exact Graph.mem_reachable_iff.mpr ⟨r.id, hid, contains_batchGraph_iff.mpr hid, .refl⟩

/-- The order of a batch is the install order of its graph, turned around. -/
lemma map_id_removalOrder (removing : Keyed Release.id) :
    (removalOrder removing).map Release.id =
      ((batchGraph removing).installOrder removing.keys).reverse := by
  rw [removalOrder, List.map_filterMap]
  refine (List.filterMap_congr ?_).trans List.filterMap_some
  intro id hid
  rw [List.mem_reverse, Graph.mem_installOrder_iff, Graph.mem_reachable_iff] at hid
  obtain ⟨root, _, hroot, hreach⟩ := hid
  have hcontains := Graph.contains_of_reaches hreach hroot
  obtain ⟨r, hr, rfl⟩ := List.mem_map.mp (contains_batchGraph_iff.mp hcontains)
  rw [Keyed.find?_eq_some_iff.mpr ⟨hr, rfl⟩]
  rfl

/-- The name of a release determines it within a batch. -/
lemma eq_of_mem_removalOrder {r t : Release} (hr : r ∈ removalOrder removing)
    (ht : t ∈ removalOrder removing) (h : r.id = t.id) : r = t :=
  Keyed.eq_of_mem (mem_removalOrder_iff.mp hr) (mem_removalOrder_iff.mp ht) h

/-- The order of a batch lists no release twice. -/
theorem nodup_removalOrder (removing : Keyed Release.id) :
    ((removalOrder removing).map Release.id).Nodup := by
  rw [map_id_removalOrder, List.nodup_reverse]
  exact Graph.nodup_installOrder _ _

/-! ### Links -/

/-- The target of a dependency is the release of the batch that serves it. -/
lemma target?_batchGraph_iff {d : Dependency} {n : Graph.Node} :
    (batchGraph removing).target? d.name d.constraint = some n ↔
      ∃ t, d.ServedBy (removalOrder removing) t ∧ ⟨t, true⟩ = n := by
  rw [Graph.target?_eq_some_iff, mem_nodes_batchGraph_iff]
  constructor
  · rintro ⟨⟨t, ht, rfl⟩, hacc, hmax⟩
    refine ⟨t, ⟨mem_removalOrder_iff.mpr ht, hacc, fun q hq hqacc => ?_⟩, rfl⟩
    have hnode : ⟨q, true⟩ ∈ (batchGraph removing).nodes.toList :=
      mem_nodes_batchGraph_iff.mpr ⟨q, mem_removalOrder_iff.mp hq, rfl⟩
    exact hmax ⟨q, true⟩ hnode hqacc
  · rintro ⟨t, ht, rfl⟩
    refine ⟨⟨t, mem_removalOrder_iff.mp ht.mem, rfl⟩, ht.accepts, fun m hm hmacc => ?_⟩
    obtain ⟨q, hq, rfl⟩ := mem_nodes_batchGraph_iff.mp hm
    exact ht.newest q (mem_removalOrder_iff.mpr hq) hmacc

/-- The edges of the graph of a batch are the links between its releases. -/
lemma leadsTo_batchGraph_iff {a b : ReleaseId} :
    (batchGraph removing).LeadsTo a b ↔
      ∃ r t, r.id = a ∧ t.id = b ∧ Release.LinksTo (removalOrder removing) r t := by
  refine Graph.mem_targets_iff.trans ?_
  constructor
  · rintro ⟨e, he, rfl, n, hn, rfl⟩
    obtain ⟨r, hr, d, hd, rfl⟩ := mem_edges_batchGraph_iff.mp he
    obtain ⟨t, ht, rfl⟩ := target?_batchGraph_iff.mp hn
    exact ⟨r, t, rfl, rfl, mem_removalOrder_iff.mpr hr, d, hd, ht⟩
  · rintro ⟨r, t, rfl, rfl, hr, d, hd, ht⟩
    have hedge : edgeOf r d ∈ (batchGraph removing).edges :=
      mem_edges_batchGraph_iff.mpr ⟨r, mem_removalOrder_iff.mp hr, d, hd, rfl⟩
    exact ⟨edgeOf r d, hedge, rfl, ⟨t, true⟩, target?_batchGraph_iff.mpr ⟨t, ht, rfl⟩, rfl⟩

/-- What a release of the batch reaches is reached by links. -/
lemma exists_of_reaches_batchGraph {r : Release} (hr : r ∈ removalOrder removing)
    {id : ReleaseId} (h : (batchGraph removing).Reaches r.id id) :
    ∃ t ∈ removalOrder removing, t.id = id ∧
      Relation.ReflTransGen (Release.LinksTo (removalOrder removing)) r t := by
  induction h with
  | refl => exact ⟨r, hr, rfl, .refl⟩
  | tail _ hstep ih =>
      obtain ⟨t, ht, rfl, hchain⟩ := ih
      obtain ⟨t', k, hid, rfl, hlink⟩ := leadsTo_batchGraph_iff.mp hstep
      obtain rfl := eq_of_mem_removalOrder hlink.1 ht hid
      obtain ⟨d, _, hk⟩ := hlink.2
      exact ⟨k, hk.mem, rfl, hchain.tail hlink⟩

/-- A release comes before the one that serves a dependency of it, unless this one links back to
it. -/
theorem after_or_links_back {before after : List Release} {r t : Release}
    (h : removalOrder removing = before ++ r :: after)
    (hlink : Release.LinksTo (removalOrder removing) r t) :
    t ∈ after ∨ Relation.ReflTransGen (Release.LinksTo (removalOrder removing)) t r := by
  obtain ⟨d, _, ht⟩ := hlink.2
  have horder : (batchGraph removing).installOrder removing.keys =
      (after.map Release.id).reverse ++ r.id :: (before.map Release.id).reverse := by
    have hids := map_id_removalOrder removing
    rw [h] at hids
    rw [← List.reverse_reverse (Graph.installOrder _ _), ← hids]
    simp
  have hleads : (batchGraph removing).LeadsTo r.id t.id :=
    leadsTo_batchGraph_iff.mpr ⟨r, t, rfl, rfl, hlink⟩
  rcases Graph.before_or_reaches_of_installOrder horder hleads with hearlier | hreach
  · obtain ⟨q, hq, hid⟩ := List.mem_map.mp (List.mem_reverse.mp hearlier)
    have hlisted : q ∈ removalOrder removing := by simp [h, hq]
    obtain rfl := eq_of_mem_removalOrder hlisted ht.mem hid
    exact .inl hq
  · obtain ⟨q, hq, hid, hchain⟩ := exists_of_reaches_batchGraph ht.mem hreach
    obtain rfl := eq_of_mem_removalOrder hq hlink.1 hid
    exact .inr hchain

end Planner

end PackagePlanner
