import PackagePlanner.Graph.Basic
import PackagePlanner.Proofs.Catalog

/-!
Graphs as sets of nodes and edges.

* `Graph.target?_eq_some_iff`: an edge leads to the newest node that its dependency accepts, and
  `target?_of_subset` says when it still does so in another graph.
* `mem_nodes_addNode_iff`, `mem_edges_addEdge_iff`, `mem_nodes_foldl_remove_iff` and
  `mem_edges_foldl_remove_iff` say what changing a graph does to its nodes and edges.
-/

namespace PackagePlanner

namespace Graph

/-! ### Nodes -/

lemma contains_iff {g : Graph} {id : ReleaseId} :
    g.contains id = true ↔ ∃ n ∈ g.nodes.toList, n.id = id :=
  Keyed.contains_iff

lemma contains_of_mem {g : Graph} {n : Node} (h : n ∈ g.nodes.toList) :
    g.contains n.id = true :=
  Keyed.contains_of_mem h

lemma mem_keys_iff {g : Graph} {id : ReleaseId} :
    id ∈ g.nodes.keys ↔ g.contains id = true := by
  rw [contains_iff, Keyed.keys, List.mem_map]

lemma node?_eq_some_iff {g : Graph} {id : ReleaseId} {n : Node} :
    g.node? id = some n ↔ n ∈ g.nodes.toList ∧ n.id = id :=
  Keyed.find?_eq_some_iff

lemma mem_nodesNamed_iff {g : Graph} {name : String} {n : Node} :
    n ∈ g.nodesNamed name ↔ n ∈ g.nodes.toList ∧ n.release.name = name := by
  simp [nodesNamed]

/-- A package without nodes has none for a release of its name. -/
lemma id_ne_of_name_ne {g : Graph} {name : String} {n : Node}
    (h : ∀ m ∈ g.nodes.toList, m.release.name ≠ name) (hname : n.release.name = name) :
    ∀ m ∈ g.nodes.toList, m.id ≠ n.id :=
  fun m hm hid => h m hm ((congrArg ReleaseId.name hid).trans hname)

/-! ### The newest node -/

/-- The version of one node is at most that of another. -/
def Node.LE (n m : Node) : Prop := (compare n.release.version m.release.version).isLE = true

lemma Node.LE.refl (n : Node) : n.LE n :=
  Std.ReflOrd.isLE_rfl

lemma Node.LE.trans {n m k : Node} (h : n.LE m) (h' : m.LE k) : n.LE k :=
  Std.TransOrd.isLE_trans h h'

lemma newestOf_eq_none_iff {ns : List Node} : newestOf ns = none ↔ ns = [] := by
  cases ns with
  | nil => simp [newestOf]
  | cons m rest =>
      rw [newestOf]
      split <;> simp

lemma le_of_newestOf {ns : List Node} {n m : Node} (h : newestOf ns = some n) (hm : m ∈ ns) :
    m.LE n := by
  induction ns generalizing n with
  | nil => simp at hm
  | cons k rest ih =>
      rw [newestOf] at h
      split at h
      · rename_i hnone
        obtain rfl := Option.some.inj h
        rw [newestOf_eq_none_iff] at hnone
        subst hnone
        obtain rfl := List.mem_singleton.mp hm
        exact Node.LE.refl m
      · rename_i k' hk'
        by_cases hle : (compare k.release.version k'.release.version).isLE = true
        · rw [if_pos hle] at h
          obtain rfl := Option.some.inj h
          rcases List.mem_cons.mp hm with rfl | hm
          · exact hle
          · exact ih hk' hm
        · rw [if_neg hle] at h
          obtain rfl := Option.some.inj h
          have hlt : k'.LE k :=
            Std.OrientedCmp.isLE_of_isGE (by
              cases hc : compare k.release.version k'.release.version <;> simp_all)
          rcases List.mem_cons.mp hm with rfl | hm
          · exact Node.LE.refl m
          · exact (ih hk' hm).trans hlt

/-! ### Targets -/

lemma mem_of_target? {g : Graph} {name : String} {c : Constraint} {n : Node}
    (h : g.target? name c = some n) : n ∈ g.nodes.toList := by
  have hmem := (List.mem_filter.mp (mem_of_newestOf h)).1
  exact (mem_nodesNamed_iff.mp hmem).1

lemma accepts_of_target? {g : Graph} {name : String} {c : Constraint} {n : Node}
    (h : g.target? name c = some n) : (⟨name, c⟩ : Dependency).Accepts n.release := by
  obtain ⟨hmem, hadmits⟩ := List.mem_filter.mp (mem_of_newestOf h)
  exact ⟨(mem_nodesNamed_iff.mp hmem).2, hadmits⟩

lemma le_of_target? {g : Graph} {name : String} {c : Constraint} {n m : Node}
    (h : g.target? name c = some n) (hm : m ∈ g.nodes.toList)
    (hacc : (⟨name, c⟩ : Dependency).Accepts m.release) : m.LE n :=
  le_of_newestOf h (List.mem_filter.mpr ⟨mem_nodesNamed_iff.mpr ⟨hm, hacc.1⟩, hacc.2⟩)

lemma isSome_target?_iff {g : Graph} {name : String} {c : Constraint} :
    (g.target? name c).isSome = true ↔
      ∃ n ∈ g.nodes.toList, (⟨name, c⟩ : Dependency).Accepts n.release := by
  refine ⟨?_, ?_⟩
  · intro h
    obtain ⟨n, hn⟩ := Option.isSome_iff_exists.mp h
    exact ⟨n, mem_of_target? hn, accepts_of_target? hn⟩
  · rintro ⟨n, hn, hname, hadmits⟩
    by_contra hnone
    rw [Bool.not_eq_true, Option.isSome_eq_false_iff, Option.isNone_iff_eq_none,
      target?_eq_none_iff] at hnone
    rw [hnone n hn hname] at hadmits
    exact absurd hadmits (by simp)

/-- An edge leads to the newest node that its dependency accepts. -/
theorem target?_eq_some_iff {g : Graph} {name : String} {c : Constraint} {n : Node} :
    g.target? name c = some n ↔
      n ∈ g.nodes.toList ∧ (⟨name, c⟩ : Dependency).Accepts n.release ∧
        ∀ m ∈ g.nodes.toList, (⟨name, c⟩ : Dependency).Accepts m.release → m.LE n := by
  refine ⟨?_, ?_⟩
  · intro h
    exact ⟨mem_of_target? h, accepts_of_target? h, fun m hm hacc => le_of_target? h hm hacc⟩
  · rintro ⟨hn, hacc, hmax⟩
    obtain ⟨m, hm⟩ := Option.isSome_iff_exists.mp (isSome_target?_iff.mpr ⟨n, hn, hacc⟩)
    have hmacc := accepts_of_target? hm
    have hversion : m.release.version = n.release.version :=
      Std.LawfulEqCmp.compare_eq_iff_eq.mp (Std.OrientedCmp.isLE_antisymm
        (hmax m (mem_of_target? hm) hmacc) (le_of_target? hm hn hacc))
    have hid : m.id = n.id := by
      simp [Node.id, Release.id, hversion, hmacc.1.trans hacc.1.symm]
    rw [hm, Keyed.eq_of_mem (mem_of_target? hm) hn hid]

/-- What no node meets has no node for a release that would meet it. -/
lemma id_ne_of_target?_eq_none {g : Graph} {name : String} {c : Constraint} {n : Node}
    (h : g.target? name c = none) (hacc : (⟨name, c⟩ : Dependency).Accepts n.release) :
    ∀ m ∈ g.nodes.toList, m.id ≠ n.id := by
  intro m hm hid
  have hsome := isSome_target?_iff.mpr ⟨m, hm, hacc.of_id_eq hid⟩
  rw [h] at hsome
  simp at hsome

/-- An edge leads where it led as long as its target stays and no node of that name joins. -/
lemma target?_of_subset {g h : Graph} {name : String} {c : Constraint} {n : Node}
    (ht : g.target? name c = some n) (hn : n ∈ h.nodes.toList)
    (hsub : ∀ m ∈ h.nodes.toList, m.release.name = name → m ∈ g.nodes.toList) :
    h.target? name c = some n :=
  target?_eq_some_iff.mpr ⟨hn, accepts_of_target? ht, fun m hm hacc =>
    le_of_target? ht (hsub m hm hacc.1) hacc⟩

lemma mem_targets_iff {g : Graph} {a b : ReleaseId} :
    b ∈ g.targets a ↔ ∃ e ∈ g.edges, e.source = a ∧
      ∃ n, g.target? e.target e.constraint = some n ∧ n.id = b := by
  simp only [targets, outgoing, List.mem_filterMap, List.mem_filter, beq_iff_eq,
    Option.map_eq_some_iff, and_assoc]

lemma mem_requirementsOn_iff {g : Graph} {name : String} {e : Edge} :
    e ∈ g.requirementsOn name ↔ e ∈ g.edges ∧ e.target = name := by
  simp only [requirementsOn, List.mem_flatMap, List.mem_eraseDups, List.mem_map, List.mem_filter,
    beq_iff_eq]
  refine ⟨?_, ?_⟩
  · rintro ⟨_, _, he, _⟩
    exact he
  · exact fun he => ⟨e.source, ⟨e, he, rfl⟩, he, rfl⟩

/-! ### Changes -/

lemma mem_nodes_addNode_iff {g : Graph} {n m : Node} :
    m ∈ (g.addNode n).nodes.toList ↔ m = n ∨ (m ∈ g.nodes.toList ∧ m.id ≠ n.id) :=
  Keyed.mem_insert_iff

@[simp] lemma edges_addNode (g : Graph) (n : Node) : (g.addNode n).edges = g.edges := rfl

@[simp] lemma nodes_addEdge (g : Graph) (e : Edge) : (g.addEdge e).nodes = g.nodes := by
  rw [addEdge]
  split <;> rfl

lemma mem_edges_addEdge_iff {g : Graph} {e f : Edge} :
    f ∈ (g.addEdge e).edges ↔ f ∈ g.edges ∨ f = e := by
  rw [addEdge]
  split
  · rename_i he
    refine ⟨?_, ?_⟩
    · exact .inl
    · rintro (hf | rfl)
      · exact hf
      · exact he
  · simp

lemma nodes_foldl_addNode {g : Graph} {ns : List Node} :
    (ns.foldl addNode g).nodes = ns.foldl Keyed.insert g.nodes := by
  induction ns generalizing g with
  | nil => rfl
  | cons n rest ih => exact ih

lemma edges_foldl_addNode {g : Graph} {ns : List Node} : (ns.foldl addNode g).edges = g.edges := by
  induction ns generalizing g with
  | nil => rfl
  | cons n rest ih => exact ih

lemma nodes_foldl_addEdge {g : Graph} {es : List Edge} : (es.foldl addEdge g).nodes = g.nodes := by
  induction es generalizing g with
  | nil => rfl
  | cons e rest ih => rw [List.foldl_cons, ih, nodes_addEdge]

lemma mem_edges_foldl_addEdge_iff {g : Graph} {es : List Edge} {e : Edge} :
    e ∈ (es.foldl addEdge g).edges ↔ e ∈ g.edges ∨ e ∈ es := by
  induction es generalizing g with
  | nil => simp
  | cons f rest ih => rw [List.foldl_cons, ih, mem_edges_addEdge_iff, or_assoc, List.mem_cons]

lemma mem_nodes_remove_iff {g : Graph} {id : ReleaseId} {n : Node} :
    n ∈ (g.remove id).nodes.toList ↔ n ∈ g.nodes.toList ∧ n.id ≠ id := by
  rw [remove]
  split
  · exact Keyed.mem_erase_iff
  · rename_i hid
    exact ⟨fun hn => ⟨hn, fun e => hid (e ▸ contains_of_mem hn)⟩, fun h => h.1⟩

lemma contains_remove_iff {g : Graph} {id id' : ReleaseId} :
    (g.remove id).contains id' = true ↔ g.contains id' = true ∧ id' ≠ id := by
  simp only [contains_iff, mem_nodes_remove_iff]
  refine ⟨?_, ?_⟩
  · rintro ⟨n, ⟨hn, hne⟩, rfl⟩
    exact ⟨⟨n, hn, rfl⟩, hne⟩
  · rintro ⟨⟨n, hn, rfl⟩, hne⟩
    exact ⟨n, ⟨hn, hne⟩, rfl⟩

lemma mem_edges_remove_iff {g : Graph} {id : ReleaseId} {e : Edge} :
    e ∈ (g.remove id).edges ↔ e ∈ g.edges ∧ ¬ (g.contains e.source = true ∧ e.source = id) := by
  rw [remove]
  split
  · rename_i hid
    simp only [List.mem_filter, bne_iff_ne]
    exact and_congr_right fun _ => not_congr ⟨fun h => ⟨h ▸ hid, h⟩, fun h => h.2⟩
  · rename_i hid
    exact ⟨fun he => ⟨he, fun h => hid (h.2 ▸ h.1)⟩, fun h => h.1⟩

lemma mem_nodes_foldl_remove_iff {g : Graph} {ids : List ReleaseId} {n : Node} :
    n ∈ (ids.foldl remove g).nodes.toList ↔ n ∈ g.nodes.toList ∧ n.id ∉ ids := by
  induction ids generalizing g with
  | nil => simp
  | cons id rest ih =>
      rw [List.foldl_cons, ih, mem_nodes_remove_iff, List.mem_cons, not_or, and_assoc]

lemma mem_edges_foldl_remove_iff {g : Graph} {ids : List ReleaseId} {e : Edge} :
    e ∈ (ids.foldl remove g).edges ↔
      e ∈ g.edges ∧ ¬ (g.contains e.source = true ∧ e.source ∈ ids) := by
  induction ids generalizing g with
  | nil => simp
  | cons id rest ih =>
      rw [List.foldl_cons, ih, mem_edges_remove_iff, contains_remove_iff, List.mem_cons]
      refine ⟨?_, ?_⟩
      · rintro ⟨⟨he, hid⟩, hrest⟩
        refine ⟨he, ?_⟩
        rintro ⟨hc, hs | hs⟩
        · exact hid ⟨hc, hs⟩
        · exact hrest ⟨⟨hc, fun h => hid ⟨hc, h⟩⟩, hs⟩
      · rintro ⟨he, hnot⟩
        exact ⟨⟨he, fun h => hnot ⟨h.1, .inl h.2⟩⟩, fun h => hnot ⟨h.1.1, .inr h.2⟩⟩

end Graph

end PackagePlanner
