import PackagePlanner.Graph.Reachable
import PackagePlanner.Proofs.Graph.Target

/-!
What a graph keeps when the nodes that some roots do not reach are dropped.

* `Graph.LeadsTo` is one edge followed to its target, and `Graph.Reaches` any number of them;
  `mem_reachable_iff` says that the search finds exactly what the roots reach.
* `mem_nodes_retain_iff` and `mem_edges_retain_iff`: dropping the rest keeps the reached nodes and
  their edges; what was reached is reached as before (`target?_retain`, `reaches_retain`), so there
  is nothing more to drop (`unreachable_retain`).
-/

namespace PackagePlanner

namespace Graph

/-- An edge of the first release leads to the second. -/
def LeadsTo (g : Graph) (a b : ReleaseId) : Prop := b ∈ g.targets a

/-- Edges lead from the first release to the second, in any number of steps. -/
def Reaches (g : Graph) : ReleaseId → ReleaseId → Prop := Relation.ReflTransGen g.LeadsTo

lemma contains_of_leadsTo {g : Graph} {a b : ReleaseId} (h : g.LeadsTo a b) :
    g.contains b = true := by
  obtain ⟨_, _, _, n, hn, rfl⟩ := mem_targets_iff.mp h
  exact contains_of_mem (mem_of_target? hn)

lemma contains_of_reaches {g : Graph} {a b : ReleaseId} (h : g.Reaches a b)
    (ha : g.contains a = true) : g.contains b = true := by
  cases h with
  | refl => exact ha
  | tail _ h => exact contains_of_leadsTo h

/-! ### The search -/

section Gather

variable {α : Type} [DecidableEq α] {next : α → List α} {remaining pending : List α}

lemma mem_dropWhile_of_mem {a : α} (h : a ∈ pending) (hr : a ∈ remaining) :
    a ∈ pending.dropWhile fun b => !remaining.contains b := by
  induction pending with
  | nil => exact h
  | cons b rest ih =>
      rw [List.dropWhile_cons]
      split
      · rename_i hb
        rcases List.mem_cons.mp h with rfl | h
        · simp [hr] at hb
        · exact ih h
      · exact h

/-- What is pending is found. -/
lemma mem_gather_of_pending {a : α} (h : a ∈ pending) (hr : a ∈ remaining) :
    a ∈ gather next remaining pending := by
  fun_induction gather next remaining pending with
  | case1 remaining pending found =>
      have := mem_dropWhile_of_mem h hr
      rw [found] at this
      exact this
  | case2 remaining pending b rest found ih =>
      have hmem := mem_dropWhile_of_mem h hr
      rw [found] at hmem
      by_cases hab : a = b
      · exact hab ▸ List.mem_cons_self
      · have hrest := (List.mem_cons.mp hmem).resolve_left hab
        exact List.mem_cons_of_mem b (ih (List.mem_append_right _ hrest)
          ((List.mem_erase_of_ne hab).mpr hr))

/-- What follows from something found is found. -/
lemma mem_gather_of_next {a b : α} (h : a ∈ gather next remaining pending) (hb : b ∈ next a)
    (hr : b ∈ remaining) : b ∈ gather next remaining pending := by
  fun_induction gather next remaining pending with
  | case1 => simp at h
  | case2 remaining pending c rest found ih =>
      by_cases hbc : b = c
      · exact hbc ▸ List.mem_cons_self
      · have hr' : b ∈ remaining.erase c := (List.mem_erase_of_ne hbc).mpr hr
        rcases List.mem_cons.mp h with rfl | h
        · exact List.mem_cons_of_mem a (mem_gather_of_pending (List.mem_append_left _ hb) hr')
        · exact List.mem_cons_of_mem c (ih h hr')

/-- What is found follows from something pending. -/
lemma exists_of_mem_gather {a : α} (h : a ∈ gather next remaining pending) :
    ∃ b ∈ pending, b ∈ remaining ∧ Relation.ReflTransGen (fun x y => y ∈ next x) b a := by
  fun_induction gather next remaining pending with
  | case1 => simp at h
  | case2 remaining pending c rest found ih =>
      have hc : c ∈ pending :=
        (List.dropWhile_sublist _).subset (found ▸ List.mem_cons_self)
      have hcr := mem_of_dropWhile_eq_cons found
      rcases List.mem_cons.mp h with rfl | h
      · exact ⟨a, hc, hcr, .refl⟩
      · obtain ⟨b, hb, hbr, hba⟩ := ih h
        rcases List.mem_append.mp hb with hb | hb
        · exact ⟨c, hc, hcr, .head hb hba⟩
        · have hb' : b ∈ pending :=
            (List.dropWhile_sublist _).subset (found ▸ List.mem_cons_of_mem c hb)
          exact ⟨b, hb', List.mem_of_mem_erase hbr, hba⟩

end Gather

/-- The search finds exactly what the roots reach. -/
theorem mem_reachable_iff {g : Graph} {roots : List ReleaseId} {id : ReleaseId} :
    id ∈ g.reachable roots ↔ ∃ root ∈ roots, g.contains root = true ∧ g.Reaches root id := by
  refine ⟨?_, ?_⟩
  · intro h
    obtain ⟨root, hroot, hr, hreach⟩ := exists_of_mem_gather h
    exact ⟨root, hroot, mem_keys_iff.mp hr, hreach⟩
  · rintro ⟨root, hroot, hr, hreach⟩
    induction hreach with
    | refl => exact mem_gather_of_pending hroot (mem_keys_iff.mpr hr)
    | tail _ hstep ih =>
        exact mem_gather_of_next ih hstep (mem_keys_iff.mpr (contains_of_leadsTo hstep))

/-! ### Dropping the rest -/

lemma mem_unreachable_ids_iff {g : Graph} {roots : List ReleaseId} {id : ReleaseId} :
    id ∈ (g.unreachable roots).map Node.id ↔
      g.contains id = true ∧ id ∉ g.reachable roots := by
  simp only [unreachable, List.mem_map, List.mem_filter, contains_iff, Bool.not_eq_true',
    List.contains_eq_mem, decide_eq_false_iff_not]
  refine ⟨?_, ?_⟩
  · rintro ⟨n, ⟨hn, hnot⟩, rfl⟩
    exact ⟨⟨n, hn, rfl⟩, hnot⟩
  · rintro ⟨⟨n, hn, rfl⟩, hnot⟩
    exact ⟨n, ⟨hn, hnot⟩, rfl⟩

/-- What the roots reach is kept in its order. -/
lemma toList_nodes_retain (g : Graph) (roots : List ReleaseId) :
    (g.retain roots).nodes.toList = g.nodes.toList.filter fun n => n.id ∈ g.reachable roots := by
  rw [retain, Keyed.filter]
  refine List.filter_congr fun n hn => ?_
  rw [Bool.eq_iff_iff, Bool.not_eq_true', List.contains_eq_mem, decide_eq_false_iff_not,
    mem_unreachable_ids_iff, decide_eq_true_iff, not_and, not_not]
  exact ⟨fun h => h (contains_of_mem hn), fun h _ => h⟩

lemma mem_nodes_retain_iff {g : Graph} {roots : List ReleaseId} {n : Node} :
    n ∈ (g.retain roots).nodes.toList ↔ n ∈ g.nodes.toList ∧ n.id ∈ g.reachable roots := by
  rw [toList_nodes_retain, List.mem_filter, decide_eq_true_iff]

lemma mem_edges_retain_iff {g : Graph} {roots : List ReleaseId} {e : Edge} :
    e ∈ (g.retain roots).edges ↔
      e ∈ g.edges ∧ (g.contains e.source = true → e.source ∈ g.reachable roots) := by
  simp only [retain, List.mem_filter, Bool.not_eq_true', List.contains_eq_mem,
    decide_eq_false_iff_not, mem_unreachable_ids_iff, not_and, not_not]

/-- If every node is reached nothing is dropped. -/
lemma retain_eq_self {g : Graph} {roots : List ReleaseId}
    (h : ∀ n ∈ g.nodes.toList, n.id ∈ g.reachable roots) : g.retain roots = g := by
  have hdropped : (g.unreachable roots).map Node.id = [] := by
    rw [List.eq_nil_iff_forall_not_mem]
    intro id hid
    obtain ⟨hc, hnot⟩ := mem_unreachable_ids_iff.mp hid
    obtain ⟨n, hn, rfl⟩ := contains_iff.mp hc
    exact hnot (h n hn)
  have hnodes : (g.retain roots).nodes = g.nodes := by
    apply Keyed.ext
    simp [retain, hdropped, Keyed.filter]
  have hedges : (g.retain roots).edges = g.edges := by
    simp [retain, hdropped]
  exact Graph.ext hnodes hedges

/-- The target of a reached edge is kept, and no node takes its place. -/
lemma target?_retain {g : Graph} {roots : List ReleaseId} {name : String} {c : Constraint}
    {n : Node} (h : g.target? name c = some n) (hn : n.id ∈ g.reachable roots) :
    (g.retain roots).target? name c = some n :=
  target?_of_subset h (mem_nodes_retain_iff.mpr ⟨mem_of_target? h, hn⟩)
    fun _ hm _ => (mem_nodes_retain_iff.mp hm).1

/-- What a root reaches it still reaches. -/
lemma reaches_retain {g : Graph} {roots : List ReleaseId} {root id : ReleaseId}
    (hroot : root ∈ roots) (hr : g.contains root = true) (h : g.Reaches root id) :
    (g.retain roots).Reaches root id := by
  induction h with
  | refl => exact .refl
  | @tail a b hreach hstep ih =>
      have ha : a ∈ g.reachable roots := mem_reachable_iff.mpr ⟨root, hroot, hr, hreach⟩
      have hb : b ∈ g.reachable roots :=
        mem_reachable_iff.mpr ⟨root, hroot, hr, hreach.tail hstep⟩
      obtain ⟨e, he, hsource, n, hn, hid⟩ := mem_targets_iff.mp hstep
      refine ih.tail (mem_targets_iff.mpr ⟨e, ?_, hsource, n, ?_, hid⟩)
      · exact mem_edges_retain_iff.mpr ⟨he, fun _ => hsource ▸ ha⟩
      · exact target?_retain hn (hid ▸ hb)

/-- A kept node has the edges that it had. -/
lemma outgoing_retain {g : Graph} {roots : List ReleaseId} {id : ReleaseId}
    (h : id ∈ g.reachable roots) : (g.retain roots).outgoing id = g.outgoing id := by
  rw [outgoing, outgoing, retain, List.filter_filter]
  refine List.filter_congr fun e _ => ?_
  by_cases he : e.source = id
  · have hnot : e.source ∉ (g.unreachable roots).map Node.id :=
      fun hid => (mem_unreachable_ids_iff.mp hid).2 (he ▸ h)
    simp [he, he ▸ hnot]
  · simp [he]

/-- An edge of a kept node leads where it led, if anywhere. -/
lemma target?_retain_of_mem {g : Graph} {roots : List ReleaseId} {e : Edge} (he : e ∈ g.edges)
    (h : e.source ∈ g.reachable roots) :
    (g.retain roots).target? e.target e.constraint = g.target? e.target e.constraint := by
  cases ht : g.target? e.target e.constraint with
  | none =>
      rw [target?_eq_none_iff] at ht ⊢
      exact fun n hn => ht n (mem_nodes_retain_iff.mp hn).1
  | some t =>
      obtain ⟨root, hroot, hr, hreach⟩ := mem_reachable_iff.mp h
      have hstep : g.LeadsTo e.source t.id := mem_targets_iff.mpr ⟨e, he, rfl, t, ht, rfl⟩
      exact target?_retain ht (mem_reachable_iff.mpr ⟨root, hroot, hr, hreach.tail hstep⟩)

/-- All that is kept is still reached. -/
lemma unreachable_retain (g : Graph) (roots : List ReleaseId) :
    (g.retain roots).unreachable roots = [] := by
  rw [unreachable, List.filter_eq_nil_iff]
  intro n hn
  obtain ⟨_, hid⟩ := mem_nodes_retain_iff.mp hn
  obtain ⟨root, hroot, hr, hreach⟩ := mem_reachable_iff.mp hid
  have hkept : (g.retain roots).contains root = true := by
    obtain ⟨m, hm, rfl⟩ := contains_iff.mp hr
    exact contains_of_mem
      (mem_nodes_retain_iff.mpr ⟨hm, mem_reachable_iff.mpr ⟨m.id, hroot, hr, .refl⟩⟩)
  have hstill : n.id ∈ (g.retain roots).reachable roots :=
    mem_reachable_iff.mpr ⟨root, hroot, hkept, reaches_retain hroot hr hreach⟩
  simpa using hstill

end Graph

end PackagePlanner
