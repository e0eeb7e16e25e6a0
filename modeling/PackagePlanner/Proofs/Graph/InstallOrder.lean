import PackagePlanner.Graph.InstallOrder
import PackagePlanner.Proofs.Graph.Reachability

/-!
The install order of a graph.

* `mem_installOrder_iff`: the order lists what the roots reach, and `nodup_installOrder`: it lists
  nothing twice.
* `before_or_reaches_of_installOrder`: the target of an edge is listed before the release that has
  the edge, unless the target reaches this release again.
* `Ordered` says this of a list, and `ordered_installOrder` of the order of every graph.

The walk is followed through its states. `Walking` is what holds of each of them: a release on the
path reaches all that is still to be done before it is left, and its targets are among that, or on
the path themselves, or listed.
-/

namespace PackagePlanner

namespace Graph

/-! ### What the walk lists -/

/-- The release that a step is about. -/
def Step.id : Step → ReleaseId
  | .enter id => id
  | .leave id => id

section Listed

variable {g : Graph} {unseen : List ReleaseId} {steps : List Step}

lemma mem_walk_of_leave {id : ReleaseId} (h : Step.leave id ∈ steps) :
    id ∈ g.walk unseen steps := by
  fun_induction walk g unseen steps with
  | case1 => simp at h
  | case2 unseen a rest ih =>
      rcases List.mem_cons.mp h with heq | h
      · obtain rfl := Step.leave.inj heq
        exact List.mem_cons_self
      · exact List.mem_cons_of_mem a (ih h)
  | case3 unseen a rest _ ih =>
      have hrest : Step.leave id ∈ rest := by simpa using h
      exact ih (by simp [hrest])
  | case4 unseen a rest _ ih => exact ih (by simpa using h)

lemma mem_walk_of_enter {id : ReleaseId} (h : Step.enter id ∈ steps) (hu : id ∈ unseen) :
    id ∈ g.walk unseen steps := by
  fun_induction walk g unseen steps with
  | case1 => simp at h
  | case2 unseen a rest ih =>
      have hrest : Step.enter id ∈ rest := by simpa using h
      exact List.mem_cons_of_mem a (ih hrest hu)
  | case3 unseen a rest _ ih =>
      by_cases heq : id = a
      · exact mem_walk_of_leave (by simp [heq])
      · have hrest : Step.enter id ∈ rest := by simpa [heq] using h
        exact ih (by simp [hrest]) ((List.mem_erase_of_ne heq).mpr hu)
  | case4 unseen a rest hnot ih =>
      have hne : id ≠ a := fun e => hnot (e ▸ hu)
      exact ih (by simpa [hne] using h) hu

/-- With a release that the walk enters it lists the targets that were unseen. -/
lemma mem_walk_of_leadsTo {a b : ReleaseId} (ha : a ∈ g.walk unseen steps) (hu : a ∈ unseen)
    (h : g.LeadsTo a b) (hb : b ∈ unseen) (hnot : Step.leave a ∉ steps) :
    b ∈ g.walk unseen steps := by
  fun_induction walk g unseen steps with
  | case1 => simp at ha
  | case2 unseen c rest ih =>
      have hne : a ≠ c := fun e => hnot (by simp [e])
      have hrest : a ∈ g.walk unseen rest := (List.mem_cons.mp ha).resolve_left hne
      exact List.mem_cons_of_mem c (ih hrest hu hb (fun hm => hnot (by simp [hm])))
  | case3 unseen c rest hc ih =>
      by_cases hbc : b = c
      · exact mem_walk_of_leave (by simp [hbc])
      have hb' : b ∈ unseen.erase c := (List.mem_erase_of_ne hbc).mpr hb
      by_cases hac : a = c
      · subst hac
        exact mem_walk_of_enter (by simpa using .inl h) hb'
      · exact ih ha ((List.mem_erase_of_ne hac).mpr hu) hb' (by simpa [hac] using hnot)
  | case4 unseen c rest _ ih => exact ih ha hu hb (by simpa using hnot)

/-- What the walk lists is on the path, or reached from what is to be entered. -/
lemma exists_of_mem_walk {id : ReleaseId} (h : id ∈ g.walk unseen steps) :
    Step.leave id ∈ steps ∨
      ∃ root, Step.enter root ∈ steps ∧ root ∈ unseen ∧ g.Reaches root id := by
  fun_induction walk g unseen steps with
  | case1 => simp at h
  | case2 unseen a rest ih =>
      rcases List.mem_cons.mp h with rfl | h
      · exact .inl List.mem_cons_self
      · exact (ih h).imp (List.mem_cons_of_mem _) fun ⟨root, hr, hu, hreach⟩ =>
          ⟨root, List.mem_cons_of_mem _ hr, hu, hreach⟩
  | case3 unseen a rest ha ih =>
      rcases ih h with hleave | ⟨root, hr, hu, hreach⟩
      · rcases List.mem_append.mp hleave with hm | hm
        · simp at hm
        · rcases List.mem_cons.mp hm with heq | hm
          · obtain rfl := Step.leave.inj heq
            exact .inr ⟨id, List.mem_cons_self, ha, .refl⟩
          · exact .inl (List.mem_cons_of_mem _ hm)
      · rcases List.mem_append.mp hr with hm | hm
        · have hstep : root ∈ g.targets a := by simpa using hm
          exact .inr ⟨a, List.mem_cons_self, ha, .head hstep hreach⟩
        · have hrest : Step.enter root ∈ rest := by simpa using hm
          exact .inr ⟨root, List.mem_cons_of_mem _ hrest, List.mem_of_mem_erase hu, hreach⟩
  | case4 unseen a rest _ ih =>
      exact (ih h).imp (List.mem_cons_of_mem _) fun ⟨root, hr, hu, hreach⟩ =>
        ⟨root, List.mem_cons_of_mem _ hr, hu, hreach⟩

end Listed

/-- The order lists what the roots reach. -/
theorem mem_installOrder_iff {g : Graph} {roots : List ReleaseId} {id : ReleaseId} :
    id ∈ g.installOrder roots ↔ id ∈ g.reachable roots := by
  rw [mem_reachable_iff]
  refine ⟨?_, ?_⟩
  · intro h
    rcases exists_of_mem_walk h with hm | ⟨root, hroot, hu, hreach⟩
    · simp at hm
    · exact ⟨root, by simpa using hroot, mem_keys_iff.mp hu, hreach⟩
  · rintro ⟨root, hroot, hr, hreach⟩
    induction hreach with
    | refl => exact mem_walk_of_enter (by simpa using hroot) (mem_keys_iff.mpr hr)
    | tail hreach hstep ih =>
        exact mem_walk_of_leadsTo ih (mem_keys_iff.mpr (contains_of_reaches hreach hr)) hstep
          (mem_keys_iff.mpr (contains_of_leadsTo hstep)) (by simp)

/-! ### What is listed once -/

/-- A release is listed when it is left, and it is on the path by then or still unseen. -/
lemma leave_or_unseen_of_mem_walk {g : Graph} {unseen : List ReleaseId} {steps : List Step}
    {id : ReleaseId} (h : id ∈ g.walk unseen steps) : .leave id ∈ steps ∨ id ∈ unseen := by
  fun_induction walk g unseen steps with
  | case1 => simp at h
  | case2 unseen a rest ih =>
      rcases List.mem_cons.mp h with rfl | h
      · exact .inl List.mem_cons_self
      · exact (ih h).imp_left (List.mem_cons_of_mem _)
  | case3 unseen a rest ha ih =>
      rcases ih h with hleave | hu
      · rcases List.mem_append.mp hleave with hm | hm
        · simp at hm
        · rcases List.mem_cons.mp hm with heq | hm
          · exact .inr (Step.leave.inj heq ▸ ha)
          · exact .inl (List.mem_cons_of_mem _ hm)
      · exact .inr (List.mem_of_mem_erase hu)
  | case4 unseen a rest _ ih => exact (ih h).imp_left (List.mem_cons_of_mem _)

/-- Nothing is listed twice as long as the path has no release twice, and none that is unseen. -/
lemma nodup_walk {g : Graph} {unseen : List ReleaseId} {steps : List Step} (hu : unseen.Nodup)
    (hpath : steps.Pairwise fun s t => ∀ id, s = .leave id → t ≠ .leave id)
    (hsteps : ∀ id ∈ unseen, Step.leave id ∉ steps) : (g.walk unseen steps).Nodup := by
  fun_induction walk g unseen steps with
  | case1 => exact List.nodup_nil
  | case2 unseen a rest ih =>
      obtain ⟨ha, hrest⟩ := List.pairwise_cons.mp hpath
      refine List.nodup_cons.mpr ⟨fun hmem => ?_, ih hu hrest fun id hid hm => ?_⟩
      · rcases leave_or_unseen_of_mem_walk hmem with hleave | hunseen
        · exact ha _ hleave a rfl rfl
        · exact hsteps a hunseen List.mem_cons_self
      · exact hsteps id hid (List.mem_cons_of_mem _ hm)
  | case3 unseen a rest ha ih =>
      obtain ⟨_, hrest⟩ := List.pairwise_cons.mp hpath
      refine ih (hu.erase a) (List.pairwise_append.mpr ⟨?_, ?_, ?_⟩) fun id hid hm => ?_
      · exact List.pairwise_map.mpr (List.pairwise_of_forall fun _ _ _ h => Step.noConfusion h)
      · refine List.pairwise_cons.mpr ⟨fun t ht id heq hleave => ?_, hrest⟩
        obtain rfl := Step.leave.inj heq
        exact hsteps a ha (List.mem_cons_of_mem _ (hleave ▸ ht))
      · rintro s hs t _ id rfl
        simp at hs
      · have hne : id ≠ a := fun heq => hu.not_mem_erase (heq ▸ hid)
        have hrest : Step.leave id ∈ rest := by simpa [hne] using hm
        exact hsteps id (List.mem_of_mem_erase hid) (List.mem_cons_of_mem _ hrest)
  | case4 unseen a rest _ ih =>
      exact ih hu (List.pairwise_cons.mp hpath).2 fun id hid hm =>
        hsteps id hid (List.mem_cons_of_mem _ hm)

/-- The order lists nothing twice. -/
theorem nodup_installOrder (g : Graph) (roots : List ReleaseId) :
    (g.installOrder roots).Nodup :=
  nodup_walk g.nodes.nodup
    (List.pairwise_map.mpr (List.pairwise_of_forall fun _ _ _ h => Step.noConfusion h)) (by simp)

/-! ### What comes first -/

/-- The targets of each release to be left are entered before, or known. -/
def Ahead (g : Graph) (known : ReleaseId → Prop) (entered : List ReleaseId) : List Step → Prop
  | [] => True
  | .enter id :: rest => Ahead g known (id :: entered) rest
  | .leave id :: rest =>
    (∀ t, g.LeadsTo id t → t ∈ entered ∨ known t) ∧ Ahead g known entered rest

lemma Ahead.mono {g : Graph} {known known' : ReleaseId → Prop} {steps : List Step}
    {entered entered' : List ReleaseId} (h : Ahead g known entered steps)
    (himp : ∀ t, g.contains t = true → t ∈ entered ∨ known t → t ∈ entered' ∨ known' t) :
    Ahead g known' entered' steps := by
  induction steps generalizing entered entered' with
  | nil => trivial
  | cons step rest ih =>
      cases step with
      | enter id =>
          refine ih h fun t hc ht => ?_
          rw [List.mem_cons, or_assoc] at ht ⊢
          exact ht.imp_right (himp t hc)
      | leave id =>
          exact ⟨fun t hstep => himp t (contains_of_leadsTo hstep) (h.1 t hstep), ih h.2 himp⟩

lemma ahead_map_enter_append {g : Graph} {known : ReleaseId → Prop} {ids entered : List ReleaseId}
    {steps : List Step} :
    Ahead g known entered (ids.map .enter ++ steps) ↔
      Ahead g known (ids.reverse ++ entered) steps := by
  induction ids generalizing entered with
  | nil => rfl
  | cons id rest ih => simp [Ahead, ih]

/-- Releases to be entered put none on the path. -/
lemma pairwise_map_enter {g : Graph} {ids : List ReleaseId} :
    (ids.map Step.enter).Pairwise fun s t => ∀ id, t = .leave id → g.Reaches id s.id := by
  rw [List.pairwise_map]
  exact List.pairwise_of_forall fun _ _ _ h => Step.noConfusion h

/-- What holds of each state of the walk, `listed` being what it has listed so far. -/
structure Walking (g : Graph) (unseen : List ReleaseId) (steps : List Step)
    (listed : List ReleaseId) : Prop where
  /-- A node is unseen, or on the path, or listed. -/
  seen : ∀ id, g.contains id = true → id ∈ unseen ∨ .leave id ∈ steps ∨ id ∈ listed
  /-- A release on the path reaches what comes before it is left. -/
  path : steps.Pairwise fun s t => ∀ id, t = .leave id → g.Reaches id s.id
  /-- Before a release is left its targets are entered, unless they are on the path or listed. -/
  ahead : Ahead g (fun id => .leave id ∈ steps ∨ id ∈ listed) [] steps

namespace Walking

variable {g : Graph} {unseen listed : List ReleaseId} {id : ReleaseId} {rest : List Step}

/-- Leaving a release lists it. -/
lemma leave (h : Walking g unseen (.leave id :: rest) listed) :
    Walking g unseen rest (id :: listed) where
  seen a ha := by
    rcases h.seen a ha with hu | hl | hl
    · exact .inl hu
    · rcases List.mem_cons.mp hl with heq | hl
      · exact .inr (.inr (by simp [Step.leave.inj heq]))
      · exact .inr (.inl hl)
    · exact .inr (.inr (List.mem_cons_of_mem _ hl))
  path := (List.pairwise_cons.mp h.path).2
  ahead := by
    refine h.ahead.2.mono fun t _ ht => .inr ?_
    rcases ht with ht | ht | ht
    · simp at ht
    · rcases List.mem_cons.mp ht with heq | ht
      · exact .inr (by simp [Step.leave.inj heq])
      · exact .inl ht
    · exact .inr (List.mem_cons_of_mem _ ht)

/-- Entering an unseen release puts it on the path, behind its targets. -/
lemma enter (h : Walking g unseen (.enter id :: rest) listed) :
    Walking g (unseen.erase id) ((g.targets id).map .enter ++ .leave id :: rest) listed where
  seen a ha := by
    by_cases heq : a = id
    · exact .inr (.inl (by simp [heq]))
    rcases h.seen a ha with hu | hl | hl
    · exact .inl ((List.mem_erase_of_ne heq).mpr hu)
    · have hrest : Step.leave a ∈ rest := by simpa using hl
      exact .inr (.inl (by simp [hrest]))
    · exact .inr (.inr hl)
  path := by
    obtain ⟨hhead, hrest⟩ := List.pairwise_cons.mp h.path
    refine List.pairwise_append.mpr ⟨?_, List.pairwise_cons.mpr ⟨hhead, hrest⟩, ?_⟩
    · exact pairwise_map_enter
    · intro s hs t ht a heq
      obtain ⟨b, hb, rfl⟩ := List.mem_map.mp hs
      rcases List.mem_cons.mp ht with rfl | ht
      · obtain rfl := Step.leave.inj heq
        exact .single hb
      · exact (hhead t ht a heq).tail hb
  ahead := by
    rw [ahead_map_enter_append]
    refine ⟨fun t ht => .inl (List.mem_append_left _ (List.mem_reverse.mpr ht)), ?_⟩
    have hrest : Ahead g _ [id] rest := h.ahead
    refine hrest.mono fun t _ ht => .inr ?_
    rcases ht with ht | ht | ht
    · exact .inl (by simp [List.mem_singleton.mp ht])
    · have hrest : Step.leave t ∈ rest := by simpa using ht
      exact .inl (by simp [hrest])
    · exact .inr ht

/-- A release seen before is not entered again. -/
lemma skip (h : Walking g unseen (.enter id :: rest) listed) (hid : id ∉ unseen) :
    Walking g unseen rest listed where
  seen a ha := by
    rcases h.seen a ha with hu | hl | hl
    · exact .inl hu
    · exact .inr (.inl (by simpa using hl))
    · exact .inr (.inr hl)
  path := (List.pairwise_cons.mp h.path).2
  ahead := by
    have hrest : Ahead g _ [id] rest := h.ahead
    refine hrest.mono fun t hc ht => .inr ?_
    rcases ht with ht | ht | ht
    · obtain rfl := List.mem_singleton.mp ht
      exact ((h.seen t hc).resolve_left hid).imp_left (by simpa using ·)
    · exact .inl (by simpa using ht)
    · exact .inr ht

end Walking

lemma before_or_reaches_of_walk {g : Graph} {unseen listed before after : List ReleaseId}
    {steps : List Step} {a b : ReleaseId} (h : Walking g unseen steps listed)
    (hw : g.walk unseen steps = before ++ a :: after) (hab : g.LeadsTo a b) :
    b ∈ listed ∨ b ∈ before ∨ g.Reaches b a := by
  fun_induction walk g unseen steps generalizing listed before with
  | case1 => simp at hw
  | case2 unseen id rest ih =>
      cases before with
      | nil =>
          obtain ⟨rfl, _⟩ := List.cons.inj hw
          rcases h.ahead.1 b hab with hb | hb | hb
          · simp at hb
          · rcases List.mem_cons.mp hb with heq | hb
            · exact .inr (.inr (Step.leave.inj heq ▸ .refl))
            · exact .inr (.inr ((List.pairwise_cons.mp h.path).1 _ hb b rfl))
          · exact .inl hb
      | cons c before =>
          obtain ⟨rfl, hrest⟩ := List.cons.inj hw
          rcases ih h.leave hrest with hb | hb | hb
          · rcases List.mem_cons.mp hb with rfl | hb
            · exact .inr (.inl List.mem_cons_self)
            · exact .inl hb
          · exact .inr (.inl (List.mem_cons_of_mem _ hb))
          · exact .inr (.inr hb)
  | case3 unseen id rest _ ih => exact ih h.enter hw
  | case4 unseen id rest hid ih => exact ih (h.skip hid) hw

/-- The target of an edge is listed before the release that has the edge, unless the target
reaches this release again. -/
theorem before_or_reaches_of_installOrder {g : Graph} {roots before after : List ReleaseId}
    {a b : ReleaseId} (h : g.installOrder roots = before ++ a :: after) (hab : g.LeadsTo a b) :
    b ∈ before ∨ g.Reaches b a := by
  have start : Walking g g.nodes.keys (roots.map .enter) [] :=
    { seen := fun id hid => .inl (mem_keys_iff.mpr hid)
      path := pairwise_map_enter
      ahead := by
        rw [← List.append_nil (roots.map Step.enter), ahead_map_enter_append]
        trivial }
  simpa using before_or_reaches_of_walk start h hab

/-! ### Orders -/

/-- A list of what some roots reach in which, but for cycles, no release comes before the releases
that it leads to. -/
structure Ordered (g : Graph) (roots order : List ReleaseId) : Prop where
  /-- What the search from the roots finds is listed, and nothing else. -/
  reached : ∀ id, id ∈ order ↔ id ∈ g.reachable roots
  /-- Nothing is listed twice. -/
  once : order.Nodup
  /-- The target of an edge is listed before the release that has the edge, unless this is reached
  from the target. -/
  targets : ∀ before id after, order = before ++ id :: after →
    ∀ e ∈ g.outgoing id, ∀ t, g.target? e.target e.constraint = some t →
      t.id ∈ before ∨ id ∈ g.reachable [t.id]

lemma mem_targets_of_target? {g : Graph} {id : ReleaseId} {e : Edge} {t : Node}
    (he : e ∈ g.outgoing id) (ht : g.target? e.target e.constraint = some t) :
    g.LeadsTo id t.id :=
  List.mem_filterMap.mpr ⟨e, he, by rw [ht, Option.map_some]⟩

/-- The install order of a graph is such a list, whatever the roots; and what the search finds is
what edges lead to from a root that is a node. -/
theorem ordered_installOrder (g : Graph) (roots : List ReleaseId) :
    g.Ordered roots (g.installOrder roots) ∧
      ∀ id, id ∈ g.reachable roots ↔
        ∃ root ∈ roots, g.contains root = true ∧ g.Reaches root id := by
  refine ⟨⟨fun _ => mem_installOrder_iff, nodup_installOrder g roots, ?_⟩,
    fun _ => mem_reachable_iff⟩
  intro before id after hsplit e he t ht
  have hstep := mem_targets_of_target? he ht
  rcases before_or_reaches_of_installOrder hsplit hstep with hbefore | hback
  · exact .inl hbefore
  · have htarget : g.contains t.id = true := contains_of_mem (mem_of_target? ht)
    exact .inr (mem_reachable_iff.mpr ⟨t.id, List.mem_singleton_self _, htarget, hback⟩)

/-- An application needs a tool, which needs a library, which needs the tool in turn: the library
comes first, as the tool is on the path already. -/
example :
    let release (name : String) : Release := { name, version := ⟨1, 0, 0⟩ }
    let edge (source target : String) : Edge := ⟨(release source).id, target, .any⟩
    let nodes := (["tool", "lib", "app"].map fun name => ⟨release name, false⟩).foldl addNode empty
    let g := [edge "app" "tool", edge "tool" "lib", edge "lib" "tool"].foldl addEdge nodes
    (g.installOrder (["app", "ghost", "app"].map fun name => (release name).id)).map
      ReleaseId.name = ["lib", "tool", "app"] := by
  decide +kernel

end Graph

end PackagePlanner
