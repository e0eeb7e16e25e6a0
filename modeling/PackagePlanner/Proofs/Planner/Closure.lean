import PackagePlanner.Proofs.Planner.Change

/-!
What a change adds has what it needs.

* `Release.SelfContained`: releases that serve all the dependencies among them.
* `meets_added`: after a change the project meets each dependency of an added release; after an
  install it holds a self-contained set of releases with what was asked for and all that was added.
  Neither catalog has to be consistent.
-/

namespace PackagePlanner

/-- Each declared dependency of one of the releases is served by one of them. -/
def Release.SelfContained (members : List Release) : Prop :=
  ∀ r ∈ members, ∀ d ∈ r.dependencies.toList, ∃ q ∈ members, d.Accepts q

/-! ### The chosen releases -/

namespace Selection

/-- The releases that are chosen in the end. -/
def chosen (s : Selection) : List Release := s.prune.graph.nodes.toList.map Graph.Node.release

lemma mem_chosen_iff {s : Selection} {r : Release} :
    r ∈ s.chosen ↔ ∃ n ∈ s.prune.graph.nodes.toList, n.release = r :=
  List.mem_map

end Selection

namespace Problem.Standing

variable {p : Problem} {s : Selection}

lemma chosen_subset (h : p.Standing s) :
    s.chosen ⊆ (p.installed.apply (p.planOf s)).releases := by
  intro r hr
  obtain ⟨n, hn, rfl⟩ := Selection.mem_chosen_iff.mp hr
  exact h.mem_planned_of_chosen hn

lemma added_subset_chosen : (p.planOf s).added ⊆ s.chosen :=
  fun _ hr => Selection.mem_chosen_iff.mpr ⟨_, mem_added_iff.mp hr, rfl⟩

lemma selfContained_chosen (h : p.Standing s) (hfollow : p.rules.follow = true) :
    Release.SelfContained s.chosen := by
  intro r hr d hd
  obtain ⟨n, hn, rfl⟩ := Selection.mem_chosen_iff.mp hr
  obtain ⟨m, hm, hacc⟩ := h.exists_accepted_of_chosen hfollow hn hd
  exact ⟨m.release, Selection.mem_chosen_iff.mpr ⟨m, hm, rfl⟩, hacc⟩

/-- What the caller asked for is chosen. -/
lemma exists_chosen_of_request (h : p.Standing s) {name : String} {c : Constraint}
    (hr : ⟨name, c⟩ ∈ s.requests) :
    ∃ r ∈ s.chosen, (⟨name, c⟩ : Dependency).Accepts r := by
  obtain ⟨n, hn⟩ := h.prune.toSound.target (Selection.mem_constraintsOn_iff.mpr (.inl hr))
  exact ⟨n.release, Selection.mem_chosen_iff.mpr ⟨n, Graph.mem_of_target? hn, rfl⟩,
    Graph.accepts_of_target? hn⟩

end Problem.Standing

namespace Planner

variable {p : Planner} {change : Change} {plan : Plan}

/-- The project meets what the added releases need, and an install leaves a self-contained set of
releases with what was asked for. -/
theorem meets_added (h : p.plan change = .ok plan) :
    (∀ r ∈ plan.added, ∀ d ∈ r.dependencies.toList, (p.installed.apply plan).Meets d) ∧
      ∀ name text, change = .install name text →
        ∃ c, Constraint.parse text = .ok c ∧
          ∃ members, members ⊆ (p.installed.apply plan).releases ∧
            (∃ r ∈ members, r.name = name ∧ c.admits r.version = true) ∧
            plan.added ⊆ members ∧ Release.SelfContained members := by
  obtain ⟨s, hs, rfl⟩ := planWith_eq_ok_iff.mp h
  have hsettled := settled_of_selectionWith hs
  have hsubset := hsettled.chosen_subset
  rw [installed_problemWith] at hsubset
  have hself := hsettled.selfContained_chosen follow_problemWith
  refine ⟨fun r hr d hd => ?_, ?_⟩
  · obtain ⟨q, hq, hacc⟩ := hself r (Problem.Standing.added_subset_chosen hr) d hd
    exact ⟨q, hsubset hq, hacc⟩
  · rintro name text rfl
    obtain ⟨c, hc, hrequests, _⟩ := installSelection_eq_ok hs
    have hrequest : ⟨name, c⟩ ∈ s.requests := hrequests ▸ List.mem_cons_self
    obtain ⟨r, hr, hacc⟩ := hsettled.exists_chosen_of_request hrequest
    exact ⟨c, hc, s.chosen, hsubset, ⟨r, hr, hacc⟩, Problem.Standing.added_subset_chosen, hself⟩

/-- An application that needs a library and a tool, where the tool needs the old library. -/
def toolNeedsOldLibrary : Planner where
  available := .ofReleases .repository [
    { name := "lib", version := ⟨1, 0, 0⟩ },
    { name := "lib", version := ⟨2, 0, 0⟩ },
    { name := "tool", version := ⟨1, 0, 0⟩,
      dependencies := Keyed.ofList [⟨"lib", .exact ⟨1, 0, 0⟩⟩] },
    { name := "app", version := ⟨1, 0, 0⟩,
      dependencies := Keyed.ofList [⟨"lib", .any⟩, ⟨"tool", .any⟩] }]
  installed := .empty .installed

/-- The new library is chosen first and the old one in its place. -/
theorem meets_added_toolNeedsOldLibrary :
    ∃ plan, toolNeedsOldLibrary.plan (.install "app" "*") = .ok plan ∧
      plan.added.map Release.id =
        [⟨"lib", ⟨1, 0, 0⟩⟩, ⟨"tool", ⟨1, 0, 0⟩⟩, ⟨"app", ⟨1, 0, 0⟩⟩] ∧
      (∀ r ∈ plan.added, ∀ d ∈ r.dependencies.toList,
        (toolNeedsOldLibrary.installed.apply plan).Meets d) ∧
      ∃ c, Constraint.parse "*" = .ok c ∧
        ∃ members, members ⊆ (toolNeedsOldLibrary.installed.apply plan).releases ∧
          (∃ r ∈ members, r.name = "app" ∧ c.admits r.version = true) ∧
          plan.added ⊆ members ∧ Release.SelfContained members := by
  have hadded : (toolNeedsOldLibrary.plan (.install "app" "*")).map
      (fun plan => plan.added.map Release.id) =
        .ok [⟨"lib", ⟨1, 0, 0⟩⟩, ⟨"tool", ⟨1, 0, 0⟩⟩, ⟨"app", ⟨1, 0, 0⟩⟩] := by decide +kernel
  cases h : toolNeedsOldLibrary.plan (.install "app" "*") with
  | error e => simp [h, Except.map] at hadded
  | ok plan =>
      rw [h] at hadded
      exact ⟨plan, rfl, Except.ok.inj hadded, (meets_added h).1, (meets_added h).2 _ _ rfl⟩

end Planner

end PackagePlanner
