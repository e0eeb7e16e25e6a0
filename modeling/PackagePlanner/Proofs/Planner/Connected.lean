import PackagePlanner.Proofs.Planner.Closure
import PackagePlanner.Proofs.Planner.Order

/-!
What an install adds is connected with the request.

* `Dependency.LeadsTo`: among some releases, a dependency leads to those that it accepts and to what
  their dependencies lead to.
* `Standing.exists_leadsTo`: some request leads to each release that is chosen in the end, among
  these releases. `Planner.leadsTo_added`: hence the request of an install leads to all that is
  added, whatever was chosen and given up on the way.
-/

namespace PackagePlanner

/-- Among some releases, a dependency leads to those that it accepts, and from these to those that
one of their dependencies accepts. -/
inductive Dependency.LeadsTo (among : List Release) (d : Dependency) : Release → Prop
  | accepted {r : Release} : r ∈ among → d.Accepts r → d.LeadsTo among r
  | needed {r q : Release} {e : Dependency} :
      d.LeadsTo among r → e ∈ r.dependencies.toList → q ∈ among → e.Accepts q →
        d.LeadsTo among q

namespace Dependency.LeadsTo

variable {among among' : List Release} {d : Dependency} {r : Release}

lemma mono (h : d.LeadsTo among r) (hsub : among ⊆ among') : d.LeadsTo among' r := by
  induction h with
  | accepted hr hacc => exact .accepted (hsub hr) hacc
  | needed _ he hq hacc ih => exact .needed ih he (hsub hq) hacc

/-- What is led to is among the releases. -/
lemma mem (h : d.LeadsTo among r) : r ∈ among := by
  cases h with
  | accepted hr _ => exact hr
  | needed _ _ hr _ => exact hr

end Dependency.LeadsTo

namespace Problem

/-- Some request leads to each release that is chosen in the end, among these releases. -/
lemma Standing.exists_leadsTo {p : Problem} {s : Selection} (h : p.Standing s) {r : Release}
    (hr : r ∈ s.chosen) : ∃ request ∈ s.requests,
      (⟨request.name, request.constraint⟩ : Dependency).LeadsTo s.chosen r := by
  obtain ⟨n, hn, rfl⟩ := Selection.mem_chosen_iff.mp hr
  obtain ⟨request, hrequest, k, hk, hchain⟩ := h.exists_root hn
  have hchosen {d : Dependency} {m : Graph.Node}
      (hm : s.prune.graph.target? d.name d.constraint = some m) : m.release ∈ s.chosen :=
    Selection.mem_chosen_iff.mpr ⟨m, Graph.mem_of_target? hm, rfl⟩
  refine ⟨request, hrequest, ?_⟩
  generalize n.release = r at hchain
  -- the chain of targets is a chain of accepted dependencies
  induction hchain with
  | refl =>
      have hroot : k.release ∈ s.chosen := hchosen (d := ⟨request.name, request.constraint⟩) hk
      exact .accepted hroot (Graph.accepts_of_target? hk)
  | tail _ hstep ih =>
      obtain ⟨d, hd, m, hm, rfl⟩ := hstep
      exact .needed ih hd (hchosen hm) (Graph.accepts_of_target? hm)

end Problem

namespace Planner

variable {p : Planner} {name text : String} {plan : Plan}

/-- Each release that an install adds is connected with the request: the request leads to it by
dependencies among the releases that the project has afterwards. -/
theorem leadsTo_added (h : p.install name text true = .ok plan) :
    ∃ c, Constraint.parse text = .ok c ∧ ∀ q ∈ plan.added,
      (⟨name, c⟩ : Dependency).LeadsTo (p.installed.apply plan).releases q := by
  obtain ⟨s, hs, rfl⟩ := map_eq_ok_iff.mp h
  obtain ⟨c, hc, hrequests, hsettled, _⟩ := installSelection_eq_ok hs
  refine ⟨c, hc, fun q hq => ?_⟩
  obtain ⟨request, hrequest, hleads⟩ :=
    hsettled.exists_leadsTo (Problem.Standing.added_subset_chosen hq)
  rw [hrequests, List.mem_singleton] at hrequest
  subst hrequest
  exact hleads.mono hsettled.chosen_subset

/-- An application that needs a library and a tool. The new library, which needs a codec, has to
give way to the old one that the tool needs, and the codec needs a table in turn. -/
def toolDropsCodec : Planner where
  available := .ofReleases .repository [
    { name := "table", version := ⟨1, 0, 0⟩ },
    { name := "codec", version := ⟨1, 0, 0⟩, dependencies := Keyed.ofList [⟨"table", .any⟩] },
    { name := "lib", version := ⟨1, 0, 0⟩ },
    { name := "lib", version := ⟨2, 0, 0⟩, dependencies := Keyed.ofList [⟨"codec", .any⟩] },
    { name := "tool", version := ⟨1, 0, 0⟩,
      dependencies := Keyed.ofList [⟨"lib", .exact ⟨1, 0, 0⟩⟩] },
    { name := "app", version := ⟨1, 0, 0⟩,
      dependencies := Keyed.ofList [⟨"lib", .atLeast ⟨1, 0, 0⟩⟩, ⟨"tool", .any⟩] }]
  installed := .ofReleases .installed [{ name := "lib", version := ⟨0, 5, 0⟩ }]

/-- Neither the codec nor the table is added. -/
theorem leadsTo_added_toolDropsCodec :
    ∃ plan, toolDropsCodec.install "app" "*" true = .ok plan ∧
      plan.added.map Release.id =
        [⟨"lib", ⟨1, 0, 0⟩⟩, ⟨"tool", ⟨1, 0, 0⟩⟩, ⟨"app", ⟨1, 0, 0⟩⟩] ∧
      ∃ c, Constraint.parse "*" = .ok c ∧ ∀ q ∈ plan.added,
        (⟨"app", c⟩ : Dependency).LeadsTo (toolDropsCodec.installed.apply plan).releases q := by
  have hadded : (toolDropsCodec.install "app" "*" true).map
      (fun plan => plan.added.map Release.id) =
        .ok [⟨"lib", ⟨1, 0, 0⟩⟩, ⟨"tool", ⟨1, 0, 0⟩⟩, ⟨"app", ⟨1, 0, 0⟩⟩] := by decide +kernel
  obtain ⟨plan, h, hids⟩ := map_eq_ok_iff.mp hadded
  exact ⟨plan, h, hids, leadsTo_added h⟩

end Planner

end PackagePlanner
