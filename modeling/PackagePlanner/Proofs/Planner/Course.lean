import PackagePlanner.Proofs.Planner.Undo
import PackagePlanner.Proofs.Resolution.EdgeOrder

/-!
A resolution between one demand and the next.

* `Demand` is anything that a resolution is asked for, and `Problem.course` lists the selections
  after each of some demands.
* `Selection.Clean`: the graph holds what the requests need and nothing else, and no work is left.
* `Problem.clean_of_mem_course`: without releases side by side each selection of a course is clean.
  So nothing is dropped in the end, and the plan removes just what the last search for broken
  releases took to leave.

What carries this from demand to demand is `Problem.AtRest`: a selection that is sound and arranged
with nothing left to do.
-/

namespace PackagePlanner

/-- Something that a resolution is asked for. -/
inductive Demand where
  /-- Some version of a package. -/
  | request (name : String) (constraint : Constraint)
  /-- One release, perhaps in the place of another. -/
  | pin (wanted : Release) (old : Option Release)
  /-- The upgrade of a broken release. -/
  | cascade (broken : Problem.Broken)
deriving DecidableEq

namespace Problem

/-- What is chosen after one more demand. -/
def meet (p : Problem) (s : Selection) : Demand → Except PlanError Selection
  | .request name c => (p.request s name c).mapError .resolution
  | .pin wanted old => (p.pin s wanted old).mapError .resolution
  | .cascade b => p.cascade s b

/-- What is chosen after each of some demands, if all of them can be met. -/
def course (p : Problem) (s : Selection) : List Demand → Except PlanError (List Selection)
  | [] => .ok []
  | demand :: rest =>
    match p.meet s demand with
    | .error e => .error e
    | .ok t => (p.course t rest).map (t :: ·)

end Problem

/-! ### Clean selections -/

namespace Selection

/-- The graph of a selection is complete, and nothing in it is idle. -/
structure Clean (s : Selection) : Prop where
  /-- A package has one node at most. -/
  single : ∀ n ∈ s.graph.nodes.toList, ∀ m ∈ s.graph.nodes.toList,
    n.release.name = m.release.name → n = m
  /-- Every edge leaves a node. -/
  source : ∀ e ∈ s.graph.edges, s.graph.contains e.source = true
  /-- The edges of a node are the dependencies that it declares, in their order. -/
  outgoing_eq : ∀ n ∈ s.graph.nodes.toList,
    s.graph.outgoing n.id = n.release.dependencies.toList.map (·.edge n.id)
  /-- Every edge leads to a node that it accepts. -/
  target : ∀ e ∈ s.graph.edges, ∃ n ∈ s.graph.nodes.toList,
    (⟨e.target, e.constraint⟩ : Dependency).Accepts n.release
  /-- Every request is served by a node. -/
  served : ∀ r ∈ s.requests, ∃ n ∈ s.graph.nodes.toList,
    (⟨r.name, r.constraint⟩ : Dependency).Accepts n.release
  /-- No dependencies are being followed. -/
  resolving_eq : s.resolving = []
  /-- Edges lead from a node that serves a request to every node. -/
  reached : ∀ n ∈ s.graph.nodes.toList, ∃ root ∈ s.roots, s.graph.Reaches root n.id

/-- There is nothing to drop. -/
lemma Clean.prune_eq {s : Selection} (h : s.Clean) : s.prune = s :=
  prune_eq_self (fun n hn => live_iff.mpr (h.reached n hn)) h.resolving_eq

end Selection

namespace Problem

variable {p : Problem} {s t : Selection}

/-- If nothing is dropped, the plan removes what leaves. -/
lemma removed_perm (h : s.prune = s) : (p.planOf s).removed.Perm (p.leaving s).toList := by
  have hleaving : (p.leaving s).toList.Nodup := (p.leaving s).nodup.of_map
  rw [planOf_eq, h, List.perm_ext_iff_of_nodup (nodup_departures hleaving) hleaving]
  exact fun _ => mem_departures_iff

/-! ### Between two demands -/

/-- A selection with nothing left to do. -/
structure AtRest (p : Problem) (s : Selection) : Prop extends Sound p s [] where
  /-- The edges of a node are in the order of its dependencies. -/
  arranged : s.Arranged []

namespace AtRest

lemma empty (p : Problem) : p.AtRest {} :=
  ⟨.empty p, fun n hn => by simp at hn⟩

/-- Which releases are replaced does not matter. -/
lemma congr (h : p.AtRest s) {replaced : Keyed Release.id} : p.AtRest { s with replaced } :=
  ⟨h.toSound.congr, h.arranged⟩

lemma request {name : String} {c : Constraint} (h : p.AtRest s)
    (hfollow : p.rules.follow = true) (hrequest : p.request s name c = .ok t) : p.AtRest t := by
  have hkeeps : p.Keeps fun s tasks => p.Sound s tasks ∧ s.Arranged tasks :=
    fun _ _ _ _ _ hs hperform =>
      have hmove := move_of_perform hperform
      ⟨hs.1.move hmove, hs.2.move hs.1 hfollow hmove⟩
  have hasked : Selection.Arranged { s with requests := s.requests ++ [⟨name, c⟩] }
      [.require name c .request] :=
    h.arranged.mono (List.Subset.refl _) (fun _ _ => rfl) fun _ _ => .inl rfl
  obtain ⟨hsound, harranged⟩ := (hkeeps.run ⟨h.toSound.ask name c, hasked⟩).1 t hrequest
  exact ⟨hsound, harranged⟩

lemma pin {wanted : Release} {old : Option Release} (h : p.AtRest s)
    (hfollow : p.rules.follow = true) (hpin : p.pin s wanted old = .ok t) : p.AtRest t :=
  h.congr.request hfollow hpin

lemma cascade {b : Broken} (h : p.AtRest s) (hfollow : p.rules.follow = true)
    (hcascade : p.cascade s b = .ok t) : p.AtRest t := by
  obtain ⟨_, _, hpin⟩ := pin_of_cascade hcascade
  exact h.pin hfollow hpin

/-- Meeting a demand leaves nothing to do. -/
lemma meet {demand : Demand} (h : p.AtRest s) (hfollow : p.rules.follow = true)
    (hmeet : p.meet s demand = .ok t) : p.AtRest t := by
  cases demand with
  | request name c => exact h.request hfollow (mapError_eq_ok_iff.mp hmeet)
  | pin wanted old => exact h.pin hfollow (mapError_eq_ok_iff.mp hmeet)
  | cascade b => exact h.cascade hfollow hmeet

/-- Nor does meeting one after the other. -/
theorem course {demands : List Demand} {course : List Selection} (h : p.AtRest s)
    (hfollow : p.rules.follow = true) (hcourse : p.course s demands = .ok course) :
    ∀ t ∈ course, p.AtRest t := by
  induction demands generalizing s course with
  | nil =>
      obtain rfl := Except.ok.inj hcourse
      simp
  | cons demand rest ih =>
      rw [Problem.course] at hcourse
      split at hcourse
      · simp at hcourse
      · rename_i u hu
        obtain ⟨later, hlater, rfl⟩ := Planner.map_eq_ok_iff.mp hcourse
        have hrest := h.meet hfollow hu
        exact List.forall_mem_cons.mpr ⟨hrest, ih hrest hlater⟩

/-- What is chosen in the end leaves nothing to do, and nobody is broken. -/
lemma finish (h : p.AtRest s) (hfollow : p.rules.follow = true) (hfinish : p.finish s = .ok t) :
    p.AtRest t ∧ p.broken? t = none := by
  have hcascade (u : Selection) (b : Broken) (v : Selection) (hu : p.AtRest u)
      (_ : p.broken? u = some b) (hv : p.cascade u b = .ok v) : p.AtRest v :=
    hu.cascade hfollow hv
  exact (finish_keeps hcascade h hfinish).imp_right fun hnone => hnone hfollow

/-- Without releases side by side the graph is clean. -/
theorem clean (h : p.AtRest s) (hside : p.rules.sideBySide = false) : s.Clean where
  single := h.single hside
  source e he := by
    obtain ⟨n, hn, hid, _⟩ := h.declared e he
    exact hid ▸ Graph.contains_of_mem hn
  outgoing_eq _ hn := h.arranged.outgoing_eq hn
  target e he := by
    obtain ⟨n, hn⟩ := h.target (Selection.mem_constraintsOn_iff.mpr (.inr ⟨e, he, rfl, rfl⟩))
    exact ⟨n, Graph.mem_of_target? hn, Graph.accepts_of_target? hn⟩
  served r hr := by
    obtain ⟨n, hn⟩ := h.target (Selection.mem_constraintsOn_iff.mpr (.inl hr))
    exact ⟨n, Graph.mem_of_target? hn, Graph.accepts_of_target? hn⟩
  resolving_eq := h.resolving_eq_nil
  reached n hn := Selection.live_iff.mp ((h.live hside n hn).resolve_right (by simp))

end AtRest

/-- Without releases side by side the selection is clean after each of the demands that are met one
after the other. It still is when whoever is broken has been upgraded: then nothing is dropped,
nobody is broken, and the plan removes just the releases that leave. -/
theorem clean_of_mem_course (hside : p.rules.sideBySide = false) (hfollow : p.rules.follow = true)
    {demands : List Demand} {course : List Selection} (h : p.course {} demands = .ok course) :
    ∀ s ∈ {} :: course, s.Clean ∧ ∀ t, p.finish s = .ok t →
      t.Clean ∧ t.graph.retain t.roots = t.graph ∧ p.broken? t = none ∧
        (p.planOf t).removed.Perm (p.leaving t).toList := by
  intro s hs
  have hrest : p.AtRest s := by
    rcases List.mem_cons.mp hs with rfl | hs
    · exact .empty p
    · exact (AtRest.empty p).course hfollow h s hs
  refine ⟨hrest.clean hside, fun t ht => ?_⟩
  obtain ⟨htrest, hnone⟩ := hrest.finish hfollow ht
  have hclean := htrest.clean hside
  exact ⟨hclean, congrArg Selection.graph hclean.prune_eq, hnone, removed_perm hclean.prune_eq⟩

/-- A new application needs a codec, and a user interface follows the application. A tool needs the
old codec and this an old driver; the new codec needs a shim that takes any driver. -/
def swappedCodec : Problem where
  available := .ofReleases .repository [
    { name := "lib", version := ⟨2, 0, 0⟩ },
    { name := "app", version := ⟨2, 0, 0⟩,
      dependencies := Keyed.ofList [⟨"lib", .atLeast ⟨2, 0, 0⟩⟩, ⟨"codec", .any⟩] },
    { name := "gui", version := ⟨2, 0, 0⟩,
      dependencies := Keyed.ofList [⟨"app", .atLeast ⟨2, 0, 0⟩⟩] },
    { name := "codec", version := ⟨1, 0, 0⟩,
      dependencies := Keyed.ofList [⟨"driver", .atMost ⟨1, 0, 0⟩⟩] },
    { name := "codec", version := ⟨2, 0, 0⟩, dependencies := Keyed.ofList [⟨"shim", .any⟩] },
    { name := "shim", version := ⟨1, 0, 0⟩, dependencies := Keyed.ofList [⟨"driver", .any⟩] },
    { name := "driver", version := ⟨1, 0, 0⟩ },
    { name := "driver", version := ⟨2, 0, 0⟩ },
    { name := "tool", version := ⟨1, 0, 0⟩,
      dependencies := Keyed.ofList [⟨"codec", .exact ⟨1, 0, 0⟩⟩] }]
  installed := .ofReleases .installed [
    { name := "lib", version := ⟨1, 0, 0⟩ },
    { name := "app", version := ⟨1, 0, 0⟩,
      dependencies := Keyed.ofList [⟨"lib", .exact ⟨1, 0, 0⟩⟩] },
    { name := "gui", version := ⟨1, 0, 0⟩,
      dependencies := Keyed.ofList [⟨"app", .exact ⟨1, 0, 0⟩⟩] }]
  rules := { sideBySide := false, follow := true, cascade := true }

/-- The new library is asked for, then the application that it breaks, and then the tool. -/
def codecDemands : List Demand :=
  let app : Release :=
    { name := "app", version := ⟨1, 0, 0⟩,
      dependencies := Keyed.ofList [⟨"lib", .exact ⟨1, 0, 0⟩⟩] }
  [.pin { name := "lib", version := ⟨2, 0, 0⟩ } (some { name := "lib", version := ⟨1, 0, 0⟩ }),
    .cascade ⟨app, "lib", .exact ⟨1, 0, 0⟩⟩, .request "tool" .any]

/-- The tool changes the codec, this changes the driver in turn, and the shim is dropped. In the end
the user interface is upgraded as well. -/
theorem clean_of_mem_course_swappedCodec :
    ∃ course, swappedCodec.course {} codecDemands = .ok course ∧
      course.map (fun s => s.graph.nodes.keys.map ReleaseId.text) =
        [["lib@2.0.0"],
          ["lib@2.0.0", "app@2.0.0", "codec@2.0.0", "shim@1.0.0", "driver@2.0.0"],
          ["lib@2.0.0", "app@2.0.0", "tool@1.0.0", "codec@1.0.0", "driver@1.0.0"]] ∧
      (∀ s ∈ course, s.Clean) ∧
      ∃ s ∈ course, ∃ t, swappedCodec.finish s = .ok t ∧
        (swappedCodec.planOf t).removed.map Release.id =
          [⟨"lib", ⟨1, 0, 0⟩⟩, ⟨"app", ⟨1, 0, 0⟩⟩, ⟨"gui", ⟨1, 0, 0⟩⟩] ∧
        t.Clean ∧ (swappedCodec.planOf t).removed.Perm (swappedCodec.leaving t).toList := by
  have hcourse : (swappedCodec.course {} codecDemands).map (fun course =>
      (course.map (fun s => s.graph.nodes.keys.map ReleaseId.text),
        course.getLast?.map fun s => (swappedCodec.finish s).map fun t =>
          (swappedCodec.planOf t).removed.map Release.id)) =
      .ok ([["lib@2.0.0"],
          ["lib@2.0.0", "app@2.0.0", "codec@2.0.0", "shim@1.0.0", "driver@2.0.0"],
          ["lib@2.0.0", "app@2.0.0", "tool@1.0.0", "codec@1.0.0", "driver@1.0.0"]],
        some (.ok [⟨"lib", ⟨1, 0, 0⟩⟩, ⟨"app", ⟨1, 0, 0⟩⟩, ⟨"gui", ⟨1, 0, 0⟩⟩])) := by
    decide +kernel
  obtain ⟨course, h, hboth⟩ := Planner.map_eq_ok_iff.mp hcourse
  obtain ⟨hkeys, hend⟩ := Prod.mk.inj hboth
  obtain ⟨s, hs, hfinish⟩ := Option.map_eq_some_iff.mp hend
  obtain ⟨t, ht, hremoved⟩ := Planner.map_eq_ok_iff.mp hfinish
  have hclean := clean_of_mem_course rfl rfl h
  have hmem : s ∈ course := List.mem_of_getLast? hs
  obtain ⟨htclean, _, _, hperm⟩ := (hclean s (List.mem_cons_of_mem _ hmem)).2 t ht
  exact ⟨course, h, hkeys, fun u hu => (hclean u (List.mem_cons_of_mem _ hu)).1, s, hmem, t, ht,
    hremoved, htclean, hperm⟩

end Problem

end PackagePlanner
