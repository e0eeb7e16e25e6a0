import PackagePlanner.Proofs.Resolution.Outcome
import PackagePlanner.Proofs.Resolution.Provided

/-!
Resolutions that choose nothing new.

* `Catalog.Welcomes`: a release that every release of other packages accepts.
* `Problem.Secures`: of what a dependency accepts some release is installed, and no available one
  is preferred to it. `Problem.Stable`: installed releases all of whose dependencies are secured.
* `Problem.Unchanged`: a selection among such releases. `Unchanged.run`: a run that starts with one
  does not fail and ends with one; `Unchanged.planOf_eq_empty`: its plan is empty.
-/

namespace PackagePlanner

/-- Every dependency on its package that releases of other packages declare accepts the release. -/
def Catalog.Welcomes (c : Catalog) (r : Release) : Prop :=
  ∀ q ∈ c.releases, q.name ≠ r.name → ∀ d ∈ q.dependencies.toList, d.name = r.name → d.Accepts r

instance (c : Catalog) (r : Release) : Decidable (c.Welcomes r) :=
  inferInstanceAs (Decidable (∀ q ∈ c.releases, q.name ≠ r.name →
    ∀ d ∈ q.dependencies.toList, d.name = r.name → d.Accepts r))

namespace Problem

/-! ### Installed releases that are preferred -/

/-- A dependency leads to installed releases of a certain kind. Without releases side by side, one
of them gives way only to a release that the project welcomes more. -/
structure Secures (p : Problem) (kept : Release → Prop) (d : Dependency) : Prop where
  /-- Some installed release is accepted. -/
  met : p.installed.Meets d
  /-- The accepted installed releases are of the kind. -/
  kept : ∀ r ∈ p.installed.releases, d.Accepts r → kept r
  /-- An accepted installed release is welcome, or no accepted available one is. -/
  preferred : p.rules.sideBySide = false → ∀ r ∈ p.installed.releases, d.Accepts r →
    p.installed.Welcomes r ∨ ∀ a ∈ p.available.releases, d.Accepts a → ¬ p.installed.Welcomes a

/-- The dependencies of releases of a certain kind lead to releases of this kind. -/
structure Stable (p : Problem) (kept : Release → Prop) : Prop where
  /-- A package has at most one installed release, unless releases may stand side by side. -/
  unique : p.rules.sideBySide = false → ∀ r ∈ p.installed.releases,
    ∀ q ∈ p.installed.releases, r.name = q.name → r = q
  /-- Every declared dependency leads to a release of the kind. -/
  secured : ∀ r, kept r → ∀ d ∈ r.dependencies.toList, p.Secures kept d

/-- A selection among installed releases of a certain kind. -/
structure Unchanged (p : Problem) (kept : Release → Prop) (s : Selection) : Prop where
  /-- Nothing is replaced. -/
  replaced : s.replaced.toList = []
  /-- Every chosen release is installed, and of the kind. -/
  nodes : ∀ n ∈ s.graph.nodes.toList, n.installed = true ∧ kept n.release
  /-- What the caller asked for leads to releases of the kind. -/
  requests : ∀ r ∈ s.requests, p.Secures kept ⟨r.name, r.constraint⟩

namespace Unchanged

variable {p : Problem} {kept : Release → Prop} {s : Selection}

lemma contains_replaced (h : p.Unchanged kept s) (id : ReleaseId) :
    s.replaced.contains id = false := by
  simp [Keyed.contains, h.replaced]

/-- Nothing leaves. -/
lemma isLeaving_eq_false (h : p.Unchanged kept s) (r : Release) : p.isLeaving s r = false := by
  rw [Bool.eq_false_iff, Ne, isLeaving_iff, h.contains_replaced]
  rintro ⟨_, hreplaced | ⟨_, n, hn, _, hi⟩⟩
  · simp at hreplaced
  · rw [(h.nodes n hn).1] at hi
    simp at hi

/-! ### The choice -/

/-- The hints are the constraints of all dependents on the package, for none of them leaves. -/
lemma admits_hints_iff (h : p.Unchanged kept s) (hfollow : p.rules.follow = true)
    (hs : p.rules.sideBySide = false) {r : Release} {name : String} (hname : r.name = name) :
    (∀ v ∈ p.hints s name, v.admits r.version = true) ↔ p.installed.Welcomes r := by
  subst hname
  simp only [hints, hs, hfollow, Bool.not_true, Bool.or_self, Bool.false_eq_true, if_false,
    List.mem_map, List.mem_filter, h.isLeaving_eq_false, Bool.not_false, and_true]
  refine ⟨?_, ?_⟩
  · intro hall q hq hne d hd hname
    refine ⟨hname.symm, hall d.constraint ⟨(q, d.constraint), ?_, rfl⟩⟩
    exact Catalog.mem_dependentsOf_iff.mpr ⟨hq, hne, hname ▸ hd⟩
  · rintro hwelcome _ ⟨⟨q, v⟩, hdep, rfl⟩
    obtain ⟨hq, hne, hd⟩ := Catalog.mem_dependentsOf_iff.mp hdep
    exact (hwelcome q hq hne _ hd rfl).2

/-- The candidates begin with all installed releases of the package. -/
lemma candidates_eq (h : p.Unchanged kept s) (name : String) :
    p.candidates s name =
      (p.installed.releasesOf name).reverse.map (fun r => ⟨r, true⟩) ++
        ((p.available.releasesOf name).reverse.filter fun r =>
          !p.installed.containsRelease r.id).map fun r => ⟨r, false⟩ := by
  simp [candidates, h.contains_replaced]

/-- The first candidate that will do is taken if it is welcome, or nothing that will do is. -/
lemma or_find?_head? {α : Type} {test : α → Bool} {a : α} {rest : List α}
    (h : test a = true ∨ ∀ b ∈ a :: rest, test b = false) :
    (((a :: rest).find? test).or (a :: rest).head?) = some a := by
  rcases h with h | h
  · simp [h]
  · have hnone : (a :: rest).find? test = none := by
      simpa [List.find?_eq_none] using h
    simp [hnone]

/-- A candidate that every required constraint admits is accepted by a dependency among them. -/
lemma accepts_of_fits {d : Dependency} {required : List Constraint} {n : Graph.Node}
    (hmem : d.constraint ∈ required) (hname : n.release.name = d.name)
    (hall : required.all (fun v => v.admits n.release.version) = true) : d.Accepts n.release :=
  ⟨hname, List.all_eq_true.mp hall _ hmem⟩

/-- The candidates that will do begin with an installed one, if some installed release will do. -/
lemma exists_fitting_eq_cons (h : p.Unchanged kept s) {d : Dependency} (hmet : p.installed.Meets d)
    {required : List Constraint} (hmem : d.constraint ∈ required)
    (hrequired : ∀ r ∈ p.installed.releases, d.Accepts r →
      ∀ v ∈ required, v.admits r.version = true) :
    ∃ r rest, r ∈ p.installed.releases ∧ d.Accepts r ∧
      (p.candidates s d.name).filter (fun n => required.all fun v => v.admits n.release.version) =
        ⟨r, true⟩ :: rest := by
  obtain ⟨r, hr, hacc⟩ := hmet
  rw [h.candidates_eq, List.filter_append]
  generalize hfit : (((p.installed.releasesOf d.name).reverse.map
    fun r => (⟨r, true⟩ : Graph.Node)).filter fun n =>
      required.all fun v => v.admits n.release.version) = fitting
  cases fitting with
  | nil =>
      have hnot := List.filter_eq_nil_iff.mp hfit ⟨r, true⟩
        (List.mem_map_of_mem (List.mem_reverse.mpr (Catalog.mem_releasesOf_iff.mpr ⟨hr, hacc.1⟩)))
      exact absurd (List.all_eq_true.mpr (hrequired r hr hacc)) hnot
  | cons n rest =>
      have hn : n ∈ n :: rest := List.mem_cons_self
      rw [← hfit, List.mem_filter] at hn
      obtain ⟨hn, hall⟩ := hn
      obtain ⟨q, hq, rfl⟩ := List.mem_map.mp hn
      obtain ⟨hq, hname⟩ := Catalog.mem_releasesOf_iff.mp (List.mem_reverse.mp hq)
      exact ⟨q, _, hq, accepts_of_fits hmem hname hall, rfl⟩

/-- Where no installed release that is accepted is welcome, no candidate that is accepted is. -/
lemma not_hinted (h : p.Unchanged kept s) (hstable : p.Stable kept)
    (hfollow : p.rules.follow = true) (hs : p.rules.sideBySide = false) {d : Dependency}
    (hd : p.Secures kept d) {r : Release} (hr : r ∈ p.installed.releases) (hacc : d.Accepts r)
    (hwelcome : ¬ p.installed.Welcomes r) {n : Graph.Node} (hn : n ∈ p.candidates s d.name)
    (hnacc : d.Accepts n.release) :
    ((p.hints s d.name).all fun v => v.admits n.release.version) = false := by
  refine Bool.eq_false_iff.mpr fun hhints => ?_
  have hnone := (hd.preferred hs r hr hacc).resolve_left hwelcome
  have hname := (mem_releases_of_mem_candidates hn).2
  have hn_welcome := (h.admits_hints_iff hfollow hs hname).mp (List.all_eq_true.mp hhints)
  cases offers_of_mem_candidates hn with
  | installed hq =>
      obtain rfl := hstable.unique hs _ hq r hr (hname.trans hacc.1.symm)
      exact hwelcome hn_welcome
  | available ha _ => exact hnone _ ha hnacc hn_welcome

/-- The choice for a secured dependency is an installed release of the kind. -/
theorem exists_choose_eq (h : p.Unchanged kept s) (hstable : p.Stable kept)
    (hfollow : p.rules.follow = true) {d : Dependency} (hd : p.Secures kept d)
    {required : List Constraint} (hmem : d.constraint ∈ required)
    (hrequired : ∀ r ∈ p.installed.releases, d.Accepts r →
      ∀ v ∈ required, v.admits r.version = true) :
    ∃ r, kept r ∧ p.choose s d.name required = some ⟨r, true⟩ := by
  obtain ⟨r, rest, hr, hacc, hfitting⟩ := h.exists_fitting_eq_cons hd.met hmem hrequired
  refine ⟨r, hd.kept r hr hacc, ?_⟩
  rw [choose, hfitting]
  apply or_find?_head?
  cases hs : p.rules.sideBySide with
  | true => simp [hints, hs]
  | false =>
      by_cases hwelcome : p.installed.Welcomes r
      · exact .inl (List.all_eq_true.mpr ((h.admits_hints_iff hfollow hs hacc.1).mpr hwelcome))
      · refine .inr fun n hn => ?_
        rw [← hfitting, List.mem_filter] at hn
        have hname := (mem_releases_of_mem_candidates hn.1).2
        exact h.not_hinted hstable hfollow hs hd hr hacc hwelcome hn.1
          (accepts_of_fits hmem hname hn.2)

end Unchanged

/-! ### Runs -/

/-- For a secured dependency an installed release of the kind is chosen. -/
lemma Stable.provides {p : Problem} {kept : Release → Prop} (h : p.Stable kept)
    (hfollow : p.rules.follow = true) :
    p.Provides (fun n => n.installed = true ∧ kept n.release) (p.Secures kept) where
  declared n hn := h.secured _ hn.2
  accepted hs n hn ho d hd hname := by
    obtain ⟨r, hr, hacc⟩ := hd.met
    obtain rfl := h.unique hs _ (ho.mem_installed hn.1) r hr (hname.trans hacc.1.symm)
    exact hacc
  chosen s hs d hd required hmem hdue hside := by
    have hunchanged : p.Unchanged kept s := ⟨hs.replaced, hs.nodes, hs.requests⟩
    have hrequired : ∀ r ∈ p.installed.releases, d.Accepts r →
        ∀ v ∈ required, v.admits r.version = true := by
      intro r hr hacc v hv
      cases hs : p.rules.sideBySide with
      | true =>
          rw [hside hs, List.mem_singleton] at hv
          exact hv ▸ hacc.2
      | false =>
          obtain ⟨q, hq, hqacc⟩ := (hdue v hv).met
          obtain rfl := h.unique hs q hq r hr (hqacc.1.trans hacc.1.symm)
          exact hqacc.2
    obtain ⟨r, hr, hchoose⟩ := hunchanged.exists_choose_eq h hfollow hd hmem hrequired
    exact ⟨_, ⟨rfl, hr⟩, hchoose⟩

namespace Unchanged

variable {p : Problem} {kept : Release → Prop} {s : Selection}

/-- A run does not fail, and chooses releases of the kind only. -/
theorem run (h : p.Unchanged kept s) (hstable : p.Stable kept) (hfollow : p.rules.follow = true)
    {tasks : List Task} (hsound : p.Sound s tasks) :
    ∃ t, p.run s tasks = .ok t ∧ p.Unchanged kept t := by
  obtain ⟨t, ht, hwithin⟩ := (hstable.provides hfollow).run
    ⟨h.replaced, h.nodes, h.requests⟩ hsound
  exact ⟨t, ht, hwithin.replaced, hwithin.nodes, hwithin.requests⟩

/-! ### The plan -/

lemma prune (h : p.Unchanged kept s) : p.Unchanged kept s.prune :=
  ⟨h.replaced, fun n hn => h.nodes n (Selection.mem_nodes_prune_iff.mp hn).1, h.requests⟩

lemma leaving_eq_empty (h : p.Unchanged kept s) : p.leaving s = .empty :=
  Problem.leaving_eq_empty h.replaced fun _ n hn hi => by simp [(h.nodes n hn).1] at hi

lemma finish (h : p.Unchanged kept s) : p.finish s = .ok s :=
  finish_eq_ok h.leaving_eq_empty

/-- The plan is empty. -/
theorem planOf_eq_empty (h : p.Unchanged kept s) : p.planOf s = {} := by
  have harrivals : arrivals s.prune = [] := by
    rw [List.eq_nil_iff_forall_not_mem]
    intro r hr
    have hi := (h.prune.nodes _ (mem_arrivals_iff.mp hr).1).1
    simp at hi
  rw [planOf_eq, harrivals, h.prune.leaving_eq_empty]
  rfl

end Unchanged

end Problem

end PackagePlanner
