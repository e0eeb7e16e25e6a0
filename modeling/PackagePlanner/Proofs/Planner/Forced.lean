import PackagePlanner.Proofs.Planner.Closure
import PackagePlanner.Proofs.Planner.Order
import PackagePlanner.Proofs.Planner.Undo
import PackagePlanner.Proofs.Resolution.Provided

/-!
Installs that have nothing to choose.

* `Planner.Forced`: no package has two versions in the two catalogs together. `Planner.usable` lists
  the releases that a project can then have, each in the form in which it is chosen.
* `Planner.Mentions` leads from a release to what bears the name of one of its dependencies, whether
  or not it is accepted, and `Planner.Resolves` asks that all that is mentioned is accepted.
* `Forced.provides`: if it is, every requirement is met by what is mentioned; `Forced.chosen_iff`:
  what is chosen for a request is what its root mentions.
* `install_forced`: hence an install of such catalogs succeeds exactly if the root is accepted and
  resolves, and adds what it mentions that the project lacks.
-/

namespace PackagePlanner

namespace Planner

/-! ### What can be chosen -/

/-- A package has one version in both catalogs together. -/
def Forced (p : Planner) : Prop :=
  ∀ r ∈ p.installed.releases ++ p.available.releases,
    ∀ q ∈ p.installed.releases ++ p.available.releases, r.name = q.name → r.version = q.version

instance (p : Planner) : Decidable p.Forced :=
  inferInstanceAs (Decidable (∀ r ∈ p.installed.releases ++ p.available.releases,
    ∀ q ∈ p.installed.releases ++ p.available.releases, r.name = q.name → r.version = q.version))

/-- The installed releases, and the available ones that are not installed. -/
def usable (p : Planner) : List Release :=
  p.installed.releases ++ p.available.releases.filter fun r => !p.installed.containsRelease r.id

/-- The first release declares a dependency on the package of the second, which it may or may not
accept. -/
def Mentions (p : Planner) (r q : Release) : Prop :=
  q ∈ p.usable ∧ ∃ d ∈ r.dependencies.toList, q.name = d.name

/-- What a release mentions directly or by way of others has all its dependencies accepted. -/
def Resolves (p : Planner) (root : Release) : Prop :=
  ∀ r, Relation.ReflTransGen p.Mentions root r →
    ∀ d ∈ r.dependencies.toList, ∃ q ∈ p.usable, d.Accepts q

variable {p : Planner} {name text : String} {c : Constraint} {follow : Bool} {root : Release}

lemma mem_usable_iff (follow : Bool) {r : Release} :
    r ∈ p.usable ↔ ∃ n, (p.installProblem follow).Offers n ∧ n.release = r := by
  simp only [usable, List.mem_append, List.mem_filter, Bool.not_eq_true', Bool.eq_false_iff, Ne,
    Catalog.containsRelease_iff, not_exists, not_and]
  constructor
  · rintro (hr | ⟨hr, hnew⟩)
    · exact ⟨⟨r, true⟩, .installed hr, rfl⟩
    · exact ⟨⟨r, false⟩, .available hr hnew, rfl⟩
  · rintro ⟨n, hn, rfl⟩
    cases hn with
    | installed hr => exact .inl hr
    | available hr hnew => exact .inr ⟨hr, hnew⟩

lemma mem_catalogs_of_usable {r : Release} (h : r ∈ p.usable) :
    r ∈ p.installed.releases ++ p.available.releases := by
  rcases List.mem_append.mp h with hr | hr
  · exact List.mem_append_left _ hr
  · exact List.mem_append_right _ (List.mem_filter.mp hr).1

/-- An available package can be chosen, as it is installed if it is. -/
lemma exists_usable_of_containsPackage (h : p.available.containsPackage name = true) :
    ∃ r ∈ p.usable, r.name = name := by
  obtain ⟨r, hr, hname⟩ := Catalog.containsPackage_iff.mp h
  by_cases hinstalled : p.installed.containsRelease r.id = true
  · obtain ⟨q, hq, hid⟩ := Catalog.containsRelease_iff.mp hinstalled
    exact ⟨q, List.mem_append_left _ hq, (congrArg ReleaseId.name hid).trans hname⟩
  · exact ⟨r, List.mem_append_right _ (List.mem_filter.mpr ⟨hr, by simpa using hinstalled⟩), hname⟩

namespace Forced

/-- A name can be chosen in one form only. -/
lemma eq_of_name_eq (h : p.Forced) {r q : Release} (hr : r ∈ p.usable) (hq : q ∈ p.usable)
    (hname : r.name = q.name) : r = q := by
  have hversion := h r (mem_catalogs_of_usable hr) q (mem_catalogs_of_usable hq) hname
  obtain ⟨n, hn, rfl⟩ := (mem_usable_iff true).mp hr
  obtain ⟨m, hm, rfl⟩ := (mem_usable_iff true).mp hq
  have hid : n.id = m.id := by
    simp only [Graph.Node.id, Release.id, hname, hversion]
  rw [hn.eq_of_id_eq hm hid]

lemma node_eq (h : p.Forced) {n m : Graph.Node} (hn : (p.installProblem follow).Offers n)
    (hm : (p.installProblem follow).Offers m) (hname : n.release.name = m.release.name) :
    n = m := by
  have hrelease := h.eq_of_name_eq ((mem_usable_iff follow).mpr ⟨n, hn, rfl⟩)
    ((mem_usable_iff follow).mpr ⟨m, hm, rfl⟩) hname
  exact hn.eq_of_id_eq hm (congrArg Release.id hrelease)

/-! ### What is chosen -/

/-- If the root resolves, every requirement that comes up is met by what it mentions. -/
lemma provides (h : p.Forced) (follow : Bool) (hroot : p.Resolves root) :
    (p.installProblem follow).Provides
      (fun n => (p.installProblem follow).Offers n ∧
        Relation.ReflTransGen p.Mentions root n.release)
      (fun d => ∃ n, (p.installProblem follow).Offers n ∧
        Relation.ReflTransGen p.Mentions root n.release ∧ d.Accepts n.release) where
  declared n hn d hd := by
    obtain ⟨q, hq, hacc⟩ := hroot n.release hn.2 d hd
    obtain ⟨m, hm, rfl⟩ := (mem_usable_iff follow).mp hq
    exact ⟨m, hm, hn.2.tail ⟨hq, d, hd, hacc.1⟩, hacc⟩
  accepted _ n hn _ d hd hname := by
    obtain ⟨m, hm, _, hacc⟩ := hd
    rw [h.node_eq hn.1 hm (hname.trans hacc.1.symm)]
    exact hacc
  chosen s hs d hd required _ hdue _ := by
    obtain ⟨n, hn, hreach, hacc⟩ := hd
    have hcandidate := Problem.mem_candidates_of_offers hn (hs.contains_replaced n.id)
    rw [hacc.1] at hcandidate
    obtain ⟨m, hm⟩ := Problem.exists_choose_eq_some hcandidate fun v hv => by
      obtain ⟨k, hk, _, hkacc⟩ := hdue v hv
      rw [h.node_eq hn hk (hacc.1.trans hkacc.1.symm)]
      exact hkacc.2
    -- the only candidate is the one that is known to do
    obtain ⟨hmem, _⟩ := Problem.mem_candidates_of_choose hm
    have hmname := (Problem.mem_releases_of_mem_candidates hmem).2
    obtain rfl := h.node_eq (Problem.offers_of_mem_candidates hmem) hn (hmname.trans hacc.1.symm)
    exact ⟨m, ⟨hn, hreach⟩, hm⟩

/-- No chosen release comes in the place of another. -/
lemma leaving_eq_empty (h : p.Forced) {s : Selection} (hreplaced : s.replaced.toList = [])
    (hoffered : ∀ n ∈ s.graph.nodes.toList, (p.installProblem follow).Offers n) :
    (p.installProblem follow).leaving s = .empty := by
  refine Problem.leaving_eq_empty hreplaced fun _ n hn hnew => ?_
  rw [List.eq_nil_iff_forall_not_mem]
  intro r hr
  obtain ⟨hr, hname⟩ := Catalog.mem_releasesOf_iff.mp hr
  obtain rfl := h.node_eq (hoffered n hn) (.installed hr) hname.symm
  simp at hnew

/-- An install succeeds if the root is accepted and resolves. -/
theorem exists_installSelection (h : p.Forced) (follow : Bool)
    (havailable : p.available.containsPackage name = true) (hc : Constraint.parse text = .ok c)
    (husable : root ∈ p.usable) (hacc : (⟨name, c⟩ : Dependency).Accepts root)
    (hroot : p.Resolves root) : ∃ s, p.installSelection name text follow = .ok s := by
  obtain ⟨n, hn, rfl⟩ := (mem_usable_iff follow).mp husable
  obtain ⟨s, hs, hwithin⟩ := (h.provides follow hroot).run
    (s := { requests := [⟨name, c⟩] })
    ⟨rfl, by simp, fun r hr => by
      rw [List.mem_singleton.mp hr]
      exact ⟨n, hn, .refl, hacc⟩⟩ ((Problem.Sound.empty _).ask name c)
  have hmet : p.available.Meets ⟨name, c⟩ ∨ p.installed.Meets ⟨name, c⟩ := by
    cases hn with
    | installed hr => exact .inr ⟨_, hr, hacc⟩
    | available hr _ => exact .inl ⟨_, hr, hacc⟩
  have hfinish : (p.installProblem follow).finish s = .ok s :=
    Problem.finish_eq_ok (h.leaving_eq_empty hwithin.replaced fun n hn => (hwithin.nodes n hn).1)
  exact ⟨s, (installSelection_eq havailable hc hmet hs).trans hfinish⟩

section Selection

variable {s : Selection}

lemma usable_of_chosen (hs : (p.installProblem follow).Standing s) {r : Release}
    (hr : r ∈ s.chosen) : r ∈ p.usable := by
  obtain ⟨n, hn, rfl⟩ := Selection.mem_chosen_iff.mp hr
  exact (mem_usable_iff follow).mpr ⟨n, hs.prune.offered n hn, rfl⟩

/-- What a chosen release mentions is chosen. -/
lemma chosen_of_mentions (h : p.Forced) (hs : (p.installProblem true).Standing s)
    (hroot : root ∈ s.chosen) {r : Release} (hr : Relation.ReflTransGen p.Mentions root r) :
    r ∈ s.chosen := by
  induction hr with
  | refl => exact hroot
  | @tail r q _ hmention ih =>
      obtain ⟨hq, d, hd, hname⟩ := hmention
      obtain ⟨k, hk, hacc⟩ := hs.selfContained_chosen rfl r ih d hd
      obtain rfl := h.eq_of_name_eq (usable_of_chosen hs hk) hq (hacc.1.trans hname.symm)
      exact hk

/-- What is chosen for one request is mentioned by its root. -/
lemma mentions_of_chosen (h : p.Forced) (hs : (p.installProblem follow).Standing s)
    (hrequests : s.requests = [⟨name, c⟩]) (hroot : root ∈ s.chosen) (hname : root.name = name)
    {r : Release} (hr : r ∈ s.chosen) : Relation.ReflTransGen p.Mentions root r := by
  obtain ⟨n, hn, rfl⟩ := Selection.mem_chosen_iff.mp hr
  obtain ⟨request, hrequest, k, hk, hchain⟩ := hs.exists_root hn
  have hkmem := Graph.mem_of_target? hk
  have hkname : k.release.name = name := by
    rw [hrequests, List.mem_singleton] at hrequest
    rw [(Graph.accepts_of_target? hk).1, hrequest]
  obtain rfl := h.eq_of_name_eq (usable_of_chosen hs hroot)
    (usable_of_chosen hs (Selection.mem_chosen_iff.mpr ⟨k, hkmem, rfl⟩)) (hname.trans hkname.symm)
  refine Relation.ReflTransGen.mono (fun r q hstep => ?_) _ _ hchain
  obtain ⟨d, hd, target, htarget, rfl⟩ := hstep
  refine ⟨usable_of_chosen hs (Selection.mem_chosen_iff.mpr ?_), d, hd,
    (Graph.accepts_of_target? htarget).1⟩
  exact ⟨target, Graph.mem_of_target? htarget, rfl⟩

/-- What is chosen for one request is exactly what its root mentions. -/
theorem chosen_iff (h : p.Forced) (hs : (p.installProblem true).Standing s)
    (hrequests : s.requests = [⟨name, c⟩]) (hroot : root ∈ s.chosen) (hname : root.name = name)
    {r : Release} : r ∈ s.chosen ↔ Relation.ReflTransGen p.Mentions root r :=
  ⟨h.mentions_of_chosen hs hrequests hroot hname, h.chosen_of_mentions hs hroot⟩

/-- The root of a request is chosen, accepted, and resolves. -/
lemma root_of_request (h : p.Forced) (hs : (p.installProblem true).Standing s)
    (hrequests : s.requests = [⟨name, c⟩]) (husable : root ∈ p.usable) (hname : root.name = name) :
    root ∈ s.chosen ∧ c.admits root.version = true ∧ p.Resolves root := by
  have hrequest : ⟨name, c⟩ ∈ s.requests := by
    rw [hrequests]
    exact List.mem_cons_self
  obtain ⟨r, hr, hacc⟩ := hs.exists_chosen_of_request hrequest
  obtain rfl := h.eq_of_name_eq husable (usable_of_chosen hs hr) (hname.trans hacc.1.symm)
  refine ⟨hr, hacc.2, fun q hq d hd => ?_⟩
  obtain ⟨k, hk, hkacc⟩ := hs.selfContained_chosen rfl q (h.chosen_of_mentions hs hr hq) d hd
  exact ⟨k, usable_of_chosen hs hk, hkacc⟩

/-- The plan adds the chosen releases that are not installed. -/
lemma mem_added_iff (hs : (p.installProblem follow).Standing s) {r : Release} :
    r ∈ ((p.installProblem follow).planOf s).added ↔
      r ∈ s.chosen ∧ p.installed.containsRelease r.id = false := by
  rw [Problem.Standing.mem_added_iff, Selection.mem_chosen_iff, Bool.eq_false_iff, Ne,
    Catalog.containsRelease_iff]
  constructor
  · intro hr
    refine ⟨⟨_, hr, rfl⟩, ?_⟩
    rintro ⟨q, hq, hid⟩
    exact (hs.prune.offered _ hr).id_ne_of_not_installed rfl hq hid
  · rintro ⟨⟨⟨q, installed⟩, hn, rfl⟩, hnew⟩
    cases installed with
    | false => exact hn
    | true => exact absurd ⟨q, (hs.prune.offered _ hn).mem_installed rfl, rfl⟩ hnew

/-- The plan removes nothing. -/
lemma removed_eq_nil (h : p.Forced) (hs : (p.installProblem follow).Standing s)
    (hreplaced : s.replaced = .empty) : ((p.installProblem follow).planOf s).removed = [] := by
  have hnone : s.prune.replaced.toList = [] := congrArg Keyed.toList hreplaced
  exact Problem.removed_eq_nil (h.leaving_eq_empty hnone hs.prune.offered)

end Selection

end Forced

/-! ### The plan -/

/-- If no package has two versions in the two catalogs, an install of an available package succeeds
if and only if its version is accepted and all that it mentions, in any number of steps, is accepted
in turn. The plan then adds, each once, just those mentioned releases that are not installed, and
removes nothing. -/
theorem install_forced (hforced : p.Forced) (havailable : p.available.containsPackage name = true)
    (hc : Constraint.parse text = .ok c) :
    ∃ root ∈ p.usable, root.name = name ∧
      ((∃ plan, p.install name text true = .ok plan) ↔
        c.admits root.version = true ∧ p.Resolves root) ∧
      ∀ plan, p.install name text true = .ok plan →
        plan.removed = [] ∧ (plan.added.map Release.id).Nodup ∧
          ∀ r, r ∈ plan.added ↔ Relation.ReflTransGen p.Mentions root r ∧
            p.installed.containsRelease r.id = false := by
  obtain ⟨root, husable, hname⟩ := exists_usable_of_containsPackage havailable
  have chosen {s : Selection} (hs : p.installSelection name text true = .ok s) :
      s.requests = [⟨name, c⟩] ∧ (p.installProblem true).Settled s ∧ s.replaced = .empty := by
    obtain ⟨c', hc', hrequests, hsettled, hreplaced, _⟩ := installSelection_eq_ok hs
    obtain rfl := Except.ok.inj (hc.symm.trans hc')
    exact ⟨hrequests, hsettled, hreplaced⟩
  refine ⟨root, husable, hname, ⟨?_, ?_⟩, ?_⟩
  · rintro ⟨plan, hplan⟩
    obtain ⟨s, hs, _⟩ := map_eq_ok_iff.mp hplan
    obtain ⟨hrequests, hsettled, _⟩ := chosen hs
    exact (hforced.root_of_request hsettled.toStanding hrequests husable hname).2
  · rintro ⟨hadmits, hroot⟩
    obtain ⟨s, hs⟩ := hforced.exists_installSelection true havailable hc husable
      ⟨hname, hadmits⟩ hroot
    exact ⟨(p.installProblem true).planOf s, by rw [install, hs, Except.map]⟩
  · intro plan hplan
    obtain ⟨s, hs, rfl⟩ := map_eq_ok_iff.mp hplan
    obtain ⟨hrequests, hsettled, hreplaced⟩ := chosen hs
    have hroot := (hforced.root_of_request hsettled.toStanding hrequests husable hname).1
    refine ⟨hforced.removed_eq_nil hsettled.toStanding hreplaced, hsettled.exact.added_once,
      fun r => ?_⟩
    rw [← hforced.chosen_iff hsettled.toStanding hrequests hroot hname]
    exact Forced.mem_added_iff hsettled.toStanding

/-- A host and a plugin that need each other, and an installed library. The library of the
repository needs a package that there is not; the installed one of its version needs the host. -/
def hostWithLibrary : Planner where
  available := .ofReleases .repository [
    { name := "host", version := ⟨1, 2, 0⟩,
      dependencies := Keyed.ofList [⟨"plugin", .any⟩, ⟨"lib", .atLeast ⟨1, 0, 0⟩⟩] },
    { name := "plugin", version := ⟨1, 0, 0⟩,
      dependencies := Keyed.ofList [⟨"host", .exact ⟨1, 2, 0⟩⟩, ⟨"theme", .any⟩] },
    { name := "lib", version := ⟨1, 0, 0⟩, dependencies := Keyed.ofList [⟨"ghost", .any⟩] },
    { name := "tool", version := ⟨1, 0, 0⟩ }]
  installed := .ofReleases .installed [
    { name := "lib", version := ⟨1, 0, 0⟩, dependencies := Keyed.ofList [⟨"host", .any⟩] },
    { name := "theme", version := ⟨1, 0, 0⟩ }]

/-- The host and the plugin are added, for the installed library is the one that counts. -/
theorem install_forced_hostWithLibrary :
    ∃ plan, hostWithLibrary.install "host" "1.0.0+" true = .ok plan ∧
      plan.added.map Release.id = [⟨"plugin", ⟨1, 0, 0⟩⟩, ⟨"host", ⟨1, 2, 0⟩⟩] ∧
      plan.removed = [] ∧
      ∃ root ∈ hostWithLibrary.usable, root.name = "host" ∧ hostWithLibrary.Resolves root ∧
        ∀ r, r ∈ plan.added ↔ Relation.ReflTransGen hostWithLibrary.Mentions root r ∧
          hostWithLibrary.installed.containsRelease r.id = false := by
  have hadded : (hostWithLibrary.install "host" "1.0.0+" true).map
      (fun plan => plan.added.map Release.id) =
        .ok [⟨"plugin", ⟨1, 0, 0⟩⟩, ⟨"host", ⟨1, 2, 0⟩⟩] := by decide +kernel
  have hparse : Constraint.parse "1.0.0+" = .ok (.atLeast ⟨1, 0, 0⟩) := by decide +kernel
  have havailable : hostWithLibrary.available.containsPackage "host" = true := by decide +kernel
  obtain ⟨root, husable, hname, hiff, hplan⟩ :=
    install_forced (by decide +kernel) havailable hparse
  obtain ⟨plan, h, hids⟩ := map_eq_ok_iff.mp hadded
  obtain ⟨hremoved, _, hmem⟩ := hplan plan h
  exact ⟨plan, h, hids, hremoved, root, husable, hname, (hiff.mp ⟨plan, h⟩).2, hmem⟩

end Planner

end PackagePlanner
