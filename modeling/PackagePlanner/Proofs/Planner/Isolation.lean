import PackagePlanner.Proofs.Planner.History
import PackagePlanner.Proofs.Planner.Upgrade
import PackagePlanner.Proofs.Resolution.Alike

/-!
Without the dependencies, other packages do not bear on an operation.

* `Selection.Confined`: what is chosen and what is replaced are releases of some packages.
  `Problem.keeps_confined`: if dependencies are not followed, requirements on these packages choose
  nothing else, and hence are met in the same way by all problems that are alike for them
  (`Problem.request_eq`).
* `Planner.AgreesOn`: two planners whose catalogs have the same releases of some packages.
  `Planner.planAlone_eq`: an operation on these packages has the same outcome for both, and what it
  adds and removes are releases of these packages.
-/

namespace PackagePlanner

/-! ### Selections of some packages -/

/-- A selection that chooses and replaces releases of some packages only. -/
structure Selection.Confined (s : Selection) (names : List String) : Prop where
  /-- What is chosen is a release of one of the packages. -/
  chosen : ∀ n ∈ s.graph.nodes.toList, n.release.name ∈ names
  /-- What is replaced is a release of one of the packages. -/
  replaced : ∀ r ∈ s.replaced.toList, r.name ∈ names

/-- Work that has to do with some packages only. -/
def Task.Confined (names : List String) : Task → Prop
  | .require name _ _ => name ∈ names
  | .follow _ _ => False
  | .prune => True

namespace Selection.Confined

variable {s t : Selection} {names : List String}

lemma empty (names : List String) : Selection.Confined {} names :=
  ⟨by simp, by simp⟩

lemma congr (h : s.Confined names) (hnodes : t.graph.nodes = s.graph.nodes)
    (hreplaced : t.replaced = s.replaced) : t.Confined names :=
  ⟨hnodes ▸ h.chosen, hreplaced ▸ h.replaced⟩

lemma note (h : s.Confined names) (name : String) (c : Constraint) (requirer : Requirer) :
    (s.note name c requirer).Confined names :=
  h.congr (by simp) (by simp)

lemma addNode (h : s.Confined names) {n : Graph.Node} (hn : n.release.name ∈ names) :
    Selection.Confined { s with graph := s.graph.addNode n } names where
  chosen m hm := by
    rcases Keyed.mem_insert hm with rfl | hm
    · exact hn
    · exact h.chosen m hm
  replaced := h.replaced

lemma replace (h : s.Confined names) {old : Release} (hold : old.name ∈ names) :
    Selection.Confined { s with replaced := s.replaced.insert old } names where
  chosen := h.chosen
  replaced r hr := by
    rcases Keyed.mem_insert hr with rfl | hr
    · exact hold
    · exact h.replaced r hr

lemma deselect (h : s.Confined names) (name : String) : (s.deselect name).Confined names :=
  ⟨fun n hn => h.chosen n (mem_nodes_deselect_iff.mp hn).1, h.replaced⟩

lemma prune (h : s.Confined names) : s.prune.Confined names :=
  ⟨fun n hn => h.chosen n (mem_nodes_prune_iff.mp hn).1, h.replaced⟩

end Selection.Confined

namespace Problem

variable {p q : Problem} {names : List String} {s t : Selection} {name : String} {c : Constraint}

/-- Without dependencies a choice gives rise to nothing. -/
lemma select_eq_of_not_follow (hfollow : p.rules.follow = false) (s : Selection)
    (n : Graph.Node) : p.select s n = ({ s with graph := s.graph.addNode n }, []) := by
  rw [select, hfollow, Bool.false_and, if_neg Bool.false_ne_true]

lemma name_mem_of_candidate {n : Graph.Node} (hn : n ∈ p.candidates s name)
    (hname : name ∈ names) : n.release.name ∈ names :=
  (mem_releases_of_mem_candidates hn).2 ▸ hname

/-- Requirements on some packages choose nothing else and require nothing else. -/
lemma keeps_confined (hfollow : p.rules.follow = false) :
    p.Keeps fun s tasks => s.Confined names ∧ ∀ task ∈ tasks, task.Confined names := by
  rintro s task rest t more ⟨hs, htasks⟩ hperform
  obtain ⟨htask, hrest⟩ := List.forall_mem_cons.mp htasks
  cases move_of_perform hperform with
  | met => exact ⟨hs.note .., hrest⟩
  | beside _ _ hn _ =>
      rw [select_eq_of_not_follow hfollow]
      exact ⟨(hs.note ..).addNode (name_mem_of_candidate hn htask), hrest⟩
  | first _ hn _ =>
      rw [select_eq_of_not_follow hfollow]
      exact ⟨(hs.note ..).addNode (name_mem_of_candidate hn htask), hrest⟩
  | @changed name c requirer n u _ _ hn _ hu =>
      have hu : u.Confined names := by
        rw [hu]
        exact Selection.Confined.deselect (hs.congr (by simp) (by simp)) name
      rw [select_eq_of_not_follow hfollow]
      refine ⟨hu.addNode (name_mem_of_candidate hn htask), ?_⟩
      exact List.forall_mem_cons.mpr ⟨trivial, hrest⟩
  | followed => exact absurd htask id
  | left => exact absurd htask id
  | pruned => exact ⟨hs.prune, hrest⟩

/-! ### Requests -/

lemma confined_start (hs : s.Confined names) (hname : name ∈ names) :
    Selection.Confined { s with requests := s.requests ++ [⟨name, c⟩] } names ∧
      ∀ task ∈ [Task.require name c .request], task.Confined names :=
  ⟨hs.congr rfl rfl, by simpa [Task.Confined] using hname⟩

variable (hfollow : p.rules.follow = false)

include hfollow

lemma confined_request (hs : s.Confined names) (hname : name ∈ names)
    (h : p.request s name c = .ok t) : t.Confined names :=
  (((keeps_confined hfollow).run (confined_start hs hname)).1 t h).1

lemma confined_pin {wanted old : Release} (hs : s.Confined names) (hwanted : wanted.name ∈ names)
    (hold : old.name ∈ names) (h : p.pin s wanted (some old) = .ok t) : t.Confined names :=
  confined_request hfollow (hs.replace hold) hwanted h

variable (halike : ∀ name ∈ names, p.Alike q name)

include halike

/-- A request is met in the same way by problems that are alike for the packages. -/
theorem request_eq (hs : s.Confined names) (hname : name ∈ names) :
    p.request s name c = q.request s name c := by
  refine (keeps_confined hfollow).run_eq (fun u task rest hu => perform_eq ?_)
    (confined_start hs hname)
  rintro other _ _ rfl
  exact halike other (List.forall_mem_cons.mp hu.2).1

lemma pin_eq {wanted old : Release} (hs : s.Confined names) (hwanted : wanted.name ∈ names)
    (hold : old.name ∈ names) : p.pin s wanted (some old) = q.pin s wanted (some old) :=
  request_eq hfollow halike (hs.replace hold) hwanted

omit hfollow

/-- The same releases leave. -/
lemma leaving_eq (hrules : p.rules = q.rules) (hs : s.Confined names) :
    p.leaving s = q.leaving s := by
  have harriving : ((s.graph.nodes.toList.filter fun n => !n.installed).flatMap fun n =>
        (p.installed.releasesOf n.release.name).filter fun r => !s.graph.contains r.id) =
      (s.graph.nodes.toList.filter fun n => !n.installed).flatMap fun n =>
        (q.installed.releasesOf n.release.name).filter fun r => !s.graph.contains r.id :=
    List.flatMap_congr fun n hn => by
      rw [(halike _ (hs.chosen n (List.mem_filter.mp hn).1)).installed]
  simp only [leaving, hrules, harriving]

lemma planOf_eq_of_alike (hrules : p.rules = q.rules) (hs : s.Confined names) :
    p.planOf s = q.planOf s := by
  rw [planOf_eq, planOf_eq, leaving_eq halike hrules hs.prune]

omit halike

/-- The plan is about releases of the packages. -/
lemma name_mem_of_planOf (hstanding : p.Standing s) (hs : s.Confined names) {r : Release}
    (hr : r ∈ (p.planOf s).added ++ (p.planOf s).removed) : r.name ∈ names := by
  rcases List.mem_append.mp hr with hr | hr
  · exact hs.prune.chosen _ (Standing.mem_added_iff.mp hr)
  · obtain ⟨_, hleaving⟩ := hstanding.mem_removed_iff.mp hr
    obtain ⟨_, hreplaced | ⟨_, n, hn, hname, _⟩⟩ := isLeaving_iff.mp hleaving
    · obtain ⟨old, hold, hid⟩ := Keyed.contains_iff.mp hreplaced
      have hname : old.name = r.name := congrArg ReleaseId.name hid
      exact hname ▸ hs.prune.replaced old hold
    · exact hname ▸ hs.prune.chosen n hn

end Problem

/-! ### Operations on some packages -/

/-- The packages that a change asks for. -/
def Change.names : Change → List String
  | .install name _ => [name]
  | .upgrade names _ => names

/-- The packages that an operation asks for. -/
def Operation.names : Operation → List String
  | .change requested => requested.names
  | .remove names _ => names

namespace Planner

/-- The plan of an operation when dependencies are not followed. -/
def planAlone (p : Planner) : Operation → Except PlanError Plan
  | .change change => p.planWith false change
  | .remove names text => p.remove names text false

variable {p q : Planner} {names : List String} {name : String}

lemma name_newestInstalled_mem {requested : List String} {current : List Release}
    (hcurrent : p.newestInstalled requested = .ok current) : ∀ r ∈ current, r.name ∈ requested := by
  intro r hr
  obtain ⟨name, hname, _, rfl, _⟩ := (isNewest_of_newestInstalled hcurrent).2.1 r hr
  exact hname

lemma name_upgradeOf_mem {c : Constraint} {r wanted : Release} (hr : r.name ∈ names)
    (hwanted : p.upgradeOf c r = some wanted) : wanted.name ∈ names :=
  (upgradeOf_eq_some_iff.mp hwanted).1.2.1 ▸ hr

lemma confined_pinUpgrades {c : Constraint} {s t : Selection} {current : List Release}
    (hs : s.Confined names) (hcurrent : ∀ r ∈ current, r.name ∈ names)
    (ht : p.pinUpgrades false c s current = .ok t) : t.Confined names := by
  induction current generalizing s with
  | nil =>
      obtain rfl := Except.ok.inj ht
      exact hs
  | cons r rest ih =>
      obtain ⟨hr, hrest⟩ := List.forall_mem_cons.mp hcurrent
      rw [pinUpgrades] at ht
      split at ht
      · exact ih hs hrest ht
      · rename_i wanted hwanted
        split at ht
        · simp at ht
        · rename_i u hu
          exact ih (Problem.confined_pin rfl hs (name_upgradeOf_mem hr hwanted) hr hu) hrest ht

/-- What a change chooses without the dependencies is of the packages that it asks for. -/
lemma confined_selectionWith {change : Change} {s : Selection}
    (h : p.selectionWith false change = .ok s) : s.Confined change.names := by
  cases change with
  | install name text =>
      obtain ⟨_, _, _, hrequest, _⟩ := request_of_installSelection h
      exact Problem.confined_request rfl (.empty _) (List.mem_singleton_self name) hrequest
  | upgrade names text =>
      obtain ⟨_, _, t, _, hcurrent, hpins, hfinish⟩ := pins_of_upgradeSelection h
      obtain rfl : t = s := Except.ok.inj hfinish
      exact confined_pinUpgrades (.empty names) (name_newestInstalled_mem hcurrent) hpins

/-- What an operation adds and removes are releases of the packages that it asks for. -/
lemma name_mem_of_planAlone {op : Operation} {plan : Plan} (h : p.planAlone op = .ok plan) :
    ∀ r ∈ plan.added ++ plan.removed, r.name ∈ op.names := by
  intro r hr
  cases op with
  | change change =>
      obtain ⟨s, hs, rfl⟩ := planWith_eq_ok_iff.mp h
      exact Problem.name_mem_of_planOf (settled_of_selectionWith hs).toStanding
        (confined_selectionWith hs) hr
  | remove names text =>
      have hremove : p.remove names text false = .ok plan := h
      obtain ⟨_, _, htakes⟩ := exists_takesOut hremove
      rw [htakes.added, List.nil_append] at hr
      exact ((htakes.exact r).mp hr).2.1

/-! ### Planners that agree on some packages -/

/-- Two planners with the same releases of some packages. -/
structure AgreesOn (p q : Planner) (names : List String) : Prop where
  /-- The same releases of the packages are available. -/
  available : ∀ r : Release, r.name ∈ names →
    (r ∈ p.available.releases ↔ r ∈ q.available.releases)
  /-- The same releases of the packages are installed. -/
  installed : ∀ r : Release, r.name ∈ names →
    (r ∈ p.installed.releases ↔ r ∈ q.installed.releases)
  /-- Releases may stand side by side for both or for neither. -/
  sideBySide : p.sideBySide = q.sideBySide

namespace AgreesOn

variable (h : p.AgreesOn q names)

include h

lemma releasesOf_available (hname : name ∈ names) :
    p.available.releasesOf name = q.available.releasesOf name :=
  Catalog.releasesOf_eq fun r hr => h.available r (hr ▸ hname)

lemma releasesOf_installed (hname : name ∈ names) :
    p.installed.releasesOf name = q.installed.releasesOf name :=
  Catalog.releasesOf_eq fun r hr => h.installed r (hr ▸ hname)

lemma package?_available (hname : name ∈ names) :
    p.available.package? name = q.available.package? name :=
  Catalog.package?_eq (h.releasesOf_available hname)

lemma package?_installed (hname : name ∈ names) :
    p.installed.package? name = q.installed.package? name :=
  Catalog.package?_eq (h.releasesOf_installed hname)

lemma rules_eq (change : Change) :
    (p.problemWith false change).rules = (q.problemWith false change).rules := by
  cases change <;> simp only [problemWith, installProblem, upgradeProblem, h.sideBySide]

/-- Without dependencies there are no hints, so the planners are alike for each package. -/
lemma alike (change : Change) :
    ∀ name ∈ names, (p.problemWith false change).Alike (q.problemWith false change) name := by
  intro name hname
  refine ⟨h.rules_eq change, ?_, ?_, fun s test => ?_⟩
  · cases change <;> exact h.releasesOf_available hname
  · cases change <;> exact h.releasesOf_installed hname
  · cases change <;> simp [Problem.hints, problemWith, installProblem, upgradeProblem]

lemma installSelection_eq (hname : name ∈ names) (text : String) :
    p.installSelection name text false = q.installSelection name text false := by
  have hrequest (c : Constraint) :
      (p.installProblem false).request {} name c = (q.installProblem false).request {} name c :=
    Problem.request_eq rfl (h.alike (.install name text)) (.empty names) hname
  simp only [installSelection, Catalog.find?, h.package?_available hname,
    h.package?_installed hname, hrequest]
  rfl

lemma newestInstalled_eq {requested : List String} (hsub : requested ⊆ names) :
    p.newestInstalled requested = q.newestInstalled requested := by
  induction requested with
  | nil => rfl
  | cons name rest ih =>
      obtain ⟨hname, hrest⟩ := List.cons_subset.mp hsub
      have ih := ih hrest
      rw [newestInstalled, newestInstalled] at ih ⊢
      rw [List.mapM_cons, List.mapM_cons, ih, h.package?_installed hname]

lemma upgradeOf_eq (c : Constraint) {r : Release} (hr : r.name ∈ names) :
    p.upgradeOf c r = q.upgradeOf c r := by
  rw [upgradeOf, upgradeOf, h.package?_available hr]

lemma pinUpgrades_eq (c : Constraint) {s : Selection} {current : List Release}
    (hs : s.Confined names) (hcurrent : ∀ r ∈ current, r.name ∈ names) :
    p.pinUpgrades false c s current = q.pinUpgrades false c s current := by
  induction current generalizing s with
  | nil => rfl
  | cons r rest ih =>
      obtain ⟨hr, hrest⟩ := List.forall_mem_cons.mp hcurrent
      rw [pinUpgrades, pinUpgrades, ← h.upgradeOf_eq c hr]
      split
      · exact ih hs hrest
      · rename_i wanted hwanted
        have hname := name_upgradeOf_mem hr hwanted
        -- the problem of an upgrade does not depend on what the upgrade asks for
        have hpin : (p.upgradeProblem false).pin s wanted (some r) =
            (q.upgradeProblem false).pin s wanted (some r) :=
          Problem.pin_eq rfl (h.alike (.upgrade names "")) hs hname hr
        rw [← hpin]
        split
        · rfl
        · rename_i u hu
          exact ih (Problem.confined_pin rfl hs hname hr hu) hrest

lemma upgradeSelection_eq (text : String) :
    p.upgradeSelection names text false = q.upgradeSelection names text false := by
  rw [upgradeSelection, upgradeSelection, ← h.newestInstalled_eq (List.Subset.refl names)]
  split
  · rfl
  · rename_i c _
    split
    · rfl
    · rename_i current hcurrent
      rw [← h.pinUpgrades_eq c (.empty names) (name_newestInstalled_mem hcurrent)]
      rfl

end AgreesOn

variable {change : Change} {op : Operation}

lemma selectionWith_eq (h : p.AgreesOn q change.names) :
    p.selectionWith false change = q.selectionWith false change := by
  cases change with
  | install name text => exact h.installSelection_eq (List.mem_singleton_self name) text
  | upgrade names text => exact h.upgradeSelection_eq text

/-! ### Outcomes -/

/-- A change has the same plan for both. -/
lemma planWith_eq_of_agreesOn (h : p.AgreesOn q change.names) :
    p.planWith false change = q.planWith false change := by
  rw [planWith_eq, planWith_eq, ← selectionWith_eq h]
  cases hs : p.selectionWith false change with
  | error e => rfl
  | ok s =>
      exact congrArg Except.ok (Problem.planOf_eq_of_alike (h.alike change) (h.rules_eq change)
        (confined_selectionWith hs))

lemma matched_eq (h : p.AgreesOn q names) (c : Constraint)
    {requested : List String} (hsub : requested ⊆ names) :
    p.matched c requested = q.matched c requested := by
  induction requested with
  | nil => rfl
  | cons name rest ih =>
      obtain ⟨hname, hrest⟩ := List.cons_subset.mp hsub
      rw [matched, matched, ih hrest, h.package?_installed hname]

/-- A removal has the same plan for both. -/
lemma remove_eq_of_agreesOn (h : p.AgreesOn q names) (text : String) :
    p.remove names text false = q.remove names text false := by
  simp only [remove, matched_eq h _ (List.Subset.refl names), Bool.false_eq_true, if_false]

/-- An operation has the same plan for both. -/
lemma planAlone_eq (h : p.AgreesOn q op.names) : p.planAlone op = q.planAlone op := by
  cases op with
  | change change => exact planWith_eq_of_agreesOn h
  | remove names text => exact remove_eq_of_agreesOn h text

/-- Without the dependencies other packages do not bear on an operation: two planners with the same
releases of the packages that it asks for have the same plan, or fail with the same error, and what
it adds and removes are releases of these packages. -/
theorem planAlone_isolated (h : p.AgreesOn q op.names) :
    p.planAlone op = q.planAlone op ∧
      ∀ plan, p.planAlone op = .ok plan →
        ∀ r ∈ plan.added ++ plan.removed, r.name ∈ op.names :=
  ⟨planAlone_eq h, fun _ => name_mem_of_planAlone⟩

/-- Two versions of a library, the newer of which needs a codec. -/
def libraryWithCodec : List Release :=
  [{ name := "lib", version := ⟨1, 0, 0⟩ },
    { name := "lib", version := ⟨2, 0, 0⟩, dependencies := Keyed.ofList [⟨"codec", .any⟩] }]

/-- A project with the old library alone, and a repository without the codec. -/
def lonelyLibrary : Planner where
  available := .ofReleases .repository libraryWithCodec
  installed := .ofReleases .installed [{ name := "lib", version := ⟨1, 0, 0⟩ }]

/-- A project with a tool that needs the old library, and a repository with the codec. -/
def libraryInUse : Planner where
  available := .ofReleases .repository
    ({ name := "codec", version := ⟨1, 0, 0⟩ } :: libraryWithCodec)
  installed := .ofReleases .installed [
    { name := "tool", version := ⟨1, 0, 0⟩,
      dependencies := Keyed.ofList [⟨"lib", .exact ⟨1, 0, 0⟩⟩] },
    { name := "lib", version := ⟨1, 0, 0⟩ }]

/-- The upgrade of the library does not miss the codec in one project, and the tool does not hold it
back in the other. With the dependencies it fails in both, for different reasons. -/
theorem planAlone_isolated_lonelyLibrary :
    let op := Operation.change (.upgrade ["lib"] "*")
    lonelyLibrary.AgreesOn libraryInUse op.names ∧
      ∃ plan, libraryInUse.planAlone op = .ok plan ∧ lonelyLibrary.planAlone op = .ok plan ∧
        plan.added.map Release.id = [⟨"lib", ⟨2, 0, 0⟩⟩] ∧
        plan.removed.map Release.id = [⟨"lib", ⟨1, 0, 0⟩⟩] ∧
        (∀ r ∈ plan.added ++ plan.removed, r.name ∈ op.names) ∧
        lonelyLibrary.planFor op = .error (.resolution (.missing "codec" ["lib@2.0.0"])) ∧
        libraryInUse.planFor op = .error (.hasDependent "lib" "tool") := by
  have hsame {rs qs : List Release} (h : ∀ r ∈ rs, r.name ∈ ["lib"] → r ∈ qs)
      (h' : ∀ r ∈ qs, r.name ∈ ["lib"] → r ∈ rs) (r : Release) (hr : r.name ∈ ["lib"]) :
      r ∈ rs ↔ r ∈ qs :=
    ⟨fun hmem => h r hmem hr, fun hmem => h' r hmem hr⟩
  have hagree : lonelyLibrary.AgreesOn libraryInUse
      (Operation.change (.upgrade ["lib"] "*")).names :=
    ⟨hsame (by decide +kernel) (by decide +kernel), hsame (by decide +kernel) (by decide +kernel),
      rfl⟩
  have hplan : (lonelyLibrary.planAlone (.change (.upgrade ["lib"] "*"))).map
      (fun plan => (plan.added.map Release.id, plan.removed.map Release.id)) =
        .ok ([⟨"lib", ⟨2, 0, 0⟩⟩], [⟨"lib", ⟨1, 0, 0⟩⟩]) := by decide +kernel
  obtain ⟨plan, hok, hids⟩ := map_eq_ok_iff.mp hplan
  obtain ⟨hsame, hnames⟩ := planAlone_isolated hagree
  obtain ⟨hadded, hremoved⟩ := Prod.mk.inj hids
  exact ⟨hagree, plan, hsame ▸ hok, hok, hadded, hremoved, hnames plan hok, by decide +kernel,
    by decide +kernel⟩

end Planner

end PackagePlanner
