import PackagePlanner.Proofs.Planner.Change
import PackagePlanner.Proofs.Planner.RemovalOrder

/-!
What a removal takes out of a project.

* `InBatch`: the installed releases that a removal asks for. `exists_remove_iff`: it succeeds if
  each listed package has one of them and they block nobody.
* `takesOut_remove`: it takes out the batch and nothing else, each release before those that it
  links to, and only which packages are listed decides what is taken out.
* `meets_remove_iff`: a release that stays keeps what it needs of other packages. What it needs of
  its own package is not looked at, and may be lost (`exists_remove_needed_by_own_package`).
* `unharmed_remove` and `consistent_remove`: in a closed project those who stay are unharmed, and a
  consistent project stays consistent.
-/

namespace PackagePlanner

namespace Planner

variable {p : Planner} {c : Constraint} {names : List String} {text : String} {follow : Bool}
  {plan : Plan}

/-! ### The batch of a removal -/

/-- The releases that a removal asks for: those of the listed packages that the constraint
accepts. -/
def InBatch (p : Planner) (c : Constraint) (names : List String) (r : Release) : Prop :=
  r ∈ p.installed.releases ∧ r.name ∈ names ∧ c.admits r.version = true

/-- The accepted installed releases of one package. -/
def matchedOf (p : Planner) (c : Constraint) (name : String) : List Release :=
  ((p.installed.package? name).map fun package => package.matching c).getD []

lemma mem_matchedOf_iff {name : String} {r : Release} :
    r ∈ p.matchedOf c name ↔
      r ∈ p.installed.releases ∧ r.name = name ∧ c.admits r.version = true := by
  rw [← and_assoc, ← Catalog.mem_releasesOf_iff, matchedOf]
  cases h : p.installed.package? name with
  | none =>
      refine ⟨fun hr => by simp at hr, fun hr => ?_⟩
      obtain ⟨hmem, rfl⟩ := Catalog.mem_releasesOf_iff.mp hr.1
      obtain ⟨package, hpackage⟩ := Catalog.exists_package?_of_mem hmem
      rw [h] at hpackage
      simp at hpackage
  | some package =>
      rw [← Catalog.releases_of_package? h]
      simp [Package.matching, Package.newestFirst]

lemma matched_cons_eq_ok_iff {name : String} {found : List Release} :
    p.matched c (name :: names) = .ok found ↔
      p.matchedOf c name ≠ [] ∧
        ∃ others, p.matched c names = .ok others ∧ p.matchedOf c name ++ others = found := by
  rw [matched, ← matchedOf]
  split
  · rename_i hnone
    simp [hnone]
  · rename_i hne
    split <;> simp_all

/-- What is matched is the batch. -/
lemma mem_matched_iff {found : List Release} (h : p.matched c names = .ok found) {r : Release} :
    r ∈ found ↔ p.InBatch c names r := by
  induction names generalizing found with
  | nil =>
      obtain rfl := Except.ok.inj h
      simp [InBatch]
  | cons name rest ih =>
      obtain ⟨_, others, hothers, rfl⟩ := matched_cons_eq_ok_iff.mp h
      rw [List.mem_append, mem_matchedOf_iff, ih hothers, InBatch, InBatch, List.mem_cons]
      tauto

lemma matchedOf_ne_nil_iff {name : String} (h : name ∈ names) :
    p.matchedOf c name ≠ [] ↔ ∃ r, p.InBatch c names r ∧ r.name = name := by
  constructor
  · intro hne
    obtain ⟨r, hr⟩ := List.exists_mem_of_ne_nil _ hne
    obtain ⟨hmem, hname, hadmits⟩ := mem_matchedOf_iff.mp hr
    exact ⟨r, ⟨hmem, hname ▸ h, hadmits⟩, hname⟩
  · rintro ⟨r, ⟨hr, _, hadmits⟩, hname⟩
    exact List.ne_nil_of_mem (mem_matchedOf_iff.mpr ⟨hr, hname, hadmits⟩)

lemma exists_matched_iff :
    (∃ found, p.matched c names = .ok found) ↔ ∀ name ∈ names, p.matchedOf c name ≠ [] := by
  induction names with
  | nil => simp [matched]
  | cons name rest ih =>
      simp only [matched_cons_eq_ok_iff, List.forall_mem_cons, ← ih]
      constructor
      · rintro ⟨_, hne, others, hothers, _⟩
        exact ⟨hne, others, hothers⟩
      · rintro ⟨hne, others, hothers⟩
        exact ⟨_, hne, others, hothers, rfl⟩

/-- The matched releases, each once, are the batch. -/
lemma mem_ofList_matched_iff {found : List Release} (h : p.matched c names = .ok found)
    {r : Release} : r ∈ (Keyed.ofList found : Keyed Release.id).toList ↔ p.InBatch c names r := by
  rw [← mem_matched_iff h]
  refine Keyed.mem_ofList_iff ?_
  intro a ha b hb hid
  exact Catalog.eq_of_id_eq ((mem_matched_iff h).mp ha).1 ((mem_matched_iff h).mp hb).1 hid

/-! ### Who is blocked -/

/-- Whoever stays and needs a package that loses a release finds a release of it that stays, unless
this is its own package. -/
def Unblocked (p : Planner) (c : Constraint) (names : List String) : Prop :=
  ∀ q, p.InBatch c names q → ∀ r ∈ p.installed.releases, ¬ p.InBatch c names r →
    ∀ d ∈ r.dependencies.toList, d.name = q.name → d.name ≠ r.name →
      ∃ k ∈ p.installed.releases, ¬ p.InBatch c names k ∧ d.Accepts k

section Batch

variable {removing : Keyed Release.id} (hbatch : ∀ r, r ∈ removing.toList ↔ p.InBatch c names r)

include hbatch

lemma contains_batch_iff {r : Release} (hr : r ∈ p.installed.releases) :
    removing.contains r.id = true ↔ p.InBatch c names r := by
  rw [Keyed.contains_iff, ← hbatch]
  constructor
  · rintro ⟨q, hq, hid⟩
    obtain rfl := Catalog.eq_of_id_eq ((hbatch q).mp hq).1 hr hid
    exact hq
  · intro hmem
    exact ⟨r, hmem, rfl⟩

lemma contains_batch_eq_false_iff {r : Release} (hr : r ∈ p.installed.releases) :
    removing.contains r.id = false ↔ ¬ p.InBatch c names r := by
  rw [← contains_batch_iff hbatch hr, Bool.not_eq_true]

lemma blocked?_eq_none_iff : p.blocked? removing = none ↔ p.Unblocked c names := by
  simp only [blocked?, List.findSome?_eq_none_iff, Option.map_eq_none_iff, List.find?_eq_none,
    Bool.and_eq_true, Bool.not_eq_true', not_and, Bool.not_eq_false, List.any_eq_true,
    Catalog.mem_releasesOf_iff]
  constructor
  · intro hnone q hq r hr hstays d hd hname hne
    have hdep : (r, d.constraint) ∈ p.installed.dependentsOf q.name :=
      Catalog.mem_dependentsOf_iff.mpr ⟨hr, hname ▸ hne.symm, hname ▸ hd⟩
    obtain ⟨k, ⟨hk, hkname⟩, hkstays, hadmits⟩ := hnone q ((hbatch q).mpr hq) _ hdep
      ((contains_batch_eq_false_iff hbatch hr).mpr hstays)
    exact ⟨k, hk, (contains_batch_eq_false_iff hbatch hk).mp hkstays, hkname.trans hname.symm,
      hadmits⟩
  · rintro hall q hq ⟨r, v⟩ hdep hstays
    obtain ⟨hr, hne, hd⟩ := Catalog.mem_dependentsOf_iff.mp hdep
    obtain ⟨k, hk, hkstays, hkname, hadmits⟩ := hall q ((hbatch q).mp hq) r hr
      ((contains_batch_eq_false_iff hbatch hr).mp hstays) ⟨q.name, v⟩ hd rfl hne.symm
    exact ⟨k, ⟨hk, hkname⟩, (contains_batch_eq_false_iff hbatch hk).mpr hkstays, hadmits⟩

/-- The project without a batch. -/
lemma mem_releases_removed_iff {r : Release} :
    r ∈ (p.installed.apply { removed := removalOrder removing }).releases ↔
      r ∈ p.installed.releases ∧ ¬ p.InBatch c names r := by
  rw [Catalog.mem_releases_apply_iff (by simp)]
  simp only [List.not_mem_nil, false_or, List.map_nil, not_false_eq_true, and_true]
  refine and_congr_right fun hr => ?_
  rw [← contains_batch_iff hbatch hr, Keyed.contains_iff, List.mem_map]
  simp only [mem_removalOrder_iff]

lemma meets_removed_iff {d : Dependency} :
    (p.installed.apply { removed := removalOrder removing }).Meets d ↔
      ∃ k ∈ p.installed.releases, ¬ p.InBatch c names k ∧ d.Accepts k := by
  simp only [Catalog.Meets, mem_releases_removed_iff hbatch, and_assoc]

/-- If nobody is blocked, whoever stays keeps what it needs of other packages. -/
lemma meets_removed_of_unblocked (hunblocked : p.Unblocked c names) {r : Release}
    (hr : r ∈ p.installed.releases) (hstays : ¬ p.InBatch c names r) {d : Dependency}
    (hd : d ∈ r.dependencies.toList) (hname : d.name ≠ r.name) (hmet : p.installed.Meets d) :
    (p.installed.apply { removed := removalOrder removing }).Meets d := by
  rw [meets_removed_iff hbatch]
  obtain ⟨q, hq, hacc⟩ := hmet
  by_cases hgone : p.InBatch c names q
  · exact hunblocked q hgone r hr hstays d hd hacc.1.symm hname
  · exact ⟨q, hq, hgone, hacc⟩

end Batch

/-! ### When a removal succeeds -/

lemma remove_eq_ok_iff :
    p.remove names text follow = .ok plan ↔
      ∃ c found, Constraint.parse text = .ok c ∧ p.matched c names = .ok found ∧
        (follow = true → p.blocked? (Keyed.ofList found) = none) ∧
          { removed := removalOrder (Keyed.ofList found) } = plan := by
  rw [remove, constraint]
  cases Constraint.parse text with
  | error e => simp [Except.mapError]
  | ok c =>
      simp only [Except.mapError]
      cases hm : p.matched c names with
      | error e => simp [hm]
      | ok found =>
          cases follow with
          | false => simp [hm]
          | true => cases hb : p.blocked? (Keyed.ofList found) <;> simp [hm, hb]

/-- A removal takes out its batch, and blocks nobody if dependencies are followed. -/
lemma remove_eq_ok (h : p.remove names text follow = .ok plan) :
    ∃ c, Constraint.parse text = .ok c ∧ (follow = true → p.Unblocked c names) ∧
      ∃ removing : Keyed Release.id, plan = { removed := removalOrder removing } ∧
        ∀ r, r ∈ removing.toList ↔ p.InBatch c names r := by
  obtain ⟨c, found, hc, hfound, hblocked, rfl⟩ := remove_eq_ok_iff.mp h
  have hbatch : ∀ r, r ∈ (Keyed.ofList found : Keyed Release.id).toList ↔ p.InBatch c names r :=
    fun _ => mem_ofList_matched_iff hfound
  exact ⟨c, hc, fun hf => (blocked?_eq_none_iff hbatch).mp (hblocked hf), _, rfl, hbatch⟩

/-- A removal succeeds if each listed package has an accepted release and, as far as dependencies
are followed, nobody is blocked. -/
theorem exists_remove_iff :
    (∃ plan, p.remove names text follow = .ok plan) ↔
      ∃ c, Constraint.parse text = .ok c ∧
        (∀ name ∈ names, ∃ r, p.InBatch c names r ∧ r.name = name) ∧
          (follow = true → p.Unblocked c names) := by
  simp only [remove_eq_ok_iff]
  constructor
  · rintro ⟨_, c, found, hc, hfound, hblocked, _⟩
    refine ⟨c, hc, fun name hname => ?_, fun hf => ?_⟩
    · exact (matchedOf_ne_nil_iff hname).mp (exists_matched_iff.mp ⟨found, hfound⟩ name hname)
    · exact (blocked?_eq_none_iff fun _ => mem_ofList_matched_iff hfound).mp (hblocked hf)
  · rintro ⟨c, hc, hnames, hunblocked⟩
    obtain ⟨found, hfound⟩ := exists_matched_iff.mpr fun name hname =>
      (matchedOf_ne_nil_iff hname).mpr (hnames name hname)
    have hblocked (hf : follow = true) : p.blocked? (Keyed.ofList found) = none :=
      (blocked?_eq_none_iff fun _ => mem_ofList_matched_iff hfound).mpr (hunblocked hf)
    exact ⟨_, c, found, hc, hfound, hblocked, rfl⟩

/-! ### What a removal takes out -/

/-- The batch depends on which packages are listed, not on how. -/
lemma inBatch_congr {names' : List String} (h : ∀ name, name ∈ names' ↔ name ∈ names) :
    p.InBatch c names' = p.InBatch c names := by
  funext r
  rw [InBatch, InBatch, h]

lemma exists_remove_congr {names' : List String} (h : ∀ name, name ∈ names' ↔ name ∈ names) :
    (∃ plan, p.remove names' text follow = .ok plan) ↔
      ∃ plan, p.remove names text follow = .ok plan := by
  simp only [exists_remove_iff, Unblocked, inBatch_congr h, h]

lemma exists_takesOut (h : p.remove names text follow = .ok plan) :
    ∃ c, Constraint.parse text = .ok c ∧ plan.TakesOut (p.InBatch c names) := by
  obtain ⟨c, hc, _, removing, rfl, hbatch⟩ := remove_eq_ok h
  exact ⟨c, hc,
    { added := rfl
      exact := fun r => mem_removalOrder_iff.trans (hbatch r)
      once := nodup_removalOrder removing
      ordered := fun before r after hsplit t ht => after_or_links_back hsplit ht }⟩

/-- A removal takes out the releases of the listed packages that the constraint accepts. Listing
the packages in another order, or one of them more often, makes no difference to its success and to
what it takes out. -/
theorem takesOut_remove (p : Planner) (names : List String) (text : String) (follow : Bool) :
    (∀ plan, p.remove names text follow = .ok plan →
        ∃ c, Constraint.parse text = .ok c ∧ plan.TakesOut (p.InBatch c names)) ∧
      ∀ names', (∀ name, name ∈ names' ↔ name ∈ names) →
        ((∃ plan, p.remove names' text follow = .ok plan) ↔
            ∃ plan, p.remove names text follow = .ok plan) ∧
          ∀ plan plan', p.remove names text follow = .ok plan →
            p.remove names' text follow = .ok plan' → plan'.removed.Perm plan.removed := by
  refine ⟨fun plan h => exists_takesOut h, fun names' hnames => ⟨exists_remove_congr hnames, ?_⟩⟩
  intro plan plan' h h'
  obtain ⟨c, hc, htakes⟩ := exists_takesOut h
  obtain ⟨c', hc', htakes'⟩ := exists_takesOut h'
  obtain rfl : c = c' := Except.ok.inj (hc.symm.trans hc')
  rw [List.perm_ext_iff_of_nodup htakes'.once.of_map htakes.once.of_map]
  intro r
  rw [htakes'.exact, htakes.exact, inBatch_congr hnames]

/-- An application and its plugin that need each other, and versions of a library side by side. -/
def tangledProject : Planner where
  available := .empty .repository
  installed := .ofReleases .installed [
    { name := "lib", version := ⟨1, 0, 0⟩ },
    { name := "lib", version := ⟨2, 0, 0⟩ },
    { name := "lib", version := ⟨3, 0, 0⟩ },
    { name := "app", version := ⟨1, 0, 0⟩,
      dependencies := Keyed.ofList [⟨"lib", .atMost ⟨2, 0, 0⟩⟩, ⟨"plugin", .any⟩] },
    { name := "plugin", version := ⟨1, 0, 0⟩,
      dependencies := Keyed.ofList [⟨"app", .any⟩] }]

/-- The application goes before the library that serves it. Its plugin, which needs it in turn, comes
after it too, and the library that is too new is not of the batch. -/
theorem takesOut_remove_tangledProject :
    ∃ plan, tangledProject.remove ["lib", "app", "plugin", "lib"] "2-" true = .ok plan ∧
      plan.removed.map Release.id =
        [⟨"app", ⟨1, 0, 0⟩⟩, ⟨"plugin", ⟨1, 0, 0⟩⟩, ⟨"lib", ⟨1, 0, 0⟩⟩, ⟨"lib", ⟨2, 0, 0⟩⟩] ∧
      (∃ c, Constraint.parse "2-" = .ok c ∧
        plan.TakesOut (tangledProject.InBatch c ["lib", "app", "plugin", "lib"])) ∧
      ∃ plan', tangledProject.remove ["plugin", "app", "lib"] "2-" true = .ok plan' ∧
        plan'.removed.Perm plan.removed := by
  have hplan : (tangledProject.remove ["lib", "app", "plugin", "lib"] "2-" true).map
      (fun plan => plan.removed.map Release.id) =
        .ok [⟨"app", ⟨1, 0, 0⟩⟩, ⟨"plugin", ⟨1, 0, 0⟩⟩, ⟨"lib", ⟨1, 0, 0⟩⟩, ⟨"lib", ⟨2, 0, 0⟩⟩] := by
    decide +kernel
  obtain ⟨plan, h, hids⟩ := map_eq_ok_iff.mp hplan
  obtain ⟨htakes, hcongr⟩ :=
    takesOut_remove tangledProject ["lib", "app", "plugin", "lib"] "2-" true
  obtain ⟨hsuccess, hperm⟩ := hcongr ["plugin", "app", "lib"] (by simp; tauto)
  obtain ⟨plan', h'⟩ := hsuccess.mpr ⟨plan, h⟩
  exact ⟨plan, h, hids, htakes plan h, plan', h', hperm plan plan' h h'⟩

/-! ### What stays -/

/-- All that a dependency accepts is in the batch just if its package is listed and the constraint
accepts all of it. -/
lemma forall_inBatch_iff {d : Dependency} (hmet : p.installed.Meets d) :
    (∀ k ∈ p.installed.releases, d.Accepts k → p.InBatch c names k) ↔
      d.name ∈ names ∧ ∀ k ∈ p.installed.releases, d.Accepts k → c.admits k.version = true := by
  constructor
  · intro hall
    obtain ⟨q, hq, hacc⟩ := hmet
    refine ⟨?_, fun k hk hkacc => (hall k hk hkacc).2.2⟩
    rw [← hacc.1]
    exact (hall q hq hacc).2.1
  · rintro ⟨hlisted, hall⟩ k hk hacc
    exact ⟨hk, hacc.1 ▸ hlisted, hall k hk hacc⟩

/-- A removal leaves every release that stays what it needed of other packages. What it needed of
its own package is lost just if the constraint accepts all of it, and the package is listed. -/
theorem meets_remove_iff (h : p.remove names text true = .ok plan) :
    ∃ c, Constraint.parse text = .ok c ∧
      ∀ r ∈ (p.installed.apply plan).releases, ∀ d ∈ r.dependencies.toList, p.installed.Meets d →
        ((p.installed.apply plan).Meets d ↔
          ¬ (d.name = r.name ∧ d.name ∈ names ∧
            ∀ q ∈ p.installed.releases, d.Accepts q → c.admits q.version = true)) := by
  obtain ⟨c, hc, hunblocked, removing, rfl, hbatch⟩ := remove_eq_ok h
  refine ⟨c, hc, fun r hr d hd hmet => ?_⟩
  obtain ⟨hinstalled, hstays⟩ := (mem_releases_removed_iff hbatch).mp hr
  by_cases hname : d.name = r.name
  · rw [meets_removed_iff hbatch, and_iff_right hname, ← forall_inBatch_iff hmet]
    simp only [not_forall, exists_prop, and_comm]
  · have hkept := meets_removed_of_unblocked hbatch (hunblocked rfl) hinstalled hstays hd hname hmet
    simp [hkept, hname]

/-- Two versions of a library, the newer one of which needs the older one, and an application. -/
def chainedLibrary : Planner where
  available := .empty .repository
  installed := .ofReleases .installed [
    { name := "lib", version := ⟨1, 0, 0⟩ },
    { name := "lib", version := ⟨2, 0, 0⟩,
      dependencies := Keyed.ofList [⟨"lib", .exact ⟨1, 0, 0⟩⟩] },
    { name := "app", version := ⟨1, 0, 0⟩, dependencies := Keyed.ofList [⟨"lib", .any⟩] }]

/-- The older one can be taken out: the application accepts the newer one as well. -/
theorem meets_remove_iff_chainedLibrary :
    ∃ plan, chainedLibrary.remove ["lib"] "1!" true = .ok plan ∧
      plan.removed.map Release.id = [⟨"lib", ⟨1, 0, 0⟩⟩] ∧
      ∃ c, Constraint.parse "1!" = .ok c ∧
        ∀ r ∈ (chainedLibrary.installed.apply plan).releases, ∀ d ∈ r.dependencies.toList,
          chainedLibrary.installed.Meets d →
            ((chainedLibrary.installed.apply plan).Meets d ↔
              ¬ (d.name = r.name ∧ d.name ∈ ["lib"] ∧
                ∀ q ∈ chainedLibrary.installed.releases,
                  d.Accepts q → c.admits q.version = true)) := by
  have hplan : (chainedLibrary.remove ["lib"] "1!" true).map
      (fun plan => plan.removed.map Release.id) = .ok [⟨"lib", ⟨1, 0, 0⟩⟩] := by decide +kernel
  obtain ⟨plan, h, hids⟩ := map_eq_ok_iff.mp hplan
  exact ⟨plan, h, hids, meets_remove_iff h⟩

/-- The newer one stays, and has lost the older one that it needs. -/
theorem exists_remove_needed_by_own_package :
    ∃ plan, chainedLibrary.remove ["lib"] "1!" true = .ok plan ∧
      ∃ r ∈ (chainedLibrary.installed.apply plan).releases, ∃ d ∈ r.dependencies.toList,
        chainedLibrary.installed.Meets d ∧ ¬ (chainedLibrary.installed.apply plan).Meets d := by
  have hplan : (chainedLibrary.remove ["lib"] "1!" true).map (fun plan =>
      decide (∃ r ∈ (chainedLibrary.installed.apply plan).releases, ∃ d ∈ r.dependencies.toList,
        chainedLibrary.installed.Meets d ∧ ¬ (chainedLibrary.installed.apply plan).Meets d)) =
      .ok true := by decide +kernel
  obtain ⟨plan, h, hlost⟩ := map_eq_ok_iff.mp hplan
  exact ⟨plan, h, of_decide_eq_true hlost⟩

/-- A removal leaves those who stay in a closed project unharmed. -/
theorem unharmed_remove (hclosed : p.installed.Closed)
    (h : p.remove names text true = .ok plan) :
    p.installed.Unharmed (p.installed.apply plan) := by
  obtain ⟨c, hc, hunblocked, removing, rfl, hbatch⟩ := remove_eq_ok h
  intro r hr hafter d hd hname
  have hstays := ((mem_releases_removed_iff hbatch).mp hafter).2
  exact meets_removed_of_unblocked hbatch (hunblocked rfl) hr hstays hd hname (hclosed r hr d hd)

/-- A removal leaves a consistent project consistent. -/
theorem consistent_remove (hinstalled : p.installed.Consistent)
    (h : p.remove names text true = .ok plan) : (p.installed.apply plan).Consistent := by
  have hunharmed := unharmed_remove hinstalled.closed h
  obtain ⟨c, _, _, removing, rfl, hbatch⟩ := remove_eq_ok h
  refine ⟨fun r hr q hq hname => ?_, fun r hr d hd => ?_⟩
  · exact hinstalled.unique r ((mem_releases_removed_iff hbatch).mp hr).1 q
      ((mem_releases_removed_iff hbatch).mp hq).1 hname
  · have hbefore := ((mem_releases_removed_iff hbatch).mp hr).1
    exact hinstalled.meets_of_unharmed hunharmed hbefore hr hd

end Planner

end PackagePlanner
