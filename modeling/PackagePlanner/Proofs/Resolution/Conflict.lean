import PackagePlanner.Proofs.Resolution.Bounds

/-!
Why a resolution cannot go on.

* `Problem.Fails` lists why a task cannot be performed, and `perform_eq_error_iff` says that these
  are all: no candidate satisfies what is required, or a package has changed its choice too often.
* `mem_candidates_iff`, `choose_eq_none_iff`: nothing can be chosen if no offered release is
  accepted, replaced ones apart. `unsatisfiable_eq_missing` and `exists_unsatisfiable_eq`: the
  package is reported as missing if it has no release at all.
-/

namespace PackagePlanner

/-! ### The closest release -/

lemma Package.mem_of_closest? {p : Package} {c : Constraint} {r : Release}
    (h : p.closest? c = some r) : r ∈ p.releases.toList := by
  rcases Option.or_eq_some_iff.mp h with h | ⟨_, h⟩
  · rcases Option.or_eq_some_iff.mp h with h | ⟨_, h⟩
    · exact List.mem_reverse.mp (List.mem_of_find?_eq_some h)
    · exact List.mem_of_find?_eq_some h
  · exact List.mem_of_getLast? h

/-- A package that is shown has a release which is closest to a constraint. -/
lemma Catalog.exists_closest? {c : Catalog} {name : String} {p : Package}
    (h : c.package? name = some p) (v : Constraint) :
    ∃ r ∈ c.releases, r.name = name ∧ p.closest? v = some r := by
  have hshown : p.releases.toList ≠ [] := by
    simpa [Package.isEmpty] using (Option.filter_eq_some_iff.mp h).2
  have hsome : (p.closest? v).isSome = true := by
    rw [Package.closest?, Option.isSome_or, Package.newest?, Bool.or_eq_true]
    exact .inr (List.getLast?_isSome.mpr hshown)
  obtain ⟨r, hr⟩ := Option.isSome_iff_exists.mp hsome
  have hmem := Package.mem_of_closest? hr
  rw [Catalog.releases_of_package? h, Catalog.mem_releasesOf_iff] at hmem
  exact ⟨r, hmem.1, hmem.2, hr⟩

namespace Problem

variable {p : Problem} {s : Selection} {name : String} {c : Constraint} {requirer : Requirer}

/-! ### What is reported -/

/-- A package without releases is missing. -/
lemma unsatisfiable_eq_missing (h : ∀ r ∈ p.releases, r.name ≠ name) :
    p.unsatisfiable name c requirer = .missing name [requirer.text] := by
  have hnone {catalog : Catalog} (hsub : catalog.releases ⊆ p.releases) :
      catalog.package? name = none := by
    rw [← Option.not_isSome_iff_eq_none]
    intro hsome
    obtain ⟨r, hr, hname⟩ := Catalog.containsPackage_iff.mp hsome
    exact h r (hsub hr) hname
  rw [unsatisfiable, hnone (List.subset_append_right _ _), hnone (List.subset_append_left _ _)]
  rfl

/-- Of a package with releases one is named, and the requirement that none satisfies. -/
lemma exists_unsatisfiable_eq (h : ∃ r ∈ p.releases, r.name = name) (c : Constraint)
    (requirer : Requirer) :
    ∃ r ∈ p.releases, r.name = name ∧ p.unsatisfiable name c requirer =
      .unsatisfiable name (some r.version.text) c.text requirer.text := by
  have hfound {catalog : Catalog} {package : Package} (hsub : catalog.releases ⊆ p.releases)
      (hpackage : catalog.package? name = some package)
      (hfirst : (p.available.package? name).or (p.installed.package? name) = some package) :
      ∃ r ∈ p.releases, r.name = name ∧ p.unsatisfiable name c requirer =
        .unsatisfiable name (some r.version.text) c.text requirer.text := by
    obtain ⟨r, hr, hname, hclosest⟩ := Catalog.exists_closest? hpackage c
    exact ⟨r, hsub hr, hname, by simp [unsatisfiable, hfirst, hclosest]⟩
  cases havailable : p.available.package? name with
  | some package =>
      exact hfound (List.subset_append_right _ _) havailable (by rw [havailable]; rfl)
  | none =>
      obtain ⟨r, hr, rfl⟩ := h
      rcases List.mem_append.mp hr with hr | hr
      · obtain ⟨package, hpackage⟩ := Catalog.exists_package?_of_mem hr
        exact hfound (List.subset_append_left _ _) hpackage (by rw [havailable]; exact hpackage)
      · obtain ⟨package, hpackage⟩ := Catalog.exists_package?_of_mem hr
        rw [havailable] at hpackage
        simp at hpackage

/-! ### When nothing can be chosen -/

/-- The candidates for a package are what is offered of it and not replaced. -/
lemma mem_candidates_iff (hreplaced : ∀ r ∈ s.replaced.toList, r ∈ p.installed.releases)
    {n : Graph.Node} :
    n ∈ p.candidates s name ↔
      p.Offers n ∧ n.release.name = name ∧ s.replaced.contains n.id = false := by
  constructor
  · intro hn
    have hoffers := offers_of_mem_candidates hn
    refine ⟨hoffers, (mem_releases_of_mem_candidates hn).2, ?_⟩
    rcases List.mem_append.mp hn with hn | hn
    · obtain ⟨r, hr, rfl⟩ := List.mem_map.mp hn
      exact Bool.not_eq_true' _ ▸ (List.mem_filter.mp hr).2
    · obtain ⟨r, _, rfl⟩ := List.mem_map.mp hn
      rw [Bool.eq_false_iff, Ne, Keyed.contains_iff]
      rintro ⟨q, hq, hid⟩
      exact hoffers.id_ne_of_not_installed rfl (hreplaced q hq) hid
  · rintro ⟨hoffers, rfl, hnot⟩
    exact mem_candidates_of_offers hoffers hnot

/-- Nothing is chosen if no candidate satisfies what is required. -/
lemma choose_eq_none_iff {required : List Constraint} :
    p.choose s name required = none ↔ ∀ n ∈ p.candidates s name,
      ¬ ∀ c ∈ required, c.admits n.release.version = true := by
  constructor
  · intro hnone n hn hadmits
    obtain ⟨m, hm⟩ := exists_choose_eq_some hn hadmits
    rw [hnone] at hm
    simp at hm
  · intro hall
    rw [Option.eq_none_iff_forall_ne_some]
    intro n hn
    obtain ⟨hmem, hadmits⟩ := mem_candidates_of_choose hn
    exact hall n hmem hadmits

/-- Every release of the catalogs is offered, or an installed one in its place. -/
lemma exists_offers {r : Release} (h : r ∈ p.releases) : ∃ n, p.Offers n ∧ n.id = r.id := by
  by_cases hinstalled : ∃ q ∈ p.installed.releases, q.id = r.id
  · obtain ⟨q, hq, hid⟩ := hinstalled
    exact ⟨⟨q, true⟩, .installed hq, hid⟩
  · have hr := (List.mem_append.mp h).resolve_left fun hr => hinstalled ⟨r, hr, rfl⟩
    exact ⟨⟨r, false⟩, .available hr fun q hq hid => hinstalled ⟨q, hq, hid⟩, rfl⟩

/-- What is met by one of the catalogs is accepted of an offered release. -/
lemma meets_iff_offers {d : Dependency} :
    p.available.Meets d ∨ p.installed.Meets d ↔ ∃ n, p.Offers n ∧ d.Accepts n.release := by
  have hmeets {r : Release} (hr : r ∈ p.releases) (hacc : d.Accepts r) :
      ∃ n, p.Offers n ∧ d.Accepts n.release := by
    obtain ⟨n, hn, hid⟩ := exists_offers hr
    exact ⟨n, hn, hacc.of_id_eq hid⟩
  constructor
  · rintro (⟨r, hr, hacc⟩ | ⟨r, hr, hacc⟩)
    · exact hmeets (List.mem_append_right _ hr) hacc
    · exact hmeets (List.mem_append_left _ hr) hacc
  · rintro ⟨n, hn, hacc⟩
    cases hn with
    | installed hr => exact .inr ⟨_, hr, hacc⟩
    | available hr _ => exact .inl ⟨_, hr, hacc⟩

/-! ### Tasks that cannot be performed -/

/-- What a choice has to satisfy that is made for a requirement: without releases side by side, all
that is required of the package. -/
def considered (p : Problem) (s : Selection) (name : String) (c : Constraint)
    (requirer : Requirer) : List Constraint :=
  if p.rules.sideBySide then [c] else (s.note name c requirer).constraintsOn name

lemma considered_of_sideBySide (h : p.rules.sideBySide = true) (s : Selection) (name : String)
    (c : Constraint) (requirer : Requirer) : p.considered s name c requirer = [c] :=
  if_pos h

lemma considered_of_single (h : p.rules.sideBySide = false) (s : Selection) (name : String)
    (c : Constraint) (requirer : Requirer) :
    p.considered s name c requirer = (s.note name c requirer).constraintsOn name :=
  if_neg (Bool.eq_false_iff.mp h)

/-- Why a task cannot be performed, and the conflict that is reported. -/
inductive Fails (p : Problem) (s : Selection) : Task → Conflict → Prop
  /-- Nothing can be chosen, for a package without a choice or beside others. -/
  | first {name : String} {c : Constraint} {requirer : Requirer} :
      s.graph.target? name c = none →
      p.rules.sideBySide = true ∨ (∀ n ∈ s.graph.nodes.toList, n.release.name ≠ name) →
      p.choose (s.note name c requirer) name (p.considered s name c requirer) = none →
      p.Fails s (.require name c requirer) (p.unsatisfiable name c requirer)
  /-- Nothing can be chosen in the place of the choice for a package. -/
  | changed {name : String} {c : Constraint} {requirer : Requirer} :
      s.graph.target? name c = none →
      p.rules.sideBySide = false →
      (∃ n ∈ s.graph.nodes.toList, n.release.name = name) →
      p.choose (s.note name c requirer) name (p.considered s name c requirer) = none →
      p.Fails s (.require name c requirer) (p.incompatible (s.note name c requirer) name c requirer)
  /-- A package has changed its choice as often as it has candidates. -/
  | unsettled {name : String} {c : Constraint} {requirer : Requirer} :
      p.change? s (.require name c requirer) = some name →
      (p.candidates s name).length ≤ s.reselected.count name →
      p.Fails s (.require name c requirer) (.unsettled name (s.reselected.count name + 1))

lemma nodesNamed_note_isEmpty_iff :
    ((s.note name c requirer).graph.nodesNamed name).isEmpty = true ↔
      ∀ n ∈ s.graph.nodes.toList, n.release.name ≠ name := by
  simp [List.isEmpty_iff, List.eq_nil_iff_forall_not_mem, Graph.mem_nodesNamed_iff]

lemma selectFor_eq_error_iff {u : Selection} {required : List Constraint} {conflict : Conflict} :
    p.selectFor u name c requirer required = .error conflict ↔
      p.choose u name required = none ∧ p.unsatisfiable name c requirer = conflict := by
  rw [selectFor]
  split <;> simp_all

/-- A choice that is needed in the place of others fails for want of a candidate, or after too many
changes. -/
lemma fails_of_reselect {conflict : Conflict} (htarget : s.graph.target? name c = none)
    (hside : p.rules.sideBySide = false)
    (hnamed : ∃ n ∈ s.graph.nodes.toList, n.release.name = name)
    (h : p.reselect (s.note name c requirer) name c requirer = .error conflict) :
    p.Fails s (.require name c requirer) conflict := by
  rw [reselect] at h
  split at h
  · rename_i hnone
    obtain rfl := Except.error.inj h
    exact .changed htarget hside hnamed (by rwa [considered_of_single hside])
  · rename_i n hn
    have hchange : p.change? s (.require name c requirer) = some name :=
      change?_eq_some_iff.mpr ⟨hside, hnamed, n, by simp [choice?, htarget, hside, hn],
        (mem_releases_of_mem_candidates (mem_candidates_of_choose hn).1).2⟩
    simp only [Selection.reselected_note, candidates_note] at h
    split at h
    · rename_i hover
      obtain rfl := Except.error.inj h
      exact .unsettled hchange (by omega)
    · simp at h

lemma fails_of_require {conflict : Conflict}
    (h : p.require (s.note name c requirer) name c requirer = .error conflict) :
    p.Fails s (.require name c requirer) conflict := by
  rw [require] at h
  split at h
  · simp at h
  · rename_i hunmet
    have htarget : s.graph.target? name c = none := by simpa using hunmet
    split at h
    · rename_i hside
      obtain ⟨hnone, rfl⟩ := selectFor_eq_error_iff.mp h
      exact .first htarget (.inl hside) (by rwa [considered_of_sideBySide hside])
    · rename_i hside
      have hside := Bool.eq_false_iff.mpr hside
      split at h
      · rename_i hempty
        obtain ⟨hnone, rfl⟩ := selectFor_eq_error_iff.mp h
        exact .first htarget (.inr (nodesNamed_note_isEmpty_iff.mp hempty))
          (by rwa [considered_of_single hside])
      · rename_i hnamed
        rw [nodesNamed_note_isEmpty_iff] at hnamed
        push Not at hnamed
        exact fails_of_reselect htarget hside hnamed h

lemma Fails.perform {task : Task} {conflict : Conflict} (h : p.Fails s task conflict) :
    p.perform s task = .error conflict := by
  cases h with
  | @first name c requirer htarget hone hnone =>
      rw [Problem.perform, require, Selection.target?_note, htarget]
      cases hside : p.rules.sideBySide with
      | true =>
          rw [considered_of_sideBySide hside] at hnone
          exact selectFor_eq_error_iff.mpr ⟨hnone, rfl⟩
      | false =>
          have hempty : ((s.note name c requirer).graph.nodesNamed name).isEmpty = true :=
            nodesNamed_note_isEmpty_iff.mpr (hone.resolve_left (by simp [hside]))
          rw [considered_of_single hside] at hnone
          simpa [hempty] using selectFor_eq_error_iff.mpr ⟨hnone, rfl⟩
  | @changed name c requirer htarget hside hnamed hnone =>
      have hnonempty : ((s.note name c requirer).graph.nodesNamed name).isEmpty = false := by
        rw [Bool.eq_false_iff, Ne, nodesNamed_note_isEmpty_iff]
        push Not
        exact hnamed
      rw [considered_of_single hside] at hnone
      simp [Problem.perform, require, htarget, hside, hnonempty, reselect, hnone]
  | unsettled hchange hmany => exact perform_eq_unsettled hchange hmany

/-- These are all the reasons. -/
theorem perform_eq_error_iff {task : Task} {conflict : Conflict} :
    p.perform s task = .error conflict ↔ p.Fails s task conflict := by
  refine ⟨fun h => ?_, Fails.perform⟩
  match task with
  | .require name c requirer => exact fails_of_require h
  | .follow id [] => simp [perform] at h
  | .follow id (d :: rest) =>
      rw [perform] at h
      split at h <;> simp at h
  | .prune => simp [perform] at h

end Problem

end PackagePlanner
