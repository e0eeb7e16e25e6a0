import PackagePlanner.Proofs.Catalog

/-!
The order in which a catalog holds its releases.

* `releases_eq_flatMap_keys`: a catalog lists its packages in the order in which their names first
  came, and the releases of each by version. So a catalog is determined by its releases as a set and
  by the order of the names (`releases_eq_of_isPrefix`, `names_eq_of_isPrefix`).
* `releasesOf_eq`, `package?_eq`: what a catalog says about one package depends on the releases of
  this package as a set. `mem_dependentsOf_congr`: who depends on it depends on all releases as a
  set, but for the order.
* `isPrefix_keys_apply`: a plan leaves the names that were there in their order, also those of
  packages that lose all their releases.
-/

namespace PackagePlanner

namespace Catalog

variable {c d : Catalog}

/-! ### Package by package -/

lemma releasesOf_of_mem {p : Package} (h : p ∈ c.packages.toList) :
    c.releasesOf p.name = p.releases.toList := by
  simp [releasesOf, Keyed.find?_eq_some_iff.mpr ⟨h, rfl⟩]

/-- The packages come in the order of their names, those without releases included. -/
theorem releases_eq_flatMap_keys (c : Catalog) :
    c.releases = c.packages.keys.flatMap c.releasesOf := by
  rw [releases, Keyed.keys, List.flatMap_map]
  exact List.flatMap_congr fun p hp => (releasesOf_of_mem hp).symm

lemma names_eq_filter_keys (c : Catalog) :
    c.names = c.packages.keys.filter fun name => !(c.releasesOf name).isEmpty := by
  rw [names, visible, Keyed.keys, List.filter_map]
  refine congrArg _ (List.filter_congr fun p hp => ?_)
  rw [Function.comp_apply, releasesOf_of_mem hp, Package.isEmpty]

lemma releasesOf_eq_nil {name : String} (h : name ∉ c.packages.keys) :
    c.releasesOf name = [] := by
  rw [List.eq_nil_iff_forall_not_mem]
  intro r hr
  obtain ⟨hmem, rfl⟩ := mem_releasesOf_iff.mp hr
  obtain ⟨p, hp, hrp⟩ := mem_releases_iff.mp hmem
  exact h (c.named p hp r hrp ▸ List.mem_map_of_mem hp)

/-! ### The same releases -/

/-- Of a package with the same releases two catalogs list them in the same order. -/
lemma releasesOf_eq {name : String}
    (h : ∀ r : Release, r.name = name → (r ∈ c.releases ↔ r ∈ d.releases)) :
    c.releasesOf name = d.releasesOf name := by
  have hperm : (c.releasesOf name).Perm (d.releasesOf name) := by
    rw [List.perm_ext_iff_of_nodup (c.nodup_versions name).of_map (d.nodup_versions name).of_map]
    intro r
    rw [mem_releasesOf_iff, mem_releasesOf_iff]
    exact and_congr_left fun hname => h r hname
  refine hperm.eq_of_pairwise (fun r q _ _ hrq hqr => ?_) (c.pairwise_releasesOf name)
    (d.pairwise_releasesOf name)
  exact absurd (Std.OrientedCmp.gt_iff_lt.mpr hrq) (by simp [hqr])

lemma releasesOf_congr (h : ∀ r, r ∈ c.releases ↔ r ∈ d.releases) (name : String) :
    c.releasesOf name = d.releasesOf name :=
  releasesOf_eq fun r _ => h r

lemma package?_eq_some_iff {name : String} {p : Package} :
    c.package? name = some p ↔
      p.name = name ∧ p.releases.toList = c.releasesOf name ∧ c.releasesOf name ≠ [] := by
  constructor
  · intro h
    obtain ⟨hfind, hshown⟩ := Option.filter_eq_some_iff.mp h
    have hreleases := releases_of_package? h
    refine ⟨Keyed.key_of_find? hfind, hreleases, ?_⟩
    simpa [Package.isEmpty, ← hreleases] using hshown
  · rintro ⟨rfl, hreleases, hshown⟩
    obtain ⟨r, hr⟩ := List.exists_mem_of_ne_nil _ hshown
    obtain ⟨hr, hname⟩ := mem_releasesOf_iff.mp hr
    obtain ⟨q, hq⟩ := exists_package?_of_mem hr
    rw [hname] at hq
    have hqname : q.name = p.name := Keyed.key_of_find? (Option.filter_eq_some_iff.mp hq).1
    have hqreleases : q.releases = p.releases :=
      Ascending.ext ((releases_of_package? hq).trans hreleases.symm)
    obtain rfl : q = p := by
      cases q
      cases p
      simp_all
    exact hq

/-- A package is shown with what is listed of it. -/
lemma package?_eq {name : String} (h : c.releasesOf name = d.releasesOf name) :
    c.package? name = d.package? name := by
  ext p
  rw [package?_eq_some_iff, package?_eq_some_iff, h]

/-- Two catalogs with the same releases show the same packages. -/
lemma package?_congr (h : ∀ r, r ∈ c.releases ↔ r ∈ d.releases) (name : String) :
    c.package? name = d.package? name :=
  package?_eq (releasesOf_congr h name)

lemma containsRelease_eq {id : ReleaseId} (h : c.releasesOf id.name = d.releasesOf id.name) :
    c.containsRelease id = d.containsRelease id := by
  rw [containsRelease, containsRelease, release?, release?, package?_eq h]

/-- The dependents on a package are the same, though perhaps in another order. -/
lemma mem_dependentsOf_congr (h : ∀ r, r ∈ c.releases ↔ r ∈ d.releases) {name : String}
    (dependent : Release × Constraint) :
    dependent ∈ c.dependentsOf name ↔ dependent ∈ d.dependentsOf name := by
  rw [mem_dependentsOf_iff, mem_dependentsOf_iff, h]

/-- Names that only one of two catalogs with the same releases holds are names of empty packages. -/
lemma releasesOf_eq_nil_of_isPrefix (h : ∀ r, r ∈ c.releases ↔ r ∈ d.releases)
    {rest : List String} (hkeys : c.packages.keys ++ rest = d.packages.keys) {name : String}
    (hname : name ∈ rest) : d.releasesOf name = [] := by
  have hnodup : (c.packages.keys ++ rest).Nodup := hkeys ▸ d.packages.nodup
  rw [← releasesOf_congr h]
  exact releasesOf_eq_nil fun hmem => (List.nodup_append.mp hnodup).2.2 _ hmem _ hname rfl

theorem releases_eq_of_isPrefix (h : ∀ r, r ∈ c.releases ↔ r ∈ d.releases)
    (hkeys : c.packages.keys <+: d.packages.keys) : d.releases = c.releases := by
  obtain ⟨rest, hrest⟩ := hkeys
  have hnil : rest.flatMap d.releasesOf = [] :=
    List.flatMap_eq_nil_iff.mpr fun name hname => releasesOf_eq_nil_of_isPrefix h hrest hname
  rw [releases_eq_flatMap_keys d, releases_eq_flatMap_keys c, ← hrest, List.flatMap_append, hnil,
    List.append_nil]
  exact List.flatMap_congr fun name _ => (releasesOf_congr h name).symm

theorem names_eq_of_isPrefix (h : ∀ r, r ∈ c.releases ↔ r ∈ d.releases)
    (hkeys : c.packages.keys <+: d.packages.keys) : d.names = c.names := by
  obtain ⟨rest, hrest⟩ := hkeys
  have hnil : rest.filter (fun name => !(d.releasesOf name).isEmpty) = [] :=
    List.filter_eq_nil_iff.mpr fun name hname => by
      simp [releasesOf_eq_nil_of_isPrefix h hrest hname]
  rw [names_eq_filter_keys d, names_eq_filter_keys c, ← hrest, List.filter_append, hnil,
    List.append_nil]
  exact List.filter_congr fun name _ => by rw [releasesOf_congr h]

/-! ### What a plan does to the order -/

lemma keys_insert (c : Catalog) (r : Release) :
    (c.insert r).packages.keys =
      if r.name ∈ c.packages.keys then c.packages.keys else c.packages.keys ++ [r.name] := by
  have hname : (((c.packages.find? r.name).getD (.named r.name)).insert r).name = r.name := by
    cases hfind : c.packages.find? r.name with
    | none => rfl
    | some p =>
        have hp : p.name = r.name := Keyed.key_of_find? hfind
        exact hp
  rw [packages_insert, Keyed.keys, Keyed.insert, Keyed.map_insertInto, hname, Keyed.keys]

lemma kind_erase (c : Catalog) (id : ReleaseId) : (c.erase id).kind = c.kind := by
  unfold erase
  split <;> rfl

lemma keys_erase (c : Catalog) (id : ReleaseId) :
    (c.erase id).packages.keys = c.packages.keys := by
  unfold erase
  split
  · rename_i p hp
    have hmem : p.name ∈ c.packages.keys := List.mem_map_of_mem (Keyed.mem_of_find? hp)
    show ((c.packages.insert (p.erase id.version)).toList).map Package.name = _
    rw [Keyed.insert, Keyed.map_insertInto]
    exact if_pos hmem
  · rfl

/-- A plan leaves the names in their order, and new ones follow. -/
theorem isPrefix_keys_apply (c : Catalog) (plan : Plan) :
    c.packages.keys <+: (c.apply plan).packages.keys := by
  have hremoved (rs : List Release) (c : Catalog) :
      (rs.foldl (fun d r => d.erase r.id) c).packages.keys = c.packages.keys := by
    induction rs generalizing c with
    | nil => rfl
    | cons r rest ih => rw [List.foldl_cons, ih, keys_erase]
  have hadded (rs : List Release) (c : Catalog) :
      c.packages.keys <+: (rs.foldl insert c).packages.keys := by
    induction rs generalizing c with
    | nil => exact List.prefix_rfl
    | cons r rest ih =>
        refine List.IsPrefix.trans ?_ (ih (c.insert r))
        rw [keys_insert]
        split
        · exact List.prefix_rfl
        · exact List.prefix_append _ _
  rw [apply, ← hremoved plan.removed c]
  exact hadded plan.added _

end Catalog

end PackagePlanner
