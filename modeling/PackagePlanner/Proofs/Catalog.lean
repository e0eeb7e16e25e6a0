import PackagePlanner.Catalog
import PackagePlanner.Proofs.Collection

/-!
Catalogs as sets of releases.

* The name of a release determines it within a catalog (`Catalog.eq_of_id_eq`), and
  `mem_releasesOf_iff`, `release?_eq_some_iff` and `mem_dependentsOf_iff` say what is looked up.
* `Dependency.Accepts` and `Catalog.Meets`: a dependency is met by a catalog that has a release
  which the dependency accepts. `Catalog.Consistent` asks this of every declared dependency, and one
  release per package; `Catalog.Unharmed` asks it of the releases that a change leaves.
* `mem_releases_apply_iff` and `meets_apply_iff` say what a catalog holds and meets once a plan is
  carried out.
* `packages_ofReleases`: the releases of a catalog make up its packages again.
-/

namespace PackagePlanner

/-- A release is of the package, and of a version, that a dependency asks for. -/
def Dependency.Accepts (d : Dependency) (r : Release) : Prop :=
  r.name = d.name ∧ d.constraint.admits r.version = true

instance (d : Dependency) (r : Release) : Decidable (d.Accepts r) :=
  inferInstanceAs (Decidable (_ ∧ _))

/-- A release of the same name serves a dependency as well. -/
lemma Dependency.Accepts.of_id_eq {d : Dependency} {r q : Release} (h : d.Accepts r)
    (hid : q.id = r.id) : d.Accepts q := by
  obtain ⟨hname, hversion⟩ : q.name = r.name ∧ q.version = r.version :=
    ⟨congrArg ReleaseId.name hid, congrArg ReleaseId.version hid⟩
  exact ⟨hname.trans h.1, hversion ▸ h.2⟩

lemma Release.dependencyOn_eq_some_iff {r : Release} {name : String} {c : Constraint} :
    r.dependencyOn name = some c ↔ ⟨name, c⟩ ∈ r.dependencies.toList := by
  simp only [dependencyOn, Option.map_eq_some_iff, Keyed.find?_eq_some_iff]
  refine ⟨?_, ?_⟩
  · rintro ⟨d, ⟨hd, rfl⟩, rfl⟩
    exact hd
  · exact fun h => ⟨_, ⟨h, rfl⟩, rfl⟩

/-- The releases of a package, added one after the other, are the package again. -/
lemma Package.foldl_insert_releases (p : Package) :
    p.releases.toList.foldl insert (named p.name) = p := by
  have hreleases (q : Package) (rs : List Release) :
      rs.foldl insert q = { q with releases := rs.foldl Ascending.insert q.releases } := by
    induction rs generalizing q with
    | nil => rfl
    | cons r rest ih => rw [List.foldl_cons, ih, List.foldl_cons, insert]
  rw [hreleases]
  congr 1
  exact p.releases.ofList_toList

namespace Catalog

/-! ### What is in a catalog -/

lemma mem_releases_iff {c : Catalog} {r : Release} :
    r ∈ c.releases ↔ ∃ p ∈ c.packages.toList, r ∈ p.releases.toList :=
  List.mem_flatMap

/-- The name of a release determines it. -/
lemma eq_of_id_eq {c : Catalog} {r q : Release} (hr : r ∈ c.releases) (hq : q ∈ c.releases)
    (h : r.id = q.id) : r = q := by
  obtain ⟨p, hp, hr⟩ := mem_releases_iff.mp hr
  obtain ⟨p', hp', hq⟩ := mem_releases_iff.mp hq
  have hname : p.name = p'.name := by
    rw [← c.named p hp r hr, ← c.named p' hp' q hq]
    exact congrArg ReleaseId.name h
  obtain rfl := Keyed.eq_of_mem hp hp' hname
  exact Ascending.eq_of_mem hr hq (congrArg ReleaseId.version h)

lemma mem_releasesOf_iff {c : Catalog} {name : String} {r : Release} :
    r ∈ c.releasesOf name ↔ r ∈ c.releases ∧ r.name = name := by
  refine ⟨fun h => ⟨mem_releases_of_mem_releasesOf h, name_of_mem_releasesOf h⟩, ?_⟩
  rintro ⟨hr, rfl⟩
  obtain ⟨p, hp, hr⟩ := mem_releases_iff.mp hr
  have hfind : c.packages.find? r.name = some p :=
    Keyed.find?_eq_some_iff.mpr ⟨hp, (c.named p hp r hr).symm⟩
  simpa [releasesOf, hfind] using hr

lemma pairwise_releasesOf (c : Catalog) (name : String) :
    (c.releasesOf name).Pairwise fun r q => compare r.version q.version = .lt := by
  rw [releasesOf]
  split
  · rename_i p _
    exact p.releases.ascending
  · exact List.Pairwise.nil

/-- A package has one release of each version. -/
lemma nodup_versions (c : Catalog) (name : String) :
    ((c.releasesOf name).map Release.version).Nodup :=
  List.pairwise_map.mpr ((c.pairwise_releasesOf name).imp fun hlt =>
    (Ascending.ne_of_compare_eq_lt hlt).symm)

/-- A package that is shown holds the releases of its name. -/
lemma releases_of_package? {c : Catalog} {name : String} {p : Package}
    (h : c.package? name = some p) : p.releases.toList = c.releasesOf name := by
  obtain ⟨hfind, _⟩ := Option.filter_eq_some_iff.mp h
  simp [releasesOf, hfind]

lemma exists_package?_of_mem {c : Catalog} {r : Release} (h : r ∈ c.releases) :
    ∃ p, c.package? r.name = some p := by
  obtain ⟨p, hp, hr⟩ := mem_releases_iff.mp h
  refine ⟨p, Option.filter_eq_some_iff.mpr
    ⟨Keyed.find?_eq_some_iff.mpr ⟨hp, (c.named p hp r hr).symm⟩, ?_⟩⟩
  have hne : p.releases.toList ≠ [] := List.ne_nil_of_mem hr
  simpa [Package.isEmpty] using hne

lemma containsPackage_iff {c : Catalog} {name : String} :
    c.containsPackage name = true ↔ ∃ r ∈ c.releases, r.name = name := by
  rw [containsPackage, Option.isSome_iff_exists]
  constructor
  · rintro ⟨p, hp⟩
    have hshown := (Option.filter_eq_some_iff.mp hp).2
    obtain ⟨r, hr⟩ := List.exists_mem_of_ne_nil p.releases.toList
      (by simpa [Package.isEmpty] using hshown)
    rw [releases_of_package? hp, mem_releasesOf_iff] at hr
    exact ⟨r, hr⟩
  · rintro ⟨r, hr, rfl⟩
    exact exists_package?_of_mem hr

lemma release?_eq_some_iff {c : Catalog} {id : ReleaseId} {r : Release} :
    c.release? id = some r ↔ r ∈ c.releases ∧ r.id = id := by
  refine ⟨?_, ?_⟩
  · intro h
    obtain ⟨p, hp, hr⟩ := Option.bind_eq_some_iff.mp h
    obtain ⟨hr, hversion⟩ := Ascending.find?_eq_some_iff.mp hr
    rw [releases_of_package? hp, mem_releasesOf_iff] at hr
    refine ⟨hr.1, ?_⟩
    cases id
    simp_all [Release.id]
  · rintro ⟨hr, rfl⟩
    obtain ⟨p, hp⟩ := exists_package?_of_mem hr
    refine Option.bind_eq_some_iff.mpr ⟨p, hp, Ascending.find?_eq_some_iff.mpr ⟨?_, rfl⟩⟩
    rw [releases_of_package? hp, mem_releasesOf_iff]
    exact ⟨hr, rfl⟩

lemma containsRelease_iff {c : Catalog} {id : ReleaseId} :
    c.containsRelease id = true ↔ ∃ r ∈ c.releases, r.id = id := by
  simp only [containsRelease, Option.isSome_iff_exists, release?_eq_some_iff]

lemma mem_dependentsOf_iff {c : Catalog} {name : String} {r : Release} {v : Constraint} :
    (r, v) ∈ c.dependentsOf name ↔
      r ∈ c.releases ∧ r.name ≠ name ∧ ⟨name, v⟩ ∈ r.dependencies.toList := by
  simp only [dependentsOf, List.mem_filterMap, List.mem_filter, decide_eq_true_eq,
    Option.map_eq_some_iff, Prod.mk.injEq, Release.dependencyOn_eq_some_iff]
  refine ⟨?_, ?_⟩
  · rintro ⟨q, ⟨hq, hne⟩, w, hw, rfl, rfl⟩
    exact ⟨hq, hne, hw⟩
  · rintro ⟨hr, hne, hv⟩
    exact ⟨r, ⟨hr, hne⟩, v, hv, rfl, rfl⟩

/-! ### What a change leaves -/

lemma mem_releases_put_iff {c : Catalog} {p : Package} {r : Release}
    {h : ∀ r ∈ p.releases.toList, r.name = p.name} :
    r ∈ (c.put p h).releases ↔ r ∈ p.releases.toList ∨ (r ∈ c.releases ∧ r.name ≠ p.name) := by
  simp only [mem_releases_iff, put, Keyed.mem_insert_iff]
  refine ⟨?_, ?_⟩
  · rintro ⟨q, rfl | ⟨hq, hne⟩, hr⟩
    · exact .inl hr
    · exact .inr ⟨⟨q, hq, hr⟩, c.named q hq r hr ▸ hne⟩
  · rintro (hr | ⟨⟨q, hq, hr⟩, hne⟩)
    · exact ⟨p, .inl rfl, hr⟩
    · exact ⟨q, .inr ⟨hq, c.named q hq r hr ▸ hne⟩, hr⟩

lemma mem_releases_insert_iff {c : Catalog} {r q : Release} :
    q ∈ (c.insert r).releases ↔ q = r ∨ (q ∈ c.releases ∧ q.id ≠ r.id) := by
  have hid : q.id = r.id ↔ q.name = r.name ∧ q.version = r.version := by
    simp [Release.id]
  unfold insert
  split
  · rename_i p hp
    have hpname : p.name = r.name := Keyed.key_of_find? hp
    have hof : q ∈ p.releases.toList ↔ q ∈ c.releases ∧ q.name = r.name := by
      rw [← mem_releasesOf_iff]
      simp [releasesOf, hp]
    rw [mem_releases_put_iff, Package.insert, Ascending.mem_insert_iff, hof, Ne, Ne, Ne, hid,
      hpname]
    by_cases hname : q.name = r.name <;> simp [hname]
  · rename_i hnone
    have hno (h : q ∈ c.releases) : q.name ≠ r.name := by
      obtain ⟨p, hp, hq⟩ := mem_releases_iff.mp h
      have hne : ¬ p.name = r.name := by
        simpa using List.find?_eq_none.mp hnone p hp
      rwa [c.named p hp q hq]
    rw [mem_releases_put_iff, Package.insert, Ascending.mem_insert_iff, Ne, Ne, Ne, hid]
    simp only [Package.named, Ascending.toList_empty, List.not_mem_nil, false_and, or_false]
    exact or_congr_right (and_congr_right fun h => by simp [hno h])

lemma mem_releases_erase_iff {c : Catalog} {id : ReleaseId} {r : Release} :
    r ∈ (c.erase id).releases ↔ r ∈ c.releases ∧ r.id ≠ id := by
  have hid : r.id = id ↔ r.name = id.name ∧ r.version = id.version := by
    cases id
    simp [Release.id]
  unfold erase
  split
  · rename_i p hp
    have hpname : p.name = id.name := Keyed.key_of_find? hp
    have hof : r ∈ p.releases.toList ↔ r ∈ c.releases ∧ r.name = id.name := by
      rw [← mem_releasesOf_iff]
      simp [releasesOf, hp]
    refine mem_releases_put_iff.trans ?_
    rw [Package.erase, Ascending.mem_erase_iff, hof, Ne, Ne, Ne, hid, hpname]
    by_cases hname : r.name = id.name <;> simp [hname]
  · rename_i hnone
    refine ⟨fun h => ⟨h, fun he => ?_⟩, fun h => h.1⟩
    obtain ⟨p, hp, hr⟩ := mem_releases_iff.mp h
    have hne : ¬ p.name = id.name := by
      simpa using List.find?_eq_none.mp hnone p hp
    exact hne ((c.named p hp r hr).symm.trans (hid.mp he).1)

lemma mem_releases_foldl_erase_iff {c : Catalog} {rs : List Release} {r : Release} :
    r ∈ (rs.foldl (fun d q => d.erase q.id) c).releases ↔
      r ∈ c.releases ∧ r.id ∉ rs.map Release.id := by
  induction rs generalizing c with
  | nil => simp
  | cons q rest ih =>
      rw [List.foldl_cons, ih, mem_releases_erase_iff, List.map_cons, List.mem_cons, not_or,
        and_assoc]

/-- What is added is there afterwards, if it is added with one content only. -/
lemma mem_releases_foldl_insert_iff {c : Catalog} {rs : List Release} {r : Release}
    (h : ∀ q ∈ rs, ∀ q' ∈ rs, q.id = q'.id → q = q') :
    r ∈ (rs.foldl insert c).releases ↔ r ∈ rs ∨ (r ∈ c.releases ∧ r.id ∉ rs.map Release.id) := by
  induction rs generalizing c with
  | nil => simp
  | cons q rest ih =>
      have hrest := fun a ha b hb =>
        h a (List.mem_cons_of_mem q ha) b (List.mem_cons_of_mem q hb)
      rw [List.foldl_cons, ih hrest, mem_releases_insert_iff, List.map_cons, List.mem_cons,
        List.mem_cons, not_or]
      refine ⟨?_, ?_⟩
      · rintro (hr | ⟨rfl | ⟨hr, hne⟩, hnot⟩)
        · exact .inl (.inr hr)
        · exact .inl (.inl rfl)
        · exact .inr ⟨hr, hne, hnot⟩
      · rintro ((rfl | hr) | ⟨hr, hne, hnot⟩)
        · by_cases hin : r.id ∈ rest.map Release.id
          · obtain ⟨q, hq, hid⟩ := List.mem_map.mp hin
            have hqr := h q (List.mem_cons_of_mem r hq) r List.mem_cons_self hid
            exact .inl (hqr ▸ hq)
          · exact .inr ⟨.inl rfl, hin⟩
        · exact .inl hr
        · exact .inr ⟨.inr ⟨hr, hne⟩, hnot⟩

/-- A carried out plan leaves what it adds and what it neither removes nor replaces. -/
theorem mem_releases_apply_iff {c : Catalog} {plan : Plan} {r : Release}
    (h : ∀ q ∈ plan.added, ∀ q' ∈ plan.added, q.id = q'.id → q = q') :
    r ∈ (c.apply plan).releases ↔
      r ∈ plan.added ∨ (r ∈ c.releases ∧ r.id ∉ plan.removed.map Release.id ∧
        r.id ∉ plan.added.map Release.id) := by
  rw [apply, mem_releases_foldl_insert_iff h, mem_releases_foldl_erase_iff, and_assoc]

/-! ### Dependencies that are met -/

/-- Some release of a catalog is accepted by a dependency. -/
def Meets (c : Catalog) (d : Dependency) : Prop :=
  ∃ r ∈ c.releases, d.Accepts r

instance (c : Catalog) (d : Dependency) : Decidable (c.Meets d) :=
  inferInstanceAs (Decidable (∃ r ∈ c.releases, d.Accepts r))

/-- A release is found if there is an accepted one. -/
lemma isSome_find?_iff {c : Catalog} {name : String} {v : Constraint} :
    (c.find? name v).isSome = true ↔ c.Meets ⟨name, v⟩ := by
  rw [find?, Option.isSome_bind, Option.any_eq_true]
  constructor
  · rintro ⟨p, hp, hfound⟩
    rw [Package.find?, List.find?_isSome] at hfound
    obtain ⟨r, hr, hadmits⟩ := hfound
    have hmem : r ∈ p.releases.toList := List.mem_reverse.mp hr
    rw [releases_of_package? hp, mem_releasesOf_iff] at hmem
    exact ⟨r, hmem.1, hmem.2, hadmits⟩
  · rintro ⟨r, hr, rfl, hadmits⟩
    obtain ⟨p, hp⟩ := exists_package?_of_mem hr
    have hmem : r ∈ p.releases.toList := by
      rw [releases_of_package? hp]
      exact mem_releasesOf_iff.mpr ⟨hr, rfl⟩
    refine ⟨p, hp, ?_⟩
    rw [Package.find?, List.find?_isSome]
    exact ⟨r, List.mem_reverse.mpr hmem, hadmits⟩

/-- Every dependency that a release of the catalog declares is met. -/
def Closed (c : Catalog) : Prop :=
  ∀ r ∈ c.releases, ∀ d ∈ r.dependencies.toList, c.Meets d

instance (c : Catalog) : Decidable c.Closed :=
  inferInstanceAs (Decidable (∀ r ∈ c.releases, ∀ d ∈ r.dependencies.toList, c.Meets d))

/-- A catalog with at most one release per package, all of whose dependencies are met. -/
structure Consistent (c : Catalog) : Prop where
  /-- A package has at most one release. -/
  unique : ∀ r ∈ c.releases, ∀ q ∈ c.releases, r.name = q.name → r = q
  /-- Every declared dependency is met. -/
  closed : c.Closed

/-- The releases that are in both catalogs find in the second what they need of other packages. -/
def Unharmed (before after : Catalog) : Prop :=
  ∀ r ∈ before.releases, r ∈ after.releases →
    ∀ d ∈ r.dependencies.toList, d.name ≠ r.name → after.Meets d

instance (before after : Catalog) : Decidable (before.Unharmed after) :=
  inferInstanceAs (Decidable (∀ r ∈ before.releases, r ∈ after.releases →
    ∀ d ∈ r.dependencies.toList, d.name ≠ r.name → after.Meets d))

/-- With one release per package, what a release needs of its own package is the release itself. -/
lemma Consistent.meets_of_unharmed {before after : Catalog} (h : before.Consistent)
    (hunharmed : before.Unharmed after) {r : Release} (hr : r ∈ before.releases)
    (hafter : r ∈ after.releases) {d : Dependency} (hd : d ∈ r.dependencies.toList) :
    after.Meets d := by
  by_cases hname : d.name = r.name
  · obtain ⟨q, hq, hacc⟩ := h.closed r hr d hd
    obtain rfl := h.unique q hq r hr (hacc.1.trans hname)
    exact ⟨q, hafter, hacc⟩
  · exact hunharmed r hr hafter d hd hname

lemma meets_foldl_insert_iff {c : Catalog} {rs : List Release} {d : Dependency} :
    (rs.foldl insert c).Meets d ↔ (∃ r ∈ rs, d.Accepts r) ∨ c.Meets d := by
  induction rs generalizing c with
  | nil => simp
  | cons q rest ih =>
      have hq : (c.insert q).Meets d ↔ d.Accepts q ∨ c.Meets d := by
        refine ⟨?_, ?_⟩
        · rintro ⟨r, hr, hd⟩
          rcases mem_releases_insert_iff.mp hr with rfl | ⟨hr, _⟩
          · exact .inl hd
          · exact .inr ⟨r, hr, hd⟩
        · rintro (hd | ⟨r, hr, hd⟩)
          · exact ⟨q, mem_releases_insert_iff.mpr (.inl rfl), hd⟩
          · by_cases hid : r.id = q.id
            · exact ⟨q, mem_releases_insert_iff.mpr (.inl rfl), hd.of_id_eq hid.symm⟩
            · exact ⟨r, mem_releases_insert_iff.mpr (.inr ⟨hr, hid⟩), hd⟩
      rw [List.foldl_cons, ih, hq]
      simp only [List.mem_cons, exists_eq_or_imp]
      rw [or_left_comm, or_assoc]

/-- A carried out plan meets what an added release, or one that it does not remove, satisfies. -/
theorem meets_apply_iff {c : Catalog} {plan : Plan} {d : Dependency} :
    (c.apply plan).Meets d ↔ (∃ r ∈ plan.added, d.Accepts r) ∨
      ∃ r ∈ c.releases, r.id ∉ plan.removed.map Release.id ∧ d.Accepts r := by
  rw [apply, meets_foldl_insert_iff]
  simp only [Meets, mem_releases_foldl_erase_iff, and_assoc]

/-! ### The catalog of the releases of another -/

@[simp] lemma kind_insert (c : Catalog) (r : Release) : (c.insert r).kind = c.kind := by
  unfold insert
  split <;> rfl

lemma kind_foldl_insert (c : Catalog) (rs : List Release) : (rs.foldl insert c).kind = c.kind := by
  induction rs generalizing c with
  | nil => rfl
  | cons r rest ih => rw [List.foldl_cons, ih, kind_insert]

lemma packages_insert (c : Catalog) (r : Release) :
    (c.insert r).packages =
      c.packages.insert (((c.packages.find? r.name).getD (.named r.name)).insert r) := by
  unfold insert
  split <;> rename_i h <;> simp [put, h]

/-- Releases of the last package are added to it. -/
lemma packages_foldl_insert_last {c : Catalog} {before : List Package} {p : Package}
    {rs : List Release} (h : c.packages.toList = before ++ [p]) (hrs : ∀ r ∈ rs, r.name = p.name) :
    (rs.foldl insert c).packages.toList = before ++ [rs.foldl Package.insert p] := by
  induction rs generalizing c p with
  | nil => exact h
  | cons r rest ih =>
      obtain ⟨hr, hrest⟩ := List.forall_mem_cons.mp hrs
      have hfind : c.packages.find? r.name = some p :=
        Keyed.find?_eq_some_iff.mpr ⟨by simp [h], hr.symm⟩
      have hpackages : (c.insert r).packages.toList = before ++ [p.insert r] := by
        rw [packages_insert, hfind, Option.getD_some]
        exact Keyed.toList_insert_last h rfl
      exact ih hpackages hrest

/-- The releases of a new package bring it, unless there are none. -/
lemma packages_foldl_insert_releases {c : Catalog} {p : Package}
    (hnew : ∀ q ∈ c.packages.toList, q.name ≠ p.name)
    (hnamed : ∀ r ∈ p.releases.toList, r.name = p.name) :
    (p.releases.toList.foldl insert c).packages.toList =
      c.packages.toList ++ [p].filter fun p => !p.isEmpty := by
  cases h : p.releases.toList with
  | nil => simp [Package.isEmpty, h]
  | cons r rest =>
      rw [h] at hnamed
      obtain ⟨hr, hrest⟩ := List.forall_mem_cons.mp hnamed
      have hfind : c.packages.find? r.name = none :=
        List.find?_eq_none.mpr fun q hq => by simpa [hr] using hnew q hq
      -- the first release brings the package, which is then the last one and takes the others in
      have hfirst : (c.insert r).packages.toList =
          c.packages.toList ++ [(Package.named r.name).insert r] := by
        rw [packages_insert, hfind, Option.getD_none]
        exact Keyed.toList_insert_of_forall_ne fun q hq => hr ▸ hnew q hq
      have hall := packages_foldl_insert_last hfirst fun q hq => (hrest q hq).trans hr.symm
      have hp := p.foldl_insert_releases
      rw [h, List.foldl_cons, ← hr] at hp
      rw [List.foldl_cons, hall, hp]
      simp [Package.isEmpty, h]

/-- The releases of new packages bring those that have some. -/
lemma packages_foldl_insert_flatMap {c : Catalog} {ps : List Package}
    (hnames : ((c.packages.toList ++ ps).map Package.name).Nodup)
    (hnamed : ∀ p ∈ ps, ∀ r ∈ p.releases.toList, r.name = p.name) :
    ((ps.flatMap fun p => p.releases.toList).foldl insert c).packages.toList =
      c.packages.toList ++ ps.filter fun p => !p.isEmpty := by
  induction ps generalizing c with
  | nil => simp
  | cons p ps ih =>
      obtain ⟨hp, hps⟩ := List.forall_mem_cons.mp hnamed
      have hfirst := packages_foldl_insert_releases (forall_ne_of_nodup_map hnames) hp
      have hrest : ((((p.releases.toList.foldl insert c).packages.toList) ++ ps).map
          Package.name).Nodup := by
        refine List.Nodup.sublist ?_ hnames
        rw [hfirst, List.append_assoc]
        exact (((List.filter_sublist (l := [p])).append_right ps).append_left _).map _
      rw [List.flatMap_cons, List.foldl_append, ih hrest hps, hfirst, List.append_assoc,
        ← List.filter_append, List.singleton_append]

/-- The releases of a catalog bring its packages again, in their order and without the empty
ones. -/
theorem packages_ofReleases (c : Catalog) :
    (ofReleases c.kind c.releases).packages.toList = c.visible :=
  packages_foldl_insert_flatMap c.packages.nodup c.named

@[simp] lemma kind_ofReleases (kind : CatalogKind) (rs : List Release) :
    (ofReleases kind rs).kind = kind :=
  kind_foldl_insert _ _

lemma visible_ofReleases (c : Catalog) : (ofReleases c.kind c.releases).visible = c.visible := by
  rw [visible, packages_ofReleases, visible, List.filter_filter]
  simp

lemma releases_eq_flatMap_visible (c : Catalog) :
    c.releases = c.visible.flatMap fun p => p.releases.toList := by
  rw [releases, visible]
  induction c.packages.toList with
  | nil => rfl
  | cons p ps ih =>
      by_cases h : p.releases.toList = [] <;> simp [Package.isEmpty, h, ih]

theorem names_ofReleases (c : Catalog) : (ofReleases c.kind c.releases).names = c.names := by
  rw [names, visible_ofReleases, names]

theorem releases_ofReleases (c : Catalog) :
    (ofReleases c.kind c.releases).releases = c.releases := by
  rw [releases_eq_flatMap_visible, visible_ofReleases, ← releases_eq_flatMap_visible]

/-- A catalog is the catalog of its releases as long as no package has lost all of its own. -/
theorem ofReleases_releases_eq_iff {c : Catalog} :
    ofReleases c.kind c.releases = c ↔ ∀ p ∈ c.packages.toList, p.isEmpty = false := by
  refine ⟨fun h p hp => ?_, fun h => ?_⟩
  · rw [← h, packages_ofReleases] at hp
    simpa using (List.mem_filter.mp hp).2
  · have hpackages : (ofReleases c.kind c.releases).packages = c.packages := by
      refine Keyed.ext ?_
      rw [packages_ofReleases, visible, List.filter_eq_self]
      exact fun p hp => by simp [h p hp]
    have hkind := kind_ofReleases c.kind c.releases
    generalize ofReleases c.kind c.releases = d at hpackages hkind
    cases c
    cases d
    simp_all

end Catalog

end PackagePlanner
