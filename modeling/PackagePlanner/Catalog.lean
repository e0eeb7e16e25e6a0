import PackagePlanner.Package
import PackagePlanner.Plan

/-!
Catalogs: the packages that a repository offers, or those that a project has installed.

* A `Catalog` keeps packages in the order in which their names first came, and every release
  carries the name of the package that holds it.
* A package that lost all its releases keeps its place and is not shown: `package?`, `names` and
  `releases` do not see it, and its name comes back in its old place.
* `Catalog.apply` carries out a plan, removals first.
-/

namespace PackagePlanner

/-- What a catalog describes. -/
inductive CatalogKind where
  | repository
  | installed
deriving DecidableEq, Repr

/-- Packages in order of first mention. -/
structure Catalog where
  kind : CatalogKind
  packages : Keyed Package.name := .empty
  named : ∀ p ∈ packages.toList, ∀ r ∈ p.releases.toList, r.name = p.name := by simp

namespace Catalog

/-- A catalog without packages. -/
def empty (kind : CatalogKind) : Catalog := { kind }

/-! ### Looking up -/

/-- The package with a name, if it has a release. -/
def package? (c : Catalog) (name : String) : Option Package :=
  (c.packages.find? name).filter fun p => !p.isEmpty

/-- The packages that have a release. -/
def visible (c : Catalog) : List Package :=
  c.packages.toList.filter fun p => !p.isEmpty

/-- The names of the packages that have a release. -/
def names (c : Catalog) : List String := c.visible.map Package.name

/-- All releases, package by package, oldest first. -/
def releases (c : Catalog) : List Release :=
  c.packages.toList.flatMap fun p => p.releases.toList

/-- The releases of one package, oldest first. -/
def releasesOf (c : Catalog) (name : String) : List Release :=
  match c.packages.find? name with
  | some p => p.releases.toList
  | none => []

/-- Whether a catalog has a release of a package. -/
def containsPackage (c : Catalog) (name : String) : Bool := (c.package? name).isSome

/-- The release with a name. -/
def release? (c : Catalog) (id : ReleaseId) : Option Release :=
  (c.package? id.name).bind fun p => p.release? id.version

/-- Whether a catalog has a release. -/
def containsRelease (c : Catalog) (id : ReleaseId) : Bool := (c.release? id).isSome

/-- The newest accepted release of a package. -/
def find? (c : Catalog) (name : String) (constraint : Constraint) : Option Release :=
  (c.package? name).bind fun p => p.find? constraint

/-- The releases of other packages that depend on a package, each with the constraint that it
puts on the package. -/
def dependentsOf (c : Catalog) (name : String) : List (Release × Constraint) :=
  (c.releases.filter fun r => r.name ≠ name).filterMap fun r =>
    (r.dependencyOn name).map fun constraint => (r, constraint)

/-! ### Changing -/

/-- Puts a package in the place of the one with its name. -/
def put (c : Catalog) (p : Package) (h : ∀ r ∈ p.releases.toList, r.name = p.name) :
    Catalog where
  kind := c.kind
  packages := c.packages.insert p
  named := by
    intro q hq
    rcases Keyed.mem_insert hq with rfl | hq
    · exact h
    · exact c.named q hq

/-- Adds a release, in the place of one with the same version. -/
def insert (c : Catalog) (r : Release) : Catalog :=
  match hp : c.packages.find? r.name with
  | some p => c.put (p.insert r) (by
      intro s hs
      rcases Ascending.mem_insert hs with rfl | hs
      · exact (Keyed.key_of_find? hp).symm
      · exact c.named p (Keyed.mem_of_find? hp) s hs)
  | none => c.put ((Package.named r.name).insert r) (by
      intro s hs
      rcases Ascending.mem_insert hs with rfl | hs
      · rfl
      · simp [Package.named] at hs)

/-- Takes out a release. -/
def erase (c : Catalog) (id : ReleaseId) : Catalog :=
  match hp : c.packages.find? id.name with
  | some p => c.put (p.erase id.version) fun s hs =>
      c.named p (Keyed.mem_of_find? hp) s (Ascending.mem_of_mem_erase hs)
  | none => c

/-- The catalog of some releases, given in any order. -/
def ofReleases (kind : CatalogKind) (rs : List Release) : Catalog :=
  rs.foldl insert (empty kind)

/-- The catalog after a plan: what it removes goes first, then what it adds comes. -/
def apply (c : Catalog) (plan : Plan) : Catalog :=
  plan.added.foldl insert (plan.removed.foldl (fun d r => d.erase r.id) c)

/-- Whether two catalogs have the same kind and the same packages, in any order; a package
without releases counts. -/
def agrees (a b : Catalog) : Bool :=
  a.kind == b.kind && a.packages.sameEntries Package.agrees b.packages

/-! ### Releases and packages -/

theorem name_of_mem_releasesOf {c : Catalog} {name : String} {r : Release}
    (h : r ∈ c.releasesOf name) : r.name = name := by
  unfold releasesOf at h
  split at h
  · rename_i p hp
    rw [c.named p (Keyed.mem_of_find? hp) r h, Keyed.key_of_find? hp]
  · simp at h

theorem mem_releases_of_mem_releasesOf {c : Catalog} {name : String} {r : Release}
    (h : r ∈ c.releasesOf name) : r ∈ c.releases := by
  unfold releasesOf at h
  split at h
  · rename_i p hp
    exact List.mem_flatMap.mpr ⟨p, Keyed.mem_of_find? hp, h⟩
  · simp at h

theorem mem_releases_of_mem_dependentsOf {c : Catalog} {name : String} {d : Release × Constraint}
    (h : d ∈ c.dependentsOf name) : d.1 ∈ c.releases := by
  obtain ⟨r, hr, hd⟩ := List.mem_filterMap.mp h
  obtain ⟨_, _, rfl⟩ := Option.map_eq_some_iff.mp hd
  exact (List.mem_filter.mp hr).1

end Catalog

end PackagePlanner
