import PackagePlanner.Constraint
import PackagePlanner.Collection.Keyed
import PackagePlanner.Collection.Ascending

/-!
Releases: one version of a package with what it declares.

* `Release` holds dependencies in declaration order and properties in order of their keys.
* `ReleaseId` names a release; `Release.id` is its name.
* `Release.agrees` compares two releases and does not look at the order of dependencies.
-/

namespace PackagePlanner

/-- What a release needs: some version of the named package that the constraint accepts. -/
structure Dependency where
  name : String
  constraint : Constraint
deriving DecidableEq, Repr

/-- The value of a property: a text or a list of texts. -/
inductive PropertyValue where
  | text (value : String)
  | list (values : List String)
deriving DecidableEq, Repr

/-- A property of a release; planning never reads it. -/
structure Property where
  key : String
  value : PropertyValue
deriving DecidableEq, Repr

/-- The name of one release: its package and its version. -/
structure ReleaseId where
  name : String
  version : Version
deriving DecidableEq, Repr

/-- Releases are ordered by package name, those of one package by version. -/
instance : Ord ReleaseId :=
  ⟨compareLex (compareOn ReleaseId.name) (compareOn ReleaseId.version)⟩

/-- The written name `package@version`. -/
def ReleaseId.text (id : ReleaseId) : String :=
  id.name ++ "@" ++ id.version.text

/-- Names of releases in ascending order. -/
def ReleaseId.sort (ids : List ReleaseId) : List ReleaseId :=
  ids.mergeSort fun a b => (compare a b).isLE

/-- One version of a package. -/
structure Release where
  name : String
  version : Version
  dependencies : Keyed Dependency.name := .empty
  properties : Ascending Property.key := .empty
deriving DecidableEq

namespace Release

/-- The name of a release. -/
def id (r : Release) : ReleaseId := ⟨r.name, r.version⟩

/-- The constraint that a release puts on a package, if it depends on it. -/
def dependencyOn (r : Release) (name : String) : Option Constraint :=
  (r.dependencies.find? name).map Dependency.constraint

/-- The value of a property. -/
def property (r : Release) (key : String) : Option PropertyValue :=
  (r.properties.find? key).map Property.value

/-- Declares a dependency; one declared before on the same package gives way in its place. -/
def withDependency (r : Release) (d : Dependency) : Release :=
  { r with dependencies := r.dependencies.insert d }

/-- Gives a property a value. -/
def withProperty (r : Release) (p : Property) : Release :=
  { r with properties := r.properties.insert p }

/-- Whether two releases are the same, their dependencies taken in any order. -/
def agrees (a b : Release) : Bool :=
  a.name == b.name && a.version == b.version &&
    a.dependencies.sameEntries (· == ·) b.dependencies && a.properties == b.properties

end Release

end PackagePlanner
