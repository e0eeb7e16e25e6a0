import PackagePlanner.Release

/-!
Packages: a name and the releases known under it, oldest first.

* `Package.find?` is the newest accepted release, `matching` lists all of them newest first.
* `Package.closest?` is the release nearest to a constraint that none may satisfy.
-/

namespace PackagePlanner

/-- A package with its releases in ascending order of version. -/
structure Package where
  name : String
  releases : Ascending Release.version := .empty
deriving DecidableEq

namespace Package

/-- A package without releases. -/
def named (name : String) : Package := { name }

/-- Whether a package has no release. -/
def isEmpty (p : Package) : Bool := p.releases.toList.isEmpty

/-- The newest release. -/
def newest? (p : Package) : Option Release := p.releases.toList.getLast?

/-- The oldest release. -/
def oldest? (p : Package) : Option Release := p.releases.toList.head?

/-- The release with a version. -/
def release? (p : Package) (v : Version) : Option Release := p.releases.find? v

/-- The releases, newest first. -/
def newestFirst (p : Package) : List Release := p.releases.toList.reverse

/-- The accepted releases, newest first. -/
def matching (p : Package) (c : Constraint) : List Release :=
  p.newestFirst.filter fun r => c.admits r.version

/-- The newest accepted release. -/
def find? (p : Package) (c : Constraint) : Option Release :=
  p.newestFirst.find? fun r => c.admits r.version

/-- The newest accepted release; if there is none, the oldest one that is too new, and if there
is none of those either, the newest of all. -/
def closest? (p : Package) (c : Constraint) : Option Release :=
  ((p.find? c).or (p.releases.toList.find? fun r => c.position r.version == .gt)).or p.newest?

/-- The releases after a version, newest first. -/
def newerThan (p : Package) (v : Version) : List Release :=
  p.newestFirst.takeWhile fun r => compare r.version v == .gt

/-- Adds a release, in the place of one with the same version. -/
def insert (p : Package) (r : Release) : Package :=
  { p with releases := p.releases.insert r }

/-- Takes out the release with a version. -/
def erase (p : Package) (v : Version) : Package :=
  { p with releases := p.releases.erase v }

/-- Whether two packages have the same name and the same releases. -/
def agrees (a b : Package) : Bool :=
  a.name == b.name && a.releases.toList.length == b.releases.toList.length &&
    (a.releases.toList.zip b.releases.toList).all fun (r, s) => r.agrees s

end Package

end PackagePlanner
