import PackagePlanner.Manifest.Entry
import PackagePlanner.Toml.Spelling

/-!
Writing manifests.

* `Manifest.ofCatalog` lists the releases of a catalog, package by package.
* `Manifest.render` writes a block for each entry: its name and version, then a table of its
  dependencies and one of its properties if there are any. Empty lines stand between.
-/

namespace PackagePlanner

namespace Manifest

/-- The releases of a catalog. -/
def ofCatalog (c : Catalog) : Manifest := ⟨c.releases⟩

/-- A table of an entry, with an empty line before it; nothing if it has no lines. -/
def table (header : String) (lines : List (List Char)) : List Char :=
  if lines.isEmpty then [] else ("\n" ++ header ++ "\n").toList ++ lines.flatten

/-- The line of a dependency. -/
def dependencyLine (d : Dependency) : List Char :=
  Toml.spellLine d.name (Toml.spellText d.constraint.chars)

/-- The line of a property. -/
def propertyLine (p : Property) : List Char :=
  Toml.spellLine p.key <| match p.value with
    | .text value => Toml.spellText value.toList
    | .list values => Toml.spellTexts (values.map String.toList)

/-- The block of an entry. -/
def block (r : Release) : List Char :=
  "[[package]]\n".toList ++ Toml.spellLine "name" (Toml.spellText r.name.toList) ++
    Toml.spellLine "version" (Toml.spellText r.version.chars) ++
    table "[package.dependencies]" (r.dependencies.toList.map dependencyLine) ++
    table "[package.properties]" (r.properties.toList.map propertyLine)

/-- Blocks with an empty line between any two. -/
def blocks : List Release → List Char
  | [] => []
  | [r] => block r
  | r :: rest => block r ++ '\n' :: blocks rest

/-- The text of a manifest. -/
def render (m : Manifest) : String :=
  if m.entries.isEmpty then "package = []\n" else String.ofList (blocks m.entries)

end Manifest

end PackagePlanner
