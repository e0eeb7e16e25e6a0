import PackagePlanner.Catalog
import PackagePlanner.Toml.Fault

/-!
Reading manifests: TOML files that list releases.

* `Manifest.parse` reads the entries under `package`. An entry names its package and its version, and
  may declare dependencies and properties; it may also be an array of these four in this order.
* Fields are taken in the order of the text, and the first bad one is the fault; that one is missing
  shows only at the end.
-/

namespace PackagePlanner

/-- What a manifest lists, entry by entry. -/
structure Manifest where
  entries : List Release
deriving DecidableEq

namespace Manifest

open Toml (Value Members Fault)

/-- The catalog of a manifest: a later entry of a release takes the place of an earlier one. -/
def catalog (m : Manifest) (kind : CatalogKind) : Catalog :=
  Catalog.ofReleases kind m.entries

/-! ### Values of fields -/

/-- A version, given as a text. -/
def version (v : Value) : Except Fault Version :=
  match v.asText with
  | .error fault => .error fault
  | .ok s => (Version.parse s).mapError .malformed

/-- A constraint, given as a text. -/
def constraint (v : Value) : Except Fault Constraint :=
  match v.asText with
  | .error fault => .error fault
  | .ok s => (Constraint.parse s).mapError .malformed

/-- Dependencies: a table of constraints. -/
def dependencies (v : Value) : Except Fault (List Dependency) :=
  match v.members? with
  | none => .error .unexpected
  | some members => members.mapM fun (name, v) => (constraint v).map fun c => ⟨name, c⟩

/-- The value of a property: a text or an array of texts. -/
def propertyValue (v : Value) : Except Fault PropertyValue :=
  match v.items? with
  | some items => (items.mapM Value.asText).map .list
  | none => v.asText.map .text

/-- Properties: a table of their values. -/
def properties (v : Value) : Except Fault (List Property) :=
  match v.members? with
  | none => .error .unexpected
  | some members => members.mapM fun (key, v) => (propertyValue v).map fun p => ⟨key, p⟩

/-! ### Entries -/

/-- The fields of an entry that have been read. -/
structure Draft where
  name : Option String := none
  version : Option Version := none
  dependencies : List Dependency := []
  properties : List Property := []

/-- The names of the fields. -/
def fields : List String := ["name", "version", "dependencies", "properties"]

/-- Reads one more field. -/
def Draft.next (d : Draft) (field : String × Value) : Except Fault Draft :=
  match field with
  | ("name", v) => v.asText.map fun s => { d with name := some s }
  | ("version", v) => (Manifest.version v).map fun version => { d with version := some version }
  | ("dependencies", v) =>
    (Manifest.dependencies v).map fun dependencies => { d with dependencies }
  | ("properties", v) => (Manifest.properties v).map fun properties => { d with properties }
  | (name, _) => .error (.unknownField name fields)

/-- The release with some fields. -/
def release (name : String) (version : Version) (dependencies : List Dependency)
    (properties : List Property) : Release :=
  { name, version, dependencies := Keyed.ofList dependencies,
    properties := Ascending.ofList properties }

/-- The release that the fields of an entry describe. -/
def Draft.finish (d : Draft) : Except Fault Release :=
  match d.name, d.version with
  | none, _ => .error (.missingField "name")
  | _, none => .error (.missingField "version")
  | some name, some version => .ok (release name version d.dependencies d.properties)

/-- An entry given as a table. -/
def entryOfMembers (members : Members) : Except Fault Release :=
  match members.foldlM Draft.next {} with
  | .error fault => .error fault
  | .ok d => d.finish

/-- An entry given as an array; dependencies and properties may be left out, and what follows them
does not count. -/
def entryOfItems : List Value → Except Fault Release
  | name :: version :: rest => do
    let name ← name.asText
    let version ← Manifest.version version
    let dependencies ← match rest with
      | v :: _ => dependencies v
      | [] => .ok []
    let properties ← match rest with
      | _ :: v :: _ => properties v
      | _ => .ok []
    .ok (release name version dependencies properties)
  | _ => .error .unexpected

/-- One entry. -/
def entry (v : Value) : Except Fault Release :=
  match v.members?, v.items? with
  | some members, _ => entryOfMembers members
  | none, some items => entryOfItems items
  | none, none => .error .unexpected

/-- The manifest that the tables of a document hold; other keys than `package` do not count. -/
def ofMembers (members : Members) : Except Fault Manifest :=
  match members.find? "package" with
  | none => .ok ⟨[]⟩
  | some v =>
    match v.items? with
    | none => .error .unexpected
    | some items => (items.mapM entry).map Manifest.mk

/-- Reads a manifest. -/
def parse (text : String) : Except Fault Manifest :=
  match Toml.parse text with
  | .error fault => .error fault
  | .ok members => ofMembers members

end Manifest

end PackagePlanner
