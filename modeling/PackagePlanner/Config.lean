import PackagePlanner.Files
import PackagePlanner.Manifest.Entry

/-!
The configuration file, and loading files.

* `Config` holds the rules of planning and where the two manifests are; all of it can be left out.
* `Config.parse` reads a configuration, and `Config.load` the file at a path, in which paths are
  relative to its directory; a missing file is the default configuration.
* `Manifest.load` reads the catalog of a repository or a project; a project without a manifest has
  nothing installed.
-/

namespace PackagePlanner

/-- The settings of a run. -/
structure Config where
  sideBySide : Bool := false
  follow : Bool := true
  repository : String := "repository.toml"
  project : String := "vulture.lock"
deriving DecidableEq, Repr

/-- Why a file cannot be loaded. -/
inductive LoadError where
  | unreadable (failure : ReadFailure)
  | manifest (path : String) (fault : Toml.Fault)
  | configuration (detail : String)

namespace LoadError

/-- The message of an error. -/
def message : LoadError → String
  | .unreadable _ => "I/O error"
  | .manifest path _ => "Failed to parse " ++ path
  | .configuration detail => "Invalid configuration: " ++ detail

/-- What lies behind an error, if that is not part of its message. -/
def cause? : LoadError → Option String
  | .unreadable failure => some failure.message
  | .manifest _ fault => some fault.text
  | .configuration _ => none

end LoadError

namespace Config

open Toml (Value Members Fault)

/-! ### Reading -/

/-- Sets one of the rules. -/
def setRule (c : Config) (field : String × Value) : Except Fault Config :=
  match field with
  | ("allow_multiple_versions", v) => v.asBoolean.map fun b => { c with sideBySide := b }
  | ("follow_dependencies", v) => v.asBoolean.map fun b => { c with follow := b }
  | (name, _) => .error (.unknownField name ["allow_multiple_versions", "follow_dependencies"])

/-- Sets one of the paths. -/
def setPath (c : Config) (field : String × Value) : Except Fault Config :=
  match field with
  | ("repository", v) => v.asText.map fun s => { c with repository := s }
  | ("project", v) => v.asText.map fun s => { c with project := s }
  | (name, _) => .error (.unknownField name ["repository", "project"])

/-- Sets the fields of a section. The section may be an array with the values of the fields in their
order; what follows them does not count. -/
def setSection (set : Config → String × Value → Except Fault Config) (fields : List String)
    (c : Config) (v : Value) : Except Fault Config :=
  match v.members?, v.items? with
  | some members, _ => members.foldlM set c
  | none, some items => (fields.zip items).foldlM set c
  | none, none => .error .unexpected

/-- Sets a section of a configuration. -/
def setTop (c : Config) (field : String × Value) : Except Fault Config :=
  match field with
  | ("planner", v) => setSection setRule ["allow_multiple_versions", "follow_dependencies"] c v
  | ("paths", v) => setSection setPath ["repository", "project"] c v
  | (name, _) => .error (.unknownField name ["planner", "paths"])

/-- Reads a configuration. -/
def parse (text : String) : Except Fault Config :=
  match Toml.parse text with
  | .error fault => .error fault
  | .ok members => members.foldlM setTop {}

/-! ### Loading -/

/-- A configuration whose relative paths start from a directory. -/
def within (c : Config) (directory : String) : Config :=
  { c with
    repository := Path.join directory c.repository
    project := Path.join directory c.project }

/-- The configuration at a path, given what the path leads to. -/
def load (path : String) (found : Found) : Except LoadError Config :=
  if !found.isThere then .ok {}
  else
    match found.text with
    | .error failure => .error (.unreadable failure)
    | .ok text =>
      match parse text with
      | .error fault => .error (.configuration (path ++ ": " ++ fault.text))
      | .ok c => .ok (c.within (Path.parent path))

end Config

/-- The catalog at a path, given what the path leads to. -/
def Manifest.load (kind : CatalogKind) (path : String) (found : Found) :
    Except LoadError Catalog :=
  if kind = .installed ∧ found.isThere = false then .ok (Catalog.empty .installed)
  else
    match found.text with
    | .error failure => .error (.unreadable failure)
    | .ok text =>
      match Manifest.parse text with
      | .error fault => .error (.manifest path fault)
      | .ok m => .ok (m.catalog kind)

end PackagePlanner
