import PackagePlanner.Toml.Value

/-!
The tables that the statements of a TOML document build.

* `Toml.Statement` is a line of a document: a header, a header of an array of tables, or a key with
  its value.
* `Toml.assign?` gives a dotted key a value, in a document as well as between braces.
* `Toml.open?` and `Toml.push?` carry out the two kinds of header, and `Toml.document?` all
  statements. A table is defined once: no key is given two values, and a header or a dotted key adds
  to a table only if its origin lets it.
-/

namespace PackagePlanner.Toml

/-- A key behind the names of the tables that it lies in. -/
structure Path where
  parents : List String
  name : String
deriving DecidableEq, Repr

/-- All names of a path. -/
def Path.names (p : Path) : List String := p.parents ++ [p.name]

/-- A line of a document. -/
inductive Statement where
  | header (path : Path)
  | item (path : Path)
  | assign (path : Path) (value : Value)

/-- Changes the last item of an array of tables. -/
def changeLast? (change : Members → Option Members) : List Members → Option (List Members)
  | [] => none
  | [t] => (change t).map fun t => [t]
  | t :: rest => (changeLast? change rest).map fun rest => t :: rest

/-- Gives a key a value, in the tables that its path names. These tables come about by dotted keys,
the last one at least; on the way the path may also go through a table that is only implied and into
the last item of an array of tables. -/
def assign? (t : Members) (parents : List String) (name : String) (v : Value) : Option Members :=
  match parents with
  | [] => t.add? name v
  | p :: rest =>
    match t.find? p with
    | none => (assign? [] rest name v).map fun sub => t ++ [(p, .table .dotted sub)]
    | some (.table .dotted sub) =>
      (assign? sub rest name v).map fun sub => t.set p (.table .dotted sub)
    | some (.table .implied sub) =>
      if rest = [] then none
      else (assign? sub rest name v).map fun sub => t.set p (.table .implied sub)
    | some (.tables items) =>
      if rest = [] then none
      else (changeLast? (assign? · rest name v) items).map fun items => t.set p (.tables items)
    | some _ => none

/-- Changes the table that a path of headers leads to; tables that are not there are implied. -/
def within? (change : Members → Option Members) (t : Members) : List String → Option Members
  | [] => change t
  | p :: rest =>
    match t.find? p with
    | none => (within? change [] rest).map fun sub => t ++ [(p, .table .implied sub)]
    | some (.table .inline _) => none
    | some (.table origin sub) =>
      (within? change sub rest).map fun sub => t.set p (.table origin sub)
    | some (.tables items) =>
      (changeLast? (within? change · rest) items).map fun items => t.set p (.tables items)
    | some _ => none

/-- Begins a table. One that is implied so far moves to the end with what it holds. -/
def open? (name : String) (t : Members) : Option Members :=
  match t.find? name with
  | none => some (t ++ [(name, .table .header [])])
  | some (.table .implied sub) => some (t.erase name ++ [(name, .table .header sub)])
  | some _ => none

/-- Begins the next item of an array of tables. -/
def push? (name : String) (t : Members) : Option Members :=
  match t.find? name with
  | none => some (t ++ [(name, .tables [[]])])
  | some (.tables items) => some (t.set name (.tables (items ++ [[]])))
  | some _ => none

/-- A document half-way: its tables, and the names of the one that keys now go to. -/
structure Draft where
  root : Members := []
  current : List String := []

/-- Carries out a statement. -/
def Draft.next? (d : Draft) : Statement → Option Draft
  | .header path =>
    (within? (open? path.name) d.root path.parents).map fun root =>
      { root, current := path.names }
  | .item path =>
    (within? (push? path.name) d.root path.parents).map fun root =>
      { root, current := path.names }
  | .assign path v =>
    (within? (fun t => assign? t path.parents path.name v) d.root d.current).map fun root =>
      { d with root }

/-- The tables that some statements build. -/
def document? (statements : List Statement) : Option Members :=
  (statements.foldlM Draft.next? {}).map Draft.root

/-- The table between braces that some keys and their values build. -/
def inlineTable? (pairs : List (Path × Value)) : Option Value :=
  (pairs.foldlM (fun t pair => assign? t pair.1.parents pair.1.name pair.2) []).map
    (Value.table .inline)

end PackagePlanner.Toml
