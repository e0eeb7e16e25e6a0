import PackagePlanner.Text.Blank

/-!
Paths of files, as texts.

* `Path.parent` is the directory that a path lies in, `Path.join` a path inside a directory; neither
  looks at files, and nothing is normalised.
* `Path.components` are the names of a path between the slashes.
-/

namespace PackagePlanner.Path

/-- Whether a path starts at the root. -/
def isAbsolute (path : String) : Bool := path.toList.head? == some '/'

/-- The names between the slashes; two slashes have an empty name between them. -/
def components (cs : List Char) : List (List Char) := Text.fields '/' cs

/-- Whether a name leads nowhere. -/
def isIdle (name : List Char) : Bool := name == [] || name == ['.']

/-- The length of the start of a path that is no name inside a directory: the root, or the current
directory if that is written. -/
def startLength : List Char → Nat
  | '/' :: _ => 1
  | ['.'] => 1
  | '.' :: '/' :: _ => 1
  | _ => 0

/-- The directory of a path: what comes before its last name, idle names and slashes around it left
out. A path without a name has the empty one. -/
def parent (path : String) : String :=
  let cs := path.toList
  let names := (components (cs.drop (startLength cs))).reverse.dropWhile isIdle
  match names with
  | [] => ""
  | _ :: rest =>
    let inside := ['/'].intercalate ((rest.dropWhile isIdle).reverse)
    String.ofList (cs.take (startLength cs) ++ inside)

/-- A path inside a directory; an absolute path stays as it is. -/
def join (directory path : String) : String :=
  if isAbsolute path || directory.isEmpty then path
  else if directory.toList.getLast? == some '/' then directory ++ path
  else directory ++ "/" ++ path

end PackagePlanner.Path
