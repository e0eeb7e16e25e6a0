import PackagePlanner.Path

/-!
What a path leads to.

* `Found` is the answer of a file system: nothing, something that is not a readable file, or the bytes
  of a file. `Found.text` reads it.
* `refusal?` says which paths no system follows.
* `FileTree` is a directory as a value; `FileTree.look` follows a path from the working directory, or
  from the root, name by name, and each name but the last must lead to a directory.
-/

namespace PackagePlanner

/-- Why a file cannot be read: what the system answers, a null character in its path, or bytes that
are no text. -/
inductive ReadFailure where
  | system (description : String) (code : Nat)
  | nullInPath
  | notText
deriving DecidableEq, Repr

/-- The message of a failure. -/
def ReadFailure.message : ReadFailure → String
  | .system description code =>
    description ++ " (os error " ++ String.ofList (Nat.toDigits 10 code) ++ ")"
  | .nullInPath => "file name contained an unexpected NUL byte"
  | .notText => "stream did not contain valid UTF-8"

/-- There is nothing with this name. -/
def ReadFailure.notFound : ReadFailure := .system "No such file or directory" 2

/-- The path goes on behind something that is no directory. -/
def ReadFailure.notDirectory : ReadFailure := .system "Not a directory" 20

/-- The path leads to a directory. -/
def ReadFailure.isDirectory : ReadFailure := .system "Is a directory" 21

/-- The path, or a name in it, is too long. -/
def ReadFailure.tooLong : ReadFailure := .system "File name too long" 36

/-- Why no system follows a path, whatever files it has: there is a null character in it, or it has
more than 4095 bytes. -/
def refusal? (path : String) : Option ReadFailure :=
  if path.toList.contains '\x00' then some .nullInPath
  else if path.utf8ByteSize > 4095 then some .tooLong
  else none

/-- Whether a name has more than 255 bytes, which no directory can hold. -/
def isLong (name : List Char) : Bool := (String.ofList name).utf8ByteSize > 255

/-- What a path leads to. -/
inductive Found where
  | missing (failure : ReadFailure)
  | unreadable (failure : ReadFailure)
  | file (content : ByteArray)

/-- Whether a path leads somewhere. -/
def Found.isThere : Found → Bool
  | .missing _ => false
  | _ => true

/-- The text of a file. -/
def Found.text : Found → Except ReadFailure String
  | .missing failure => .error failure
  | .unreadable failure => .error failure
  | .file content =>
    match String.fromUTF8? content with
    | some text => .ok text
    | none => .error .notText

/-- A directory, or a file with its bytes. -/
inductive FileNode where
  | directory
  | file (content : ByteArray)

/-- The names that lead from the top directory of a tree to a place. -/
abbrev Place := List (List Char)

/-- The files and directories below a directory. -/
structure FileTree where
  nodes : List (Place × FileNode) := []

namespace FileTree

/-- What is at a place. The top directory itself is always there. -/
def node? (t : FileTree) (place : Place) : Option FileNode :=
  if place = [] then some .directory
  else (t.nodes.find? fun n => n.1 == place).map Prod.snd

/-- Follows names from a place. The name `..` leads from the top directory to `above`. There `none`
stands for a place outside the tree, of which nothing more is known than that it is a directory. -/
def follow (t : FileTree) (above place : Option Place) : List (List Char) → Found
  | [] =>
    match place with
    | none => .unreadable .isDirectory
    | some place =>
      match t.node? place with
      | none => .missing .notFound
      | some .directory => .unreadable .isDirectory
      | some (.file content) => .file content
  | name :: rest =>
    match place with
    | none =>
      if Path.isIdle name || name == ['.', '.'] then follow t above none rest
      else if isLong name then .missing .tooLong
      else .missing .notFound
    | some place =>
      match t.node? place with
      | none => .missing .notFound
      | some (.file _) => .missing .notDirectory
      | some .directory =>
        if Path.isIdle name then follow t above (some place) rest
        else if name == ['.', '.'] then
          follow t above (if place = [] then above else some place.dropLast) rest
        else if isLong name then .missing .tooLong
        else follow t above (some (place ++ [name])) rest

/-- What every system has at its root: the usual directories, and an empty file that takes whatever
is written to it. -/
def root : FileTree where
  nodes := (["dev", "etc", "tmp", "usr", "var"].map fun name => ([name.toList], FileNode.directory)) ++
    [(["dev".toList, "null".toList], .file .empty)]

/-- What a path leads to from the working directory. At the root `..` leads nowhere else. -/
def look (t : FileTree) (path : String) : Found :=
  match refusal? path with
  | some failure => .missing failure
  | none =>
    if path.isEmpty then .missing .notFound
    else if Path.isAbsolute path then
      root.follow (some []) (some []) (Path.components path.toList)
    else t.follow none (some []) (Path.components path.toList)

/-- Puts something at a path, with the directories that lead to it. -/
def put (t : FileTree) (path : String) (n : FileNode) : FileTree :=
  let (place, nodes) := (Path.components path.toList).foldl (fun (place, nodes) name =>
    if Path.isIdle name then (place, nodes)
    else if name == ['.', '.'] then (place.dropLast, nodes)
    else (place ++ [name], nodes ++ [(place ++ [name], FileNode.directory)])) (([], []) : Place × _)
  ⟨(place, n) :: (t.nodes ++ nodes)⟩

end FileTree

end PackagePlanner
