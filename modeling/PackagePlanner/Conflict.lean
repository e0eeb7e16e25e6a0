import PackagePlanner.Version

/-!
Why an operation cannot be planned.

* `Conflict` says why no version could be chosen for some package.
* `PlanError` holds every reason why planning fails; `message` words it.
-/

namespace PackagePlanner

/-- Why no version of a package could be chosen. Versions, constraints and requirers are given as
texts. -/
inductive Conflict where
  /-- No version satisfies a requirement; `closest` came nearest. -/
  | unsatisfiable (package : String) (closest : Option String) (required requiredBy : String)
  /-- No version can satisfy these requirements together, each given with its requirer. -/
  | conflicting (package : String) (requirements : List (String × String))
  /-- There is no version at all. -/
  | missing (package : String) (requiredBy : List String)
  /-- The choice was changed this many times, more often than there are candidates. -/
  | unsettled (package : String) (attempts : Nat)
deriving DecidableEq, Repr

/-- The message of a conflict; conflicting requirements have a line each. -/
def Conflict.message : Conflict → String
  | .unsatisfiable package closest required requiredBy =>
    "No version of " ++ package ++ " satisfies constraint " ++ required ++ " required by " ++
      requiredBy ++
      match closest with
      | some version => " (closest: " ++ version ++ ")"
      | none => ""
  | .conflicting package requirements =>
    "Conflicting version requirements for package " ++ package ++ ":\n" ++
      String.join (requirements.map fun (requirer, constraint) =>
        "  - " ++ requirer ++ " requires " ++ constraint ++ "\n")
  | .missing package requiredBy =>
    "Missing package " ++ package ++ " required by " ++ ", ".intercalate requiredBy
  | .unsettled package attempts =>
    "Gave up selecting a version of " ++ package ++ " after " ++
      String.ofList (Nat.toDigits 10 attempts) ++ " attempts"

/-- Why an operation cannot be planned. -/
inductive PlanError where
  | malformed (cause : Malformed)
  | unknownPackage (name : String)
  | unknownVersion (name constraint : String)
  | notInstalled (name : String)
  | hasDependent (name dependent : String)
  | resolution (conflict : Conflict)
deriving DecidableEq, Repr

/-- The message of an error. -/
def PlanError.message : PlanError → String
  | .malformed cause => cause.message
  | .unknownPackage name => "Unknown package '" ++ name ++ "'"
  | .unknownVersion name constraint =>
    "No version of package '" ++ name ++ "' matches '" ++ constraint ++ "'"
  | .notInstalled name => "Package '" ++ name ++ "' is not installed"
  | .hasDependent name dependent =>
    "Package '" ++ name ++ "' is required by installed package '" ++ dependent ++ "'"
  | .resolution conflict => "Dependency resolution failed: " ++ conflict.message

end PackagePlanner
