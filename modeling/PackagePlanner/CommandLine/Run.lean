import PackagePlanner.CommandLine.Arguments
import PackagePlanner.CommandLine.Report

/-!
A run of the program.

* `Run.program` reads the arguments, the configuration and the two manifests, plans what is asked for
  and gives what is to be printed. It never changes a file.
* Files are read through a function that says what a path leads to, so that a run can be carried out
  on the files of a system as well as on a `FileTree`.
-/

namespace PackagePlanner.Run

open Arguments (Settings Command)
open Report (Failure)

/-- How a run ends: its exit code, what it prints, and what it prints as an error. -/
structure Outcome where
  exit : UInt32
  output : String
  error : String := ""
deriving DecidableEq, Repr

/-- A run that does what it should. -/
def Outcome.success (output : String) : Outcome := { exit := 0, output }

/-- A run that fails. -/
def Outcome.failure (f : Failure) : Outcome :=
  { exit := 1, output := "", error := Report.failure f }

/-- The arguments are wrong. -/
def Outcome.usage : Outcome :=
  { exit := 2, output := "",
    error := "error: unexpected or missing arguments\n\nFor more information, try '--help'.\n" }

/-- What the program prints about itself. -/
def version : String := "vulture 0.1.0\n"

/-- What the program prints about its use. -/
def help : String :=
  "Plan package installs, removals and upgrades for a project\n\n" ++
  "Usage: vulture [OPTIONS] <COMMAND>\n\n" ++
  "Commands:\n" ++
  "  install  Plan installing a package and its dependencies\n" ++
  "  remove   Plan removing installed packages\n" ++
  "  upgrade  Plan upgrading installed packages\n" ++
  "  list     List available or installed packages\n"

/-- The configuration with the settings of the command line in it. -/
def override (c : Config) (s : Settings) : Config :=
  { sideBySide := c.sideBySide || s.sideBySide
    follow := c.follow && !s.noDependencies
    repository := s.repository.getD c.repository
    project := s.project.getD c.project }

/-- The plan of a command, or the plan's failure; `none` if the command plans nothing. -/
def plan? (planner : Planner) (follow : Bool) : Command → Option (Except Failure Plan)
  | .install package constraint =>
    some ((planner.install package constraint follow).mapError
      (.ofPlan ("Cannot install " ++ package)))
  | .remove packages constraint =>
    some ((planner.remove packages constraint follow).mapError
      (.ofPlan ("Cannot remove " ++ ", ".intercalate packages)))
  | .upgrade packages constraint =>
    some ((planner.upgrade packages constraint follow).mapError
      (.ofPlan ("Cannot upgrade " ++ ", ".intercalate packages)))
  | .list _ => none

/-- What a plan prints, and with it the manifest of the project afterwards if that is asked for. -/
def showPlan (s : Settings) (installed : Catalog) (p : Plan) : String :=
  (match s.format with
    | .text => Report.planText p
    | .json => Report.planJson p) ++
    if s.showResult then "\n" ++ (Manifest.ofCatalog (installed.apply p)).render else ""

/-- Carries out a command on what has been loaded. -/
def carryOut (s : Settings) (command : Command) (config : Config)
    (available installed : Catalog) : Outcome :=
  let planner : Planner := { available, installed, sideBySide := config.sideBySide }
  match plan? planner config.follow command with
  | some (.ok p) => .success (showPlan s installed p)
  | some (.error f) => .failure f
  | none =>
    let shown := match command with
      | .list true => installed
      | _ => available
    .success <| match s.format with
      | .text => Report.catalogText shown
      | .json => Report.catalogJson shown

/-- Loads what a command needs, and carries it out. -/
def invoke {m : Type → Type} [Monad m] (look : String → m Found) (s : Settings)
    (command : Command) : m Outcome := do
  match Config.load s.config (← look s.config) with
  | .error e => return .failure (.ofLoad ("Failed to load configuration " ++ s.config) e)
  | .ok loaded =>
    let config := override loaded s
    match Manifest.load .repository config.repository (← look config.repository) with
    | .error e =>
      return .failure (.ofLoad ("Failed to load repository index " ++ config.repository) e)
    | .ok available =>
      match Manifest.load .installed config.project (← look config.project) with
      | .error e =>
        return .failure (.ofLoad ("Failed to load project manifest " ++ config.project) e)
      | .ok installed => return carryOut s command config available installed

/-- Runs the program with some arguments. -/
def program {m : Type → Type} [Monad m] (look : String → m Found) (args : List String) :
    m Outcome :=
  match Arguments.parse args with
  | none => pure .usage
  | some .version => pure (.success version)
  | some .help => pure (.success help)
  | some (.invoke s command) => invoke look s command

end PackagePlanner.Run
