/-!
The arguments of the command line.

* `Arguments.parse` reads what a user asks for: a command with its settings, the version of the
  program, or help.
* Options may stand before the command, where they hold for every command, or behind it, where they
  win. An option stands at most once in each of the two places.
* The arguments are taken from left to right, and the first wrong one decides; the version is shown
  as soon as it is asked for.
-/

namespace PackagePlanner.Arguments

/-! ### What can be asked for -/

/-- How results are shown. -/
inductive Format where
  | text
  | json
deriving DecidableEq, Repr

/-- The settings that hold for every command. -/
structure Settings where
  config : String := "vulture.toml"
  repository : Option String := none
  project : Option String := none
  sideBySide : Bool := false
  noDependencies : Bool := false
  format : Format := .text
  showResult : Bool := false
  verbose : Bool := false
deriving DecidableEq, Repr

/-- What to do. -/
inductive Command where
  | install (package constraint : String)
  | remove (packages : List String) (constraint : String)
  | upgrade (packages : List String) (constraint : String)
  | list (installed : Bool)
deriving DecidableEq, Repr

/-- What a user asks for. -/
inductive Wish where
  | invoke (settings : Settings) (command : Command)
  | version
  | help
deriving DecidableEq, Repr

/-! ### Options -/

/-- The options. `constraint` and `version` share their spelling: the one belongs to a command, the
other stands before it. -/
inductive Switch where
  | config
  | repository
  | project
  | sideBySide
  | noDependencies
  | format
  | showResult
  | verbose
  | constraint
  | installed
  | version
  | help
deriving DecidableEq, Repr

/-- Where an argument stands: before the command, or behind it. -/
inductive Level where
  | top
  | install
  | remove
  | upgrade
  | list
deriving DecidableEq, Repr

/-- The command with a name. -/
def Level.named? : String → Option Level
  | "install" => some .install
  | "remove" => some .remove
  | "upgrade" => some .upgrade
  | "list" => some .list
  | _ => none

/-- Whether an option is followed by a value. -/
def Switch.takesValue : Switch → Bool
  | .config | .repository | .project | .format | .constraint => true
  | _ => false

/-- Whether an option has a value, and one that it accepts: a path is not empty, and a format is
one of the two. -/
def Switch.accepts (o : Switch) (value : String) : Bool :=
  match o with
  | .config | .repository | .project => !value.isEmpty
  | .format => value == "text" || value == "json"
  | _ => true

/-- The option behind two dashes. -/
def long? (level : Level) (name : String) : Option Switch :=
  match name, level with
  | "config", _ => some .config
  | "repository", _ => some .repository
  | "project", _ => some .project
  | "allow-multiple", _ => some .sideBySide
  | "no-deps", _ => some .noDependencies
  | "format", _ => some .format
  | "show-result", _ => some .showResult
  | "verbose", _ => some .verbose
  | "help", _ => some .help
  | "installed", .list => some .installed
  | "version", .top => some .version
  | "version", .list => none
  | "version", _ => some .constraint
  | _, _ => none

/-- The option behind one dash. -/
def short? (level : Level) (c : Char) : Option Switch :=
  match c, level with
  | 'c', _ => some .config
  | 'v', _ => some .verbose
  | 'h', _ => some .help
  | 'V', .top => some .version
  | 'V', .list => none
  | 'V', _ => some .constraint
  | _, _ => none

/-! ### One place -/

/-- The options given in one place, with their values, and the other arguments. -/
structure Given where
  options : List (Switch × String) := []
  others : List String := []
deriving DecidableEq, Repr

/-- How reading ends before all arguments are read. -/
inductive Stop where
  | version
  | help
  | usage
deriving DecidableEq, Repr

/-- Notes an option, unless it is there already or does not accept its value. -/
def Given.add (g : Given) (o : Switch) (value : String) : Except Stop Given :=
  if g.options.any fun p => p.1 == o then .error .usage
  else if o.accepts value then .ok { g with options := g.options ++ [(o, value)] }
  else .error .usage

/-- Notes an option without a value. -/
def Given.addFlag (g : Given) (o : Switch) : Except Stop Given :=
  match o with
  | .version => .error .version
  | .help => .error .help
  | _ => g.add o ""

/-- Reads the letters behind one dash. What follows a letter that takes a value is this value, with
or without an equals sign; if nothing follows, the option waits for the next argument. -/
def letters (level : Level) (g : Given) : List Char → Except Stop (Given × Option Switch)
  | [] => .ok (g, none)
  | c :: rest =>
    match short? level c with
    | none => .error .usage
    | some o =>
      if o.takesValue then
        match rest with
        | [] => .ok (g, some o)
        | '=' :: value => (g.add o (String.ofList value)).map fun g => (g, none)
        | value => (g.add o (String.ofList value)).map fun g => (g, none)
      else
        match g.addFlag o with
        | .error stop => .error stop
        | .ok g => letters level g rest

/-- Reads what stands behind two dashes: a name, perhaps with an equals sign and a value. -/
def long (level : Level) (g : Given) (cs : List Char) : Except Stop (Given × Option Switch) :=
  let (name, rest) := cs.span (· != '=')
  match long? level (String.ofList name) with
  | none => .error .usage
  | some o =>
    match rest with
    | _ :: value =>
      if o.takesValue then (g.add o (String.ofList value)).map fun g => (g, none)
      else .error .usage
    | [] => if o.takesValue then .ok (g, some o) else (g.addFlag o).map fun g => (g, none)

/-- Whether an argument is read as an option; a single dash is none. -/
def isOption (arg : String) : Bool :=
  match arg.toList with
  | '-' :: _ :: _ => true
  | _ => false

/-- Reads one option. -/
def option (level : Level) (g : Given) (arg : String) :
    Except Stop (Given × Option Switch) :=
  match arg.toList with
  | '-' :: '-' :: cs => long level g cs
  | '-' :: cs => letters level g cs
  | _ => .error .usage

/-- How many arguments that are no options a place may have. -/
def Level.room : Level → Nat → Bool
  | .install, n => n < 1
  | .remove, _ => true
  | .upgrade, _ => true
  | _, _ => false

/-- Notes an argument that is no option. -/
def Given.addOther (g : Given) (level : Level) (arg : String) : Except Stop Given :=
  if level.room g.others.length then .ok { g with others := g.others ++ [arg] }
  else .error .usage

/-- Reads the arguments behind a command. Behind two dashes alone there are no options. -/
def behind (level : Level) (g : Given) (waiting : Option Switch) (plain : Bool) :
    List String → Except Stop Given
  | [] => if waiting.isSome then .error .usage else .ok g
  | arg :: rest =>
    match waiting with
    | some o =>
      if isOption arg then .error .usage
      else
        match g.add o arg with
        | .error stop => .error stop
        | .ok g => behind level g none plain rest
    | none =>
      if plain || !isOption arg then
        match g.addOther level arg with
        | .error stop => .error stop
        | .ok g => behind level g none plain rest
      else if arg = "--" then behind level g none true rest
      else
        match option level g arg with
        | .error stop => .error stop
        | .ok (g, waiting) => behind level g waiting false rest

/-- How reading ends where help is asked for by its name: there is help on the program and on each
command, and on nothing behind a command. -/
def aboutHelp : List String → Stop
  | [] => .help
  | [topic] => if topic = "help" || (Level.named? topic).isSome then .help else .usage
  | _ => .usage

/-- Reads the arguments before the command, and finds it with those behind it. -/
def before (g : Given) (waiting : Option Switch) :
    List String → Except Stop (Given × Level × List String)
  | [] => .error .usage
  | arg :: rest =>
    match waiting with
    | some o =>
      if isOption arg then .error .usage
      else
        match g.add o arg with
        | .error stop => .error stop
        | .ok g => before g none rest
    | none =>
      if isOption arg then
        match if arg = "--" then .error .usage else option .top g arg with
        | .error stop => .error stop
        | .ok (g, waiting) => before g waiting rest
      else if arg = "help" then .error (aboutHelp rest)
      else
        match Level.named? arg with
        | some level => .ok (g, level, rest)
        | none => .error .usage

/-! ### The whole -/

/-- The value of an option, the one behind the command before the other. -/
def valueOf? (before behind : Given) (o : Switch) : Option String :=
  ((behind.options ++ before.options).find? fun p => p.1 == o).map Prod.snd

/-- The settings that two places give. -/
def settings (before behind : Given) : Settings :=
  let has (o : Switch) := (valueOf? before behind o).isSome
  { config := (valueOf? before behind .config).getD ({} : Settings).config
    repository := valueOf? before behind .repository
    project := valueOf? before behind .project
    sideBySide := has .sideBySide
    noDependencies := has .noDependencies
    format := if valueOf? before behind .format = some "json" then .json else .text
    showResult := has .showResult
    verbose := has .verbose }

/-- The command with its arguments; some are needed. -/
def command (level : Level) (g : Given) : Except Stop Command :=
  let constraint := (valueOf? {} g .constraint).getD "*"
  match level, g.others with
  | .install, [package] => .ok (.install package constraint)
  | .remove, p :: rest => .ok (.remove (p :: rest) constraint)
  | .upgrade, p :: rest => .ok (.upgrade (p :: rest) constraint)
  | .list, _ => .ok (.list (valueOf? {} g .installed).isSome)
  | _, _ => .error .usage

/-- Reads all arguments, up to where reading ends. -/
def read (args : List String) : Except Stop Wish := do
  let (top, level, rest) ← before {} none args
  let given ← behind level {} none false rest
  let command ← command level given
  .ok (.invoke (settings top given) command)

/-- What the arguments ask for; `none` if they are wrong. -/
def parse (args : List String) : Option Wish :=
  match read args with
  | .ok wish => some wish
  | .error .version => some .version
  | .error .help => some .help
  | .error .usage => none

end PackagePlanner.Arguments
