import Vendoring.Path

/-!
# Arguments

The command line: one of four commands with its options, which may stand
between and behind the two roots. Everything behind a `--` is a root,
whatever it looks like. Each option may be given once; the verbose flag also
once in front of the command.
-/

namespace Vendoring.Command

/-- The two roots and the manifest chosen by the user. -/
structure TreeArguments where
  source : Path
  destination : Path
  manifest : Option Path
  deriving DecidableEq, Repr

inductive Action
  | sync (tree : TreeArguments) (dryRun noAmalgamate : Bool)
  | status (tree : TreeArguments) (json : Bool)
  | diff (tree : TreeArguments)
  | manifest (output : Option Path)
  deriving DecidableEq, Repr

inductive Invocation
  | act (verbose : Bool) (action : Action)
  | version
  | help
  deriving DecidableEq, Repr

/-- The command line makes no sense. -/
inductive UsageError
  | unknownArgument (text : String)
  | unknownCommand (text : String)
  | repeated (option : String)
  | valueMissing (option : String)
  | valueUnexpected (option : String)
  | rootMissing
  | commandMissing
  deriving DecidableEq, Repr

inductive CommandName
  | sync
  | status
  | diff
  | manifest
  deriving DecidableEq, Repr

def CommandName.ofText? : String → Option CommandName
  | "sync" => some .sync
  | "status" => some .status
  | "diff" => some .diff
  | "manifest" => some .manifest
  | _ => none

/-- What a command line can switch on or set. -/
inductive OptionName
  | verbose
  | help
  | version
  | dryRun
  | noAmalgamate
  | json
  | manifest
  | output
  deriving DecidableEq, Repr

namespace OptionName

def text : OptionName → String
  | .verbose => "--verbose"
  | .help => "--help"
  | .version => "--version"
  | .dryRun => "--dry-run"
  | .noAmalgamate => "--no-amalgamate"
  | .json => "--json"
  | .manifest => "--manifest"
  | .output => "--output"

def takesValue : OptionName → Bool
  | .manifest | .output => true
  | _ => false

def letter? : OptionName → Option Char
  | .verbose => some 'v'
  | .help => some 'h'
  | .version => some 'V'
  | .output => some 'o'
  | _ => none

/-- The options in front of the command, and those of each command. -/
def allowed : Option CommandName → List OptionName
  | none => [.verbose, .help, .version]
  | some .sync => [.verbose, .help, .manifest, .dryRun, .noAmalgamate]
  | some .status => [.verbose, .help, .manifest, .json]
  | some .diff => [.verbose, .help, .manifest]
  | some .manifest => [.verbose, .help, .output]

end OptionName

/-- How many roots a command takes. -/
def CommandName.rootCount : CommandName → Nat
  | .manifest => 0
  | _ => 2

/-- What has been given so far to one command, or in front of it. -/
structure Given where
  flags : List OptionName := []
  values : List (OptionName × Path) := []
  roots : List Path := []

/-- Reading stops early where help or the version is asked for. -/
inductive Stop
  | error (e : UsageError)
  | version
  | help

abbrev Parse := Except Stop

namespace Given

def has (g : Given) (o : OptionName) : Bool :=
  g.flags.contains o || g.values.any (·.1 == o)

def addFlag (g : Given) (o : OptionName) : Parse Given :=
  match o with
  | .help => .error .help
  | .version => .error .version
  | _ =>
    if g.has o then .error (.error (.repeated o.text))
    else .ok { g with flags := o :: g.flags }

/-- A path is never empty. -/
def addValue (g : Given) (o : OptionName) (value : String) : Parse Given :=
  if value = "" then .error (.error (.valueMissing o.text))
  else if g.has o then .error (.error (.repeated o.text))
  else .ok { g with values := (o, ⟨value⟩) :: g.values }

def addRoot (g : Given) (count : Nat) (value : String) : Parse Given :=
  if count ≤ g.roots.length then .error (.error (.unknownArgument value))
  else if value = "" then .error (.error .rootMissing)
  else .ok { g with roots := g.roots ++ [⟨value⟩] }

end Given

/-- An argument that begins with a dash and is more than a dash. -/
def looksLikeOption (s : String) : Bool :=
  match s.toList with
  | '-' :: _ :: _ => true
  | _ => false

/-- Takes a cluster of single letters, of which the last may have a value
behind it, with or without an equals sign. Gives back the option whose value
is still to come. -/
def takeLetters (options : List OptionName) (whole : String) :
    List Char → Given → Parse (Given × Option OptionName)
  | [], g => .ok (g, none)
  | c :: rest, g =>
    match options.find? fun o => o.letter? == some c with
    | none => .error (.error (.unknownArgument whole))
    | some o =>
      if o.takesValue then
        match rest with
        | [] => .ok (g, some o)
        | '=' :: value => do return (← g.addValue o (String.ofList value), none)
        | value => do return (← g.addValue o (String.ofList value), none)
      else if rest.head? == some '=' then .error (.error (.valueUnexpected o.text))
      else do takeLetters options whole rest (← g.addFlag o)

/-- Takes an option by its full name, with its value if an equals sign
brings one. -/
def takeLong (options : List OptionName) (whole : String) (g : Given) :
    Parse (Given × Option OptionName) :=
  let cs := whole.toList
  let name := String.ofList (cs.takeWhile (· != '='))
  let value? := match cs.dropWhile (· != '=') with
    | [] => none
    | _ :: value => some (String.ofList value)
  match options.find? (·.text == name), value? with
  | none, _ => .error (.error (.unknownArgument whole))
  | some o, some value =>
    if o.takesValue then do return (← g.addValue o value, none)
    else .error (.error (.valueUnexpected o.text))
  | some o, none =>
    if o.takesValue then .ok (g, some o) else do return (← g.addFlag o, none)

def takeOption (options : List OptionName) (whole : String) (g : Given) :
    Parse (Given × Option OptionName) :=
  match whole.toList with
  | '-' :: '-' :: _ => takeLong options whole g
  | _ :: letters => takeLetters options whole letters g
  | [] => .ok (g, none)

/-- Reads the arguments of a command. `waiting` is an option whose value
comes next. -/
def takeArguments (name : CommandName) (waiting : Option OptionName) :
    List String → Given → Parse Given
  | [], g =>
    match waiting with
    | some o => .error (.error (.valueMissing o.text))
    | none => .ok g
  | s :: rest, g =>
    match waiting with
    | some o =>
      if looksLikeOption s then .error (.error (.valueMissing o.text))
      else do takeArguments name none rest (← g.addValue o s)
    | none =>
      if s = "--" then rest.foldlM (fun g s => g.addRoot name.rootCount s) g
      else if looksLikeOption s then do
        let (g, waiting) ← takeOption (OptionName.allowed (some name)) s g
        takeArguments name waiting rest g
      else do takeArguments name none rest (← g.addRoot name.rootCount s)

def Given.value? (g : Given) (o : OptionName) : Option Path :=
  g.values.lookup o

def Given.tree (g : Given) : Parse TreeArguments :=
  match g.roots with
  | [source, destination] => .ok ⟨source, destination, g.value? .manifest⟩
  | _ => .error (.error .rootMissing)

def CommandName.action (name : CommandName) (g : Given) : Parse Action := do
  match name with
  | .sync => return .sync (← g.tree) (g.has .dryRun) (g.has .noAmalgamate)
  | .status => return .status (← g.tree) (g.has .json)
  | .diff => return .diff (← g.tree)
  | .manifest => return .manifest (g.value? .output)

/-- Help is asked for all commands or for one of them. -/
def takeHelp : List String → Parse Invocation
  | [] => .error .help
  | s :: _ =>
    if (CommandName.ofText? s).isSome || s = "help" then .error .help
    else .error (.error (.unknownCommand s))

/-- Reads up to the command and then its arguments. -/
def takeCommand : List String → Given → Parse Invocation
  | [], _ => .error (.error .commandMissing)
  | s :: rest, g =>
    if s = "--" then .error (.error (.unknownCommand (rest.headD s)))
    else if looksLikeOption s then do
      let (g, _) ← takeOption (OptionName.allowed none) s g
      takeCommand rest g
    else if s = "help" then takeHelp rest
    else match CommandName.ofText? s with
      | none => .error (.error (.unknownCommand s))
      | some name => do
        let h ← takeArguments name none rest {}
        return .act (g.has .verbose || h.has .verbose) (← name.action h)

/-- What a command line asks for. -/
def Invocation.ofArguments (arguments : List String) : Except UsageError Invocation :=
  match takeCommand arguments {} with
  | .ok i => .ok i
  | .error .version => .ok .version
  | .error .help => .ok .help
  | .error (.error e) => .error e

end Vendoring.Command
