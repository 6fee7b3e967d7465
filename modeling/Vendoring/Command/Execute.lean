import Vendoring.Command.Arguments
import Vendoring.Command.Console
import Vendoring.Manifest.File
import Vendoring.Report.Failure

/-!
# Carrying out a command

A command works on a disk and ends with what it printed, what it logged and
whether it failed. The manifest is the one that the user names, else the one
in the working directory, else the built-in one.
-/

namespace Vendoring.Command

open Report

/-- How a command ended. -/
structure Finished where
  output : String
  failure : Option Failure
  disk : Disk
  log : List Notice

/-- Where a command runs: the absolute path of the working directory, and
whether its output is painted. -/
structure Setting where
  workingDirectory : Path
  colours : Bool

def manifestFailure (headline : String) (e : ManifestError) : Failure :=
  ⟨headline, e.message :: e.causes⟩

def syncFailure (headline : String) (e : SyncError) : Failure :=
  ⟨headline, e.message :: e.causes⟩

/-- Loads a manifest file, telling that it is used. -/
def loadFile (d : Disk) (path : Path) : Except Failure Manifest × List Notice :=
  let (r, log) := Manifest.load d path
  (r.mapError (manifestFailure ("failed to load manifest " ++ path.text)),
    .usingManifest path :: log)

def loadManifest (s : Setting) (chosen : Option Path) (d : Disk) :
    Except Failure Manifest × List Notice :=
  match chosen <|> Manifest.discover? d s.workingDirectory with
  | some path => loadFile d path
  | none =>
    let (r, log) := Manifest.builtIn
    (r.mapError (manifestFailure "built-in manifest is invalid"), .usingBuiltIn :: log)

/-- The manifest for a tree whose source root is there. -/
def loadFor (s : Setting) (t : TreeArguments) (d : Disk) :
    Except Failure Manifest × List Notice :=
  if d.isDirectory t.source then loadManifest s t.manifest d
  else (.error ⟨"upstream root " ++ t.source.text ++ " is not a directory", []⟩, [])

/-- Goes on with the manifest of a tree, or ends. -/
def withManifest (s : Setting) (t : TreeArguments) (d : Disk) (go : Manifest → Finished) :
    Finished :=
  match loadFor s t d with
  | (.error f, log) => ⟨"", some f, d, log⟩
  | (.ok m, log) =>
    let done := go m
    { done with log := log ++ done.log }

/-- A command that only looks. -/
def looking (d : Disk) (headline : String) (r : Except SyncError String) : Finished :=
  match r with
  | .ok output => ⟨output, none, d, []⟩
  | .error e => ⟨"", some (syncFailure headline e), d, []⟩

def syncTree (t : TreeArguments) (dryRun noAmalgamate : Bool) (d : Disk) (m : Manifest) :
    Finished :=
  let done := run m t.source t.destination ⟨dryRun, !noAmalgamate⟩ d
  let lines := String.join (done.events.map (progressLine dryRun))
  match done.result with
  | .ok report => ⟨lines ++ runSummary dryRun report, none, done.disk, done.log⟩
  | .error e =>
    let headline :=
      "sync from " ++ t.source.text ++ " into " ++ t.destination.text ++ " failed"
    ⟨lines, some (syncFailure headline e), done.disk, done.log⟩

def showStatus (s : Setting) (t : TreeArguments) (json : Bool) (d : Disk) (m : Manifest) :
    Finished :=
  looking d "status check failed" <|
    (treeStatus m t.source t.destination d).map fun r =>
      if json then statusJson t.destination r else statusPage s.colours t.destination r

def showDifferences (t : TreeArguments) (d : Disk) (m : Manifest) : Finished :=
  looking d ("diff against " ++ t.source.text ++ " failed") <|
    (treeDifferences m t.source t.destination d).map (differencesText t.destination)

/-- Prints the built-in manifest as it is, or saves it. -/
def giveManifest (output : Option Path) (d : Disk) : Finished :=
  match output with
  | none => ⟨Manifest.builtInText, none, d, []⟩
  | some path =>
    match Manifest.builtIn with
    | (.error e, log) => ⟨"", some (manifestFailure "built-in manifest is invalid" e), d, log⟩
    | (.ok m, log) =>
      match Manifest.save m path d with
      | (.error e, d) =>
        ⟨"", some (manifestFailure ("failed to write manifest to " ++ path.text) e), d, log⟩
      | (.ok (), d) => ⟨"✓ wrote built-in manifest to " ++ path.text ++ "\n", none, d, log⟩

def Action.execute (a : Action) (s : Setting) (d : Disk) : Finished :=
  match a with
  | .sync t dryRun noAmalgamate => withManifest s t d (syncTree t dryRun noAmalgamate d)
  | .status t json => withManifest s t d (showStatus s t json d)
  | .diff t => withManifest s t d (showDifferences t d)
  | .manifest output => giveManifest output d

/-! ## Which notices are shown -/

/-- The least weight of a notice that is shown under a level by that name;
none where nothing is shown. -/
def leastWeight? (name : String) : Option Nat :=
  match upperCase name with
  | "TRACE" | "5" | "DEBUG" | "4" => some Level.debug.weight
  | "INFO" | "3" => some Level.info.weight
  | "WARN" | "2" => some Level.warn.weight
  | _ => none

/-- The notices that are shown: warnings, with the verbose flag also what is
being done, unless a level is set. -/
def shownNotices (verbose : Bool) (level : Option String) (log : List Notice) : List Notice :=
  match leastWeight? (level.getD (if verbose then "info" else "warn")) with
  | none => []
  | some least => log.filter fun n => least ≤ n.level.weight

def versionText : String := "carve " ++ programVersion ++ "\n"

end Vendoring.Command
