import Vendoring.Sync.Run
import Vendoring.Report.Json
import Vendoring.Report.Paint
import Vendoring.Report.Table
import Vendoring.Difference

/-!
# What the commands print

The lines of a run as it advances, the status page in its two forms, and the
differences.
-/

namespace Vendoring.Command

open Report

/-! ## A run -/

/-- Marks the summary lines of a dry run. -/
def runMark (dryRun : Bool) : String :=
  if dryRun then "[dry-run] " else ""

def writeLine (e : Entry) : WriteResult → String
  | .unchanged p => "  ·  " ++ p.text ++ " is up to date\n"
  | .written p => "  ✎  copied " ++ e.text ++ " to " ++ p.text ++ "\n"
  | .wouldWrite p => "  ~  would copy " ++ e.text ++ " to " ++ p.text ++ "\n"

/-- The path of the unit, and how many entries went into it. -/
def unitSummary (r : AggregateResult) : String :=
  r.write.path.text ++ " (" ++ toString r.plan.included.length ++ " sources, "
    ++ toString r.plan.excluded.length ++ " fragments skipped)\n"

def unitLine (r : AggregateResult) : String :=
  match r.write with
  | .written _ => "✎  generated " ++ unitSummary r
  | .wouldWrite _ => "~  would generate " ++ unitSummary r
  | .unchanged p => "·  " ++ p.text ++ " is up to date\n"

def progressLine (dryRun : Bool) : Progress → String
  | .started c =>
    runMark dryRun ++ c.kind.label ++ " (" ++ toString c.entries.length ++ " files) → "
      ++ c.destinationRoot.text ++ "\n"
  | .entry _ e w => writeLine e w
  | .amalgamated r => runMark dryRun ++ unitLine r

def runSummary (dryRun : Bool) (r : RunReport) : String :=
  runMark dryRun ++ "✓ " ++ toString r.written ++ " copied, " ++ toString r.unchanged
    ++ " up to date\n" ++ runMark dryRun ++ "Done\n"

/-! ## Status as a page -/

/-- A path as it stands below the destination root. -/
def pathBelow (root p : Path) : String :=
  ((p.stripBase? root).getD p).text

def indicatorColour : EntryState → Colour
  | .current => .green
  | .outdated => .yellow
  | .missing => .grey
  | .sourceMissing => .red

def indicator (colours : Bool) (s : EntryState) : String :=
  Paint.apply ⟨true, some (indicatorColour s)⟩ colours "■"

def upperCase (s : String) : String :=
  String.ofList (s.toList.map Char.toUpper)

def separator (colours : Bool) : String :=
  Paint.apply ⟨false, some .grey⟩ colours (String.ofList (List.replicate 67 '■')) ++ "\n"

def legend (colours : Bool) : String :=
  "Indicators: " ++ "  ".intercalate
    (EntryState.all.map fun s => indicator colours s ++ " " ++ upperCase s.label) ++ "\n"

def statusRow (c : CategoryStatus) : Row :=
  c.kind.label :: EntryState.all.map (fun s => toString (c.count s))
    ++ [toString c.untracked.length]

def statusHeadings : Row :=
  ["category", "current", "outdated", "missing", "source missing", "untracked"]

/-- Lists what is not current in a category, then what is not tracked. -/
def detailLines (colours : Bool) (c : CategoryStatus) : String :=
  let stale := c.entries.filter (·.2.needsSync)
  if stale.isEmpty && c.untracked.isEmpty then ""
  else
    Paint.apply ⟨true, none⟩ colours (upperCase c.kind.label) ++ "\n"
      ++ String.join (stale.map fun (e, s) =>
        "  " ++ indicator colours s ++ " " ++ e.text ++ " (" ++ s.label ++ ")\n")
      ++ String.join (c.untracked.map fun p =>
        "  " ++ Paint.apply ⟨true, some .magenta⟩ colours "?" ++ " " ++ p.text
          ++ " (untracked)\n")

def programVersion : String := "0.1.0"

def staleCount (r : StatusReport) : Nat :=
  r.count .outdated + r.count .missing + r.count .sourceMissing

def statusPage (colours : Bool) (root : Path) (r : StatusReport) : String :=
  "carve v" ++ programVersion ++ " | " ++ toString r.entryCount ++ " entries | "
    ++ toString (staleCount r) ++ " need sync | " ++ toString r.untracked ++ " untracked\n"
    ++ separator colours ++ legend colours ++ separator colours
    ++ Table.text statusHeadings (r.categories.map statusRow)
    ++ String.join (r.categories.map (detailLines colours))
    ++ indicator colours r.aggregate.state ++ " aggregate " ++ pathBelow root r.aggregate.path
    ++ ": " ++ r.aggregate.state.label ++ "\n"
    ++ separator colours
    ++ if r.isClean then "" else "Run 'carve sync' to update the vendored tree.\n"

/-! ## Status as data -/

def fileJson (path status : String) : Json :=
  .object [("path", .text path), ("status", .text status)]

def categoryJson (root : Path) (c : CategoryStatus) : Json :=
  .object [
    ("category", .text c.kind.label),
    ("destination", .text (pathBelow root c.destinationRoot)),
    ("entries", .array (c.entries.map fun (e, s) => fileJson e.text s.label)),
    ("untracked", .array (c.untracked.map fun p => .text p.text))]

def summaryJson (r : StatusReport) : Json :=
  .object [
    ("entries", .number r.entryCount),
    ("current", .number (r.count .current)),
    ("outdated", .number (r.count .outdated)),
    ("missing", .number (r.count .missing)),
    ("source_missing", .number (r.count .sourceMissing)),
    ("untracked", .number r.untracked),
    ("clean", .boolean r.isClean)]

def statusJson (root : Path) (r : StatusReport) : String :=
  Json.pretty 0 (.object [
    ("summary", summaryJson r),
    ("categories", .array (r.categories.map (categoryJson root))),
    ("aggregate", fileJson (pathBelow root r.aggregate.path) r.aggregate.state.label)]) ++ "\n"

/-! ## Differences -/

/-- The patches one after the other, each ended by a line break. -/
def differencesText (root : Path) (ds : List FileDifference) : String :=
  if ds.isEmpty then "No differences in " ++ root.text ++ ".\n"
  else String.join (ds.map fun d =>
    if d.patch.toList.getLast? == some '\n' then d.patch else d.patch ++ "\n")

end Vendoring.Command
