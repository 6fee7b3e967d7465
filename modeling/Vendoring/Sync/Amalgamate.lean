import Vendoring.Aggregate
import Vendoring.Sync.Write

/-!
# Writing the aggregate unit

The unit is written only over a synchronized sources category, fragments
included, and then in full every time. A dry run compares the unit with what
is on disk.
-/

namespace Vendoring

structure AggregateResult where
  plan : Aggregate.Plan
  write : WriteResult
  deriving DecidableEq, Repr

/-- Fails at the first entry whose destination is no regular file. -/
def requireSynchronized (sources : Category) (d : Disk) : List Entry → Except SyncError Unit
  | [] => .ok ()
  | e :: rest => do
    let path := sources.destinationPath e
    if ← d.isFile? path then requireSynchronized sources d rest
    else .error (.precondition e path)

def checkSynchronized (sources : Category) (d : Disk) : Except SyncError Unit :=
  requireSynchronized sources d sources.entries

/-- How a file compares with the text it should hold. `none` stands for a
file that is not there. -/
def compareWithText (d : Disk) (path : Path) (text : String) :
    Except SyncError (Option Bool) :=
  match d.read? path with
  | .ok bytes => .ok (some (bytes == text.toUTF8))
  | .error .notFound => .ok none
  | .error f => .error (.io path f)

/-- Generates the aggregate unit of a sources category. -/
def amalgamate (sources : Category) (settings : AggregateSettings) (dryRun : Bool) (d : Disk) :
    Outcome AggregateResult :=
  let plan := Aggregate.Plan.ofEntries settings sources.entries
  let text := plan.unitText settings
  let path := sources.aggregatePath settings
  if dryRun then
    match compareWithText d path text with
    | .error x => ⟨.error x, d, []⟩
    | .ok (some true) => ⟨.ok ⟨plan, .unchanged path⟩, d, []⟩
    | .ok _ => ⟨.ok ⟨plan, .wouldWrite path⟩, d, []⟩
  else match checkSynchronized sources d with
    | .error x => ⟨.error x, d, []⟩
    | .ok () =>
      match d.replaceByText path text.toUTF8 with
      | (.error x, d) => ⟨.error x, d, []⟩
      | (.ok (), d) =>
        ⟨.ok ⟨plan, .written path⟩, d, [.amalgamated plan.included.length path]⟩

end Vendoring
