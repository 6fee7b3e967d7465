import Vendoring.Sync.Amalgamate

/-!
# A whole run

Headers, then sources, then tests, then the aggregate unit. The first error
ends the run; what was done before it stays, so that the next run goes on
from there.
-/

namespace Vendoring

structure RunOptions where
  dryRun : Bool := false
  amalgamate : Bool := true
  deriving DecidableEq, Repr

/-- What a run reports as it advances. -/
inductive Progress
  | started (category : Category)
  | entry (kind : Kind) (entry : Entry) (result : WriteResult)
  | amalgamated (result : AggregateResult)
  deriving DecidableEq, Repr

structure RunReport where
  categories : List CategoryResult
  aggregate : Option AggregateResult
  deriving DecidableEq, Repr

namespace RunReport

def written (r : RunReport) : Nat :=
  total (r.categories.map CategoryResult.written)

def unchanged (r : RunReport) : Nat :=
  total (r.categories.map CategoryResult.unchanged)

end RunReport

/-- How far a run or a part of it got. -/
structure Run (α : Type) where
  result : Except SyncError α
  events : List Progress
  disk : Disk
  log : List Notice

/-- Synchronizes categories one after the other, up to the first error. -/
def runCategories (dryRun : Bool) : List Category → Disk → Run (List CategoryResult)
  | [], d => ⟨.ok [], [], d, []⟩
  | c :: rest, d =>
    let run := syncCategory c dryRun d
    let events := .started c :: run.writes.map fun (e, w) => .entry c.kind e w
    match run.failure with
    | some x => ⟨.error x, events, run.disk, run.log⟩
    | none =>
      let later := runCategories dryRun rest run.disk
      ⟨later.result.map (⟨c.kind, run.writes⟩ :: ·), events ++ later.events, later.disk,
        run.log ++ later.log⟩

/-- Ends a run whose categories are done. -/
def runAggregate (m : Manifest) (source destination : Path) (dryRun : Bool)
    (done : List CategoryResult) (d : Disk) : Run RunReport :=
  let step := amalgamate (m.category .sources source destination) m.aggregate dryRun d
  match step.result with
  | .error x => ⟨.error x, [], step.disk, step.log⟩
  | .ok r => ⟨.ok ⟨done, some r⟩, [.amalgamated r], step.disk, step.log⟩

/-- Synchronizes the tree at `destination` with the one at `source`. An
invalid manifest is refused before anything is touched. -/
def run (m : Manifest) (source destination : Path) (options : RunOptions) (d : Disk) :
    Run RunReport :=
  match m.invalid? with
  | some reason => ⟨.error (.manifest (.invalid reason)), [], d, []⟩
  | none =>
    let categories := runCategories options.dryRun (m.categories source destination) d
    match categories.result with
    | .error x => ⟨.error x, categories.events, categories.disk, categories.log⟩
    | .ok done =>
      if options.amalgamate then
        let last := runAggregate m source destination options.dryRun done categories.disk
        ⟨last.result, categories.events ++ last.events, last.disk, categories.log ++ last.log⟩
      else ⟨.ok ⟨done, none⟩, categories.events, categories.disk, categories.log⟩

end Vendoring
