import Vendoring.Proofs.Layout

/-!
# What a report tells

A report goes through the entries of a manifest in order, each with its
destination (`run_report`), and it tells of them what the events of the run
have told: what is proved of the events by following steps is thereby proved
of the report.
-/

namespace Vendoring

/-- What became of an entry, if the event is about one. -/
def Progress.write? : Progress → Option WriteResult
  | .entry _ _ w => some w
  | .started _ | .amalgamated _ => none

theorem filterMap_write?_cons (r : Progress) (rest : List Progress) :
    (r :: rest).filterMap Progress.write? = r.write?.toList ++ rest.filterMap Progress.write? := by
  cases r <;> rfl

/-- What became of the entries, in the order of the run. -/
def RunReport.results (r : RunReport) : List WriteResult :=
  r.categories.flatMap fun c => c.writes.map Prod.snd

/-! ## Entries -/

theorem syncEntry_path {c : Category} {e : Entry} {d : Disk} {dryRun : Bool} {w : WriteResult}
    (hok : (syncEntry c e dryRun d).result = .ok w) : w.path = c.destinationPath e := by
  cases decision c e d with
  | refused x h _ =>
    rw [h dryRun] at hok
    cases hok
  | current h =>
    rw [syncEntry_of_synced dryRun h] at hok
    cases hok
    rfl
  | different hs hid =>
    cases dryRun with
    | true =>
      rw [syncEntry_of_different_dry hs hid] at hok
      cases hok
      rfl
    | false =>
      rw [((syncEntry_of_different_ok_iff hs hid).mp hok).1]
      rfl

theorem syncEntries_report {c : Category} {dryRun : Bool} {entries : List Entry} {d : Disk}
    (h : (syncEntries c dryRun entries d).failure = none) :
    (syncEntries c dryRun entries d).writes.map Prod.fst = entries
      ∧ (syncEntries c dryRun entries d).writes.map (fun w => w.2.path)
        = entries.map c.destinationPath := by
  induction entries generalizing d with
  | nil => exact ⟨rfl, rfl⟩
  | cons e rest ih =>
    cases he : (syncEntry c e dryRun d).result with
    | error x =>
      rw [syncEntries_cons_error he] at h
      cases h
    | ok w =>
      obtain ⟨hwrites, hfailure⟩ := syncEntries_cons_ok rest he
      obtain ⟨hentries, hpaths⟩ := ih (hfailure ▸ h)
      rw [hwrites, List.map_cons, List.map_cons, List.map_cons, hentries, hpaths,
        syncEntry_path he]
      exact ⟨rfl, rfl⟩

theorem runCategories_report {dryRun : Bool} {categories : List Category} {d : Disk}
    {done : List CategoryResult} (h : (runCategories dryRun categories d).result = .ok done) :
    done.map (fun r => (r.kind, r.writes.map Prod.fst))
        = categories.map (fun c => (c.kind, c.entries))
      ∧ (runCategories dryRun categories d).events.filterMap Progress.write?
        = done.flatMap (fun r => r.writes.map Prod.snd)
      ∧ (done.flatMap fun r => r.writes.map Prod.snd).map WriteResult.path
        = categories.flatMap fun c => c.entries.map c.destinationPath := by
  induction categories generalizing d done with
  | nil =>
    obtain rfl := Except.ok.inj h
    exact ⟨rfl, rfl, rfl⟩
  | cons c rest ih =>
    simp only [runCategories, syncCategory] at h ⊢
    cases hfailure : (syncEntries c dryRun c.entries d).failure with
    | some x =>
      rw [hfailure] at h
      cases h
    | none =>
      simp only [hfailure] at h ⊢
      cases hlater : (runCategories dryRun rest (syncEntries c dryRun c.entries d).disk).result with
      | error x =>
        rw [hlater] at h
        cases h
      | ok later =>
        rw [hlater] at h
        obtain rfl := Except.ok.inj h
        obtain ⟨houtline, hevents, hpaths⟩ := ih hlater
        obtain ⟨hentries, hdests⟩ := syncEntries_report hfailure
        refine ⟨?_, ?_, ?_⟩
        · rw [List.map_cons, List.map_cons, houtline, hentries]
        · rw [List.cons_append, filterMap_write?_cons, List.filterMap_append, hevents,
            List.flatMap_cons]
          simp [Progress.write?, Function.comp_def]
        · rw [List.flatMap_cons, List.map_append, hpaths, List.map_map, List.flatMap_cons]
          exact congrArg (· ++ _) hdests

/-! ## Runs -/

/-- The report of a run of a valid manifest goes through its entries in
order, and tells of them what the events told. -/
theorem run_report {m : Manifest} (hvalid : m.invalid? = none) {source destination : Path}
    {options : RunOptions} {d : Disk} {report : RunReport}
    (hok : (run m source destination options d).result = .ok report) :
    report.categories.map (fun r => (r.kind, r.writes.map Prod.fst))
        = (m.categories source destination).map (fun c => (c.kind, c.entries))
      ∧ (run m source destination options d).events.filterMap Progress.write? = report.results
      ∧ report.results.map WriteResult.path = m.destinations source destination
      ∧ if options.amalgamate then
          ∃ u, report.aggregate = some u
            ∧ (amalgamate (m.category .sources source destination) m.aggregate options.dryRun
                (runCategories options.dryRun (m.categories source destination) d).disk).result
              = .ok u
        else report.aggregate = none := by
  unfold run at hok ⊢
  simp only [hvalid] at hok ⊢
  cases hdone : (runCategories options.dryRun (m.categories source destination) d).result with
  | error x =>
    rw [hdone] at hok
    cases hok
  | ok done =>
    simp only [hdone] at hok ⊢
    obtain ⟨houtline, hevents, hpaths⟩ := runCategories_report hdone
    cases ha : options.amalgamate with
    | false =>
      simp only [ha] at hok ⊢
      cases hok
      exact ⟨houtline, hevents, hpaths, rfl⟩
    | true =>
      simp only [ha, if_true, runAggregate] at hok ⊢
      cases hu : (amalgamate (m.category .sources source destination) m.aggregate options.dryRun
          (runCategories options.dryRun (m.categories source destination) d).disk).result with
      | error x =>
        rw [hu] at hok
        cases hok
      | ok u =>
        simp only [hu] at hok ⊢
        cases hok
        refine ⟨houtline, ?_, hpaths, u, rfl, rfl⟩
        rw [List.filterMap_append, hevents]
        exact List.append_nil _

end Vendoring
