import Vendoring.Proofs.Differing
import Vendoring.Proofs.Foretelling
import Vendoring.Proofs.Refreshing
import Vendoring.Proofs.Synchronized

/-!
# A clean status leaves nothing to do

A status reads the tree and knows nothing of how it came about: there may be
links anywhere, roots may lead outwards, and destinations may coincide. When
it is clean, the tree is synchronized all the same (`inSync_of_clean`), so a
run finds every entry current, and the unit holds the text that it is
replaced by. That is done by way of a temporary file, and where the unit was
a link there is a file afterwards; but nobody who reads can tell the
difference (`clean_run_rests`).
-/

namespace Vendoring

open Vendoring.Path FileTree

/-! ## What a status found -/

theorem synced_of_current {c : Category} {e : Entry} {d : Disk}
    (h : entryState c e d = .ok .current) : d.Synced (c.sourcePath e) (c.destinationPath e) := by
  cases Disk.found d (c.sourcePath e) (c.destinationPath e) with
  | sourceError x hs => rw [entryState_of_source_error hs] at h; cases h
  | noSource hs => rw [entryState_of_no_source hs] at h; cases h
  | destinationError x hs hd => rw [entryState_of_destination_error hs hd] at h; cases h
  | noDestination hs hd => rw [entryState_of_no_destination hs hd] at h; cases h
  | files a b mode mode' hs hd =>
    rw [entryState_of_files hs hd] at h
    split at h
    · next hab => exact ⟨a, mode, mode', hs, hab ▸ hd⟩
    · cases h

theorem synced_of_entryStates {c : Category} {d : Disk} {entries : List Entry}
    {states : List (Entry × EntryState)} (h : entryStates c d entries = .ok states)
    (hclean : ∀ e ∈ states, e.2.needsSync = false) :
    ∀ e ∈ entries, d.Synced (c.sourcePath e) (c.destinationPath e) := by
  induction entries generalizing states with
  | nil => exact fun e he => nomatch he
  | cons e rest ih =>
    obtain ⟨state, hstate, h⟩ := bind_eq_ok h
    obtain ⟨later, hlater, h⟩ := bind_eq_ok h
    cases h
    have hcurrent := EntryState.needsSync_eq_false_iff.mp (hclean _ (List.mem_cons_self ..))
    intro e' he'
    rcases List.mem_cons.mp he' with rfl | he'
    · exact synced_of_current (hstate.trans (congrArg Except.ok hcurrent))
    · exact ih hlater (fun s hs => hclean s (List.mem_cons_of_mem _ hs)) e' he'

theorem synced_of_categoryStatuses {tracked roots : List Path} {d : Disk}
    {categories : List Category} {statuses : List CategoryStatus}
    (h : categoryStatuses tracked roots d categories = .ok statuses)
    (hclean : ∀ s ∈ statuses, ∀ e ∈ s.entries, e.2.needsSync = false) :
    ∀ c ∈ categories, ∀ e ∈ c.entries, d.Synced (c.sourcePath e) (c.destinationPath e) := by
  induction categories generalizing statuses with
  | nil => exact fun c hc => nomatch hc
  | cons c rest ih =>
    obtain ⟨s, hs, h⟩ := bind_eq_ok h
    obtain ⟨later, hlater, h⟩ := bind_eq_ok h
    obtain ⟨states, hstates, hs⟩ := bind_eq_ok hs
    obtain ⟨files, _, hs⟩ := bind_eq_ok hs
    cases hs
    cases h
    intro c' hc'
    rcases List.mem_cons.mp hc' with rfl | hc'
    · exact synced_of_entryStates hstates (hclean _ (List.mem_cons_self ..))
    · exact ih hlater (fun s hs => hclean s (List.mem_cons_of_mem _ hs)) c' hc'

theorem unit_of_current {sources : Category} {settings : AggregateSettings} {d : Disk}
    {a : AggregateStatus} (h : aggregateStatus sources settings d = .ok a)
    (hclean : a.state.needsSync = false) : ∃ mode, d.node? (sources.aggregatePath settings)
      = .ok (.file (Aggregate.expected sources settings).toUTF8 mode) := by
  obtain ⟨compared, hcompared, h⟩ := bind_eq_ok h
  unfold compareWithText at hcompared
  split at hcompared
  · next bytes hread =>
    cases hcompared
    cases hsame : bytes == (Aggregate.expected sources settings).toUTF8 with
    | true =>
      rw [bytes_beq_iff] at hsame
      rw [← hsame]
      exact Disk.read?_eq_ok_iff.mp hread
    | false =>
      rw [hsame] at h
      cases h
      cases hclean
  · cases hcompared
    cases h
    cases hclean
  · cases hcompared

namespace Manifest

variable {m : Manifest} {source destination : Path} {d : Disk}

theorem inSync_of_clean {status : StatusReport}
    (hstatus : treeStatus m source destination d = .ok status) (hclean : status.isClean = true) :
    m.InSync source destination d := by
  obtain ⟨a, ha, h⟩ := bind_eq_ok hstatus
  obtain ⟨statuses, hstatuses, h⟩ := bind_eq_ok h
  cases h
  simp only [StatusReport.isClean, Bool.and_eq_true, List.all_eq_true, Bool.not_eq_true'] at hclean
  exact ⟨synced_of_categoryStatuses hstatuses hclean.1, unit_of_current ha hclean.2⟩

/-! ## What is left for a run -/

/-- The unit that a dry run reports when there is nothing to do. -/
def restedUnit (m : Manifest) (source destination : Path) : AggregateResult :=
  ⟨Aggregate.Plan.ofEntries m.aggregate (m.category .sources source destination).entries,
    .unchanged (m.unitPath source destination)⟩

/-- What the unit of a synchronized tree comes to. -/
theorem InSync.amalgamate (h : m.InSync source destination d) (hvalid : m.invalid? = none)
    (hfits : (Disk.temporary (m.unitPath source destination)).Fits)
    (hvacant : d.Vacant (Disk.temporary (m.unitPath source destination))) :
    ∃ r u t', (Vendoring.amalgamate (m.category .sources source destination) m.aggregate false
          d).result = .ok r
      ∧ (Vendoring.amalgamate (m.category .sources source destination) m.aggregate false d).disk
        = d.withTree t'
      ∧ d.tree.Refreshed u
        (Aggregate.expected (m.category .sources source destination) m.aggregate).toUTF8 t' := by
  have hcheck : checkSynchronized (m.category .sources source destination) d = .ok () := by
    refine requireSynchronized_eq_ok_iff.mpr fun e he => ?_
    obtain ⟨bytes, mode, mode', _, hfile⟩ :=
      h.entries _ (category_mem m .sources source destination) e he
    exact Disk.isFile?_of_file hfile
  obtain ⟨mode, hunit⟩ := h.unit
  obtain ⟨front, last, hends⟩ :=
    endsIn_join (m.category .sources source destination).destinationRoot (flaw?_of_valid hvalid).2
  obtain ⟨u, t', hreplace, hrefreshed⟩ := Disk.replaceByText_refreshes hends hunit hfits hvacant
  obtain ⟨r, hr⟩ := (amalgamate_of_synchronized_ok_iff m.aggregate hcheck).mpr
    (congrArg Prod.fst hreplace)
  refine ⟨r, u, t', hr, ?_, hrefreshed⟩
  rw [amalgamate_of_synchronized_disk m.aggregate hcheck]
  exact congrArg Prod.snd hreplace

theorem InSync.amalgamate_dry (h : m.InSync source destination d) :
    (Vendoring.amalgamate (m.category .sources source destination) m.aggregate true d).result
      = .ok (m.restedUnit source destination) := by
  obtain ⟨mode, hunit⟩ := h.unit
  rw [Vendoring.amalgamate_dry, ← unitPath, Disk.compareWithText_of_file _ hunit,
    bytes_beq_iff.mpr rfl]
  rfl

/-- A run over a tree in which every entry is current is about the unit
only. -/
theorem InSync.run_result (h : m.InSync source destination d) (hvalid : m.invalid? = none)
    (options : RunOptions) :
    (Vendoring.run m source destination options d).result
        = (if options.amalgamate then
            (Vendoring.amalgamate (m.category .sources source destination) m.aggregate
              options.dryRun d).result.map fun r =>
                ⟨(m.categories source destination).map Category.rested, some r⟩
          else .ok ⟨(m.categories source destination).map Category.rested, none⟩)
      ∧ (Vendoring.run m source destination options d).disk
        = if options.amalgamate then
            (Vendoring.amalgamate (m.category .sources source destination) m.aggregate
              options.dryRun d).disk
          else d := by
  obtain ⟨hdone, hdisk⟩ := runCategories_of_synced h.entries options.dryRun
  unfold Vendoring.run
  simp only [hvalid, hdone, hdisk, runAggregate]
  cases options.amalgamate with
  | false => exact ⟨rfl, rfl⟩
  | true =>
    simp only [if_true]
    split
    · next hx => exact ⟨by rw [hx]; rfl, rfl⟩
    · next hr => exact ⟨by rw [hr]; rfl, rfl⟩

/-- A clean status means that there is nothing to do, in whatever state the
tree is: a run finds every entry unchanged and, as long as the temporary file
of the unit can be made, gets through. There is something at every place
where there was something, and nothing anywhere else, and every file that
could be read reads as before. A path is looked up with a different outcome
only where it could not be followed for too many links, one of which may have
been the unit. A dry run leaves the disk alone and finds the unit unchanged
as well. -/
theorem clean_run_rests (m : Manifest) (source destination : Path) (d : Disk)
    (status : StatusReport) (hvalid : m.invalid? = none)
    (hstatus : treeStatus m source destination d = .ok status) (hclean : status.isClean = true)
    (hfits : (Disk.temporary (m.unitPath source destination)).Fits)
    (hvacant : d.Vacant (Disk.temporary (m.unitPath source destination))) :
    (∀ amalgamate, ∃ report,
        (run m source destination ⟨false, amalgamate⟩ d).result = .ok report
        ∧ report.categories = (m.categories source destination).map Category.rested
        ∧ (run m source destination ⟨false, amalgamate⟩ d).disk.here = d.here
        ∧ (∀ l, ((run m source destination ⟨false, amalgamate⟩ d).disk.tree.node? l).isSome
          = (d.tree.node? l).isSome)
        ∧ (∀ p bytes, d.read? p = .ok bytes →
          (run m source destination ⟨false, amalgamate⟩ d).disk.read? p = .ok bytes)
        ∧ ∀ p, (run m source destination ⟨false, amalgamate⟩ d).disk.read? p = d.read? p
          ∨ d.read? p = .error .tooManyLinks)
      ∧ ∀ amalgamate,
        (run m source destination ⟨true, amalgamate⟩ d).result
          = .ok ⟨(m.categories source destination).map Category.rested,
            if amalgamate then some (m.restedUnit source destination) else none⟩
        ∧ (run m source destination ⟨true, amalgamate⟩ d).disk = d := by
  have hsync := inSync_of_clean hstatus hclean
  refine ⟨fun amalgamate => ?_, fun amalgamate => ?_⟩
  · obtain ⟨hresult, hdisk⟩ := hsync.run_result hvalid ⟨false, amalgamate⟩
    rw [hresult, hdisk]
    cases amalgamate with
    | false =>
      exact ⟨_, rfl, rfl, rfl, fun _ => rfl, fun _ _ h => h, fun _ => Or.inl rfl⟩
    | true =>
      obtain ⟨r, u, t', hr, hd, hrefreshed⟩ := hsync.amalgamate hvalid hfits hvacant
      simp only [if_true, hr, hd]
      have hreads (p : Path) := Disk.read?_refreshed (d := d) hrefreshed p
      refine ⟨_, rfl, rfl, rfl, hrefreshed.isSome, fun p bytes hp => ?_, hreads⟩
      rcases hreads p with h | h
      · exact h.trans hp
      · rw [h] at hp
        cases hp
  · obtain ⟨hresult, hdisk⟩ := hsync.run_result hvalid ⟨true, amalgamate⟩
    rw [hresult, hdisk]
    cases amalgamate with
    | false => exact ⟨rfl, rfl⟩
    | true =>
      simp only [if_true, hsync.amalgamate_dry]
      exact ⟨rfl, amalgamate_dryRun_disk _ _ d⟩

/-! The sample tree, vendored with a link for the unit. -/

def linkedTree : FileTree :=
  (((((((sampleTree.put ["out"] .directory).put ["include", "out"] .directory).put
    ["a.h", "include", "out"] (.file "h".toUTF8 0o644)).put ["lib", "out"] .directory).put
    ["x.cpp", "lib", "out"] (.file "x".toUTF8 0o644)).put
    ["t.inc", "lib", "out"] (.file "t".toUTF8 0o644)).put
    ["unit", "out"] (.file (Aggregate.expected (sample.category .sources ⟨"up"⟩ ⟨"out"⟩)
      sample.aggregate).toUTF8 0o600)).put
    [sample.aggregate.output.text, "lib", "out"] (.link "../unit")

theorem linked_sample_rests :
    (run sample ⟨"up"⟩ ⟨"out"⟩ ⟨false, true⟩ ⟨linkedTree, []⟩).disk.read? ⟨"out/unit"⟩
      = .ok (Aggregate.expected (sample.category .sources ⟨"up"⟩ ⟨"out"⟩)
        sample.aggregate).toUTF8 := by
  have hstatus : (treeStatus sample ⟨"up"⟩ ⟨"out"⟩ ⟨linkedTree, []⟩).toOption.map
      StatusReport.isClean = some true := by decide +kernel
  cases hr : treeStatus sample ⟨"up"⟩ ⟨"out"⟩ ⟨linkedTree, []⟩ with
  | error x => rw [hr] at hstatus; cases hstatus
  | ok status =>
    rw [hr] at hstatus
    have hspot : (Disk.spot? ⟨linkedTree, []⟩
        (Disk.temporary (sample.unitPath ⟨"up"⟩ ⟨"out"⟩))).toOption.all (fun s =>
          s.all fun s => linkedTree.node? s.location == none) = true := by
      decide +kernel
    obtain ⟨_, _, _, _, _, hread, _⟩ := (clean_run_rests sample ⟨"up"⟩ ⟨"out"⟩ ⟨linkedTree, []⟩
      status (by decide +kernel) hr (Option.some.inj hstatus)
      ⟨by decide +kernel, by decide +kernel⟩
      (fun s hs => by rw [hs] at hspot; exact eq_of_beq hspot)).1 true
    exact hread _ _ (by decide +kernel)

end Manifest

end Vendoring
