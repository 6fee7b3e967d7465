import Vendoring.Proofs.Confining
import Vendoring.Proofs.Settling

/-!
# The order of the entries

Two manifests that differ in the order of their entries only are run on one
disk. Category by category the runs come to disks that hold the same
(`runCategories_reordered`), and behind that the two units differ in the
order of their inclusions only (`amalgamate_reordered`).

Inside a category a destination belongs to one entry, since a valid entry can
be read off the names of its path (`eq_of_place`).
-/

namespace Vendoring

open Vendoring.Path FileTree

/-! ## Entries and their places -/

/-- Two entries are one if their paths below a root lead to one place. -/
theorem eq_of_place {root : Path} {e e' : Entry} (he : e.flaw? = none) (he' : e'.flaw? = none)
    {here : Location}
    (h : (root.join e.toPath).place here = (root.join e'.toPath).place here) : e = e' := by
  rw [place_join root (Entry.toPath_relative he), place_join root (Entry.toPath_relative he'),
    Entry.names_toPath he, Entry.names_toPath he', List.append_cancel_right_eq,
    List.reverse_inj] at h
  have hsplit := (List.map_inj_right fun _ _ => String.ofList_injective).mp h
  have htext : e.text.toList = e'.text.toList := by
    have hback := congrArg (List.intercalate ['/']) hsplit
    rwa [List.intercalate_splitOn, List.intercalate_splitOn] at hback
  exact congrArg Entry.mk (String.toList_injective htext)

/-! ## Categories -/

/-- The same category with its entries in another order. -/
structure Category.Reordered (c c' : Category) : Prop where
  kind : c'.kind = c.kind
  sourceRoot : c'.sourceRoot = c.sourceRoot
  destinationRoot : c'.destinationRoot = c.destinationRoot
  entries : c.entries.Perm c'.entries

namespace Category.Reordered

variable {c c' : Category} (h : c.Reordered c')

include h

theorem sourcePath (e : Entry) : c'.sourcePath e = c.sourcePath e := by
  rw [Category.sourcePath, Category.sourcePath, h.sourceRoot]

theorem destinationPath (e : Entry) : c'.destinationPath e = c.destinationPath e := by
  rw [Category.destinationPath, Category.destinationPath, h.destinationRoot]

theorem syncEntry_eq (e : Entry) (dryRun : Bool) (d : Disk) :
    syncEntry c' e dryRun d = syncEntry c e dryRun d := by
  simp only [syncEntry, h.sourcePath, h.destinationPath, h.kind]

theorem syncEntries_eq (dryRun : Bool) (entries : List Entry) (d : Disk) :
    syncEntries c' dryRun entries d = syncEntries c dryRun entries d := by
  induction entries generalizing d with
  | nil => rfl
  | cons e rest ih => simp only [syncEntries, h.syncEntry_eq, ih]

end Category.Reordered

/-- The part of a result that does not depend on the order. -/
def CategoryResult.counts (r : CategoryResult) : Kind × Nat × Nat :=
  (r.kind, r.written, r.unchanged)

theorem counts_of_changed {c c' : Category} (h : c.Reordered c') {d d' : Disk}
    (hok : (syncEntries c false c.entries d).failure = none)
    (hok' : (syncEntries c false c'.entries d').failure = none)
    (hchanged : (syncEntries c false c.entries d).changed.length
      = (syncEntries c false c'.entries d').changed.length) :
    CategoryResult.counts ⟨c'.kind, (syncEntries c false c'.entries d').writes⟩
      = CategoryResult.counts ⟨c.kind, (syncEntries c false c.entries d).writes⟩ := by
  have hlength := congrArg List.length (syncEntries_report hok).1
  have hlength' := congrArg List.length (syncEntries_report hok').1
  rw [List.length_map] at hlength hlength'
  simp only [CategoryRun.changed, List.length_map, ← List.countP_eq_length_filter] at hchanged
  simp only [CategoryResult.counts, CategoryResult.unchanged, CategoryResult.written, h.kind,
    hchanged, hlength, hlength', h.entries.length_eq]

theorem simple_syncEntries {here : Location} {c : Category} {entries : List Entry}
    (hreg : Regular here c entries) {d : Disk} (hd : d.Simple here) :
    (syncEntries c false entries d).disk.Simple here := by
  have h := follow_simple hreg.orderly (List.Subset.refl _) hd
  rwa [follow_entries] at h

/-- Categories with their entries in another order succeed just as well, come
to disks that hold the same, and to the same counts. -/
theorem runCategories_reordered {here : Location} {categories categories' : List Category}
    (h : List.Forall₂ Category.Reordered categories categories')
    (hreg : ∀ c ∈ categories, Regular here c c.entries) {d d' : Disk} (hd : d.Simple here)
    (halike : d.Alike d') :
    ((∃ done, (runCategories false categories d).result = .ok done)
        ↔ ∃ done', (runCategories false categories' d').result = .ok done')
      ∧ ∀ done done', (runCategories false categories d).result = .ok done →
        (runCategories false categories' d').result = .ok done' →
        (runCategories false categories d).disk.Alike (runCategories false categories' d').disk
          ∧ done'.map CategoryResult.counts = done.map CategoryResult.counts := by
  induction h generalizing d d' with
  | nil =>
    refine ⟨iff_of_true ⟨_, rfl⟩ ⟨_, rfl⟩, fun done done' hdone hdone' => ⟨halike, ?_⟩⟩
    cases hdone
    cases hdone'
    rfl
  | @cons c c' rest rest' hc _ ih =>
    have hself := hreg c (List.mem_cons_self ..)
    obtain ⟨hiff, hagree⟩ := syncEntries_reordered hself hc.entries hd halike
    simp only [runCategories, syncCategory, hc.syncEntries_eq]
    cases hfailure : (syncEntries c false c.entries d).failure with
    | some x =>
      cases hfailure' : (syncEntries c false c'.entries d').failure with
      | some x' => simp
      | none =>
        rw [hfailure, hfailure'] at hiff
        cases hiff.mpr rfl
    | none =>
      have hfailure' := hiff.mp hfailure
      obtain ⟨halike', hchanged⟩ := hagree hfailure
      obtain ⟨hrest, hcounts⟩ := ih (fun c hc => hreg c (List.mem_cons_of_mem _ hc))
        (simple_syncEntries hself hd) halike'
      have hhead := counts_of_changed hc hfailure hfailure' hchanged
      simp only [hfailure']
      cases hlater : (runCategories false rest (syncEntries c false c.entries d).disk).result with
      | error x =>
        cases hlater' : (runCategories false rest'
            (syncEntries c false c'.entries d').disk).result with
        | error x' => simp [Except.map]
        | ok later' =>
          rw [hlater, hlater'] at hrest
          obtain ⟨_, hnot⟩ := hrest.mpr ⟨later', rfl⟩
          cases hnot
      | ok later =>
        obtain ⟨later', hlater'⟩ := hrest.mp ⟨later, hlater⟩
        obtain ⟨hdisks, hmore⟩ := hcounts later later' hlater hlater'
        rw [hlater']
        refine ⟨iff_of_true ⟨_, rfl⟩ ⟨_, rfl⟩, fun done done' hdone hdone' => ⟨hdisks, ?_⟩⟩
        cases hdone
        cases hdone'
        rw [List.map_cons, List.map_cons, hhead, hmore]

/-! ## The unit -/

/-- The pairs of lines in the unit, in the order of the entries. -/
def Manifest.pairs (m : Manifest) : List String :=
  (m.sources.files.filter fun e => !m.aggregate.isFragment e).map fun e =>
    Aggregate.pair m.aggregate.undefMacro e.text

theorem expected_eq_join (m : Manifest) (source destination : Path) :
    Aggregate.expected (m.category .sources source destination) m.aggregate
      = String.join m.pairs := by
  rw [Aggregate.expected, Aggregate.Plan.unitText, Aggregate.unitText,
    Aggregate.Plan.included_ofEntries, Manifest.pairs, List.map_map]
  rfl

section Unit

variable {here : Location} {c c' : Category} (hc : c.Reordered c') {settings : AggregateSettings}
  (hplain : (c.aggregatePath settings).Plain)
  (hentries : ∀ e ∈ c.entries, (c.destinationPath e).Plain)
  {d d' : Disk} (hd : d.Simple here) (halike : d.Alike d')

include hc

theorem Category.Reordered.aggregatePath : c'.aggregatePath settings = c.aggregatePath settings :=
  hc.destinationPath _

include hplain hentries hd halike

theorem amalgamate_ok_of_reordered {r : AggregateResult}
    (hok : (amalgamate c settings false d).result = .ok r) :
    ∃ r', (amalgamate c' settings false d').result = .ok r' := by
  obtain ⟨hcheck, hprepared, -⟩ := amalgamate_ok hd.linkFree hplain hok
  have hpath : c'.aggregatePath settings = c.aggregatePath settings := hc.aggregatePath
  refine amalgamate_of_writable (halike.simple hd).linkFree (hpath ▸ hplain) ?_ ?_
  · refine requireSynchronized_eq_ok_iff.mpr fun e he => ?_
    have he := hc.entries.mem_iff.mpr he
    obtain ⟨bytes, mode, hfile⟩ :=
      Disk.isFile?_eq_true_iff.mp (requireSynchronized_eq_ok_iff.mp hcheck e he)
    rw [hc.destinationPath]
    exact Disk.isFile?_of_file ((halike.node?_iff hd (hentries e he)).mpr hfile)
  · rw [hpath]
    exact halike.writable (hprepared.writable hplain)

omit hentries in
/-- The unit is the only thing in which the disks come to differ, and it has
the same mode on both. -/
theorem amalgamate_reordered {r r' : AggregateResult}
    (hok : (amalgamate c settings false d).result = .ok r)
    (hok' : (amalgamate c' settings false d').result = .ok r') :
    (∀ l, l ≠ (c.aggregatePath settings).place here →
      (amalgamate c' settings false d').disk.tree.node? l
        = (amalgamate c settings false d).disk.tree.node? l)
    ∧ ∃ mode,
      (amalgamate c settings false d).disk.tree.node? ((c.aggregatePath settings).place here)
          = some (.file (Aggregate.expected c settings).toUTF8 mode)
      ∧ (amalgamate c' settings false d').disk.tree.node? ((c.aggregatePath settings).place here)
          = some (.file (Aggregate.expected c' settings).toUTF8 mode) := by
  have hd' := halike.simple hd
  have hplain' : (c'.aggregatePath settings).Plain := hc.aggregatePath ▸ hplain
  have htouched := amalgamate_touched hd.linkFree hplain
  have htouched' := amalgamate_touched hd'.linkFree hplain'
  have hclear := amalgamate_clears hd.linkFree hplain hok
  have hclear' := amalgamate_clears hd'.linkFree hplain' hok'
  have hunit := (amalgamate_brings hd.linkFree hplain hok).2.2
  have hunit' := (amalgamate_brings hd'.linkFree hplain' hok').2.2
  rw [hc.aggregatePath] at htouched' hclear' hunit'
  rw [hd.here] at hclear hunit
  rw [hd'.here] at hclear' hunit'
  refine ⟨fun l hl => ?_, _, hunit, ?_⟩
  · by_cases htmp : l = (Disk.temporary (c.aggregatePath settings)).place here
    · rw [htmp, hclear, hclear']
    · by_cases habove : l <:+ ((c.aggregatePath settings).place here).tail
      · have above {X : Disk} {bytes : ByteArray} {mode : Nat} (hX : X.here = here)
            (hnode : X.tree.node? ((c.aggregatePath settings).place here)
              = some (.file bytes mode)) : X.tree.node? l = some .directory := by
          rw [← hX] at hnode habove
          exact directory_above habove
            (isDirectory_iff.mp (Disk.directory_of_node? hplain hnode))
        rw [above (htouched.here.trans hd.here) hunit,
          above (htouched'.here.trans hd'.here) hunit']
      · rw [Disk.Touched.node?_of_apart htouched (hd.here ▸ hl) (hd.here ▸ htmp)
            (hd.here ▸ habove),
          Disk.Touched.node?_of_apart htouched' (hd'.here ▸ hl) (hd'.here ▸ htmp)
            (hd'.here ▸ habove), halike.nodes]
  · rw [hunit']
    simp only [Disk.modeAt, halike.nodes]

end Unit

/-! ## Manifests -/

namespace Manifest

/-- The same manifest with its entries in another order. -/
structure Reordered (m m' : Manifest) : Prop where
  aggregate : m'.aggregate = m.aggregate
  source : ∀ kind, (m'.layout kind).source = (m.layout kind).source
  destination : ∀ kind, (m'.layout kind).destination = (m.layout kind).destination
  files : ∀ kind, (m.layout kind).files.Perm (m'.layout kind).files

section Manifests

variable {m m' : Manifest} {source destination : Path} {here : Location}

namespace Reordered

variable (h : m.Reordered m')

include h

theorem category (kind : Kind) (source destination : Path) :
    (m.category kind source destination).Reordered (m'.category kind source destination) where
  kind := rfl
  sourceRoot := congrArg source.join (h.source kind)
  destinationRoot := congrArg destination.join (h.destination kind)
  entries := h.files kind

theorem categories (source destination : Path) : List.Forall₂ Category.Reordered
    (m.categories source destination) (m'.categories source destination) :=
  .cons (h.category .headers source destination)
    (.cons (h.category .sources source destination)
      (.cons (h.category .tests source destination) .nil))

theorem symm : m'.Reordered m where
  aggregate := h.aggregate.symm
  source kind := (h.source kind).symm
  destination kind := (h.destination kind).symm
  files kind := (h.files kind).symm

theorem unitPath (source destination : Path) :
    m'.unitPath source destination = m.unitPath source destination := by
  rw [Manifest.unitPath, Manifest.unitPath, h.aggregate]
  exact (h.category .sources source destination).aggregatePath

/-- Every entry of the one manifest is an entry of the other one, with the
same paths. -/
theorem entry {c' : Category} (hc' : c' ∈ m'.categories source destination) {e : Entry}
    (he : e ∈ c'.entries) : ∃ c ∈ m.categories source destination, e ∈ c.entries
      ∧ c'.sourcePath e = c.sourcePath e ∧ c'.destinationPath e = c.destinationPath e := by
  obtain ⟨kind, rfl⟩ := mem_categories hc'
  have hkind := h.category kind source destination
  exact ⟨_, category_mem m kind source destination, hkind.entries.mem_iff.mpr he,
    hkind.sourcePath e, hkind.destinationPath e⟩

theorem targets_subset (source destination : Path) :
    m'.targets source destination ⊆ m.targets source destination := by
  intro p hp
  rcases mem_targets.mp hp with rfl | ⟨c', hc', e, he, rfl⟩
  · exact mem_targets.mpr (Or.inl (h.unitPath source destination))
  · obtain ⟨c, hc, he, -, hdest⟩ := h.entry hc' he
    exact mem_targets.mpr (Or.inr ⟨c, hc, e, he, hdest⟩)

theorem sourcePaths_subset (source destination : Path) :
    m'.sourcePaths source destination ⊆ m.sourcePaths source destination := by
  intro p hp
  obtain ⟨c', hc', hp⟩ := List.mem_flatMap.mp hp
  obtain ⟨e, he, rfl⟩ := List.mem_map.mp hp
  obtain ⟨c, hc, he, hsource, -⟩ := h.entry hc' he
  exact List.mem_flatMap.mpr ⟨c, hc, List.mem_map.mpr ⟨e, he, hsource.symm⟩⟩

theorem inward (hin : m.Inward source destination) : m'.Inward source destination := by
  intro c' hc'
  obtain ⟨kind, rfl⟩ := mem_categories hc'
  have hkind := h.category kind source destination
  rw [hkind.sourceRoot, hkind.destinationRoot]
  exact hin _ (category_mem m kind source destination)

theorem apart (hapart : m.Apart source destination here) : m'.Apart source destination here where
  sameSource c' hc' e he c'' hc'' e' he' := by
    obtain ⟨c, hc, he, hsource, hdest⟩ := h.entry hc' he
    obtain ⟨c₂, hc₂, he', hsource', hdest'⟩ := h.entry hc'' he'
    rw [hsource, hdest, hsource', hdest']
    exact hapart.sameSource c hc e he c₂ hc₂ e' he'
  unitAlone c' hc' e he := by
    obtain ⟨c, hc, he, -, hdest⟩ := h.entry hc' he
    rw [hdest, h.unitPath]
    exact hapart.unitAlone c hc e he
  sources p hp q hq :=
    hapart.sources p (h.targets_subset _ _ hp) q (h.sourcePaths_subset _ _ hq)

theorem temporariesClear (hclear : m.TemporariesClear source destination here) :
    m'.TemporariesClear source destination here := by
  intro p hp q hq
  refine hclear p (h.targets_subset _ _ hp) q ?_
  rw [List.mem_append] at hq ⊢
  exact hq.imp (fun h' => h.targets_subset _ _ h') fun h' => h.sourcePaths_subset _ _ h'

theorem pairs_perm : m.pairs.Perm m'.pairs := by
  unfold pairs
  rw [h.aggregate]
  exact ((h.files .sources).filter _).map _

end Reordered

/-- The entries of one category keep apart where those of the manifest do. -/
theorem regular_category (hvalid : m.invalid? = none) (hin : m.Inward source destination)
    (hapart : m.Apart source destination here)
    (hclear : m.TemporariesClear source destination here) {c : Category}
    (hc : c ∈ m.categories source destination) : Regular here c c.entries := by
  have hmem {e : Entry} (he : e ∈ c.entries) : .entry c e ∈ m.agenda source destination false :=
    entry_mem_agenda.mpr ⟨hc, he⟩
  have hflaw {e : Entry} (he : e ∈ c.entries) : e.flaw? = none := by
    obtain ⟨kind, rfl⟩ := mem_categories hc
    exact (flaw?_of_valid hvalid).1 kind e he
  refine ⟨(orderly_agenda hvalid hin hapart hclear.apart false).mono ?_, fun e he e' he' => ?_,
    fun e he e' he' => eq_of_place (hflaw he) (hflaw he'), fun e he e' he' => ?_⟩
  · intro s hs
    obtain ⟨e, he, rfl⟩ := List.mem_map.mp hs
    exact hmem he
  · exact hclear _ (target_mem (hmem he) rfl) _
      (List.mem_append_left _ (target_mem (hmem he') rfl))
  · simp only [startOf, Category.destinationPath,
      isAbsolute_join _ (Entry.toPath_relative (hflaw he)),
      isAbsolute_join _ (Entry.toPath_relative (hflaw he'))]

/-! ## Runs -/

/-- How a run came to succeed: its categories did, and the unit behind them if
it was asked for. -/
inductive Succeeds (m : Manifest) (source destination : Path) (d : Disk) :
    Bool → RunReport → Disk → Prop
  | entries (done : List CategoryResult)
      (hdone : (runCategories false (m.categories source destination) d).result = .ok done) :
      Succeeds m source destination d false ⟨done, none⟩
        (runCategories false (m.categories source destination) d).disk
  | unit (done : List CategoryResult) (r : AggregateResult)
      (hdone : (runCategories false (m.categories source destination) d).result = .ok done)
      (hunit : (Vendoring.amalgamate (m.category .sources source destination) m.aggregate false
        (runCategories false (m.categories source destination) d).disk).result = .ok r) :
      Succeeds m source destination d true ⟨done, some r⟩
        (Vendoring.amalgamate (m.category .sources source destination) m.aggregate false
          (runCategories false (m.categories source destination) d).disk).disk

theorem succeeds_of_run {d : Disk} {amalgamate : Bool} {report : RunReport}
    (hvalid : m.invalid? = none)
    (hok : (run m source destination ⟨false, amalgamate⟩ d).result = .ok report) :
    Succeeds m source destination d amalgamate report
      (run m source destination ⟨false, amalgamate⟩ d).disk := by
  unfold run at hok ⊢
  simp only [hvalid] at hok ⊢
  cases hdone : (runCategories false (m.categories source destination) d).result with
  | error x =>
    rw [hdone] at hok
    cases hok
  | ok done =>
    simp only [hdone] at hok ⊢
    cases amalgamate with
    | false =>
      cases hok
      exact .entries done hdone
    | true =>
      simp only [if_true, runAggregate] at hok ⊢
      cases hunit : (Vendoring.amalgamate (m.category .sources source destination) m.aggregate false
          (runCategories false (m.categories source destination) d).disk).result with
      | error x =>
        rw [hunit] at hok
        cases hok
      | ok r =>
        simp only [hunit] at hok ⊢
        cases hok
        exact .unit done r hdone hunit

theorem Succeeds.run {d d' : Disk} {amalgamate : Bool} {report : RunReport}
    (hvalid : m.invalid? = none)
    (h : Succeeds m source destination d amalgamate report d') :
    (run m source destination ⟨false, amalgamate⟩ d).result = .ok report := by
  cases h with
  | entries done hdone => simp [Vendoring.run, hvalid, hdone]
  | unit done r hdone hunit => simp [Vendoring.run, hvalid, hdone, runAggregate, hunit]

theorem simple_runCategories {d : Disk} (hvalid : m.invalid? = none)
    (hin : m.Inward source destination) (hd : d.Simple here) :
    (runCategories false (m.categories source destination) d).disk.Simple here := by
  have hcourse := congrArg Course.disk
    (runCategories_course false (m.categories source destination) d)
  have hplain (s : Step) (hs : s ∈ m.agenda source destination false) :=
    plain_of_mem_agenda hvalid hin hs
  have h := hd.follow hplain
  rw [agenda, if_neg Bool.false_ne_true, List.append_nil] at h
  rwa [← hcourse] at h

/-- What two runs have in common that differ in the order of the entries: the
counts of every category, and everything on the disk but the bytes of the
unit. Those are the pairs of each manifest in its own order. -/
structure Agree (m m' : Manifest) (source destination : Path) (amalgamate : Bool) (here : Location)
    (report report' : RunReport) (d d' : Disk) : Prop where
  counts : report'.categories.map CategoryResult.counts
    = report.categories.map CategoryResult.counts
  written : report'.written = report.written
  unchanged : report'.unchanged = report.unchanged
  nodes : ∀ l, (amalgamate = true → l ≠ (m.unitPath source destination).place here) →
    d'.tree.node? l = d.tree.node? l
  unit : amalgamate = true → ∃ mode,
    d.tree.node? ((m.unitPath source destination).place here)
        = some (.file (String.join m.pairs).toUTF8 mode)
      ∧ d'.tree.node? ((m.unitPath source destination).place here)
        = some (.file (String.join m'.pairs).toUTF8 mode)

theorem total_counts {done done' : List CategoryResult}
    (h : done'.map CategoryResult.counts = done.map CategoryResult.counts) :
    total (done'.map CategoryResult.written) = total (done.map CategoryResult.written)
      ∧ total (done'.map CategoryResult.unchanged)
        = total (done.map CategoryResult.unchanged) := by
  have hwritten := congrArg (List.map fun k : Kind × Nat × Nat => k.2.1) h
  have hunchanged := congrArg (List.map fun k : Kind × Nat × Nat => k.2.2) h
  simp only [List.map_map] at hwritten hunchanged
  exact ⟨congrArg total hwritten, congrArg total hunchanged⟩

section Runs

variable {d : Disk} {amalgamate : Bool} (hvalid : m.invalid? = none) (h : m.Reordered m')
  (hin : m.Inward source destination) (hfree : d.tree.LinkFree)
  (hapart : m.Apart source destination d.here)
  (hclear : m.TemporariesClear source destination d.here)

include hvalid h hin hfree hapart hclear

theorem succeeds_reordered {report : RunReport} {D : Disk}
    (hok : Succeeds m source destination d amalgamate report D) :
    ∃ report' D', Succeeds m' source destination d amalgamate report' D' := by
  have hd : d.Simple d.here := ⟨hfree, rfl⟩
  have hreg {c : Category} (hc : c ∈ m.categories source destination) :=
    regular_category hvalid hin hapart hclear hc
  obtain ⟨hiff, hagree⟩ := runCategories_reordered (h.categories source destination)
    (fun c hc => hreg hc) hd (.refl d)
  cases hok with
  | entries done hdone =>
    obtain ⟨done', hdone'⟩ := hiff.mp ⟨done, hdone⟩
    exact ⟨_, _, .entries done' hdone'⟩
  | unit done r hdone hunit =>
    obtain ⟨done', hdone'⟩ := hiff.mp ⟨done, hdone⟩
    have hsources := category_mem m .sources source destination
    obtain ⟨r', hunit'⟩ := amalgamate_ok_of_reordered (h.category .sources source destination)
      (plain_unitPath hvalid hin) (fun e he => ((hreg hsources).plain he).2)
      (simple_runCategories hvalid hin hd) (hagree done done' hdone hdone').1 hunit
    rw [← h.aggregate] at hunit'
    exact ⟨_, _, .unit done' r' hdone' hunit'⟩

theorem agree_of_succeeds {report report' : RunReport} {D D' : Disk}
    (hok : Succeeds m source destination d amalgamate report D)
    (hok' : Succeeds m' source destination d amalgamate report' D') :
    Agree m m' source destination amalgamate d.here report report' D D' := by
  have hd : d.Simple d.here := ⟨hfree, rfl⟩
  obtain ⟨-, hagree⟩ := runCategories_reordered (h.categories source destination)
    (fun c hc => regular_category hvalid hin hapart hclear hc) hd (.refl d)
  cases hok with
  | entries done hdone =>
    cases hok' with
    | entries done' hdone' =>
      obtain ⟨halike, hcounts⟩ := hagree done done' hdone hdone'
      obtain ⟨hwritten, hunchanged⟩ := total_counts hcounts
      exact ⟨hcounts, hwritten, hunchanged, fun l _ => halike.nodes l, nofun⟩
  | unit done r hdone hunit =>
    cases hok' with
    | unit done' r' hdone' hunit' =>
      obtain ⟨halike, hcounts⟩ := hagree done done' hdone hdone'
      obtain ⟨hwritten, hunchanged⟩ := total_counts hcounts
      rw [h.aggregate] at hunit' ⊢
      obtain ⟨hnodes, mode, hnode, hnode'⟩ :=
        amalgamate_reordered (h.category .sources source destination)
          (plain_unitPath hvalid hin) (simple_runCategories hvalid hin hd) halike hunit hunit'
      rw [expected_eq_join] at hnode
      rw [← h.aggregate, expected_eq_join] at hnode'
      rw [h.aggregate] at hnode'
      exact ⟨hcounts, hwritten, hunchanged, fun l hl => hnodes l (hl rfl),
        fun _ => ⟨mode, hnode, hnode'⟩⟩

end Runs

/-- The order of the entries does not matter: a run over the same entries in
another order succeeds just as well, and both leave the same disk but for the
bytes of the unit, which holds the same pairs of lines. -/
theorem reordered_runs_agree (m m' : Manifest) (source destination : Path) (d : Disk)
    (amalgamate : Bool) (hvalid : m.invalid? = none) (hvalid' : m'.invalid? = none)
    (h : m.Reordered m') (hin : m.Inward source destination) (hfree : d.tree.LinkFree)
    (hapart : m.Apart source destination d.here)
    (hclear : m.TemporariesClear source destination d.here) :
    ((∃ report, (run m source destination ⟨false, amalgamate⟩ d).result = .ok report)
        ↔ ∃ report', (run m' source destination ⟨false, amalgamate⟩ d).result = .ok report')
      ∧ (∀ report report',
        (run m source destination ⟨false, amalgamate⟩ d).result = .ok report →
        (run m' source destination ⟨false, amalgamate⟩ d).result = .ok report' →
        Agree m m' source destination amalgamate d.here report report'
          (run m source destination ⟨false, amalgamate⟩ d).disk
          (run m' source destination ⟨false, amalgamate⟩ d).disk)
      ∧ m.pairs.Perm m'.pairs := by
  refine ⟨⟨fun ⟨report, hok⟩ => ?_, fun ⟨report', hok'⟩ => ?_⟩, fun report report' hok hok' => ?_,
    h.pairs_perm⟩
  · obtain ⟨report', D', hok'⟩ := succeeds_reordered hvalid h hin hfree hapart hclear
      (succeeds_of_run hvalid hok)
    exact ⟨report', hok'.run hvalid'⟩
  · obtain ⟨report, D, hok⟩ := succeeds_reordered hvalid' h.symm (h.inward hin) hfree
      (h.apart hapart) (h.temporariesClear hclear) (succeeds_of_run hvalid' hok')
    exact ⟨report, hok.run hvalid⟩
  · exact agree_of_succeeds hvalid h hin hfree hapart hclear (succeeds_of_run hvalid hok)
      (succeeds_of_run hvalid' hok')

end Manifests

/-- The sample with its sources the other way round. -/
def reversedSample : Manifest :=
  { sample with sources := { sample.sources with files := sample.sources.files.reverse } }

theorem reversed_sample_runs_alike :
    ∃ report, (run reversedSample ⟨"up"⟩ ⟨"out"⟩ ⟨false, true⟩ ⟨sampleTree, []⟩).result
        = .ok report ∧ report.written = 3 := by
  have hsome : (run sample ⟨"up"⟩ ⟨"out"⟩ ⟨false, true⟩ ⟨sampleTree, []⟩).result.toOption.map
      RunReport.written = some 3 := by decide +kernel
  have h := reordered_runs_agree sample reversedSample ⟨"up"⟩ ⟨"out"⟩ ⟨sampleTree, []⟩ true
    (by decide +kernel) (by decide +kernel)
    ⟨rfl, fun kind => by cases kind <;> rfl, fun kind => by cases kind <;> rfl,
      fun kind => by cases kind <;> decide⟩
    (by decide +kernel) (linkFree_of_nodes (by decide +kernel))
    ⟨by decide +kernel, by decide +kernel, by decide +kernel⟩
    (by unfold TemporariesClear; decide +kernel)
  cases hok : (run sample ⟨"up"⟩ ⟨"out"⟩ ⟨false, true⟩ ⟨sampleTree, []⟩).result with
  | error x =>
    rw [hok] at hsome
    cases hsome
  | ok report =>
    obtain ⟨report', hok'⟩ := h.1.mp ⟨report, hok⟩
    rw [hok] at hsome
    refine ⟨report', hok', (h.2.1 report report' hok hok').written.trans ?_⟩
    exact Option.some.inj hsome

end Manifest

end Vendoring
