import Vendoring.Proofs.Exchanging
import Vendoring.Proofs.Foretelling

/-!
# What one step promises

One entry or the unit, on any tree and whatever becomes of it. A step that is
refused or has nothing to do leaves the disk alone; one that replaces a file ends
as an `Exchange` does. That is all there is to say of an entry
(`entry_is_replaced_or_spared`) and of the unit (`unit_is_replaced_or_spared`),
provided that the temporary name is free.
-/

namespace Vendoring

open Vendoring.Path FileTree

namespace Disk

variable {d d₁ : Disk} {p : Path} {s : Spot}

theorem isFile?_eq_false_iff : d.isFile? p = .ok false ↔
    d.node? p = .error .notFound ∨ ∃ node, d.node? p = .ok node ∧ node.isFile = false := by
  unfold isFile?
  split
  · next n hn => simp [hn]
  · next hn => simp [hn]
  · next f hne hn => simpa [hn] using hne

/-- Where no links are, directories bring none. -/
theorem Paved.not_loops {along : Path → Prop} (h : d.Paved along d₁) (hfree : d.tree.LinkFree)
    (hspot : d₁.spot? p = .ok (some s)) (hslash : s.slash = false)
    (hold : d₁.tree.node? s.location ≠ some .directory) : ¬d₁.Loops p s :=
  not_loops_of_not_directoryLink hspot hslash hold (not_isDirectoryLink (h.linkFree hfree) p)

/-- Nothing stands at the temporary name of a path, and nothing does once the
directories around it are made. The second matters only to a path that leads
outwards: where `m` is missing, `m/../f.carve.tmp` leads to something as soon as
there is an `m`. -/
structure Untaken (d : Disk) (p : Path) : Prop where
  vacant : d.Vacant (temporary p)
  outward : ¬p.Inward → (d.createParent p).2.Vacant (temporary p)

theorem Untaken.createParent {front : List Segment} {last : Segment} (h : d.Untaken p)
    (hends : p.EndsIn front last) : (d.createParent p).2.Vacant (temporary p) := by
  by_cases hin : p.Inward
  · exact vacant_temporary_createParent hends hin h.vacant
  · exact h.outward hin

end Disk

/-! ## One entry -/

section Entry

variable {c : Category} {e : Entry} {d : Disk}

/-- All that can become of an entry. -/
inductive Delivery (c : Category) (e : Entry) (dryRun : Bool) (d : Disk) :
    Except SyncError WriteResult → Disk → Prop
  | missed (hs : d.isFile? (c.sourcePath e) = .ok false) :
      Delivery c e dryRun d (.error (.missingSource c.kind e (c.sourcePath e))) d
  | current (h : d.Synced (c.sourcePath e) (c.destinationPath e)) :
      Delivery c e dryRun d (.ok (.unchanged (c.destinationPath e))) d
  | announced (hdry : dryRun = true) (hs : d.isFile? (c.sourcePath e) ≠ .ok false)
      (hnot : ¬d.Synced (c.sourcePath e) (c.destinationPath e)) :
      Delivery c e dryRun d (.ok (.wouldWrite (c.destinationPath e))) d
  | failed {q : Path} {f : FileFault} {d' : Disk} (hs : d.isFile? (c.sourcePath e) ≠ .ok false)
      (hnot : ¬d.Synced (c.sourcePath e) (c.destinationPath e))
      (h : d.Spared (c.destinationPath e) d') : Delivery c e dryRun d (.error (.io q f)) d'
  | written {bytes : ByteArray} {mode : Nat} {d₁ d' : Disk} {s : Spot} (hreal : dryRun = false)
      (hs : d.node? (c.sourcePath e) = .ok (.file bytes mode))
      (hnot : ¬d.Synced (c.sourcePath e) (c.destinationPath e))
      (hpaved : d.Paved (·.Around (c.destinationPath e)) d₁)
      (h : d₁.Replaced (c.destinationPath e) s bytes mode d')
      (htemporary : d'.Vacant (Disk.temporary (c.destinationPath e))) :
      Delivery c e dryRun d (.ok (.written (c.destinationPath e))) d'

/-- An entry that is neither missed nor current. -/
theorem delivery_of_different (he : e.flaw? = none) (hfree : d.Untaken (c.destinationPath e))
    (dryRun : Bool) {bytes : ByteArray} {mode : Nat}
    (hs : d.node? (c.sourcePath e) = .ok (.file bytes mode))
    (hid : d.identical? (c.sourcePath e) (c.destinationPath e) = .ok false)
    (hnot : ¬d.Synced (c.sourcePath e) (c.destinationPath e)) :
    Delivery c e dryRun d (syncEntry c e dryRun d).result (syncEntry c e dryRun d).disk := by
  obtain ⟨front, last, hends⟩ : ∃ front last, (c.destinationPath e).EndsIn front last :=
    Manifest.endsIn_join c.destinationRoot he
  have hfile := Disk.isFile?_of_file hs
  have hsource : d.isFile? (c.sourcePath e) ≠ .ok false := by
    rw [hfile]
    nofun
  cases dryRun with
  | true =>
    rw [syncEntry_of_different_dry hfile hid]
    exact .announced rfl hsource hnot
  | false =>
    have hexchange := Disk.replaceByCopy_exchange hends (hfree.createParent hends) hs
    have hdisk := syncEntry_of_different_disk hfile hid
    cases hcopy : d.replaceByCopy (c.sourcePath e) (c.destinationPath e) with
    | mk r d' =>
      rw [hcopy] at hexchange hdisk
      rw [hdisk]
      cases hexchange with
      | failed q f h =>
        rw [(syncEntry_of_different_error_iff hfile hid).mpr (congrArg Prod.fst hcopy)]
        exact .failed hsource hnot h
      | replaced hpaved h htemporary =>
        rw [(syncEntry_of_different_ok_iff hfile hid).mpr ⟨rfl, congrArg Prod.fst hcopy⟩]
        exact .written rfl hs hnot hpaved h htemporary

theorem delivery (he : e.flaw? = none) (hfree : d.Untaken (c.destinationPath e)) (dryRun : Bool) :
    Delivery c e dryRun d (syncEntry c e dryRun d).result (syncEntry c e dryRun d).disk := by
  have hspared : d.Spared (c.destinationPath e) d :=
    ⟨Disk.Paved.refl d _, hfree.vacant, fun _ h => h⟩
  have isFile {p : Path} {node : Node} (hp : d.node? p = .ok node) :
      d.isFile? p = .ok node.isFile := by
    unfold Disk.isFile?
    rw [hp]
  cases Disk.found d (c.sourcePath e) (c.destinationPath e) with
  | sourceError x hs =>
    obtain ⟨f, rfl⟩ := Disk.isFile?_eq_error hs
    rw [syncEntry_of_source_error dryRun hs]
    refine .failed (by rw [hs]; nofun) ?_ hspared
    rintro ⟨_, _, _, ha, -⟩
    rw [isFile ha] at hs
    cases hs
  | noSource hs =>
    rw [syncEntry_of_no_source dryRun hs]
    exact .missed hs
  | destinationError x hs hd =>
    obtain ⟨f, rfl⟩ := Disk.isFile?_eq_error hd
    rw [syncEntry_of_destination_error dryRun hs hd]
    refine .failed (by rw [hs]; nofun) ?_ hspared
    rintro ⟨_, _, _, -, hb⟩
    rw [isFile hb] at hd
    cases hd
  | noDestination hs hd =>
    obtain ⟨a, mode, ha⟩ := Disk.isFile?_eq_true_iff.mp hs
    refine delivery_of_different he hfree dryRun ha (Disk.identical?_of_not_file hd) ?_
    rintro ⟨_, _, _, -, hb⟩
    rw [isFile hb] at hd
    cases hd
  | files a b mode mode' hs hd =>
    by_cases hab : a = b
    · subst hab
      rw [syncEntry_of_current dryRun hs hd]
      exact .current ⟨a, mode, mode', hs, hd⟩
    · have hid := Disk.identical?_of_files hs hd
      rw [decide_eq_false hab] at hid
      refine delivery_of_different he hfree dryRun hs hid ?_
      rintro ⟨bytes, _, _, ha, hb⟩
      rw [hs] at ha
      rw [hd] at hb
      cases ha
      cases hb
      exact hab rfl

/-- An entry is left alone if it is current, and missed if its source is no
file. Otherwise its destination becomes a copy of its source and nothing but the
directories around it is new, or all that was there is as it was. -/
theorem entry_is_replaced_or_spared (c : Category) (e : Entry) (dryRun : Bool) (d : Disk)
    (he : e.flaw? = none) (hfree : d.Untaken (c.destinationPath e)) :
    (dryRun = true → (syncEntry c e dryRun d).disk = d)
    ∧ ((syncEntry c e dryRun d).result = .ok (.unchanged (c.destinationPath e)) ↔
      ∃ bytes mode mode', d.node? (c.sourcePath e) = .ok (.file bytes mode)
        ∧ d.node? (c.destinationPath e) = .ok (.file bytes mode'))
    ∧ ((syncEntry c e dryRun d).result = .error (.missingSource c.kind e (c.sourcePath e)) ↔
      d.node? (c.sourcePath e) = .error .notFound
        ∨ ∃ node, d.node? (c.sourcePath e) = .ok node ∧ node.isFile = false)
    ∧ match (syncEntry c e dryRun d).result with
      | .ok (.unchanged p) => p = c.destinationPath e ∧ (syncEntry c e dryRun d).disk = d
      | .ok (.wouldWrite p) => p = c.destinationPath e ∧ dryRun = true
      | .ok (.written p) => p = c.destinationPath e ∧ dryRun = false
        ∧ ∃ bytes mode d₁ s, d.node? (c.sourcePath e) = .ok (.file bytes mode)
          ∧ d.Paved (·.Around p) d₁
          ∧ d₁.Replaced p s bytes mode (syncEntry c e dryRun d).disk
          ∧ ((syncEntry c e dryRun d).disk.spot? p = .ok (some s) ↔ ¬d₁.Loops p s)
          ∧ (syncEntry c e dryRun d).disk.Vacant (Disk.temporary p)
      | .error (.missingSource kind e' p) => kind = c.kind ∧ e' = e ∧ p = c.sourcePath e
        ∧ (syncEntry c e dryRun d).disk = d
      | .error (.io _ _) => d.Spared (c.destinationPath e) (syncEntry c e dryRun d).disk
      | .error _ => False := by
  refine ⟨?_, ?_⟩
  · rintro rfl
    exact (syncEntry_dryRun c e d).2
  rw [← Disk.isFile?_eq_false_iff]
  have hdelivery := delivery he hfree dryRun
  generalize (syncEntry c e dryRun d).result = r at hdelivery ⊢
  generalize (syncEntry c e dryRun d).disk = d' at hdelivery ⊢
  cases hdelivery with
  | missed hs =>
    refine ⟨⟨nofun, ?_⟩, ⟨fun _ => hs, fun _ => rfl⟩, rfl, rfl, rfl, rfl⟩
    rintro ⟨bytes, mode, _, ha, -⟩
    rw [Disk.isFile?_of_file ha] at hs
    cases hs
  | current h =>
    refine ⟨⟨fun _ => h, fun _ => rfl⟩, ⟨nofun, fun hs => ?_⟩, rfl, rfl⟩
    obtain ⟨bytes, mode, _, ha, -⟩ := h
    rw [Disk.isFile?_of_file ha] at hs
    cases hs
  | announced hdry hs hnot =>
    exact ⟨⟨nofun, fun h => absurd h hnot⟩, ⟨nofun, fun h => absurd h hs⟩, rfl, hdry⟩
  | failed hs hnot h =>
    exact ⟨⟨nofun, fun h => absurd h hnot⟩, ⟨nofun, fun h => absurd h hs⟩, h⟩
  | written hreal hs hnot hpaved h htemporary =>
    refine ⟨⟨nofun, fun h => absurd h hnot⟩, ⟨nofun, fun h => ?_⟩, rfl, hreal, _, _, _, _, hs,
      hpaved, h, h.spot?_iff, htemporary⟩
    rw [Disk.isFile?_of_file hs] at h
    cases h

/-! A header whose copy is a link to a file that is to be kept. -/

def header : Category := ⟨.headers, ⟨"up/inc"⟩, ⟨"dst/inc"⟩, [⟨"a.h"⟩]⟩

def aliasedDisk : Disk where
  tree := ((((((FileTree.empty.put ["up"] .directory).put ["inc", "up"] .directory).put
    ["a.h", "inc", "up"] (.file "new".toUTF8 0o600)).put ["dst"] .directory).put
    ["inc", "dst"] .directory).put ["notes"] (.file "kept".toUTF8 0o644)).put
    ["a.h", "inc", "dst"] (.link "../../notes")
  here := []

theorem aliased_header_is_replaced : Entry.flaw? ⟨"a.h"⟩ = none
    ∧ aliasedDisk.Untaken (header.destinationPath ⟨"a.h"⟩)
    ∧ (syncEntry header ⟨"a.h"⟩ false aliasedDisk).result = .ok (.written ⟨"dst/inc/a.h"⟩)
    ∧ ∃ bytes mode d₁ s,
      aliasedDisk.node? (header.sourcePath ⟨"a.h"⟩) = .ok (.file bytes mode)
      ∧ aliasedDisk.Paved (·.Around ⟨"dst/inc/a.h"⟩) d₁
      ∧ d₁.Replaced ⟨"dst/inc/a.h"⟩ s bytes mode (syncEntry header ⟨"a.h"⟩ false aliasedDisk).disk
      ∧ ((syncEntry header ⟨"a.h"⟩ false aliasedDisk).disk.spot? ⟨"dst/inc/a.h"⟩ = .ok (some s)
        ↔ ¬d₁.Loops ⟨"dst/inc/a.h"⟩ s)
      ∧ (syncEntry header ⟨"a.h"⟩ false aliasedDisk).disk.Vacant
        (Disk.temporary ⟨"dst/inc/a.h"⟩) := by
  have hflaw : Entry.flaw? ⟨"a.h"⟩ = none := by decide +kernel
  have htemporary : aliasedDisk.spot? (Disk.temporary (header.destinationPath ⟨"a.h"⟩))
      = .ok (some ⟨["inc", "dst"], "a.h.carve.tmp", false⟩) := by decide +kernel
  have hinward : Path.Inward (header.destinationPath ⟨"a.h"⟩) := by
    unfold Path.Inward
    decide +kernel
  have huntaken : aliasedDisk.Untaken (header.destinationPath ⟨"a.h"⟩) := by
    refine ⟨fun s hspot => ?_, fun houtward => absurd hinward houtward⟩
    obtain rfl := Option.some.inj (Except.ok.inj (htemporary.symm.trans hspot))
    decide +kernel
  have hresult : (syncEntry header ⟨"a.h"⟩ false aliasedDisk).result
      = .ok (.written ⟨"dst/inc/a.h"⟩) := by decide +kernel
  have hwritten := (entry_is_replaced_or_spared header ⟨"a.h"⟩ false aliasedDisk hflaw
    huntaken).2.2.2
  rw [hresult] at hwritten
  exact ⟨hflaw, huntaken, hresult, hwritten.2.2⟩

/-- Where a destination root leads outwards through a directory that is missing,
a file that nothing showed before is lost, and a destination that leads through
itself leads nowhere any more. -/
theorem outward_roots_break_promises : Entry.flaw? ⟨"f"⟩ = none ∧ Entry.flaw? ⟨"m"⟩ = none
    ∧ (let c : Category := ⟨.headers, ⟨"up"⟩, ⟨"a/../b"⟩, [⟨"f"⟩]⟩
      let d : Disk := ⟨(((FileTree.empty.put ["up"] .directory).put ["f", "up"]
        (.file "s".toUTF8 0o644)).put ["b"] .directory).put ["f.carve.tmp", "b"]
        (.file "t".toUTF8 0o644), []⟩
      d.spot? (Disk.temporary (c.destinationPath ⟨"f"⟩)) = .error .notFound
      ∧ (syncEntry c ⟨"f"⟩ false d).result = .ok (.written ⟨"a/../b/f"⟩)
      ∧ d.tree.node? ["f.carve.tmp", "b"] = some (.file "t".toUTF8 0o644)
      ∧ (syncEntry c ⟨"f"⟩ false d).disk.tree.node? ["f.carve.tmp", "b"] = none)
    ∧ (let c : Category := ⟨.headers, ⟨"up"⟩, ⟨"m/.."⟩, [⟨"m"⟩]⟩
      let d : Disk := ⟨(((FileTree.empty.put ["up"] .directory).put ["m", "up"]
        (.file "s".toUTF8 0o644)).put ["conf"] .directory).put ["m"] (.link "conf"), []⟩
      d.node? (Disk.temporary (c.destinationPath ⟨"m"⟩)) = .error .notFound
      ∧ (syncEntry c ⟨"m"⟩ false d).result = .ok (.written ⟨"m/../m"⟩)
      ∧ (syncEntry c ⟨"m"⟩ false d).disk.node? ⟨"m/../m"⟩ = .error .notDirectory) := by
  decide +kernel

end Entry

/-! ## The unit -/

section Unit

variable {sources : Category} {settings : AggregateSettings} {d : Disk}

/-- The status of the unit comes from the comparison that a dry run makes. -/
theorem aggregateStatus_eq (sources : Category) (settings : AggregateSettings) (d : Disk) :
    aggregateStatus sources settings d =
      (compareWithText d (sources.aggregatePath settings)
        (Aggregate.expected sources settings)).map fun compared =>
          ⟨sources.aggregatePath settings, match compared with
            | some true => .current
            | some false => .outdated
            | none => .missing⟩ := by
  simp only [aggregateStatus]
  cases compareWithText d (sources.aggregatePath settings)
      (Aggregate.expected sources settings) with
  | error x => rfl
  | ok compared => rcases compared with _ | _ | _ <;> rfl

/-- The sources are examined up to the first that is no file. -/
theorem checkSynchronized_of_first {pre post : List Entry} {e : Entry}
    (hentries : sources.entries = pre ++ e :: post)
    (hpre : ∀ e' ∈ pre, d.isFile? (sources.destinationPath e') = .ok true) :
    checkSynchronized sources d = (d.isFile? (sources.destinationPath e)).bind fun there =>
      if there then requireSynchronized sources d post
      else .error (.precondition e (sources.destinationPath e)) := by
  unfold checkSynchronized
  rw [hentries]
  clear hentries
  induction pre with
  | nil =>
    rw [List.nil_append, requireSynchronized]
    rfl
  | cons e' pre ih =>
    rw [List.cons_append, requireSynchronized, hpre e' (List.mem_cons_self ..)]
    exact ih fun e'' he'' => hpre e'' (List.mem_cons_of_mem _ he'')

theorem amalgamate_exchange (hout : settings.output.flaw? = none)
    (hfree : d.Untaken (sources.aggregatePath settings)) :
    d.Exchange (sources.aggregatePath settings) (Aggregate.expected sources settings).toUTF8
      Disk.newFileMode (d.replaceByText (sources.aggregatePath settings)
        (Aggregate.expected sources settings).toUTF8) := by
  obtain ⟨front, last, hends⟩ : ∃ front last, (sources.aggregatePath settings).EndsIn front last :=
    Manifest.endsIn_join sources.destinationRoot hout
  exact Disk.replaceByText_exchange hends (hfree.createParent hends)

/-- A dry run of the unit tells what its status does. A real one stops at the
first source that is not there; when all are, the unit is written anew and
nothing but the directories around it is new, or all that was there is as it
was. -/
theorem unit_is_replaced_or_spared (sources : Category) (settings : AggregateSettings) (d : Disk)
    (hout : settings.output.flaw? = none) (hfree : d.Untaken (sources.aggregatePath settings)) :
    ((amalgamate sources settings true d).disk = d
      ∧ ((∃ r, (amalgamate sources settings true d).result = .ok r
          ∧ r.write = .unchanged (sources.aggregatePath settings)) ↔
        aggregateStatus sources settings d = .ok ⟨sources.aggregatePath settings, .current⟩)
      ∧ ((∃ r, (amalgamate sources settings true d).result = .ok r
          ∧ r.write = .wouldWrite (sources.aggregatePath settings)) ↔
        aggregateStatus sources settings d = .ok ⟨sources.aggregatePath settings, .outdated⟩
          ∨ aggregateStatus sources settings d = .ok ⟨sources.aggregatePath settings, .missing⟩)
      ∧ ∀ x, (amalgamate sources settings true d).result = .error x ↔
        aggregateStatus sources settings d = .error x)
    ∧ (∀ pre e post, sources.entries = pre ++ e :: post →
        (∀ e' ∈ pre, ∃ bytes mode, d.node? (sources.destinationPath e') = .ok (.file bytes mode)) →
        (d.node? (sources.destinationPath e) = .error .notFound
            ∨ (∃ node, d.node? (sources.destinationPath e) = .ok node ∧ node.isFile = false) →
          amalgamate sources settings false d
            = ⟨.error (.precondition e (sources.destinationPath e)), d, []⟩)
        ∧ ∀ f, f ≠ .notFound → d.node? (sources.destinationPath e) = .error f →
          amalgamate sources settings false d
            = ⟨.error (.io (sources.destinationPath e) f), d, []⟩)
    ∧ ((∀ e ∈ sources.entries, ∃ bytes mode,
          d.node? (sources.destinationPath e) = .ok (.file bytes mode)) →
        match (amalgamate sources settings false d).result with
        | .ok r => r = ⟨Aggregate.Plan.ofEntries settings sources.entries,
            .written (sources.aggregatePath settings)⟩
          ∧ ∃ d₁ s, d.Paved (·.Around (sources.aggregatePath settings)) d₁
            ∧ d₁.Replaced (sources.aggregatePath settings) s
              (Aggregate.expected sources settings).toUTF8 Disk.newFileMode
              (amalgamate sources settings false d).disk
            ∧ (¬d₁.Loops (sources.aggregatePath settings) s ∨ d.tree.LinkFree →
              (amalgamate sources settings false d).disk.node? (sources.aggregatePath settings)
                = .ok (.file (Aggregate.expected sources settings).toUTF8 Disk.newFileMode))
            ∧ (amalgamate sources settings false d).disk.Vacant
              (Disk.temporary (sources.aggregatePath settings))
        | .error (.io _ _) =>
          d.Spared (sources.aggregatePath settings) (amalgamate sources settings false d).disk
        | .error _ => False) := by
  refine ⟨⟨amalgamate_dryRun_disk sources settings d, ?_⟩, ?_, ?_⟩
  · rw [amalgamate_dry, aggregateStatus_eq]
    cases compareWithText d (sources.aggregatePath settings)
        (Aggregate.expected sources settings) with
    | error x => simp [Except.map]
    | ok compared => rcases compared with _ | _ | _ <;> simp [Except.map]
  · intro pre e post hentries hpre
    have hcheck := checkSynchronized_of_first hentries fun e' he' =>
      Disk.isFile?_eq_true_iff.mpr (hpre e' he')
    refine ⟨fun habsent => ?_, fun f hf herror => ?_⟩
    · rw [Disk.isFile?_eq_false_iff.mpr habsent] at hcheck
      exact amalgamate_of_unsynchronized hcheck
    · have hfile : d.isFile? (sources.destinationPath e)
          = .error (.io (sources.destinationPath e) f) := by
        unfold Disk.isFile?
        rw [herror]
        cases f <;> first | rfl | exact absurd rfl hf
      rw [hfile] at hcheck
      exact amalgamate_of_unsynchronized hcheck
  · intro hentries
    have hcheck : checkSynchronized sources d = .ok () :=
      requireSynchronized_eq_ok_iff.mpr fun e he => Disk.isFile?_eq_true_iff.mpr (hentries e he)
    have hdisk := amalgamate_of_synchronized_disk settings hcheck
    have hexchange := amalgamate_exchange hout hfree
    cases hreplace : d.replaceByText (sources.aggregatePath settings)
        (Aggregate.expected sources settings).toUTF8 with
    | mk r d' =>
      rw [hreplace] at hdisk hexchange
      cases hexchange with
      | failed q f h =>
        rw [(amalgamate_of_synchronized_error_iff settings hcheck).mpr
          (congrArg Prod.fst hreplace), hdisk]
        exact h
      | @replaced d₁ _ s hpaved h htemporary =>
        obtain ⟨r, hr⟩ := (amalgamate_of_synchronized_ok_iff settings hcheck).mpr
          (congrArg Prod.fst hreplace)
        rw [hr, hdisk]
        refine ⟨amalgamate_real_ok hr, d₁, s, hpaved, h, fun hloops => h.node? ?_, htemporary⟩
        exact hloops.elim id fun hlinks => hpaved.not_loops hlinks h.spot h.slash h.free

/-! A unit in a directory that has to be made, and one that is in its own way. -/

def plainSources : Category := ⟨.sources, ⟨"up/src"⟩, ⟨"dst/lib"⟩, [⟨"a.cpp"⟩, ⟨"b.inc"⟩]⟩

def vendoredDisk : Disk where
  tree := (((FileTree.empty.put ["dst"] .directory).put ["lib", "dst"] .directory).put
    ["a.cpp", "lib", "dst"] (.file "a".toUTF8 0o600)).put
    ["b.inc", "lib", "dst"] (.file "b".toUTF8 0o644)
  here := []

theorem nested_unit_is_written : Entry.flaw? ⟨"all/Unit.cpp"⟩ = none
    ∧ vendoredDisk.Untaken (plainSources.aggregatePath { output := ⟨"all/Unit.cpp"⟩ })
    ∧ (amalgamate plainSources { output := ⟨"all/Unit.cpp"⟩ } false vendoredDisk).disk.node?
        (plainSources.aggregatePath { output := ⟨"all/Unit.cpp"⟩ })
      = .ok (.file "#include \"a.cpp\"\n#undef DEBUG_TYPE\n".toUTF8 Disk.newFileMode) := by
  have hflaw : Entry.flaw? ⟨"all/Unit.cpp"⟩ = none := by decide +kernel
  have htemporary : vendoredDisk.spot?
      (Disk.temporary (plainSources.aggregatePath { output := ⟨"all/Unit.cpp"⟩ }))
      = .error .notFound := by decide +kernel
  have hinward : Path.Inward (plainSources.aggregatePath { output := ⟨"all/Unit.cpp"⟩ }) := by
    unfold Path.Inward
    decide +kernel
  have huntaken :
      vendoredDisk.Untaken (plainSources.aggregatePath { output := ⟨"all/Unit.cpp"⟩ }) := by
    refine ⟨fun s hspot => ?_, fun houtward => absurd hinward houtward⟩
    rw [htemporary] at hspot
    cases hspot
  have hthere : ∀ e ∈ plainSources.entries, ∃ bytes mode,
      vendoredDisk.node? (plainSources.destinationPath e) = .ok (.file bytes mode) := by
    intro e he
    have hfile : vendoredDisk.isFile? (plainSources.destinationPath e) = .ok true := by
      revert e
      decide +kernel
    exact Disk.isFile?_eq_true_iff.mp hfile
  have hlinks : vendoredDisk.tree.LinkFree := linkFree_of_nodes (by decide +kernel)
  have hresult : (amalgamate plainSources { output := ⟨"all/Unit.cpp"⟩ } false vendoredDisk).result
      = .ok ⟨[.included ⟨"a.cpp"⟩, .excluded ⟨"b.inc"⟩], .written ⟨"dst/lib/all/Unit.cpp"⟩⟩ := by
    decide +kernel
  have hunit := (unit_is_replaced_or_spared plainSources { output := ⟨"all/Unit.cpp"⟩ }
    vendoredDisk hflaw huntaken).2.2 hthere
  rw [hresult] at hunit
  obtain ⟨-, d₁, s, -, -, hnode, -⟩ := hunit
  exact ⟨hflaw, huntaken, hnode (Or.inr hlinks)⟩

/-- Where the root of the unit leads outwards through a directory that is
missing, a file that nothing showed before is lost, or the unit is in its own
way. -/
theorem outward_units_break_promises :
    (let sources : Category := ⟨.sources, ⟨"up"⟩, ⟨"a/../b"⟩, []⟩
      let d : Disk := ⟨(FileTree.empty.put ["b"] .directory).put ["Support.cpp.carve.tmp", "b"]
        (.file "t".toUTF8 0o644), []⟩
      (Entry.flaw? ⟨"Support.cpp"⟩ = none ∧ d.tree.LinkFree)
      ∧ d.spot? (Disk.temporary (sources.aggregatePath {})) = .error .notFound
      ∧ (amalgamate sources {} false d).result = .ok ⟨[], .written ⟨"a/../b/Support.cpp"⟩⟩
      ∧ d.tree.node? ["Support.cpp.carve.tmp", "b"] = some (.file "t".toUTF8 0o644)
      ∧ (amalgamate sources {} false d).disk.tree.node? ["Support.cpp.carve.tmp", "b"] = none)
    ∧ (let sources : Category := ⟨.sources, ⟨"up"⟩, ⟨"f/.."⟩, []⟩
      let d : Disk := ⟨.empty, []⟩
      (Entry.flaw? ⟨"f"⟩ = none ∧ d.tree.LinkFree)
      ∧ d.spot? (Disk.temporary (sources.aggregatePath { output := ⟨"f"⟩ })) = .error .notFound
      ∧ (amalgamate sources { output := ⟨"f"⟩ } false d).result
        = .error (.io ⟨"f/../f"⟩ .isDirectory)
      ∧ d.node? (sources.aggregatePath { output := ⟨"f"⟩ }) = .error .notFound
      ∧ (amalgamate sources { output := ⟨"f"⟩ } false d).disk.node?
          (sources.aggregatePath { output := ⟨"f"⟩ }) = .ok .directory) := by
  refine ⟨⟨⟨by decide +kernel, linkFree_of_nodes (by decide +kernel)⟩, ?_⟩,
    ⟨by decide +kernel, linkFree_of_nodes (by decide +kernel)⟩, ?_⟩
  · decide +kernel
  · decide +kernel

end Unit

end Vendoring
