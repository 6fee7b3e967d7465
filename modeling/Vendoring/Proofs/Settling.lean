import Vendoring.Proofs.Foretelling
import Vendoring.Proofs.Sparing

/-!
# What the entries of a category come to

The steps of one category are described without their order. `Doable` is
when all of them succeed, and `Settles` is the disk that they then leave:
both speak of the disk in front of the category and of which entries there
are, and of nothing in between. The inductions go over the entries, and one
step is opened only by `syncEntry_settled`.

The entries have to keep out of each other's way (`Regular`), but nested
destinations are allowed for: with them no order succeeds.
-/

namespace Vendoring

open Vendoring.Path FileTree

/-! ## Disks that hold the same -/

/-- The same stands everywhere on both disks. -/
structure Disk.Alike (d d' : Disk) : Prop where
  here : d'.here = d.here
  nodes : ∀ l, d'.tree.node? l = d.tree.node? l

namespace Disk.Alike

variable {d d' : Disk} {here : Location} {p source : Path}

theorem refl (d : Disk) : d.Alike d := ⟨rfl, fun _ => rfl⟩

theorem symm (h : d.Alike d') : d'.Alike d := ⟨h.here.symm, fun l => (h.nodes l).symm⟩

theorem simple (h : d.Alike d') (hd : d.Simple here) : d'.Simple here :=
  ⟨fun l target hl => hd.linkFree l target (h.nodes l ▸ hl), h.here.trans hd.here⟩

theorem node?_iff (h : d.Alike d') (hd : d.Simple here) (hp : p.Plain) {n : Node} :
    d'.node? p = .ok n ↔ d.node? p = .ok n := by
  rw [(h.simple hd).node?_iff hp, hd.node?_iff hp, h.nodes]

theorem synced_iff (h : d.Alike d') (hd : d.Simple here) (hs : source.Plain) (hp : p.Plain) :
    d'.Synced source p ↔ d.Synced source p := by
  simp only [Disk.Synced, h.node?_iff hd hs, h.node?_iff hd hp]

theorem writable (h : d.Alike d') (hw : d.Writable p) : d'.Writable p := by
  obtain ⟨⟨hfits, htmpFits, habove, hfree, htmpFree⟩, hstart⟩ := hw
  refine ⟨⟨hfits, htmpFits, ?_, ?_, ?_⟩, ?_⟩
  · rw [h.here]
    intro m hm
    rw [FileTree.Open, h.nodes]
    exact habove m hm
  · rwa [h.here, h.nodes]
  · rwa [h.here, h.nodes]
  · rwa [isDirectory_iff, h.here, h.nodes, ← isDirectory_iff]

end Disk.Alike

/-! ## Entries that keep apart -/

theorem Orderly.mono {here : Location} {all steps : List Step} (h : Orderly here all)
    (hsub : steps ⊆ all) : Orderly here steps where
  plain s hs := h.plain s (hsub hs)
  sameSource c e c' e' he he' := h.sameSource c e c' e' (hsub he) (hsub he')
  unitAlone sources settings c e hu he := h.unitAlone sources settings c e (hsub hu) (hsub he)
  sourceApart s hs p hp c e he := h.sourceApart s (hsub hs) p hp c e (hsub he)
  temporarySource s hs p hp c e he := h.temporarySource s (hsub hs) p hp c e (hsub he)
  temporaryTarget s hs p hp s' hs' := h.temporaryTarget s (hsub hs) p hp s' (hsub hs')

/-- The entries of a category start at one place and keep apart, but for
destinations below each other. -/
structure Regular (here : Location) (c : Category) (entries : List Entry) : Prop where
  orderly : Orderly here (entries.map (.entry c))
  clear : ∀ e ∈ entries, ∀ e' ∈ entries,
    ¬(Disk.temporary (c.destinationPath e)).place here <:+ (c.destinationPath e').place here
  apart : ∀ e ∈ entries, ∀ e' ∈ entries,
    (c.destinationPath e).place here = (c.destinationPath e').place here → e = e'
  start : ∀ e ∈ entries, ∀ e' ∈ entries,
    startOf here (c.destinationPath e) = startOf here (c.destinationPath e')

/-- The entries can all be done from this disk, in any order. -/
structure Doable (d : Disk) (c : Category) (entries : List Entry) : Prop where
  source : ∀ e ∈ entries, d.isFile? (c.sourcePath e) = .ok true
  destination : ∀ e ∈ entries, d.Synced (c.sourcePath e) (c.destinationPath e)
    ∨ d.Writable (c.destinationPath e)
  nested : ∀ e ∈ entries, ∀ e' ∈ entries,
    ¬(c.destinationPath e).place d.here <:+ ((c.destinationPath e').place d.here).tail

/-- The disk `d'` is the one that the entries leave when they are done: who
was not synchronized is a copy now, with nothing at the temporary name, and
apart from that and the directories above nothing is different. -/
structure Settles (d : Disk) (c : Category) (entries : List Entry) (d' : Disk) : Prop where
  here : d'.here = d.here
  copied : ∀ e ∈ entries, ¬d.Synced (c.sourcePath e) (c.destinationPath e) →
    ∀ bytes mode, d.node? (c.sourcePath e) = .ok (.file bytes mode) →
      d'.tree.node? ((c.destinationPath e).place d.here) = some (.file bytes mode)
  cleared : ∀ e ∈ entries, ¬d.Synced (c.sourcePath e) (c.destinationPath e) →
    d'.tree.node? ((Disk.temporary (c.destinationPath e)).place d.here) = none
  kept : ∀ l, (∀ e ∈ entries, ¬d.Synced (c.sourcePath e) (c.destinationPath e) →
      l ≠ (c.destinationPath e).place d.here
      ∧ l ≠ (Disk.temporary (c.destinationPath e)).place d.here
      ∧ ¬l <:+ ((c.destinationPath e).place d.here).tail) →
    d'.tree.node? l = d.tree.node? l

theorem Regular.subset {here : Location} {c : Category} {entries some : List Entry}
    (h : Regular here c entries) (hsub : some ⊆ entries) : Regular here c some where
  orderly := h.orderly.mono (List.map_subset _ hsub)
  clear e he e' he' := h.clear e (hsub he) e' (hsub he')
  apart e he e' he' := h.apart e (hsub he) e' (hsub he')
  start e he e' he' := h.start e (hsub he) e' (hsub he')

/-! ## One entry -/

/-- What an entry that succeeds does, to the last bit. -/
inductive Settled (c : Category) (e : Entry) (d : Disk) (w : WriteResult) (d' : Disk) : Prop
  | current (hsynced : d.Synced (c.sourcePath e) (c.destinationPath e))
      (hw : w = .unchanged (c.destinationPath e)) (hdisk : d' = d)
  | replaced (hnot : ¬d.Synced (c.sourcePath e) (c.destinationPath e))
      (hw : w = .written (c.destinationPath e)) (hwritable : d.Writable (c.destinationPath e))
      (htouched : d.Touched (c.destinationPath e) d') (bytes : ByteArray) (mode : Nat)
      (hsource : d.node? (c.sourcePath e) = .ok (.file bytes mode))
      (hfile : d'.tree.node? ((c.destinationPath e).place d.here) = some (.file bytes mode))
      (hclear : d'.tree.node? ((Disk.temporary (c.destinationPath e)).place d.here) = none)

section Entries

variable {here : Location} {c : Category} {entries : List Entry} (hreg : Regular here c entries)
  {d : Disk} (hd : d.Simple here) {e e' : Entry} (he : e ∈ entries) (he' : e' ∈ entries)
  {w : WriteResult} (hok : (syncEntry c e false d).result = .ok w)

theorem entry_mem_map (he : e ∈ entries) : .entry c e ∈ entries.map (Step.entry c) :=
  List.mem_map_of_mem he

include hreg

theorem Regular.plain (he : e ∈ entries) : (c.sourcePath e).Plain ∧ (c.destinationPath e).Plain :=
  hreg.orderly.plain _ (entry_mem_map he)

/-- Nothing stands at its temporary name in the way of another entry. -/
theorem Regular.temporary_ne (he : e ∈ entries) (he' : e' ∈ entries) :
    (Disk.temporary (c.destinationPath e)).place here ≠ (c.destinationPath e').place here := by
  intro heq
  exact hreg.clear e he e' he' ⟨[], heq⟩

include hd he

theorem simple_syncEntry : (syncEntry c e false d).disk.Simple here :=
  Step.perform_simple (hreg.orderly.plain _ (entry_mem_map he)) hd

include hok in
theorem syncEntry_settled : Settled c e d w (syncEntry c e false d).disk := by
  obtain ⟨hs, hdest⟩ := hreg.plain he
  have hapart := hreg.orderly.temporarySource _ (entry_mem_map he) _ rfl c e (entry_mem_map he)
  rcases syncEntry_real_ok hok with ⟨hsynced, rfl⟩ | ⟨hnot, rfl⟩
  · refine .current hsynced rfl ?_
    rw [syncEntry_of_synced false hsynced]
  · rcases syncEntry_ok hd.linkFree hs hdest (hd.here ▸ hapart) hok with
      ⟨_, hsynced⟩ | ⟨hprepared, bytes, mode, hsource, hfile⟩
    · exact absurd hsynced hnot
    · exact .replaced hnot rfl (hprepared.writable hdest) (syncEntry_touched hd.linkFree hs hdest)
        bytes mode hsource hfile (syncEntry_clears hd.linkFree hs hdest hok)

/-- Behind an entry that succeeds it is synchronized. -/
theorem synced_syncEntry (hok : (syncEntry c e false d).result = .ok w) :
    (syncEntry c e false d).disk.Synced (c.sourcePath e) (c.destinationPath e) := by
  obtain ⟨hs, hdest⟩ := hreg.plain he
  refine syncEntry_synced hd.linkFree hs hdest ?_ ?_ hok
  · rw [hd.here]
    exact hreg.orderly.sourceApart _ (entry_mem_map he) _ rfl c e (entry_mem_map he)
  · rw [hd.here]
    exact hreg.orderly.temporarySource _ (entry_mem_map he) _ rfl c e (entry_mem_map he)

include he'

/-- One entry does not change whether another one is synchronized. -/
theorem synced_other_iff (hne : e ≠ e') :
    (syncEntry c e false d).disk.Synced (c.sourcePath e') (c.destinationPath e')
      ↔ d.Synced (c.sourcePath e') (c.destinationPath e') := by
  have hd' := simple_syncEntry hreg hd he
  have hplain := hreg.orderly.plain _ (entry_mem_map he)
  have hdest := (hreg.plain he').2
  have hsource (bytes : ByteArray) (mode : Nat) :
      (syncEntry c e false d).disk.node? (c.sourcePath e') = .ok (.file bytes mode)
        ↔ d.node? (c.sourcePath e') = .ok (.file bytes mode) :=
    perform_source hreg.orderly (entry_mem_map he) (entry_mem_map he') hd
  have hfile (bytes : ByteArray) (mode : Nat) :
      (syncEntry c e false d).disk.node? (c.destinationPath e') = .ok (.file bytes mode)
        ↔ d.node? (c.destinationPath e') = .ok (.file bytes mode) := by
    rw [hd'.node?_iff hdest, hd.node?_iff hdest]
    refine and_congr_right fun _ => Step.perform_file hplain hd (fun p hp heq => ?_)
      fun p hp => ?_
    · obtain rfl := Option.some.inj hp
      exact hne (hreg.apart e he e' he' heq)
    · obtain rfl := Option.some.inj hp
      exact hreg.temporary_ne he he'
  unfold Disk.Synced
  simp only [hfile]
  exact exists_congr fun bytes => exists_congr fun mode => exists_congr fun mode' =>
    and_congr_left fun _ => hsource bytes mode

theorem isFile?_source_iff :
    (syncEntry c e false d).disk.isFile? (c.sourcePath e') = .ok true
      ↔ d.isFile? (c.sourcePath e') = .ok true := by
  rw [Disk.isFile?_eq_true_iff, Disk.isFile?_eq_true_iff]
  exact exists_congr fun bytes => exists_congr fun mode =>
    perform_source hreg.orderly (entry_mem_map he) (entry_mem_map he') hd

end Entries

/-! ## Destinations below each other -/

section Nested

variable {here : Location} {c : Category} {entries : List Entry} (hreg : Regular here c entries)
  {d : Disk} (hd : d.Simple here)

include hreg hd

/-- Entries that all succeed leave files, so none stands above another one. -/
theorem not_nested_of_ok (hok : (syncEntries c false entries d).failure = none) :
    ∀ e ∈ entries, ∀ e' ∈ entries,
      ¬(c.destinationPath e).place d.here <:+ ((c.destinationPath e').place d.here).tail := by
  have hfollow : (follow false (entries.map (.entry c)) d).failure = none := by
    rw [follow_entries]
    exact hok
  have hD := follow_simple hreg.orderly (List.Subset.refl _) hd
  have hfile {e : Entry} (he : e ∈ entries) : ∃ bytes mode,
      (follow false (entries.map (.entry c)) d).disk.tree.node? ((c.destinationPath e).place here)
        = some (.file bytes mode) := by
    obtain ⟨bytes, _, mode, _, hnode⟩ :=
      follow_synced hreg.orderly (List.Subset.refl _) hd hfollow (entry_mem_map he)
    exact ⟨bytes, mode, ((hD.node?_iff (hreg.plain he).2).mp hnode).2⟩
  intro e he e' he' hsuffix
  obtain ⟨bytes, mode, habove⟩ := hfile he
  obtain ⟨bytes', mode', hbelow⟩ := hfile he'
  rw [hd.here] at hsuffix
  rw [← hD.here] at hbelow
  have hdir := isDirectory_iff.mp (Disk.directory_of_node? (hreg.plain he').2 hbelow)
  rw [hD.here] at hdir
  rw [directory_above hsuffix hdir] at habove
  cases habove

omit hd in
theorem Regular.flat (hnested : ∀ e ∈ entries, ∀ e' ∈ entries,
    ¬(c.destinationPath e).place here <:+ ((c.destinationPath e').place here).tail) :
    Flat here (entries.map c.destinationPath) := by
  constructor
  · intro p hp q hq
    obtain ⟨e, he, rfl⟩ := List.mem_map.mp hp
    obtain ⟨e', he', rfl⟩ := List.mem_map.mp hq
    exact hnested e he e' he'
  · intro p hp q hq
    obtain ⟨e, he, rfl⟩ := List.mem_map.mp hp
    obtain ⟨e', he', rfl⟩ := List.mem_map.mp hq
    exact hreg.clear e he e' he'

end Nested

/-! ## All entries -/

section All

variable {here : Location} {c : Category} {entries : List Entry} (hreg : Regular here c entries)
  {d : Disk} (hd : d.Simple here)

include hreg hd

/-- What can be done behind an entry could be done in front of it. -/
theorem doable_before {e : Entry} {rest : List Entry} (hentries : entries = e :: rest)
    (hnested : ∀ e ∈ entries, ∀ e' ∈ entries,
      ¬(c.destinationPath e).place d.here <:+ ((c.destinationPath e').place d.here).tail)
    {w : WriteResult} (hok : (syncEntry c e false d).result = .ok w)
    (h : Doable (syncEntry c e false d).disk c rest) : Doable d c entries := by
  have he : e ∈ entries := hentries ▸ List.mem_cons_self ..
  have hrest {e' : Entry} (he' : e' ∈ rest) : e' ∈ entries :=
    hentries ▸ List.mem_cons_of_mem _ he'
  have hsettled := syncEntry_settled hreg hd he hok
  have hself : d.isFile? (c.sourcePath e) = .ok true
      ∧ (d.Synced (c.sourcePath e) (c.destinationPath e) ∨ d.Writable (c.destinationPath e)) := by
    cases hsettled with
    | current hsynced _ _ =>
      have hcurrent := hsynced
      obtain ⟨bytes, mode, mode', hsource, -⟩ := hsynced
      exact ⟨Disk.isFile?_of_file hsource, Or.inl hcurrent⟩
    | replaced _ _ hwritable _ bytes mode hsource _ _ =>
      exact ⟨Disk.isFile?_of_file hsource, Or.inr hwritable⟩
  refine ⟨fun e' he' => ?_, fun e' he' => ?_, hnested⟩
  · rw [hentries] at he'
    rcases List.mem_cons.mp he' with rfl | he'
    · exact hself.1
    · exact (isFile?_source_iff hreg hd he (hrest he')).mp (h.source e' he')
  · by_cases hne : e = e'
    · exact hne ▸ hself.2
    · have hmem : e' ∈ rest := by
        rw [hentries] at he'
        exact (List.mem_cons.mp he').resolve_left (Ne.symm hne)
      rcases h.destination e' hmem with hsynced | hwritable
      · exact Or.inl ((synced_other_iff hreg hd he he' hne).mp hsynced)
      · right
        cases hsettled with
        | current _ _ hdisk => rwa [hdisk] at hwritable
        | replaced _ _ hself htouched _ _ _ _ _ =>
          have hflat := hreg.flat (hd.here ▸ hnested)
          rw [← hd.here] at hflat
          refine ⟨htouched.roomy_before hflat (List.mem_map_of_mem he')
            (List.mem_map_of_mem he) hwritable.toRoomy, ?_⟩
          rw [hd.here, hreg.start e' he' e he, ← hd.here]
          exact hself.start

/-- What can be done in front of an entry can be done behind it. -/
theorem doable_after {e : Entry} {rest : List Entry} (hentries : entries = e :: rest)
    {w : WriteResult} (hok : (syncEntry c e false d).result = .ok w) (h : Doable d c entries) :
    Doable (syncEntry c e false d).disk c rest := by
  have he : e ∈ entries := hentries ▸ List.mem_cons_self ..
  have hrest {e' : Entry} (he' : e' ∈ rest) : e' ∈ entries :=
    hentries ▸ List.mem_cons_of_mem _ he'
  have hd' := simple_syncEntry hreg hd he
  refine ⟨fun e' he' => ?_, fun e' he' => ?_, fun e₁ he₁ e₂ he₂ => ?_⟩
  · exact (isFile?_source_iff hreg hd he (hrest he')).mpr (h.source e' (hrest he'))
  · by_cases hne : e = e'
    · exact Or.inl (hne ▸ synced_syncEntry hreg hd he hok)
    · rcases h.destination e' (hrest he') with hsynced | hwritable
      · exact Or.inl ((synced_other_iff hreg hd he (hrest he') hne).mpr hsynced)
      · right
        cases syncEntry_settled hreg hd he hok with
        | current _ _ hdisk => rwa [hdisk]
        | replaced _ _ _ htouched _ _ _ _ _ =>
          have hflat := hreg.flat (hd.here ▸ h.nested)
          rw [← hd.here] at hflat
          exact htouched.writable hflat (List.mem_map_of_mem (hrest he'))
            (List.mem_map_of_mem he) hwritable
  · rw [hd'.here, ← hd.here]
    exact h.nested e₁ (hrest he₁) e₂ (hrest he₂)

/-- The entries of a category succeed just when they can be done, whatever
their order is. -/
theorem syncEntries_ok_iff :
    (syncEntries c false entries d).failure = none ↔ Doable d c entries := by
  induction entries generalizing d with
  | nil => exact iff_of_true rfl ⟨nofun, nofun, nofun⟩
  | cons e rest ih =>
    have he : e ∈ e :: rest := List.mem_cons_self ..
    have hreg' := hreg.subset (List.subset_cons_self e rest)
    have ih := ih hreg' (simple_syncEntry hreg hd he)
    constructor
    · intro hok
      have hnested := not_nested_of_ok hreg hd hok
      cases hw : (syncEntry c e false d).result with
      | error x =>
        rw [syncEntries_cons_error hw] at hok
        cases hok
      | ok w =>
        rw [(syncEntries_cons_ok rest hw).2] at hok
        exact doable_before hreg hd rfl hnested hw (ih.mp hok)
    · intro h
      obtain ⟨hs, hdest⟩ := hreg.plain he
      have hw : ∃ w, (syncEntry c e false d).result = .ok w := by
        rcases h.destination e he with hsynced | hwritable
        · exact ⟨_, congrArg Outcome.result (syncEntry_of_synced false hsynced)⟩
        · exact syncEntry_of_writable hd.linkFree hs hdest (h.source e he) hwritable
      obtain ⟨w, hw⟩ := hw
      rw [(syncEntries_cons_ok rest hw).2]
      exact ih.mpr (doable_after hreg hd rfl hw h)

/-- The entries that are written. -/
def CategoryRun.changed (r : CategoryRun) : List Entry :=
  (r.writes.filter fun w => w.2.isChange).map Prod.fst

/-- Those are written that were not synchronized, each of them once. -/
theorem syncEntries_changed (hok : (syncEntries c false entries d).failure = none) :
    (syncEntries c false entries d).changed.Nodup
      ∧ ∀ e, e ∈ (syncEntries c false entries d).changed
        ↔ e ∈ entries ∧ ¬d.Synced (c.sourcePath e) (c.destinationPath e) := by
  induction entries generalizing d with
  | nil => exact ⟨List.nodup_nil, fun e => by simp [syncEntries, CategoryRun.changed]⟩
  | cons e rest ih =>
    have he : e ∈ e :: rest := List.mem_cons_self ..
    have hreg' := hreg.subset (List.subset_cons_self e rest)
    cases hw : (syncEntry c e false d).result with
    | error x =>
      rw [syncEntries_cons_error hw] at hok
      cases hok
    | ok w =>
      obtain ⟨hwrites, hfailure⟩ := syncEntries_cons_ok (d := d) rest hw
      rw [hfailure] at hok
      obtain ⟨hnodup, hmem⟩ := ih hreg' (simple_syncEntry hreg hd he) hok
      have hself := synced_syncEntry hreg hd he hw
      -- whoever is written later is another entry, and was not synchronized before
      have hlater (e' : Entry) :
          e' ∈ (syncEntries c false rest (syncEntry c e false d).disk).changed ↔
            e' ∈ rest ∧ e ≠ e' ∧ ¬d.Synced (c.sourcePath e') (c.destinationPath e') := by
        rw [hmem]
        refine and_congr_right fun he' => ?_
        by_cases hne : e = e'
        · subst hne
          simp [hself]
        · rw [synced_other_iff hreg hd he (List.mem_cons_of_mem _ he') hne]
          simp [hne]
      have hchanged : (syncEntries c false (e :: rest) d).changed
          = (if w.isChange then [e] else [])
            ++ (syncEntries c false rest (syncEntry c e false d).disk).changed := by
        rw [CategoryRun.changed, CategoryRun.changed, hwrites, List.filter_cons]
        split <;> rfl
      rw [hchanged]
      cases syncEntry_settled hreg hd he hw with
      | current hsynced hw _ =>
        subst hw
        refine ⟨hnodup, fun e' => ?_⟩
        simp only [WriteResult.isChange, Bool.false_eq_true, if_false, List.nil_append, hlater,
          List.mem_cons]
        constructor
        · rintro ⟨he', -, hnot⟩
          exact ⟨Or.inr he', hnot⟩
        · rintro ⟨rfl | he', hnot⟩
          · exact absurd hsynced hnot
          · refine ⟨he', ?_, hnot⟩
            rintro rfl
            exact hnot hsynced
      | replaced hnot hw _ _ _ _ _ _ _ =>
        subst hw
        simp only [WriteResult.isChange, if_true, List.singleton_append, List.nodup_cons,
          List.mem_cons, hlater]
        refine ⟨⟨fun h => h.2.1 rfl, hnodup⟩, fun e' => ?_⟩
        constructor
        · rintro (rfl | ⟨he', -, hnot'⟩)
          · exact ⟨Or.inl rfl, hnot⟩
          · exact ⟨Or.inr he', hnot'⟩
        · rintro ⟨rfl | he', hnot'⟩
          · exact Or.inl rfl
          · by_cases hne : e = e'
            · exact Or.inl hne.symm
            · exact Or.inr ⟨he', hne, hnot'⟩

/-- What the entries behind one leave is what all of them leave. -/
theorem settles_cons {e : Entry} {rest : List Entry} (hentries : entries = e :: rest)
    (hnested : ∀ e ∈ entries, ∀ e' ∈ entries,
      ¬(c.destinationPath e).place d.here <:+ ((c.destinationPath e').place d.here).tail)
    {w : WriteResult} (hok : (syncEntry c e false d).result = .ok w) {d' : Disk}
    (h : Settles (syncEntry c e false d).disk c rest d') : Settles d c entries d' := by
  have he : e ∈ entries := hentries ▸ List.mem_cons_self ..
  have hrest {e' : Entry} (he' : e' ∈ rest) : e' ∈ entries :=
    hentries ▸ List.mem_cons_of_mem _ he'
  have hhere : (syncEntry c e false d).disk.here = d.here :=
    (simple_syncEntry hreg hd he).here.trans hd.here.symm
  have hself := synced_syncEntry hreg hd he hok
  obtain ⟨hh, hcopied, hcleared, hkept⟩ := h
  rw [hhere] at hh hcopied hcleared hkept
  -- an entry that later steps write is another one
  have hother {e' : Entry} (he' : e' ∈ rest)
      (hnot : ¬(syncEntry c e false d).disk.Synced (c.sourcePath e') (c.destinationPath e')) :
      e ≠ e' ∧ ¬d.Synced (c.sourcePath e') (c.destinationPath e') := by
    have hne : e ≠ e' := by
      rintro rfl
      exact hnot hself
    exact ⟨hne, fun hs => hnot ((synced_other_iff hreg hd he (hrest he') hne).mpr hs)⟩
  have hlater {e' : Entry} (he' : e' ∈ entries) (hne : e ≠ e') : e' ∈ rest := by
    rw [hentries] at he'
    exact (List.mem_cons.mp he').resolve_left (Ne.symm hne)
  cases syncEntry_settled hreg hd he hok with
  | current hsynced _ hdisk =>
    rw [hdisk] at hcopied hcleared hkept
    have hne {e' : Entry} (hnot : ¬d.Synced (c.sourcePath e') (c.destinationPath e')) : e ≠ e' := by
      rintro rfl
      exact hnot hsynced
    exact ⟨hh, fun e' he' hnot => hcopied e' (hlater he' (hne hnot)) hnot,
      fun e' he' hnot => hcleared e' (hlater he' (hne hnot)) hnot,
      fun l hl => hkept l fun e' he' hnot => hl e' (hrest he') hnot⟩
  | replaced hnot _ _ htouched bytes mode hsource hfile hclear =>
    refine ⟨hh, fun e' he' hnot' => ?_, fun e' he' hnot' => ?_, fun l hl => ?_⟩
    · by_cases hne : e = e'
      · -- nothing behind it stands in the way of the copy
        subst hne
        intro bytes' mode' hsource'
        rw [hsource] at hsource'
        cases hsource'
        refine (hkept _ fun e' he' hnot' => ⟨?_, ?_, ?_⟩).trans hfile
        · intro heq
          rw [hd.here] at heq
          exact (hother he' hnot').1 (hreg.apart e he e' (hrest he') heq)
        · rw [hd.here]
          exact (hreg.temporary_ne (hrest he') he).symm
        · exact hnested e he e' (hrest he')
      · have hnot'' := (not_congr (synced_other_iff hreg hd he he' hne)).mpr hnot'
        intro bytes' mode' hsource'
        refine hcopied e' (hlater he' hne) hnot'' bytes' mode' ?_
        exact (perform_source hreg.orderly (entry_mem_map he) (entry_mem_map he') hd).mpr hsource'
    · by_cases hne : e = e'
      · subst hne
        by_cases hshared : ∃ e' ∈ rest,
            ¬(syncEntry c e false d).disk.Synced (c.sourcePath e') (c.destinationPath e')
            ∧ (Disk.temporary (c.destinationPath e)).place d.here
              = (Disk.temporary (c.destinationPath e')).place d.here
        · obtain ⟨e', he', hnot', heq⟩ := hshared
          rw [heq]
          exact hcleared e' he' hnot'
        · refine (hkept _ fun e' he' hnot' => ⟨?_, ?_, ?_⟩).trans hclear
          · rw [hd.here]
            exact hreg.temporary_ne he (hrest he')
          · exact fun heq => hshared ⟨e', he', hnot', heq⟩
          · rw [hd.here]
            exact fun hs => hreg.clear e he e' (hrest he') (hs.trans (List.tail_suffix _))
      · exact hcleared e' (hlater he' hne)
          ((not_congr (synced_other_iff hreg hd he he' hne)).mpr hnot')
    · obtain ⟨hdest, htmp, habove⟩ := hl e he hnot
      refine (hkept l fun e' he' hnot' => hl e' (hrest he') (hother he' hnot').2).trans ?_
      exact htouched.node?_of_apart hdest htmp habove

/-- The disk that entries leave when all of them succeed. -/
theorem syncEntries_settles (hok : (syncEntries c false entries d).failure = none) :
    Settles d c entries (syncEntries c false entries d).disk := by
  induction entries generalizing d with
  | nil => exact ⟨rfl, nofun, nofun, fun _ _ => rfl⟩
  | cons e rest ih =>
    have hreg' := hreg.subset (List.subset_cons_self e rest)
    have hnested := not_nested_of_ok hreg hd hok
    cases hw : (syncEntry c e false d).result with
    | error x =>
      rw [syncEntries_cons_error hw] at hok
      cases hok
    | ok w =>
      rw [(syncEntries_cons_ok rest hw).2] at hok
      have hdisk : (syncEntries c false (e :: rest) d).disk
          = (syncEntries c false rest (syncEntry c e false d).disk).disk := by
        simp only [syncEntries, hw]
      rw [hdisk]
      exact settles_cons hreg hd rfl hnested hw
        (ih hreg' (simple_syncEntry hreg hd (List.mem_cons_self ..)) hok)

end All

/-! ## The order does not matter -/

section Order

variable {here : Location} {c : Category} {entries entries' : List Entry}
  (hreg : Regular here c entries) (hperm : entries.Perm entries') {d d' : Disk}
  (hd : d.Simple here) (halike : d.Alike d')

include hreg hperm hd halike

theorem Doable.reordered (h : Doable d c entries) : Doable d' c entries' := by
  refine ⟨fun e he => ?_, fun e he => ?_, fun e he e' he' => ?_⟩
  · have he := hperm.mem_iff.mpr he
    obtain ⟨bytes, mode, hfile⟩ := Disk.isFile?_eq_true_iff.mp (h.source e he)
    exact Disk.isFile?_of_file ((halike.node?_iff hd (hreg.plain he).1).mpr hfile)
  · have he := hperm.mem_iff.mpr he
    exact (h.destination e he).imp
      (halike.synced_iff hd (hreg.plain he).1 (hreg.plain he).2).mpr halike.writable
  · rw [halike.here]
    exact h.nested e (hperm.mem_iff.mpr he) e' (hperm.mem_iff.mpr he')

/-- What entries leave is determined by what was there before. -/
theorem Settles.alike (hdoable : Doable d c entries) {D D' : Disk} (h : Settles d c entries D)
    (h' : Settles d' c entries' D') : D.Alike D' := by
  obtain ⟨hhere, hcopied, hcleared, hkept⟩ := h
  obtain ⟨hhere', hcopied', hcleared', hkept'⟩ := h'
  rw [halike.here] at hhere' hcopied' hcleared' hkept'
  refine ⟨hhere'.trans hhere.symm, fun l => ?_⟩
  by_cases htouched : ∃ e ∈ entries, ¬d.Synced (c.sourcePath e) (c.destinationPath e)
      ∧ (l = (c.destinationPath e).place d.here
        ∨ l = (Disk.temporary (c.destinationPath e)).place d.here
        ∨ l <:+ ((c.destinationPath e).place d.here).tail)
  · obtain ⟨e, he, hnot, hl⟩ := htouched
    obtain ⟨hs, hdest⟩ := hreg.plain he
    obtain ⟨bytes, mode, hsource⟩ := Disk.isFile?_eq_true_iff.mp (hdoable.source e he)
    have hnot' := (not_congr (halike.synced_iff hd hs hdest)).mpr hnot
    have hsource' := (halike.node?_iff hd hs).mpr hsource
    have hfile := hcopied e he hnot bytes mode hsource
    have hfile' := hcopied' e (hperm.mem_iff.mp he) hnot' bytes mode hsource'
    rcases hl with hl | hl | hl
    · rw [hl, hfile, hfile']
    · rw [hl, hcleared e he hnot, hcleared' e (hperm.mem_iff.mp he) hnot']
    · have habove {X : Disk} (hhere : X.here = d.here)
          (hnode : X.tree.node? ((c.destinationPath e).place d.here) = some (.file bytes mode)) :
          X.tree.node? l = some .directory := by
        rw [← hhere] at hnode hl
        exact directory_above hl (isDirectory_iff.mp (Disk.directory_of_node? hdest hnode))
      rw [habove hhere hfile, habove hhere' hfile']
  · have apart {e : Entry} (he : e ∈ entries)
        (hnot : ¬d.Synced (c.sourcePath e) (c.destinationPath e)) :
        l ≠ (c.destinationPath e).place d.here
        ∧ l ≠ (Disk.temporary (c.destinationPath e)).place d.here
        ∧ ¬l <:+ ((c.destinationPath e).place d.here).tail :=
      ⟨fun heq => htouched ⟨e, he, hnot, Or.inl heq⟩,
        fun heq => htouched ⟨e, he, hnot, Or.inr (Or.inl heq)⟩,
        fun hl => htouched ⟨e, he, hnot, Or.inr (Or.inr hl)⟩⟩
    rw [hkept l fun e he hnot => apart he hnot, hkept' l fun e he hnot => ?_, halike.nodes]
    have he := hperm.mem_iff.mpr he
    exact apart he ((not_congr (halike.synced_iff hd (hreg.plain he).1 (hreg.plain he).2)).mp hnot)

/-- In another order the entries of a category succeed just as well, leave
the same disk, and as many of them are written. -/
theorem syncEntries_reordered :
    ((syncEntries c false entries d).failure = none
        ↔ (syncEntries c false entries' d').failure = none)
      ∧ ((syncEntries c false entries d).failure = none →
        (syncEntries c false entries d).disk.Alike (syncEntries c false entries' d').disk
        ∧ (syncEntries c false entries d).changed.length
          = (syncEntries c false entries' d').changed.length) := by
  have hreg' : Regular here c entries' := hreg.subset hperm.symm.subset
  have hd' := halike.simple hd
  have hiff : (syncEntries c false entries d).failure = none
      ↔ (syncEntries c false entries' d').failure = none := by
    rw [syncEntries_ok_iff hreg hd, syncEntries_ok_iff hreg' hd']
    exact ⟨fun h => h.reordered hreg hperm hd halike,
      fun h => h.reordered hreg' hperm.symm hd' halike.symm⟩
  refine ⟨hiff, fun hok => ?_⟩
  have hok' := hiff.mp hok
  have hdoable := (syncEntries_ok_iff hreg hd).mp hok
  refine ⟨Settles.alike hreg hperm hd halike hdoable (syncEntries_settles hreg hd hok)
    (syncEntries_settles hreg' hd' hok'), ?_⟩
  obtain ⟨hnodup, hmem⟩ := syncEntries_changed hreg hd hok
  obtain ⟨hnodup', hmem'⟩ := syncEntries_changed hreg' hd' hok'
  refine ((List.perm_ext_iff_of_nodup hnodup hnodup').mpr fun e => ?_).length_eq
  rw [hmem, hmem', hperm.mem_iff]
  refine and_congr_right fun he => not_congr ?_
  have hplain := hreg'.plain he
  exact (halike.synced_iff hd hplain.1 hplain.2).symm

end Order

end Vendoring
