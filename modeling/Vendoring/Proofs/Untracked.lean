import Vendoring.Proofs.Differing
import Vendoring.Proofs.Layout
import Vendoring.Proofs.Visiting

/-!
# The files that nothing accounts for

Every category lists the files below its own root, and the status of the whole
tree keeps of them what no entry and not the unit accounts for, at the roots
that no deeper one takes it from (`IsDeepest`). What a category keeps is the
list of all files below its root, filtered by that (`Attributed`): a path
loses its root and gets it back, and both filters ask for the path only.
-/

namespace Vendoring

open Vendoring.Path FileTree

/-! ## The deepest root -/

/-- The path starts with this root, and with no longer one. -/
def IsDeepest (roots : List Path) (p root : Path) : Prop :=
  p.startsWith root = true
    ∧ ∀ r ∈ roots, p.startsWith r = true → r.components.length ≤ root.components.length

/-- Roots of one path that are equally long are one path. -/
theorem same_of_length {p root root' : Path} (h : p.startsWith root = true)
    (h' : p.startsWith root' = true) (hlength : root.components.length = root'.components.length) :
    root.Same root' :=
  (List.prefix_of_prefix_length_le (startsWith_iff.mp h) (startsWith_iff.mp h')
    (Nat.le_of_eq hlength)).eq_of_length hlength

section Deepest

variable {roots : List Path} {p root root' : Path}

theorem IsDeepest.same (h : IsDeepest roots p root) (h' : IsDeepest roots p root')
    (hroot : root ∈ roots) (hroot' : root' ∈ roots) : root.Same root' :=
  same_of_length h.1 h'.1 (Nat.le_antisymm (h'.2 root hroot h.1) (h.2 root' hroot' h'.1))

theorem IsDeepest.respell {p' : Path} (h : IsDeepest roots p root) (hp : p.Same p')
    (hroot : root.Same root') : IsDeepest roots p' root' := by
  refine ⟨(Same.startsWith hp hroot).symm.trans h.1, fun r hr hpr => ?_⟩
  rw [← (show root.components = root'.components from hroot)]
  exact h.2 r hr ((Same.startsWith hp rfl).trans hpr)

/-- One step of the choice of a root. -/
def deeper (best : Option Path) (root : Path) : Option Path :=
  match best with
  | none => some root
  | some b => if b.components.length ≤ root.components.length then some root else some b

theorem deeper_spec (best : Option Path) (root : Path) : ∃ r, deeper best root = some r
    ∧ (r = root ∨ best = some r) ∧ root.components.length ≤ r.components.length
    ∧ ∀ b, best = some b → b.components.length ≤ r.components.length := by
  cases best with
  | none => exact ⟨root, rfl, Or.inl rfl, Nat.le_refl _, nofun⟩
  | some b =>
    unfold deeper
    by_cases hle : b.components.length ≤ root.components.length
    · refine ⟨root, if_pos hle, Or.inl rfl, Nat.le_refl _, fun b' hb' => ?_⟩
      rwa [← Option.some.inj hb']
    · refine ⟨b, if_neg hle, Or.inr rfl, Nat.le_of_not_le hle, fun b' hb' => ?_⟩
      exact Nat.le_of_eq (congrArg (·.components.length) (Option.some.inj hb').symm)

/-- What is chosen is among what was seen, and is the longest of it. -/
theorem foldl_deeper (best : Option Path) (hne : roots ≠ [] ∨ best ≠ none) :
    ∃ r, roots.foldl deeper best = some r ∧ (r ∈ roots ∨ best = some r)
      ∧ ∀ r', r' ∈ roots ∨ best = some r' → r'.components.length ≤ r.components.length := by
  induction roots generalizing best with
  | nil =>
    obtain ⟨b, rfl⟩ := Option.ne_none_iff_exists'.mp (hne.resolve_left fun h => h rfl)
    refine ⟨b, rfl, Or.inr rfl, fun r' hr' => ?_⟩
    rcases hr' with hr' | hr'
    · cases hr'
    · exact Nat.le_of_eq (congrArg (·.components.length) (Option.some.inj hr').symm)
  | cons root rest ih =>
    obtain ⟨y, hy, hfrom, hroot, hbest⟩ := deeper_spec best root
    obtain ⟨r, hr, hmem, hmax⟩ := ih (deeper best root) (Or.inr (by rw [hy]; nofun))
    have hyr := hmax y (Or.inr hy)
    refine ⟨r, hr, ?_, fun r' hr' => ?_⟩
    · rcases hmem with hmem | hmem
      · exact Or.inl (List.mem_cons_of_mem _ hmem)
      · rw [hy] at hmem
        rw [← Option.some.inj hmem]
        exact hfrom.imp_left fun heq => List.mem_cons.mpr (Or.inl heq)
    · rcases hr' with hr' | hr'
      · rcases List.mem_cons.mp hr' with rfl | hr'
        · exact Nat.le_trans hroot hyr
        · exact hmax r' (Or.inl hr')
      · exact Nat.le_trans (hbest r' hr') hyr

/-- A path inside some root has a deepest root, and one of them is chosen. -/
theorem owningRoot?_eq_some (hroot : root ∈ roots) (h : p.startsWith root = true) :
    ∃ r, owningRoot? roots p = some r ∧ r ∈ roots ∧ IsDeepest roots p r := by
  have hmem : root ∈ roots.filter p.startsWith := List.mem_filter.mpr ⟨hroot, h⟩
  obtain ⟨r, hr, hfrom, hmax⟩ :=
    foldl_deeper none (Or.inl (List.ne_nil_of_mem hmem))
  obtain ⟨hr', hpr⟩ := List.mem_filter.mp (hfrom.resolve_right nofun)
  exact ⟨r, hr, hr', hpr, fun r' hr' hp => hmax r' (Or.inl (List.mem_filter.mpr ⟨hr', hp⟩))⟩

theorem owningRoot?_mem {r : Path} (h : owningRoot? roots p = some r) :
    r ∈ roots ∧ p.startsWith r = true := by
  by_cases hne : roots.filter p.startsWith = []
  · rw [owningRoot?, hne] at h
    cases h
  · obtain ⟨r', hr', hfrom, -⟩ := foldl_deeper none (Or.inl hne)
    rw [show r = r' from Option.some.inj (h.symm.trans hr')]
    exact List.mem_filter.mp (hfrom.resolve_right nofun)

/-- The root that is chosen is a given one just when that is deepest. -/
theorem owningRoot?_any_iff (hroot : root ∈ roots) :
    ((owningRoot? roots p).any fun r => decide (r.Same root)) = true ↔ IsDeepest roots p root := by
  rw [Option.any_eq_true]
  constructor
  · rintro ⟨r, hr, hsame⟩
    obtain ⟨hmem, hpr⟩ := owningRoot?_mem hr
    obtain ⟨r', hr', -, hdeepest⟩ := owningRoot?_eq_some hmem hpr
    rw [hr] at hr'
    obtain rfl := Option.some.inj hr'
    exact hdeepest.respell rfl (of_decide_eq_true hsame)
  · intro h
    obtain ⟨r, hr, hmem, hdeepest⟩ := owningRoot?_eq_some hroot h.1
    exact ⟨r, hr, decide_eq_true (hdeepest.same h hmem hroot)⟩

end Deepest

/-! ## One category -/

/-- The paths of the untracked files of a category. -/
def CategoryStatus.untrackedPaths (s : CategoryStatus) : List Path :=
  s.untracked.map s.destinationRoot.join

/-- A category lists the files below its root that nothing accounts for and no
deeper root contains, in the order of their paths and each one once. -/
structure CategoryStatus.Attributed (s : CategoryStatus) (tracked roots : List Path) (d : Disk) :
    Prop where
  readable : d.Readable s.destinationRoot
  sorted : s.untracked.Pairwise fun p q => p.compare q = .lt
  distinct : s.untrackedPaths.Pairwise fun p q => ¬p.Same q
  isAmong_iff : ∀ p, isAmong s.untrackedPaths p = true ↔ d.Contains s.destinationRoot p
    ∧ isAmong tracked p = false ∧ IsDeepest roots p s.destinationRoot

section Category

variable {c : Category} {d : Disk} {s : CategoryStatus} {tracked roots : List Path}

/-- A file that is listed starts with the root. -/
theorem Disk.Contains.startsWith {root p : Path} (h : d.Contains root p) :
    root.text ≠ "" ∧ p.startsWith root = true := by
  obtain ⟨l, names, hroot, -, hp, -⟩ := h
  exact ⟨Disk.text_ne_empty hroot, startsWith_iff.mpr ⟨_, hp.symm⟩⟩

/-- What is left of a file behind the root, and back. -/
theorem stripBase?_of_file {files : List Path} (hlists : d.Lists c.destinationRoot files) {f : Path}
    (hf : f ∈ files) : ∃ rel, f.stripBase? c.destinationRoot = some rel
      ∧ (c.destinationRoot.join rel).Same f := by
  have hcontains := (hlists.isAmong_iff f).mp (isAmong_iff_exists.mpr ⟨f, hf, rfl⟩)
  exact join_stripBase? hcontains.startsWith.1 hcontains.startsWith.2

/-- Files that are ordered and differ stay so behind the root. -/
theorem sorted_stripBase? {files : List Path} (hlists : d.Lists c.destinationRoot files)
    (keep : Path → Bool) : ((files.filter keep).filterMap (·.stripBase? c.destinationRoot)).Pairwise
      fun p q => p.compare q = .lt
        ∧ ¬(c.destinationRoot.join p).Same (c.destinationRoot.join q) := by
  rw [List.pairwise_filterMap]
  refine (hlists.sorted.filter keep).imp_of_mem fun {f g} hf hg hlt rel hrel rel' hrel' => ?_
  have hf := List.mem_of_mem_filter hf
  have hg := List.mem_of_mem_filter hg
  have hcontains {f : Path} (hf : f ∈ files) :=
    ((hlists.isAmong_iff f).mp (isAmong_iff_exists.mpr ⟨f, hf, rfl⟩)).startsWith
  obtain ⟨r, hr, hsame⟩ := stripBase?_of_file hlists hf
  obtain ⟨r', hr', hsame'⟩ := stripBase?_of_file hlists hg
  rw [hrel] at hr
  rw [hrel'] at hr'
  obtain rfl := Option.some.inj hr
  obtain rfl := Option.some.inj hr'
  constructor
  · rw [compare_stripBase? (hcontains hf).1 (hcontains hf).2 (hcontains hg).2 hrel hrel', hlt]
  · intro heq
    rw [compare_eq_iff.mpr (hsame.symm.trans (heq.trans hsame'))] at hlt
    cases hlt

theorem attributed_of_status (h : categoryStatus c d = .ok s) (hroot : c.destinationRoot ∈ roots)
    (htracked : ∀ e ∈ c.entries, c.destinationPath e ∈ tracked) :
    (s.restrict tracked roots).Attributed tracked roots d := by
  obtain ⟨states, -, h⟩ := bind_eq_ok h
  obtain ⟨files, hfiles, h⟩ := bind_eq_ok h
  cases h
  have hlists := Disk.filesBelow_lists hfiles
  have hsorted := (sorted_stripBase? hlists fun p =>
    !isAmong (c.entries.map c.destinationPath) p).filter fun rel =>
      !isAmong tracked (c.destinationRoot.join rel)
        && (owningRoot? roots (c.destinationRoot.join rel)).any fun r =>
          decide (r.Same c.destinationRoot)
  refine ⟨hlists.readable, hsorted.imp And.left,
    List.pairwise_map.mpr (hsorted.imp And.right), fun p => ?_⟩
  have hkeep (rel : Path) : (!isAmong tracked (c.destinationRoot.join rel)
        && (owningRoot? roots (c.destinationRoot.join rel)).any fun r =>
          decide (r.Same c.destinationRoot)) = true
      ↔ isAmong tracked (c.destinationRoot.join rel) = false
        ∧ IsDeepest roots (c.destinationRoot.join rel) c.destinationRoot := by
    rw [Bool.and_eq_true, Bool.not_eq_true', owningRoot?_any_iff hroot]
  rw [isAmong_iff_exists]
  constructor
  · rintro ⟨q, hq, hsame⟩
    obtain ⟨rel, hrel, rfl⟩ := List.mem_map.mp hq
    obtain ⟨hrel, hkept⟩ := List.mem_filter.mp hrel
    obtain ⟨f, hf, hrel⟩ := List.mem_filterMap.mp hrel
    have hf := List.mem_of_mem_filter hf
    obtain ⟨rel', hrel', hfile⟩ := stripBase?_of_file hlists hf
    rw [hrel] at hrel'
    obtain rfl := Option.some.inj hrel'
    obtain ⟨hfree, hdeepest⟩ := (hkeep rel).mp hkept
    refine ⟨(hlists.isAmong_iff p).mp
      (isAmong_iff_exists.mpr ⟨f, hf, hfile.symm.trans hsame⟩), ?_, hdeepest.respell hsame rfl⟩
    rwa [← hsame.isAmong tracked]
  · rintro ⟨hcontains, hfree, hdeepest⟩
    obtain ⟨f, hf, hfp⟩ := isAmong_iff_exists.mp ((hlists.isAmong_iff p).mpr hcontains)
    obtain ⟨rel, hrel, hfile⟩ := stripBase?_of_file hlists hf
    have hsame : p.Same (c.destinationRoot.join rel) := (hfile.trans hfp).symm
    refine ⟨_, List.mem_map_of_mem (List.mem_filter.mpr ⟨List.mem_filterMap.mpr
      ⟨f, List.mem_filter.mpr ⟨hf, ?_⟩, hrel⟩, (hkeep rel).mpr ⟨?_, hdeepest.respell hsame rfl⟩⟩),
      hsame.symm⟩
    · rw [Bool.not_eq_true', hfp.isAmong, ← Bool.not_eq_true]
      intro hown
      obtain ⟨q, hq, hqp⟩ := isAmong_iff_exists.mp hown
      obtain ⟨e, he, rfl⟩ := List.mem_map.mp hq
      rw [← Bool.not_eq_true] at hfree
      exact hfree (isAmong_iff_exists.mpr ⟨_, htracked e he, hqp⟩)
    · rwa [← hsame.isAmong tracked]

end Category

/-! ## The whole tree -/

def StatusReport.untrackedPaths (r : StatusReport) : List Path :=
  r.categories.flatMap CategoryStatus.untrackedPaths

theorem entries_of_entryStates {c : Category} {d : Disk} {entries : List Entry}
    {states : List (Entry × EntryState)} (h : entryStates c d entries = .ok states) :
    states.map Prod.fst = entries := by
  induction entries generalizing states with
  | nil =>
    obtain rfl := Except.ok.inj h
    rfl
  | cons e rest ih =>
    obtain ⟨state, -, h⟩ := bind_eq_ok h
    obtain ⟨later, hlater, h⟩ := bind_eq_ok h
    cases h
    rw [List.map_cons, ih hlater]

theorem outline_of_status {c : Category} {d : Disk} {s : CategoryStatus}
    (h : categoryStatus c d = .ok s) (tracked roots : List Path) :
    (s.restrict tracked roots).outline = c.outline := by
  obtain ⟨states, hstates, h⟩ := bind_eq_ok h
  obtain ⟨files, -, h⟩ := bind_eq_ok h
  cases h
  exact congrArg (fun entries => (c.kind, c.destinationRoot, entries))
    (entries_of_entryStates hstates)

theorem attributed_of_statuses {tracked roots : List Path} {d : Disk} {categories : List Category}
    {statuses : List CategoryStatus}
    (h : categoryStatuses tracked roots d categories = .ok statuses)
    (hroots : ∀ c ∈ categories, c.destinationRoot ∈ roots)
    (htracked : ∀ c ∈ categories, ∀ e ∈ c.entries, c.destinationPath e ∈ tracked) :
    statuses.map CategoryStatus.outline = categories.map Category.outline
      ∧ ∀ s ∈ statuses, s.Attributed tracked roots d := by
  induction categories generalizing statuses with
  | nil =>
    obtain rfl := Except.ok.inj h
    exact ⟨rfl, nofun⟩
  | cons c rest ih =>
    obtain ⟨s, hs, h⟩ := bind_eq_ok h
    obtain ⟨later, hlater, h⟩ := bind_eq_ok h
    cases h
    obtain ⟨houtlines, hlater⟩ := ih hlater (fun c' hc' => hroots c' (List.mem_cons_of_mem _ hc'))
      fun c' hc' => htracked c' (List.mem_cons_of_mem _ hc')
    have hc := List.mem_cons_self (a := c) (l := rest)
    refine ⟨by rw [List.map_cons, List.map_cons, houtlines, outline_of_status hs], fun s' hs' => ?_⟩
    rcases List.mem_cons.mp hs' with rfl | hs'
    · exact attributed_of_status hs (hroots c hc) (htracked c hc)
    · exact hlater s' hs'

namespace Manifest

/-- The destination roots of the categories, in their order. -/
def destinationRoots (m : Manifest) (source destination : Path) : List Path :=
  (m.categories source destination).map (·.destinationRoot)

variable {m : Manifest} {source destination : Path} {d : Disk} {report : StatusReport}

theorem attributed_of_treeStatus (h : treeStatus m source destination d = .ok report) :
    report.categories.map CategoryStatus.outline
        = (m.categories source destination).map Category.outline
      ∧ ∀ s ∈ report.categories,
        s.Attributed (m.targets source destination) (m.destinationRoots source destination) d := by
  obtain ⟨a, ha, h⟩ := bind_eq_ok h
  obtain ⟨statuses, hstatuses, h⟩ := bind_eq_ok h
  cases h
  have hpath : a.path = m.unitPath source destination := by
    obtain ⟨state, -, ha⟩ := bind_eq_ok ha
    split at ha <;> cases ha <;> rfl
  rw [hpath] at hstatuses
  refine attributed_of_statuses hstatuses (fun c hc => List.mem_map_of_mem hc) fun c hc e he => ?_
  exact mem_targets.mpr (Or.inr ⟨c, hc, e, he, rfl⟩)

/-- The statuses of a tree are at the roots of its categories. -/
theorem root_of_status (h : treeStatus m source destination d = .ok report) :
    report.categories.map CategoryStatus.destinationRoot
      = m.destinationRoots source destination := by
  have houtlines := congrArg (List.map fun o : Kind × Path × List Entry => o.2.1)
    (attributed_of_treeStatus h).1
  rwa [List.map_map, List.map_map] at houtlines

end Manifest

end Vendoring
