import Vendoring.Proofs.Confining
import Vendoring.Proofs.Untracked

/-!
# The untracked files of a tree

Without steps outwards and without links, paths behind one root are the same
path just when they have the same place, and one contains the other just when
its place does (`OpensLike`). So what the status of a tree says about paths it
says about files: all those below some destination root that nothing accounts
for are listed, and each at the deepest root around it.
-/

namespace Vendoring

open Vendoring.Path FileTree

namespace Path

/-! ## Paths behind one opening -/

/-- The path opens like `base`, and goes on by names alone. -/
def OpensLike (base p : Path) : Prop :=
  p.components = base.opening.toList ++ p.names.map .name

theorem filterMap_spokenName? (names : List String) :
    (names.map Component.name).filterMap spokenName? = names := by
  rw [List.filterMap_map]
  exact List.filterMap_some

section OpensLike

variable {base p q : Path}

theorem opensLike_of_inward (hopening : p.opening = base.opening) (hin : p.Inward) :
    OpensLike base p := by
  rw [OpensLike, components_eq, hopening, inner_of_inward hin]
  rfl

/-- Names behind the path. -/
theorem OpensLike.append (hp : OpensLike base p) {names : List String}
    (h : q.components = p.components ++ names.map .name) :
    OpensLike base q ∧ q.names = p.names ++ names := by
  have hnames : q.names = p.names ++ names := by
    rw [names_eq, h, List.filterMap_append, ← names_eq, filterMap_spokenName?]
  refine ⟨?_, hnames⟩
  rw [OpensLike, h, hnames, hp, List.map_append, List.append_assoc]

theorem OpensLike.place (hp : OpensLike base p) (here : Location) :
    p.place here = p.names.reverse ++ startOf here base := by
  have habs : p.isAbsolute = base.isAbsolute := by
    rw [Bool.eq_iff_iff, ← root_mem_components, hp, ← opening_eq_root_iff, List.mem_append,
      Option.mem_toList]
    simp
  rw [Path.place, startOf, startOf, habs]

variable (hp : OpensLike base p) (hq : OpensLike base q) (here : Location)

include hp hq

theorem OpensLike.same_iff : p.Same q ↔ p.place here = q.place here := by
  rw [hp.place, hq.place, List.append_cancel_right_eq, List.reverse_inj]
  exact ⟨Same.names, fun h => by rw [Same, hp, hq, h]⟩

theorem OpensLike.prefix_iff : q.names <+: p.names ↔ q.place here <:+ p.place here := by
  rw [hp.place, hq.place]
  constructor
  · rintro ⟨names, hnames⟩
    exact ⟨names.reverse, by rw [← hnames, List.reverse_append, List.append_assoc]⟩
  · rintro ⟨names, hnames⟩
    rw [← List.append_assoc, List.append_cancel_right_eq] at hnames
    exact List.reverse_suffix.mp ⟨names, hnames⟩

theorem OpensLike.startsWith_iff : p.startsWith q = true ↔ q.place here <:+ p.place here := by
  rw [← hp.prefix_iff hq, Path.startsWith_iff, hp, hq, List.prefix_append_right_inj,
    List.prefix_map_iff_of_injective fun _ _ => Component.name.inj]

/-- The way on from a path to one further down. -/
theorem OpensLike.eq_append (h : q.place here <:+ p.place here) : ∃ names : List String,
    p.components = q.components ++ names.map .name
      ∧ p.place here = names.reverse ++ q.place here := by
  obtain ⟨names, hnames⟩ := (hp.prefix_iff hq here).mpr h
  refine ⟨names, ?_, ?_⟩
  · rw [hp, hq, ← hnames, List.map_append, List.append_assoc]
  · rw [hp.place, hq.place, ← hnames, List.reverse_append, List.append_assoc]

theorem OpensLike.length_le_iff : p.components.length ≤ q.components.length
    ↔ (p.place here).length ≤ (q.place here).length := by
  rw [hp, hq, hp.place, hq.place]
  simp only [List.length_append, List.length_map, List.length_reverse]
  omega

end OpensLike

end Path

/-! ## Roots with something at their place -/

namespace FileTree

variable {t : FileTree} {follow : Location → List Segment → Except FileFault Location}
  {l : Location}

/-- On the way to what is there nothing is missing. -/
theorem walkWith_ne_notFound (hfree : t.LinkFree) {segments : List Segment}
    (hin : ['.', '.'] ∉ segments)
    (hthere : (t.node? ((spoken segments).reverse ++ l)).isSome = true) :
    t.walkWith follow l segments ≠ .error .notFound := by
  induction segments generalizing l with
  | nil => exact nofun
  | cons s rest ih =>
    have around {m : Location} (hm : m <:+ (spoken (s :: rest)).reverse ++ l) :
        ∃ n, t.node? m = some n :=
      Option.ne_none_iff_exists'.mp fun hnone =>
        Option.isSome_iff_ne_none.mp hthere (none_of_suffix hm hnone)
    obtain ⟨hup, hrest⟩ := not_or.mp fun h => hin (List.mem_cons.mpr h)
    cases hl : t.isDirectory l with
    | false =>
      obtain ⟨n, hn⟩ := around (List.suffix_append ..)
      rw [walkWith_cons_of_not_directory hl, obstacle_of_some hn]
      exact nofun
    | true =>
      cases hs : s.isSilent with
      | true =>
        rw [walkWith_cons_of_ok hfree hl (step_of_silent hs)]
        rw [spoken_cons_of_silent hs] at hthere
        exact ih hrest hthere
      | false =>
        rw [spoken_cons_of_name hs, List.reverse_cons, List.append_assoc,
          List.singleton_append] at hthere around
        have hstep := step_of_name (t := t) (l := l) hs (Ne.symm hup)
        rw [if_pos (Option.isSome_iff_exists.mpr (around (List.suffix_append ..)))] at hstep
        split at hstep
        · rw [walkWith_cons_of_error hl hstep]
          exact nofun
        · rw [walkWith_cons_of_ok hfree hl hstep]
          exact ih hrest hthere

end FileTree

namespace Disk

variable {d : Disk} {root : Path}

/-- A root that can be read and has something at its place leads to a
directory there. -/
theorem Readable.located (h : d.Readable root) (hfree : d.tree.LinkFree) (hin : root.Inward)
    (htext : root.text ≠ "") {n : Node} (hn : d.tree.node? (root.place d.here) = some n) :
    d.locate? root = .ok (root.place d.here)
      ∧ d.tree.isDirectory (root.place d.here) = true := by
  have hfound : d.locate? root ≠ .error .notFound := by
    unfold locate?
    split
    · next f hf =>
      rintro ⟨rfl⟩
      unfold pathFault? at hf
      rw [if_neg htext] at hf
      split at hf
      · cases hf
      split at hf <;> cases hf
    · obtain ⟨follow, hwalk⟩ := d.tree.walk_eq_walkWith maxLinks
      rw [hwalk]
      refine walkWith_ne_notFound hfree hin ?_
      rw [show (spoken root.segments).reverse ++ startOf d.here root = root.place d.here from rfl,
        hn]
      rfl
  cases hl : d.locate? root with
  | error f =>
    rw [hl, h.fault hl] at hfound
    exact absurd rfl hfound
  | ok l =>
    obtain ⟨rfl, -⟩ := locate?_eq_ok hfree hin hl
    exact ⟨rfl, h.isDirectory hl⟩

end Disk

/-- Below a path there is a path to everything that stands below its place. -/
theorem exists_path_below {t : FileTree} {root : Path} (hroot : root.text ≠ "")
    {front l : Location} {n : Node} (hn : t.node? (front ++ l) = some n) :
    ∃ p : Path, p.text ≠ "" ∧ p.components = root.components ++ front.reverse.map .name := by
  induction front generalizing n with
  | nil => exact ⟨root, hroot, by simp⟩
  | cons name front ih =>
    obtain ⟨hname, hup⟩ := up_of_node? hn
    obtain ⟨p, hp, hcomponents⟩ := ih hup
    have hjoin := components_member hname hp
    refine ⟨p.join ⟨name⟩, text_ne_empty_of_components (by simp [hjoin]), ?_⟩
    rw [hjoin, hcomponents]
    simp

/-! ## Stray files -/

/-- Roots and targets behind one opening, in a tree without links in which the
roots can be read. -/
structure Surveyed (base : Path) (roots targets : List Path) (d : Disk) : Prop where
  linkFree : d.tree.LinkFree
  text : ∀ r ∈ roots, r.text ≠ ""
  inward : ∀ r ∈ roots, r.Inward
  opening : ∀ r ∈ roots, r.opening = base.opening
  readable : ∀ r ∈ roots, d.Readable r
  targets : ∀ q ∈ targets, OpensLike base q

/-- A file below a root that no target accounts for and no root further down
contains. -/
structure Stray (base : Path) (roots targets : List Path) (d : Disk) (root p : Path) : Prop where
  opensLike : OpensLike base p
  file : d.tree.isFile (p.place d.here) = true
  below : StrictlyBelow (root.place d.here) (p.place d.here)
  unaccounted : ∀ q ∈ targets, q.place d.here ≠ p.place d.here
  deepest : ∀ r ∈ roots, StrictlyBelow (r.place d.here) (p.place d.here) →
    (r.place d.here).length ≤ (root.place d.here).length

namespace Surveyed

variable {base : Path} {roots targets : List Path} {d : Disk} (h : Surveyed base roots targets d)
  {root p : Path}

include h

theorem isAmong_targets (hp : OpensLike base p) :
    isAmong targets p = false ↔ ∀ q ∈ targets, q.place d.here ≠ p.place d.here := by
  rw [← Bool.not_eq_true, isAmong_iff_exists, not_exists]
  refine forall_congr' fun q => ?_
  rw [not_and]
  refine forall_congr' fun hq => ?_
  rw [(h.targets q hq).same_iff hp d.here]

section Root

variable (hroot : root ∈ roots)

include hroot

theorem opensLike : OpensLike base root :=
  opensLike_of_inward (h.opening root hroot) (h.inward root hroot)

/-- What is there at the place of a root is a directory. -/
theorem directory {n : Node} (hn : d.tree.node? (root.place d.here) = some n) :
    d.locate? root = .ok (root.place d.here)
      ∧ d.tree.isDirectory (root.place d.here) = true :=
  (h.readable root hroot).located h.linkFree (h.inward root hroot) (h.text root hroot) hn

/-- A file does not stand at the place of a root. -/
theorem strictlyBelow (hfile : d.tree.isFile (p.place d.here) = true)
    (hsuffix : root.place d.here <:+ p.place d.here) :
    StrictlyBelow (root.place d.here) (p.place d.here) := by
  refine ⟨hsuffix, fun heq => ?_⟩
  obtain ⟨n, hn, hfile⟩ := (Option.any_eq_true ..).mp hfile
  rw [← heq] at hn
  rw [isDirectory_iff.mp (h.directory hroot hn).2] at hn
  cases hn
  cases hfile

theorem contains_iff : d.Contains root p ↔ OpensLike base p ∧ d.tree.isFile (p.place d.here) = true
    ∧ StrictlyBelow (root.place d.here) (p.place d.here) := by
  have hopens := h.opensLike hroot
  constructor
  · rintro ⟨l, names, hl, hdir, hcomponents, hfile⟩
    obtain ⟨rfl, -⟩ := Disk.locate?_eq_ok h.linkFree (h.inward root hroot) hl
    obtain ⟨hp, hnames⟩ := hopens.append hcomponents
    have hplace : p.place d.here = names.reverse ++ root.place d.here := by
      rw [hp.place, hopens.place, hnames, List.reverse_append, List.append_assoc]
    rw [← hplace] at hfile
    exact ⟨hp, hfile, h.strictlyBelow hroot hfile (hplace ▸ List.suffix_append ..)⟩
  · rintro ⟨hp, hfile, hbelow⟩
    obtain ⟨n, hn, -⟩ := (Option.any_eq_true ..).mp hfile
    obtain ⟨hl, hdir⟩ := h.directory hroot (directory_of_suffix hbelow.1 hbelow.2 hn)
    obtain ⟨names, hcomponents, hplace⟩ := hp.eq_append hopens d.here hbelow.1
    exact ⟨_, names, hl, hdir, hcomponents, hplace ▸ hfile⟩

theorem isDeepest_iff (hp : OpensLike base p) (hfile : d.tree.isFile (p.place d.here) = true) :
    IsDeepest roots p root ↔ root.place d.here <:+ p.place d.here
      ∧ ∀ r ∈ roots, StrictlyBelow (r.place d.here) (p.place d.here) →
        (r.place d.here).length ≤ (root.place d.here).length := by
  have hopens := h.opensLike hroot
  rw [IsDeepest, hp.startsWith_iff hopens d.here]
  refine and_congr_right fun _ => forall_congr' fun r => forall_congr' fun hr => ?_
  rw [hp.startsWith_iff (h.opensLike hr) d.here, (h.opensLike hr).length_le_iff hopens d.here]
  exact ⟨fun hmax hbelow => hmax hbelow.1, fun hmax hsuffix =>
    hmax (h.strictlyBelow hr hfile hsuffix)⟩

end Root

/-- What a category lists is what is astray below its root. -/
theorem stray_iff {s : CategoryStatus} (hs : s.Attributed targets roots d)
    (hroot : s.destinationRoot ∈ roots) :
    isAmong s.untrackedPaths p = true ↔ Stray base roots targets d s.destinationRoot p := by
  rw [hs.isAmong_iff, h.contains_iff hroot]
  constructor
  · rintro ⟨⟨hp, hfile, hbelow⟩, hfree, hdeepest⟩
    exact ⟨hp, hfile, hbelow, (h.isAmong_targets hp).mp hfree,
      ((h.isDeepest_iff hroot hp hfile).mp hdeepest).2⟩
  · rintro ⟨hp, hfile, hbelow, hfree, hdeepest⟩
    exact ⟨⟨hp, hfile, hbelow⟩, (h.isAmong_targets hp).mpr hfree,
      (h.isDeepest_iff hroot hp hfile).mpr ⟨hbelow.1, hdeepest⟩⟩

/-- Every file below a root that nothing accounts for is astray below a
deepest one. -/
theorem exists_stray {l : Location} (hfile : d.tree.isFile l = true)
    (hbelow : ∃ root ∈ roots, StrictlyBelow (root.place d.here) l)
    (hfree : ∀ q ∈ targets, q.place d.here ≠ l) :
    ∃ root ∈ roots, ∃ p, Stray base roots targets d root p ∧ p.place d.here = l := by
  obtain ⟨root, hroot, hbelow⟩ := hbelow
  obtain ⟨n, hn, -⟩ := (Option.any_eq_true ..).mp hfile
  obtain ⟨front, hfront⟩ := hbelow.1
  rw [← hfront] at hn
  obtain ⟨p, -, hcomponents⟩ := exists_path_below (h.text root hroot) hn
  obtain ⟨hp, hnames⟩ := (h.opensLike hroot).append hcomponents
  have hplace : p.place d.here = l := by
    rw [hp.place, hnames, ← hfront, (h.opensLike hroot).place, List.reverse_append,
      List.reverse_reverse, List.append_assoc]
  rw [← hplace] at hfile hbelow hfree
  have hstarts := (hp.startsWith_iff (h.opensLike hroot) d.here).mpr hbelow.1
  obtain ⟨r, -, hr, hdeepest⟩ := owningRoot?_eq_some hroot hstarts
  obtain ⟨hsuffix, hmax⟩ := (h.isDeepest_iff hr hp hfile).mp hdeepest
  exact ⟨r, hr, p, ⟨hp, hfile, h.strictlyBelow hr hfile hsuffix, hfree, hmax⟩, hplace⟩

end Surveyed

namespace Manifest

variable {m : Manifest} {source destination : Path} {d : Disk} {report : StatusReport}

section Roots

variable (hlayouts : ∀ kind, (m.layout kind).destination.isAbsolute = false
    ∧ (m.layout kind).destination.Inward)
  (htext : destination.text ≠ "") (hin : destination.Inward)

include hlayouts htext hin

theorem destinationRoots_opensLike :
    ∀ root ∈ m.destinationRoots source destination,
      root.text ≠ "" ∧ root.Inward ∧ root.opening = destination.opening := by
  intro root hroot
  obtain ⟨c, hc, rfl⟩ := List.mem_map.mp hroot
  obtain ⟨kind, rfl⟩ := mem_categories hc
  obtain ⟨hrel, hlayout⟩ := hlayouts kind
  refine ⟨text_ne_empty_of_components ?_, hin.join hlayout hrel, opening_join htext hrel⟩
  rw [category, components_join htext hrel]
  exact List.append_ne_nil_of_left_ne_nil (components_ne_nil htext) _

theorem targets_opensLike (hvalid : m.invalid? = none) :
    ∀ p ∈ m.targets source destination, OpensLike destination p := by
  obtain ⟨hentries, houtput⟩ := flaw?_of_valid hvalid
  have hjoin {c : Category} (hc : c ∈ m.categories source destination) {e : Entry}
      (he : e.flaw? = none) : OpensLike destination (c.destinationPath e) := by
    obtain ⟨hroot, hroot', hopening⟩ :=
      destinationRoots_opensLike hlayouts htext hin _ (List.mem_map_of_mem hc)
    have hrel := Entry.toPath_relative he
    exact opensLike_of_inward ((opening_join hroot hrel).trans hopening)
      (hroot'.join (Entry.toPath_inward he) hrel)
  intro p hp
  rcases mem_targets.mp hp with rfl | ⟨c, hc, e, he, rfl⟩
  · exact hjoin (category_mem m .sources source destination) houtput
  · obtain ⟨kind, rfl⟩ := mem_categories hc
    exact hjoin hc (hentries kind e he)

end Roots

theorem surveyed (hvalid : m.invalid? = none)
    (hlayouts : ∀ kind, (m.layout kind).destination.isAbsolute = false
      ∧ (m.layout kind).destination.Inward)
    (htext : destination.text ≠ "") (hin : destination.Inward) (hfree : d.tree.LinkFree)
    (h : treeStatus m source destination d = .ok report) :
    Surveyed destination (m.destinationRoots source destination) (m.targets source destination) d
      where
  linkFree := hfree
  text r hr := (destinationRoots_opensLike hlayouts htext hin r hr).1
  inward r hr := (destinationRoots_opensLike hlayouts htext hin r hr).2.1
  opening r hr := (destinationRoots_opensLike hlayouts htext hin r hr).2.2
  readable r hr := by
    rw [← root_of_status h] at hr
    obtain ⟨s, hs, rfl⟩ := List.mem_map.mp hr
    exact ((attributed_of_treeStatus h).2 s hs).readable
  targets := targets_opensLike hlayouts htext hin hvalid

/-- For a valid manifest whose layouts stay below the destination, the paths
that a status lists as untracked are the files below the destination roots
that are no destination of an entry and not the unit; each is listed below a
root of greatest depth around it, and every list is sorted. -/
theorem untracked_files (m : Manifest) (source destination : Path) (d : Disk)
    (report : StatusReport) (hvalid : m.invalid? = none)
    (hlayouts : ∀ kind, (m.layout kind).destination.isAbsolute = false
      ∧ (m.layout kind).destination.Inward)
    (htext : destination.text ≠ "") (hin : destination.Inward) (hfree : d.tree.LinkFree)
    (h : treeStatus m source destination d = .ok report) :
    report.categories.map CategoryStatus.outline
        = (m.categories source destination).map Category.outline
    ∧ (∀ l, (∃ p ∈ report.untrackedPaths, p.place d.here = l)
      ↔ d.tree.isFile l = true
        ∧ (∃ root ∈ m.destinationRoots source destination, StrictlyBelow (root.place d.here) l)
        ∧ ∀ p ∈ m.targets source destination, p.place d.here ≠ l)
    ∧ (∀ p ∈ report.untrackedPaths, ∀ q ∈ report.untrackedPaths,
      p.place d.here = q.place d.here → p.Same q)
    ∧ (∀ s ∈ report.categories, ∀ rel ∈ s.untracked,
      StrictlyBelow (s.destinationRoot.place d.here)
          ((s.destinationRoot.join rel).place d.here)
        ∧ ∀ root ∈ m.destinationRoots source destination,
          StrictlyBelow (root.place d.here) ((s.destinationRoot.join rel).place d.here) →
          (root.place d.here).length ≤ (s.destinationRoot.place d.here).length)
    ∧ ∀ s ∈ report.categories, s.untracked.Pairwise fun p q => p.compare q = .lt := by
  obtain ⟨houtlines, hattributed⟩ := attributed_of_treeStatus h
  have hsurveyed := surveyed hvalid hlayouts htext hin hfree h
  have hroot : ∀ s ∈ report.categories,
      s.destinationRoot ∈ m.destinationRoots source destination := by
    intro s hs
    rw [← root_of_status h]
    exact List.mem_map_of_mem hs
  have hstray : ∀ s ∈ report.categories, ∀ p ∈ s.untrackedPaths,
      Stray destination (m.destinationRoots source destination) (m.targets source destination) d
        s.destinationRoot p := fun s hs p hp =>
    (hsurveyed.stray_iff (hattributed s hs) (hroot s hs)).mp
      (isAmong_iff_exists.mpr ⟨p, hp, rfl⟩)
  have hopens : ∀ p ∈ report.untrackedPaths, OpensLike destination p := by
    intro p hp
    obtain ⟨s, hs, hp⟩ := List.mem_flatMap.mp hp
    exact (hstray s hs p hp).opensLike
  refine ⟨houtlines, fun l => ⟨?_, ?_⟩, ?_, fun s hs rel hrel => ?_, fun s hs =>
    (hattributed s hs).sorted⟩
  · rintro ⟨p, hp, rfl⟩
    obtain ⟨s, hs, hp⟩ := List.mem_flatMap.mp hp
    have hstray := hstray s hs p hp
    exact ⟨hstray.file, ⟨_, hroot s hs, hstray.below⟩, hstray.unaccounted⟩
  · rintro ⟨hfile, hbelow, hfree⟩
    obtain ⟨root, hmem, p, hstray, hplace⟩ := hsurveyed.exists_stray hfile hbelow hfree
    rw [← root_of_status h] at hmem
    obtain ⟨s, hs, rfl⟩ := List.mem_map.mp hmem
    obtain ⟨q, hq, hsame⟩ := isAmong_iff_exists.mp
      ((hsurveyed.stray_iff (hattributed s hs) (hroot s hs)).mpr hstray)
    have hq' := List.mem_flatMap.mpr ⟨s, hs, hq⟩
    refine ⟨q, hq', ?_⟩
    rw [← hplace]
    exact ((hopens q hq').same_iff hstray.opensLike d.here).mp hsame
  · exact fun p hp q hq => ((hopens p hp).same_iff (hopens q hq) d.here).mpr
  · have hstray := hstray s hs _ (List.mem_map_of_mem hrel)
    exact ⟨hstray.below, hstray.deepest⟩

/-! Headers and tests share a root, and that of the sources is inside it. -/

def nested : Manifest where
  aggregate := {}
  headers := ⟨⟨"inc"⟩, ⟨"lib"⟩, [⟨"a.h"⟩]⟩
  sources := ⟨⟨"src"⟩, ⟨"lib/core"⟩, [⟨"x.cpp"⟩]⟩
  tests := ⟨⟨"t"⟩, ⟨"./lib/"⟩, []⟩

def nestedTree : FileTree :=
  ((((((FileTree.empty.put ["out"] .directory).put ["lib", "out"] .directory).put
    ["a.h", "lib", "out"] (.file "h".toUTF8 0o644)).put
    ["notes", "lib", "out"] (.file "n".toUTF8 0o600)).put ["core", "lib", "out"] .directory).put
    ["stray.cpp", "core", "lib", "out"] (.file "s".toUTF8 0o644))

theorem nested_strays_are_untracked :
    ∃ report, treeStatus nested ⟨"up"⟩ ⟨"out"⟩ ⟨nestedTree, []⟩ = .ok report
      ∧ (∃ p ∈ report.untrackedPaths, p.place [] = ["stray.cpp", "core", "lib", "out"])
      ∧ (∃ p ∈ report.untrackedPaths, p.place [] = ["notes", "lib", "out"])
      ∧ ¬∃ p ∈ report.untrackedPaths, p.place [] = ["a.h", "lib", "out"] := by
  have hsome : (treeStatus nested ⟨"up"⟩ ⟨"out"⟩ ⟨nestedTree, []⟩).toOption.isSome = true := by
    decide +kernel
  cases hok : treeStatus nested ⟨"up"⟩ ⟨"out"⟩ ⟨nestedTree, []⟩ with
  | error x => rw [hok] at hsome; cases hsome
  | ok report =>
    have h := (untracked_files nested ⟨"up"⟩ ⟨"out"⟩ ⟨nestedTree, []⟩ report (by decide +kernel)
      (by unfold Path.Inward; intro kind; cases kind <;> decide +kernel) (by decide)
      (by unfold Path.Inward; decide +kernel) (linkFree_of_nodes (by decide +kernel)) hok).2.1
    refine ⟨report, rfl, (h _).mpr ⟨by decide +kernel, ⟨⟨"out/lib/core"⟩, ?_⟩, ?_⟩,
      (h _).mpr ⟨by decide +kernel, ⟨⟨"out/lib"⟩, ?_⟩, ?_⟩, fun hlisted => ?_⟩
    · unfold StrictlyBelow
      decide +kernel
    · decide +kernel
    · unfold StrictlyBelow
      decide +kernel
    · decide +kernel
    · exact ((h _).mp hlisted).2.2 ⟨"out/lib/a.h"⟩ (by decide +kernel) (by decide +kernel)

end Manifest

end Vendoring
