import Vendoring.Proofs.Differing
import Vendoring.Proofs.Lasting
import Vendoring.Proofs.Refreshing

/-!
# The trail of a path

In a tree without links a path passes the same locations whatever stands
there: its `trail`, which goes outwards where the path has a `..`, with the
`goal` of the path at its end. Following the path asks only for what stands on
the trail, so two trees that agree there agree about the path
(`Twins.locate?`, `Twins.spot?`).

A path that stands `Beneath` another one goes on from its goal by names
alone, so that its own goal is further down (`Beneath.goal`).
-/

namespace Vendoring

open Vendoring.Path FileTree

/-! ## Names and locations -/

/-- One name further. -/
def advance (l : Location) (name : String) : Location :=
  if name = ".." then l.tail else name :: l

/-- The locations that are passed along some names, the first one included. -/
def trailFrom (l : Location) : List String → List Location
  | [] => [l]
  | name :: rest => l :: trailFrom (advance l name) rest

/-- The last of these locations. -/
def goalFrom (l : Location) (names : List String) : Location :=
  names.foldl advance l

theorem goalFrom_append (l : Location) (xs ys : List String) :
    goalFrom l (xs ++ ys) = goalFrom (goalFrom l xs) ys :=
  List.foldl_append

theorem goalFrom_concat (l : Location) (names : List String) {name : String} (hup : name ≠ "..") :
    goalFrom l (names ++ [name]) = name :: goalFrom l names := by
  rw [goalFrom_append, goalFrom, List.foldl_cons, List.foldl_nil, advance, if_neg hup]

theorem start_mem_trailFrom (l : Location) (names : List String) : l ∈ trailFrom l names := by
  cases names <;> exact List.mem_cons_self ..

theorem goalFrom_mem_trailFrom (l : Location) (names : List String) :
    goalFrom l names ∈ trailFrom l names := by
  induction names generalizing l with
  | nil => exact List.mem_cons_self ..
  | cons name rest ih => exact List.mem_cons_of_mem _ (ih (advance l name))

theorem mem_trailFrom_append {l m : Location} {xs ys : List String} :
    m ∈ trailFrom l (xs ++ ys) ↔ m ∈ trailFrom l xs ∨ m ∈ trailFrom (goalFrom l xs) ys := by
  induction xs generalizing l with
  | nil =>
    refine ⟨Or.inr, fun h => h.elim (fun hl => ?_) id⟩
    obtain rfl := List.mem_singleton.mp hl
    exact start_mem_trailFrom ..
  | cons name rest ih =>
    simp only [List.cons_append, trailFrom, List.mem_cons, ih, or_assoc]
    rfl

/-- Names that lead nowhere outwards lead down. -/
theorem goalFrom_of_inward {names : List String} (h : ".." ∉ names) (l : Location) :
    goalFrom l names = names.reverse ++ l := by
  induction names generalizing l with
  | nil => rfl
  | cons name rest ih =>
    rw [List.mem_cons, not_or] at h
    rw [goalFrom, List.foldl_cons, ← goalFrom, ih h.2, advance, if_neg (Ne.symm h.1)]
    simp

theorem suffix_of_mem_trailFrom {names : List String} (h : ".." ∉ names) {l m : Location}
    (hm : m ∈ trailFrom l names) : l <:+ m := by
  induction names generalizing l with
  | nil =>
    obtain rfl := List.mem_singleton.mp hm
    exact List.suffix_refl _
  | cons name rest ih =>
    rw [List.mem_cons, not_or] at h
    rcases List.mem_cons.mp hm with rfl | hm
    · exact List.suffix_refl _
    · have := ih h.2 hm
      rw [advance, if_neg (Ne.symm h.1)] at this
      exact (List.suffix_cons name l).trans this

namespace Path

/-- The locations that a path passes where no link leads it elsewhere. -/
def trail (p : Path) (here : Location) : List Location :=
  trailFrom (startOf here p) p.names

/-- The last location that a path passes. -/
def goal (p : Path) (here : Location) : Location :=
  goalFrom (startOf here p) p.names

theorem goal_mem_trail (p : Path) (here : Location) : p.goal here ∈ p.trail here :=
  goalFrom_mem_trailFrom ..

theorem name_eq_up_iff {s : Segment} : String.ofList s = ".." ↔ s = ['.', '.'] := by
  rw [show ".." = String.ofList ['.', '.'] from rfl]
  exact ⟨fun h => String.ofList_injective h, congrArg String.ofList⟩

/-- A path has a `..` among its names when it has one among its segments. -/
theorem up_mem_names {p : Path} : ".." ∈ p.names ↔ ¬p.Inward := by
  rw [names, spoken, List.mem_map, Inward, not_not]
  constructor
  · rintro ⟨s, hs, hup⟩
    rw [← name_eq_up_iff.mp hup]
    exact (List.mem_filter.mp hs).1
  · intro h
    exact ⟨_, List.mem_filter.mpr ⟨h, rfl⟩, rfl⟩

/-- The parent of a path passes no other locations. -/
theorem trail_of_isParent {up p : Path} (h : IsParent up p) (here : Location) :
    up.trail here ⊆ p.trail here := by
  intro l hl
  rw [trail, startOf, h.absolute, h.names, ← startOf] at hl
  rw [trail]
  rcases List.eq_nil_or_concat p.names with hnil | ⟨front, last, hnames⟩
  · rwa [hnil] at hl ⊢
  · rw [List.concat_eq_append] at hnames
    rw [hnames, List.dropLast_concat] at hl
    rw [hnames, mem_trailFrom_append]
    exact Or.inl hl

/-! ## Further down -/

/-- The path goes on from `root` by one name at least, and by names alone. -/
structure Beneath (p root : Path) (further : List String) : Prop where
  names : p.names = root.names ++ further
  inward : ".." ∉ further
  proper : further ≠ []
  absolute : p.isAbsolute = root.isAbsolute

namespace Beneath

variable {p root : Path} {further : List String} (h : p.Beneath root further) (here : Location)

include h

theorem startOf : startOf here p = startOf here root := by
  rw [FileTree.startOf, FileTree.startOf, h.absolute]

theorem goal : p.goal here = further.reverse ++ root.goal here := by
  rw [Path.goal, Path.goal, h.names, h.startOf, goalFrom_append, goalFrom_of_inward h.inward]

/-- Up to the goal of the root the trail is that of the root, and from there
it leads down. -/
theorem mem_trail {l : Location} (hl : l ∈ p.trail here) :
    l ∈ root.trail here ∨ root.goal here <:+ l := by
  rw [trail, h.names, h.startOf, mem_trailFrom_append] at hl
  exact hl.imp_right (suffix_of_mem_trailFrom h.inward)

end Beneath

theorem spoken_inward {p : Path} (h : p.Inward) : ".." ∉ p.names :=
  fun hup => up_mem_names.mp hup h

/-- What validation promises of an entry, below a layout that does not lead
outwards. -/
theorem beneath_join {root layout : Path} (hrel : layout.isAbsolute = false)
    (hin : layout.Inward) {e : Entry} (he : e.flaw? = none) :
    ((root.join layout).join e.toPath).Beneath root (layout.names ++ e.toPath.names) where
  names := by
    rw [names_join _ (Entry.toPath_relative he), names_join _ hrel, List.append_assoc]
  inward := by
    rw [List.mem_append, not_or]
    exact ⟨spoken_inward hin, spoken_inward (Entry.toPath_inward he)⟩
  proper := by
    obtain ⟨front, last, hseg, hlast⟩ := Entry.toPath_endsInName he
    have hnames : e.toPath.names = spoken front ++ [String.ofList last] := by
      rw [Path.names, hseg, spoken_append, spoken_cons_of_name hlast]
      rfl
    simp [hnames]
  absolute := by
    rw [isAbsolute_join _ (Entry.toPath_relative he), isAbsolute_join _ hrel]

/-- The temporary file stands beneath what the file stands beneath. -/
theorem Beneath.temporary {p root : Path} {further : List String} (h : p.Beneath root further)
    {front : List Segment} {last : Segment} (hp : p.EndsIn front last) :
    (Disk.temporary p).Beneath root
      (further.dropLast ++ [String.ofList (last ++ ".carve.tmp".toList)]) where
  names := by
    rw [(isSibling_temporary hp.segments hp.silent hp.up).names, h.names,
      List.dropLast_append_of_ne_nil h.proper, List.append_assoc]
  inward := by
    rw [List.mem_append, not_or, List.mem_singleton, eq_comm, name_eq_up_iff]
    obtain ⟨_, hends, _⟩ := endsIn_temporary hp
    exact ⟨fun hup => h.inward (List.dropLast_subset _ hup), hends.up⟩
  proper := by simp
  absolute := by rw [(isSibling_temporary hp.segments hp.silent hp.up).absolute, h.absolute]

end Path

/-! ## Walks along a trail -/

namespace FileTree

variable {t t' : FileTree} {follow follow' : Location → List Segment → Except FileFault Location}
  {l next : Location} {s : Segment} {segments rest : List Segment}

/-- A step goes one name further. -/
theorem step_eq_advance (hs : s.isSilent = false) (hstep : t.step l s = .ok next) :
    next = advance l (String.ofList s) := by
  unfold step at hstep
  rw [if_neg (by simp [hs])] at hstep
  unfold advance
  simp only [name_eq_up_iff]
  split at hstep
  · next hup =>
    rw [if_pos (by simpa using hup)]
    exact (Except.ok.inj hstep).symm
  · next hup =>
    rw [if_neg (by simpa using hup)]
    simp only at hstep
    split at hstep
    · cases hstep
    split at hstep
    · exact (Except.ok.inj hstep).symm
    · cases hstep

/-- A walk that gets through ends at the goal. -/
theorem walkWith_eq_goal (hfree : t.LinkFree) {l' : Location}
    (h : t.walkWith follow l segments = .ok l') : l' = goalFrom l (spoken segments) := by
  induction segments generalizing l with
  | nil => exact (Except.ok.inj h).symm
  | cons s rest ih =>
    cases hl : t.isDirectory l with
    | false => rw [walkWith_cons_of_not_directory hl] at h; cases h
    | true =>
      cases hstep : t.step l s with
      | error f => rw [walkWith_cons_of_error hl hstep] at h; cases h
      | ok next =>
        rw [walkWith_cons_of_ok hfree hl hstep] at h
        cases hs : s.isSilent with
        | true =>
          rw [step_of_silent hs] at hstep
          obtain rfl := Except.ok.inj hstep
          rw [spoken_cons_of_silent hs]
          exact ih h
        | false =>
          rw [spoken_cons_of_name hs, goalFrom, List.foldl_cons, ← goalFrom,
            ← step_eq_advance hs hstep]
          exact ih h

/-- A walk asks only for what stands on its trail. -/
theorem walkWith_congr (hfree : t.LinkFree) (hfree' : t'.LinkFree)
    (h : ∀ m ∈ trailFrom l (spoken segments), t.node? m = t'.node? m) :
    t.walkWith follow l segments = t'.walkWith follow' l segments := by
  induction segments generalizing l with
  | nil => rfl
  | cons s rest ih =>
    have hnode := h l (start_mem_trailFrom ..)
    have hdir : t.isDirectory l = t'.isDirectory l := by rw [isDirectory, isDirectory, hnode]
    cases hl : t.isDirectory l with
    | false =>
      rw [walkWith_cons_of_not_directory hl, walkWith_cons_of_not_directory (hdir ▸ hl),
        obstacle_congr (congrArg Option.isSome hnode)]
    | true =>
      have hl' : t'.isDirectory l = true := hdir ▸ hl
      cases hs : s.isSilent with
      | true =>
        rw [spoken_cons_of_silent hs] at h
        rw [walkWith_cons_of_ok hfree hl (step_of_silent hs),
          walkWith_cons_of_ok hfree' hl' (step_of_silent hs)]
        exact ih h
      | false =>
        rw [spoken_cons_of_name hs, trailFrom] at h
        have hnext : ∀ m ∈ trailFrom (advance l (String.ofList s)) (spoken rest),
            t.node? m = t'.node? m := fun m hm => h m (List.mem_cons_of_mem _ hm)
        have hstep : t'.step l s = t.step l s := by
          have hthere := hnext _ (start_mem_trailFrom ..)
          unfold step
          unfold advance at hthere
          simp only [name_eq_up_iff] at hthere
          by_cases hup : s = ['.', '.']
          · simp [hup]
          · rw [if_neg hup] at hthere
            simp only [hthere]
        cases hgo : t.step l s with
        | error f =>
          rw [walkWith_cons_of_error hl hgo, walkWith_cons_of_error hl' (hstep.trans hgo)]
        | ok next =>
          rw [walkWith_cons_of_ok hfree hl hgo, walkWith_cons_of_ok hfree' hl' (hstep.trans hgo)]
          rw [← step_eq_advance hs hgo] at hnext
          exact ih hnext

end FileTree

/-! ## Paths on two disks -/

namespace Disk

variable {d d' : Disk} {here : Location} {p : Path}

/-- Two disks without links that agree about some locations. -/
structure Twins (here : Location) (sees : Location → Prop) (d d' : Disk) : Prop where
  left : d.Simple here
  right : d'.Simple here
  nodes : ∀ l, sees l → d.tree.node? l = d'.tree.node? l

theorem locate?_eq_goal (hd : d.Simple here) {l : Location} (h : d.locate? p = .ok l) :
    l = p.goal here := by
  obtain ⟨follow, hwalk⟩ := d.tree.walk_eq_walkWith maxLinks
  unfold locate? at h
  split at h
  · cases h
  · rw [hwalk, hd.here] at h
    exact walkWith_eq_goal hd.linkFree h

/-- What stands in front of the last name is a beginning of the trail. -/
theorem trail_front (p : Path) (here : Location) :
    trailFrom (startOf here p) (spoken (splitLast p.segments).1) ⊆ p.trail here := by
  intro l hl
  rw [Path.trail, names]
  rcases splitLast_cases p.segments with ⟨slashes, -, hsegments⟩ | ⟨hfront, -⟩
  · rw [hsegments, spoken_append, mem_trailFrom_append]
    exact Or.inl hl
  · rw [hfront] at hl
    obtain rfl := List.mem_singleton.mp hl
    exact start_mem_trailFrom ..

/-- The last name of a path stands at its goal, and the directory around it
on the trail. -/
theorem spot?_eq_goal (hd : d.Simple here) {s : Spot} (h : d.spot? p = .ok (some s)) :
    s.location = p.goal here ∧ s.directory ∈ p.trail here := by
  obtain ⟨follow, hwalk⟩ := d.tree.walk_eq_walkWith maxLinks
  unfold spot? at h
  split at h
  · cases h
  simp only [spotFrom?, hwalk, hd.here] at h
  obtain ⟨l, hl, h⟩ := bind_eq_ok h
  have hgoal := walkWith_eq_goal hd.linkFree hl
  split at h
  · cases h
  split at h
  · cases h
  next hname =>
  obtain rfl := Option.some.inj (Except.ok.inj h)
  rw [Bool.or_eq_true, not_or, Bool.not_eq_true] at hname
  refine ⟨?_, trail_front p here (hgoal ▸ goalFrom_mem_trailFrom ..)⟩
  rcases splitLast_cases p.segments with ⟨slashes, hslashes, hsegments⟩ | ⟨-, hlast⟩
  · have hnames : p.names = spoken (splitLast p.segments).1
        ++ [String.ofList (splitLast p.segments).2.1] := by
      conv_lhs => rw [names, hsegments]
      rw [spoken_append, spoken_cons_of_name hname.1, hslashes]
    rw [Path.goal, hnames, goalFrom_append, ← hgoal, goalFrom, List.foldl_cons, List.foldl_nil,
      advance, if_neg (name_eq_up_iff.not.mpr (by simpa using hname.2))]
    rfl
  · rw [hlast] at hname
    cases hname.1

section Twins

variable {sees : Location → Prop} (h : Twins here sees d d') (hp : ∀ l ∈ p.trail here, sees l)

include h hp

theorem Twins.locate? : d.locate? p = d'.locate? p := by
  obtain ⟨follow, hwalk⟩ := d.tree.walk_eq_walkWith maxLinks
  obtain ⟨follow', hwalk'⟩ := d'.tree.walk_eq_walkWith maxLinks
  unfold Disk.locate?
  rw [hwalk, hwalk', h.left.here, h.right.here]
  rw [walkWith_congr h.left.linkFree h.right.linkFree fun m hm => h.nodes m (hp m hm)]

theorem Twins.spot? : d.spot? p = d'.spot? p := by
  obtain ⟨follow, hwalk⟩ := d.tree.walk_eq_walkWith maxLinks
  obtain ⟨follow', hwalk'⟩ := d'.tree.walk_eq_walkWith maxLinks
  have hnodes : ∀ m ∈ trailFrom (startOf here p) (spoken (splitLast p.segments).1),
      d.tree.node? m = d'.tree.node? m :=
    fun m hm => h.nodes m (hp m (trail_front p here hm))
  unfold Disk.spot?
  split
  · rfl
  · simp only [spotFrom?, hwalk, hwalk', h.left.here, h.right.here]
    rw [walkWith_congr h.left.linkFree h.right.linkFree hnodes]
    cases hl : d'.tree.walkWith follow' (startOf here p) (splitLast p.segments).1 with
    | error f => rfl
    | ok l =>
      have hgoal := walkWith_eq_goal h.right.linkFree hl
      have hnode := hnodes l (hgoal ▸ goalFrom_mem_trailFrom ..)
      have hdir : d.tree.isDirectory l = d'.tree.isDirectory l := by
        rw [FileTree.isDirectory, FileTree.isDirectory, hnode]
      simp only [bind, Except.bind, hdir, obstacle_congr (congrArg Option.isSome hnode)]

end Twins

end Disk

end Vendoring
