import Vendoring.Proofs.Names
import Vendoring.Proofs.Trees

/-!
# Where a path leads

In a tree without links an inward path leads to one location, its `place`,
if it leads anywhere. What can go wrong on the way is that something is not
there, is no directory, or has too long a name. The two ways of following a
path are described by that: `locate?` and `node?` look at what stands at the
place (`node?_eq_ok_iff`), and `spot?`, which creating and replacing use,
needs the directory around it (`spot?_eq_ok_iff`).

Where nothing but directories stands on the way (`Clear`), the only thing
that can be wrong is that something is missing, be it the working directory.
-/

namespace Vendoring

open Vendoring.Path

/-! ## Walking -/

namespace FileTree

section Walking

variable {t : FileTree} {follow : Location → List Segment → Except FileFault Location}
  {l next : Location} {s : Segment} {rest : List Segment}

theorem step_of_silent (hs : s.isSilent = true) : t.step l s = .ok l := by
  rw [step, if_pos hs]

theorem step_of_name (hs : s.isSilent = false) (hup : s ≠ ['.', '.']) :
    t.step l s =
      if maxNameBytes < (String.ofList s).utf8ByteSize then .error .nameTooLong
      else if (t.node? (String.ofList s :: l)).isSome then .ok (String.ofList s :: l)
      else .error .notFound := by
  rw [step, if_neg (by simp [hs]), if_neg (by simpa using hup)]

theorem obstacle_of_none (hl : t.node? l = none) : t.obstacle l = .notFound := by
  rw [obstacle, hl]
  rfl

theorem obstacle_of_some {n : Node} (hl : t.node? l = some n) : t.obstacle l = .notDirectory := by
  rw [obstacle, hl]
  rfl

theorem obstacle_congr {t' : FileTree} (h : (t'.node? l).isSome = (t.node? l).isSome) :
    t'.obstacle l = t.obstacle l := by
  rw [obstacle, obstacle, h]

theorem walkWith_cons_of_not_directory (hl : t.isDirectory l = false) :
    t.walkWith follow l (s :: rest) = .error (t.obstacle l) := by
  rw [walkWith, hl]
  rfl

theorem walkWith_cons_of_error (hl : t.isDirectory l = true) {f : FileFault}
    (hstep : t.step l s = .error f) : t.walkWith follow l (s :: rest) = .error f := by
  rw [walkWith, hl, hstep]
  rfl

theorem walkWith_cons_of_no_link (hl : t.isDirectory l = true) (hstep : t.step l s = .ok next)
    (hnext : ∀ target, t.node? next ≠ some (.link target)) :
    t.walkWith follow l (s :: rest) = t.walkWith follow next rest := by
  rw [walkWith, hl, hstep]
  simp only [Bool.not_true, Bool.false_eq_true, if_false, bind, Except.bind]

theorem walkWith_cons_of_ok (hfree : t.LinkFree) (hl : t.isDirectory l = true)
    (hstep : t.step l s = .ok next) :
    t.walkWith follow l (s :: rest) = t.walkWith follow next rest :=
  walkWith_cons_of_no_link hl hstep (hfree next)

/-- A walk that gets through ends where its names lead. -/
theorem walkWith_eq_ok (hfree : t.LinkFree) {segments : List Segment}
    (hin : ['.', '.'] ∉ segments) {l' : Location}
    (h : t.walkWith follow l segments = .ok l') :
    l' = (spoken segments).reverse ++ l
      ∧ ∀ name ∈ spoken segments, name.utf8ByteSize ≤ maxNameBytes := by
  induction segments generalizing l with
  | nil =>
    obtain rfl := Except.ok.inj h
    exact ⟨rfl, fun _ hname => nomatch hname⟩
  | cons s rest ih =>
    obtain ⟨hup, hrest⟩ := not_or.mp (fun hs => hin (List.mem_cons.mpr hs))
    cases hl : t.isDirectory l with
    | false => rw [walkWith_cons_of_not_directory hl] at h; cases h
    | true =>
      cases hs : s.isSilent with
      | true =>
        rw [walkWith_cons_of_ok hfree hl (step_of_silent hs)] at h
        rw [spoken_cons_of_silent hs]
        exact ih hrest h
      | false =>
        have hstep := step_of_name (t := t) (l := l) hs (Ne.symm hup)
        split at hstep
        · rw [walkWith_cons_of_error hl hstep] at h; cases h
        · next hfits =>
          split at hstep
          · rw [walkWith_cons_of_ok hfree hl hstep] at h
            obtain ⟨hl', hnames⟩ := ih hrest h
            rw [spoken_cons_of_name hs]
            refine ⟨by rw [hl']; simp, fun name hname => ?_⟩
            rcases List.mem_cons.mp hname with rfl | hname
            · exact Nat.le_of_not_lt hfits
            · exact hnames name hname
          · rw [walkWith_cons_of_error hl hstep] at h; cases h

/-- Along locations where nothing but a directory stands. -/
theorem walkWith_of_open (hfree : t.LinkFree) {segments : List Segment}
    (hin : ['.', '.'] ∉ segments)
    (hfits : ∀ name ∈ spoken segments, name.utf8ByteSize ≤ maxNameBytes)
    (hl : t.isDirectory l = true)
    (hopen : ∀ m, l <:+ m → m <:+ (spoken segments).reverse ++ l → t.Open m) :
    t.walkWith follow l segments =
      if t.isDirectory ((spoken segments).reverse ++ l) then
        .ok ((spoken segments).reverse ++ l)
      else .error .notFound := by
  induction segments generalizing l with
  | nil => simp [walkWith, hl]
  | cons s rest ih =>
    obtain ⟨hup, hrest⟩ := not_or.mp (fun hs => hin (List.mem_cons.mpr hs))
    cases hs : s.isSilent with
    | true =>
      rw [walkWith_cons_of_ok hfree hl (step_of_silent hs)]
      rw [spoken_cons_of_silent hs] at hfits hopen ⊢
      exact ih hrest hfits hl hopen
    | false =>
      rw [spoken_cons_of_name hs] at hfits hopen ⊢
      rw [List.reverse_cons, List.append_assoc, List.singleton_append] at hopen ⊢
      have hstep := step_of_name (t := t) (l := l) hs (Ne.symm hup)
      rw [if_neg (Nat.not_lt.mpr (hfits _ (List.mem_cons_self ..)))] at hstep
      have hsuffix : String.ofList s :: l <:+ (spoken rest).reverse ++ String.ofList s :: l :=
        List.suffix_append ..
      rcases hopen _ (List.suffix_cons ..) hsuffix with hnone | hdir
      · rw [hnone] at hstep
        have hend := none_of_suffix hsuffix hnone
        rw [walkWith_cons_of_error hl hstep, isDirectory, hend]
        rfl
      · rw [hdir] at hstep
        rw [walkWith_cons_of_ok hfree hl hstep]
        refine ih hrest (fun name hname => hfits name (List.mem_cons_of_mem _ hname))
          (isDirectory_iff.mpr hdir) ?_
        exact fun m hm hm' => hopen m ((List.suffix_cons ..).trans hm) hm'

theorem walkWith_append (hfree : t.LinkFree) (xs ys : List Segment) :
    t.walkWith follow l (xs ++ ys) =
      (t.walkWith follow l xs).bind fun l' => t.walkWith follow l' ys := by
  induction xs generalizing l with
  | nil => rfl
  | cons s rest ih =>
    rw [List.cons_append]
    cases hl : t.isDirectory l with
    | false => rw [walkWith_cons_of_not_directory hl, walkWith_cons_of_not_directory hl]; rfl
    | true =>
      cases hstep : t.step l s with
      | error f => rw [walkWith_cons_of_error hl hstep, walkWith_cons_of_error hl hstep]; rfl
      | ok next =>
        rw [walkWith_cons_of_ok hfree hl hstep, walkWith_cons_of_ok hfree hl hstep]
        exact ih

end Walking

/-- A walk through links is a walk in which a link goes on somehow. -/
theorem walk_eq_walkWith (t : FileTree) (links : Nat) :
    ∃ follow, t.walk links = t.walkWith follow := by
  cases links with
  | zero => exact ⟨_, rfl⟩
  | succ links => exact ⟨_, rfl⟩

end FileTree

/-! ## Paths on a disk -/

theorem Disk.splitLast_concat (front : List Path.Segment) {last : Path.Segment} (hlast : last ≠ []) :
    Disk.splitLast (front ++ [last]) = (front, last, false) := by
  have hback : (front ++ [last]).reverse.dropWhile (· == []) = last :: front.reverse := by
    rw [List.reverse_append, List.reverse_singleton, List.singleton_append, List.dropWhile_cons,
      if_neg (by simpa using hlast)]
  unfold Disk.splitLast
  rw [hback]
  simp

namespace Path

/-- A path to a name, without steps outwards. -/
structure Plain (p : Path) : Prop where
  inward : p.Inward
  endsInName : p.EndsInName

/-- Where a path without steps outwards leads when no link is in its way. -/
def place (p : Path) (here : Location) : Location :=
  p.names.reverse ++ FileTree.startOf here p

/-- The last name of such a path, at its place. -/
def spot (p : Path) (here : Location) : Spot :=
  ⟨(p.place here).tail, (p.place here).headD "", false⟩

/-- No part of the path is too long. -/
structure Fits (p : Path) : Prop where
  text : Disk.pathFault? p = none
  names : ∀ name ∈ p.names, name.utf8ByteSize ≤ FileTree.maxNameBytes

/-- A path split in front of its last segment, which is a name. -/
structure EndsIn (p : Path) (front : List Segment) (last : Segment) : Prop where
  segments : p.segments = front ++ [last]
  silent : last.isSilent = false
  up : last ≠ ['.', '.']

/-- A path without steps outwards, split in front of its last name. -/
structure Splits (p : Path) (front : List Segment) (last : Segment) : Prop extends
    p.EndsIn front last where
  inward : ['.', '.'] ∉ front

theorem Plain.splits {p : Path} (h : p.Plain) : ∃ front last, p.Splits front last := by
  obtain ⟨front, last, hseg, hlast⟩ := h.endsInName
  have hin := h.inward
  rw [Inward, hseg, List.mem_append, not_or, List.mem_singleton] at hin
  exact ⟨front, last, ⟨hseg, hlast, Ne.symm hin.2⟩, hin.1⟩

section EndsIn

variable {p : Path} {front : List Segment} {last : Segment} (h : p.EndsIn front last)

include h

theorem EndsIn.names : p.names = spoken front ++ [String.ofList last] := by
  rw [Path.names, h.segments, spoken_append, spoken_cons_of_name h.silent, spoken_nil]

theorem EndsIn.splitLast : Disk.splitLast p.segments = (front, last, false) := by
  rw [h.segments]
  refine Disk.splitLast_concat front ?_
  rintro rfl
  cases h.silent

end EndsIn

section Splits

variable {p : Path} {front : List Segment} {last : Segment} (h : p.Splits front last)

include h

theorem Splits.place (here : Location) :
    p.place here =
      String.ofList last :: ((spoken front).reverse ++ FileTree.startOf here p) := by
  rw [Path.place, h.names, List.reverse_append]
  rfl

theorem Splits.spot (here : Location) :
    p.spot here =
      ⟨(spoken front).reverse ++ FileTree.startOf here p, String.ofList last, false⟩ := by
  rw [Path.spot, h.place]
  rfl

end Splits

theorem startOf_suffix (p : Path) (hp : p.Plain) (here : Location) :
    FileTree.startOf here p <:+ (p.place here).tail := by
  obtain ⟨front, last, hsplit⟩ := hp.splits
  rw [hsplit.place]
  exact List.suffix_append ..

/-- A path leads further than where it starts. -/
theorem not_suffix_start (p : Path) (hp : p.Plain) (here : Location) :
    ¬p.place here <:+ FileTree.startOf here p := by
  obtain ⟨front, last, hsplit⟩ := hp.splits
  rw [hsplit.place]
  intro h
  have := h.length_le
  simp only [List.length_cons, List.length_append] at this
  omega

/-- A place does not stand around itself. -/
theorem not_suffix_tail (p : Path) (hp : p.Plain) (here : Location) :
    ¬p.place here <:+ (p.place here).tail := by
  obtain ⟨front, last, hsplit⟩ := hp.splits
  rw [hsplit.place]
  intro h
  have := h.length_le
  simp only [List.length_cons, List.tail_cons] at this
  omega

end Path

namespace Disk

open FileTree

variable {d : Disk} {p : Path}

/-- The directory of the last name of a path is there. -/
structure Approached (d : Disk) (p : Path) : Prop where
  text : pathFault? p = none
  names : ∀ name ∈ p.names.dropLast, name.utf8ByteSize ≤ maxNameBytes
  directory : d.tree.isDirectory (p.place d.here).tail = true

theorem spot?_eq_ok_iff (hfree : d.tree.LinkFree) (hp : p.Plain) {r : LastName} :
    d.spot? p = .ok r ↔ d.Approached p ∧ r = some (p.spot d.here) := by
  obtain ⟨front, last, hsplit⟩ := hp.splits
  obtain ⟨follow, hwalk⟩ := d.tree.walk_eq_walkWith maxLinks
  have hlast : (Segment.isSilent last || last == ['.', '.']) = false := by
    rw [hsplit.silent, Bool.false_or]
    exact beq_false_of_ne hsplit.up
  have hplace : (p.place d.here).tail = (spoken front).reverse ++ startOf d.here p := by
    rw [hsplit.place]
    rfl
  have hnames : p.names.dropLast = spoken front := by
    rw [hsplit.names, List.dropLast_concat]
  unfold spot?
  cases hfault : pathFault? p with
  | some f =>
    constructor
    · intro h; cases h
    · rintro ⟨⟨htext, _, _⟩, _⟩
      rw [hfault] at htext
      cases htext
  | none =>
    simp only [spotFrom?, hsplit.splitLast, hwalk, hlast, hsplit.spot]
    constructor
    · intro h
      cases hfront : d.tree.walkWith follow (startOf d.here p) front with
      | error f => rw [hfront] at h; cases h
      | ok l =>
        obtain ⟨hl, hfits⟩ := walkWith_eq_ok hfree hsplit.inward hfront
        rw [hfront, hl] at h
        simp only [bind, Except.bind, Bool.false_eq_true, if_false] at h
        split at h
        · cases h
        · next hdir =>
          refine ⟨⟨hfault, by rwa [hnames], ?_⟩, (Except.ok.inj h).symm⟩
          rw [hplace]
          simpa using hdir
    · rintro ⟨⟨_, hfits, hdir⟩, rfl⟩
      rw [hnames] at hfits
      rw [hplace] at hdir
      have hend := isDirectory_iff.mp hdir
      rw [walkWith_of_open hfree hsplit.inward hfits
        (isDirectory_iff.mpr (directory_above (List.suffix_append ..) hend))
        (fun m _ hm => Or.inr (directory_above hm hend)), hdir]
      simp [bind, Except.bind, hdir]

/-- Nothing but a directory stands anywhere on the way to a path. Where a
relative path starts there may be nothing either. -/
def Clear (d : Disk) (p : Path) : Prop :=
  ∀ m, startOf d.here p <:+ m → m <:+ (p.place d.here).tail → d.tree.Open m

theorem spot?_of_clear (hfree : d.tree.LinkFree) (hp : p.Plain) (htext : pathFault? p = none)
    (hfits : ∀ name ∈ p.names.dropLast, name.utf8ByteSize ≤ maxNameBytes)
    (hstart : d.tree.isDirectory (startOf d.here p) = true) (hclear : d.Clear p) :
    d.spot? p = if d.tree.isDirectory (p.place d.here).tail then .ok (some (p.spot d.here))
      else .error .notFound := by
  split
  · next hdir => exact (spot?_eq_ok_iff hfree hp).mpr ⟨⟨htext, hfits, hdir⟩, rfl⟩
  · next hdir =>
    obtain ⟨front, last, hsplit⟩ := hp.splits
    obtain ⟨follow, hwalk⟩ := d.tree.walk_eq_walkWith maxLinks
    rw [Clear, hsplit.place, List.tail_cons] at hclear
    rw [hsplit.place, List.tail_cons] at hdir
    rw [hsplit.names, List.dropLast_concat] at hfits
    unfold spot?
    simp only [htext, spotFrom?, hsplit.splitLast, hwalk]
    rw [walkWith_of_open hfree hsplit.inward hfits hstart hclear, if_neg hdir]
    rfl

theorem locate?_eq_ok (hfree : d.tree.LinkFree) (hp : p.Inward) {l : Location}
    (h : d.locate? p = .ok l) : l = p.place d.here ∧ p.Fits := by
  obtain ⟨follow, hwalk⟩ := d.tree.walk_eq_walkWith maxLinks
  unfold locate? at h
  split at h
  · cases h
  · next hfault =>
    rw [hwalk] at h
    obtain ⟨hl, hfits⟩ := walkWith_eq_ok hfree hp h
    exact ⟨hl, hfault, hfits⟩

/-- Nothing is found from a working directory that is not there. -/
theorem locate?_of_no_start (htext : pathFault? p = none)
    (hstart : d.tree.node? (startOf d.here p) = none) : d.locate? p = .error .notFound := by
  obtain ⟨follow, hwalk⟩ := d.tree.walk_eq_walkWith maxLinks
  have hdir : d.tree.isDirectory (startOf d.here p) = false := by
    rw [FileTree.isDirectory, hstart]
    rfl
  obtain ⟨s, rest, hsegments⟩ := p.segments_eq_cons
  unfold locate?
  simp only [htext, hwalk]
  rw [hsegments, walkWith_cons_of_not_directory hdir, obstacle_of_none hstart]

/-- What a path leads to when its way is clear. -/
theorem locate?_of_clear (hfree : d.tree.LinkFree) (hp : p.Plain) (hfits : p.Fits)
    (hclear : d.Clear p) :
    d.locate? p = if (d.tree.node? (p.place d.here)).isSome then .ok (p.place d.here)
      else .error .notFound := by
  have hbefore := startOf_suffix p hp d.here
  rcases hclear _ (List.suffix_refl _) hbefore with hmissing | hthere
  · rw [locate?_of_no_start hfits.text hmissing,
      none_of_suffix (hbefore.trans (List.tail_suffix _)) hmissing]
    rfl
  have hstart := isDirectory_iff.mpr hthere
  obtain ⟨front, last, hsplit⟩ := hp.splits
  obtain ⟨follow, hwalk⟩ := d.tree.walk_eq_walkWith maxLinks
  obtain ⟨htext, hnames⟩ := hfits
  rw [hsplit.names] at hnames
  rw [Clear, hsplit.place, List.tail_cons] at hclear
  have hlast : (String.ofList last).utf8ByteSize ≤ maxNameBytes := hnames _ (by simp)
  have hfront : ∀ name ∈ spoken front, name.utf8ByteSize ≤ maxNameBytes :=
    fun name hname => hnames name (List.mem_append_left _ hname)
  unfold locate?
  simp only [htext, hwalk]
  rw [hsplit.segments, hsplit.place, walkWith_append hfree,
    walkWith_of_open hfree hsplit.inward hfront hstart hclear]
  split
  · next hdir =>
    have hstep := step_of_name (t := d.tree) (l := (spoken front).reverse ++ startOf d.here p)
      hsplit.silent hsplit.up
    rw [if_neg (Nat.not_lt.mpr hlast)] at hstep
    simp only [Except.bind]
    split
    · next hsome =>
      rw [if_pos hsome] at hstep
      rw [walkWith_cons_of_ok hfree hdir hstep]
      rfl
    · next hnone =>
      rw [if_neg hnone] at hstep
      exact walkWith_cons_of_error hdir hstep
  · next hdir =>
    rw [if_neg]
    · rfl
    · intro hsome
      obtain ⟨n, hn⟩ := Option.isSome_iff_exists.mp hsome
      exact hdir (isDirectory_iff.mpr (up_of_node? hn).2)

theorem clear_of_directory (hdir : d.tree.isDirectory (p.place d.here).tail = true) :
    d.Clear p :=
  fun _ _ hm => Or.inr (directory_above hm (isDirectory_iff.mp hdir))

/-- A path to a directory that is there starts at one. -/
theorem start_of_directory (hp : p.Plain)
    (hdir : d.tree.isDirectory (p.place d.here).tail = true) :
    d.tree.isDirectory (startOf d.here p) = true :=
  isDirectory_iff.mpr (directory_above (startOf_suffix p hp d.here) (isDirectory_iff.mp hdir))

theorem directory_of_node? (hp : p.Plain) {n : Node}
    (h : d.tree.node? (p.place d.here) = some n) :
    d.tree.isDirectory (p.place d.here).tail = true := by
  obtain ⟨front, last, hsplit⟩ := hp.splits
  rw [hsplit.place] at h ⊢
  exact isDirectory_iff.mpr (up_of_node? h).2

/-- The way to what is there is clear. -/
theorem clear_of_node? (hp : p.Plain) {n : Node} (h : d.tree.node? (p.place d.here) = some n) :
    d.Clear p :=
  clear_of_directory (directory_of_node? hp h)

/-- A path leads to what stands at its place. -/
theorem node?_eq_ok_iff (hfree : d.tree.LinkFree) (hp : p.Plain) {n : Node} :
    d.node? p = .ok n ↔ p.Fits ∧ d.tree.node? (p.place d.here) = some n := by
  constructor
  · intro h
    unfold node? at h
    cases hl : d.locate? p with
    | error f => rw [hl] at h; cases h
    | ok l =>
      obtain ⟨rfl, hfits⟩ := locate?_eq_ok hfree hp.inward hl
      rw [hl] at h
      simp only [bind, Except.bind] at h
      split at h
      · next hn =>
        rw [Except.ok.inj h] at hn
        exact ⟨hfits, hn⟩
      · cases h
  · rintro ⟨hfits, hn⟩
    unfold node?
    rw [locate?_of_clear hfree hp hfits (clear_of_node? hp hn), hn]
    simp [bind, Except.bind, hn]

theorem node?_of_clear (hfree : d.tree.LinkFree) (hp : p.Plain) (hfits : p.Fits)
    (hclear : d.Clear p) (hnone : d.tree.node? (p.place d.here) = none) :
    d.node? p = .error .notFound := by
  unfold node?
  rw [locate?_of_clear hfree hp hfits hclear, hnone]
  rfl

end Disk

end Vendoring
