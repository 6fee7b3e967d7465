import Vendoring.FileTree.Basic
import Vendoring.FileTree.Fault
import Vendoring.Path

/-!
# From paths to locations

A path is followed segment by segment, from the root or from the working
directory. A segment that is empty or `.` stays where it is, but only in a
directory, so a trailing separator insists on one. `..` goes outwards, and a
link is replaced by its target.

`Disk.locate?` follows a path to the end. `Disk.spot?` stops in front of the
last name, which is what creating, replacing and removing need.

A working directory may have been removed. Then it is not there, no relative
path leads anywhere, and nothing has to be assumed of it.
-/

namespace Vendoring

/-- A file tree seen from a working directory, which need not be there any
more. -/
structure Disk where
  tree : FileTree
  here : Location

namespace FileTree

/-- Names of more bytes than this are refused. -/
def maxNameBytes : Nat := 255

/-- Paths of this many bytes or more are refused. -/
def maxPathBytes : Nat := 4096

/-- How many links one path may lead through. -/
def maxLinks : Nat := 40

/-- Where the segments of a path start. -/
def startOf (here : Location) (p : Path) : Location :=
  if p.isAbsolute then [] else here

/-- One segment from the directory `l`, which has been checked; a link is
not followed. -/
def step (t : FileTree) (l : Location) (s : Path.Segment) : Except FileFault Location :=
  if Path.Segment.isSilent s then .ok l
  else if s == ['.', '.'] then .ok l.tail
  else
    let name := String.ofList s
    if maxNameBytes < name.utf8ByteSize then .error .nameTooLong
    else if (t.node? (name :: l)).isSome then .ok (name :: l)
    else .error .notFound

/-- Why nothing can be looked up in `l`, which is no directory. -/
def obstacle (t : FileTree) (l : Location) : FileFault :=
  if (t.node? l).isSome then .notDirectory else .notFound

/-- Goes along `segments` from `l`. At a link it goes on with `follow`, from
the directory of the link, along the target and what is left. -/
def walkWith (t : FileTree)
    (follow : Location → List Path.Segment → Except FileFault Location) :
    Location → List Path.Segment → Except FileFault Location
  | l, [] => .ok l
  | l, s :: rest =>
    if !t.isDirectory l then .error (t.obstacle l)
    else do
      let next ← t.step l s
      match t.node? next with
      | some (.link target) =>
        follow (startOf l ⟨target⟩) (Path.segments ⟨target⟩ ++ rest)
      | _ => walkWith t follow next rest

/-- Goes along `segments` from `l` through at most that many links. -/
def walk (t : FileTree) : Nat → Location → List Path.Segment → Except FileFault Location
  | 0 => t.walkWith fun _ _ => .error .tooManyLinks
  | links + 1 => t.walkWith (t.walk links)

end FileTree

/-- The place of a last name: the directory that holds it or may hold it,
and whether separators follow it in the path. -/
structure Spot where
  directory : Location
  name : String
  slash : Bool
  deriving DecidableEq, Repr

def Spot.location (s : Spot) : Location := s.name :: s.directory

/-- Where a path leads without its last segment. `none` stands for a last
segment that is no name: the root, `.` or `..`. -/
abbrev LastName := Option Spot

namespace Disk

open FileTree

/-- What is wrong with a path whatever the tree holds. -/
def pathFault? (p : Path) : Option FileFault :=
  if '\x00' ∈ p.text.toList then some .nulInPath
  else if p.text = "" then some .notFound
  else if maxPathBytes ≤ p.text.utf8ByteSize then some .nameTooLong
  else none

/-- Where a path leads, through links. -/
@[irreducible]
def locate? (d : Disk) (p : Path) : Except FileFault Location :=
  match pathFault? p with
  | some f => .error f
  | none => d.tree.walk maxLinks (startOf d.here p) p.segments

/-- The node that a path leads to, through links. -/
def node? (d : Disk) (p : Path) : Except FileFault Node := do
  let l ← d.locate? p
  match d.tree.node? l with
  | some n => .ok n
  | none => .error .notFound

/-- The last name of a list of segments, what stands in front of it, and
whether separators follow it. -/
def splitLast (segments : List Path.Segment) : List Path.Segment × Path.Segment × Bool :=
  let back := segments.reverse.dropWhile (· == [])
  (back.tail.reverse, back.headD [], back.length < segments.length)

/-- Follows all but the last name of a list of segments. -/
def spotFrom? (t : FileTree) (start : Location) (segments : List Path.Segment) :
    Except FileFault LastName := do
  let (front, last, slash) := splitLast segments
  let l ← t.walk maxLinks start front
  if !t.isDirectory l then .error (t.obstacle l)
  else if Path.Segment.isSilent last || last == ['.', '.'] then .ok none
  else .ok (some ⟨l, String.ofList last, slash⟩)

@[irreducible]
def spot? (d : Disk) (p : Path) : Except FileFault LastName :=
  match pathFault? p with
  | some f => .error f
  | none => spotFrom? d.tree (startOf d.here p) p.segments

/-- What stands at a spot, if the name can exist at all. -/
def nodeAt? (t : FileTree) (s : Spot) : Except FileFault (Option Node) :=
  if maxNameBytes < s.name.utf8ByteSize then .error .nameTooLong
  else .ok (t.node? s.location)

end Disk

end Vendoring
