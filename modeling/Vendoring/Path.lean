/-!
# Paths

A path is a text that keeps its spelling: what is shown to a user is what
was written. What a path *means* is read off its components, so repeated
separators, inner `.` segments and trailing separators do not matter for
equality, order, containment and the step to the parent.

The operations work on the list of segments between separators. A segment
is *silent* when it contributes no component: an empty segment, or a `.`
that does not open a relative path.
-/

namespace Vendoring

structure Path where
  text : String
  deriving DecidableEq, Repr, Inhabited

/-- One step of a path: the root of all paths, a leading `.`, a `..`, or
the name of a member. -/
inductive Component
  | root
  | here
  | up
  | name (text : String)
  deriving DecidableEq, Repr

namespace Component

def text : Component → String
  | .root => "/"
  | .here => "."
  | .up => ".."
  | .name s => s

/-- Position of the four kinds in the order of components. -/
def rank : Component → Nat
  | .root => 0
  | .here => 1
  | .up => 2
  | .name _ => 3

/-- Components are ordered by kind, names among themselves by their
characters. -/
def compare : Component → Component → Ordering
  | .name a, .name b => Ord.compare a b
  | a, b => Ord.compare a.rank b.rank

end Component

namespace Path

/-- A segment between two separators. -/
abbrev Segment := List Char

def Segment.isSilent (s : Segment) : Bool :=
  s == [] || s == ['.']

/-- The component that a segment contributes, wherever it stands after the
first segment of a relative path. -/
def Segment.component? (s : Segment) : Option Component :=
  if s.isSilent then none
  else if s == ['.', '.'] then some .up
  else some (.name (String.ofList s))

def isAbsolute (p : Path) : Bool :=
  p.text.toList.head? == some '/'

def segments (p : Path) : List Segment :=
  p.text.toList.splitOn '/'

/-- The segments of a path, with the opening segment of a relative path
kept apart. An absolute path has none, and all its segments follow the
root. -/
def headAndBody (p : Path) : Option Segment × List Segment :=
  match p.isAbsolute, p.segments with
  | true, _ :: body => (none, body)
  | false, head :: body => (some head, body)
  | _, [] => (none, [])

/-- What the opening segment of a relative path contributes. -/
def headComponent? (head : Segment) : Option Component :=
  if head == ['.'] then some .here else head.component?

def components (p : Path) : List Component :=
  match p.headAndBody with
  | (none, body) => .root :: body.filterMap Segment.component?
  | (some head, body) =>
    (headComponent? head).toList ++ body.filterMap Segment.component?

/-- Two spellings of one path. -/
def Same (p q : Path) : Prop :=
  p.components = q.components

instance (p q : Path) : Decidable (p.Same q) :=
  inferInstanceAs (Decidable (_ = _))

/-- Lexicographic order of the components. -/
def compareComponents : List Component → List Component → Ordering
  | [], [] => .eq
  | [], _ :: _ => .lt
  | _ :: _, [] => .gt
  | a :: as, b :: bs => (a.compare b).then (compareComponents as bs)

def compare (p q : Path) : Ordering :=
  compareComponents p.components q.components

def startsWith (p base : Path) : Bool :=
  base.components.isPrefixOf p.components

/-! ## Building paths -/

/-- An absolute right side replaces the left one; otherwise exactly one
separator is put between two texts unless the left one is empty or brings
its own. -/
def join (p q : Path) : Path :=
  if q.isAbsolute then q
  else if p.text.toList.getLast?.all (· == '/') then ⟨p.text ++ q.text⟩
  else ⟨p.text ++ "/" ++ q.text⟩

def ofSegments (head : Option Segment) (body : List Segment) : Path :=
  match head with
  | none => ⟨String.ofList ('/' :: ['/'].intercalate body)⟩
  | some head => ⟨String.ofList (['/'].intercalate (head :: body))⟩

/-! ## Taking paths apart -/

def dropSilentEnd (body : List Segment) : List Segment :=
  (body.reverse.dropWhile Segment.isSilent).reverse

/-- The path without its last component, spelled as the beginning of the
path. The root and the empty path have no parent. -/
def parent? (p : Path) : Option Path :=
  match p.headAndBody with
  | (head, body) =>
    match dropSilentEnd body with
    | [] =>
      match head with
      | none => none
      | some [] => none
      | some _ => some ⟨""⟩
    | s :: rest => some (ofSegments head (dropSilentEnd (s :: rest).dropLast))

/-- The last component, when it is a name. -/
def fileName? (p : Path) : Option String :=
  match p.components.getLast? with
  | some (.name s) => some s
  | _ => none

/-- Puts `name` in the place of the last component if that is a name, and
behind it otherwise. -/
def withFileName (p : Path) (name : String) : Path :=
  let base := if p.fileName?.isSome then p.parent?.getD p else p
  base.join ⟨name⟩

/-- The path beside `p` whose name is that of `p` followed by `suffix`. -/
def sibling (p : Path) (suffix : String) : Path :=
  p.withFileName (p.fileName?.getD "" ++ suffix)

/-- Removes the first `n` segments that are not silent, and everything
before them. -/
def dropSpoken : Nat → List Segment → List Segment
  | 0, body => body
  | _ + 1, [] => []
  | n + 1, s :: body => if s.isSilent then dropSpoken (n + 1) body else dropSpoken n body

/-- The body that is left once `n + 1` components are taken off the front. -/
def bodyAfter (p : Path) (n : Nat) : List Segment :=
  match p.headAndBody with
  | (none, body) => dropSpoken n body
  | (some head, body) =>
    if head == [] then dropSpoken (n + 1) body else dropSpoken n body

/-- What follows `base` in `p`, spelled as in `p`. -/
def stripBase? (p base : Path) : Option Path :=
  if p.startsWith base then
    match base.components.length with
    | 0 =>
      match p.headAndBody with
      | (head, body) => some (ofSegments head (dropSilentEnd body))
    | n + 1 =>
      match dropSilentEnd ((p.bodyAfter n).dropWhile Segment.isSilent) with
      | [] => some ⟨""⟩
      | s :: rest => some (ofSegments (some s) rest)
  else none

end Path

end Vendoring
