import Vendoring.Patch.Hunk
import Vendoring.Proofs.Patch.Lines

/-!
# Reading a patch

A patch is read line by line: a line with a sign belongs to the hunk of the last
header, and a remark takes back the newline of the line in front of it. What is
read is a list of hunks as they are shown, the ranges of the header with the signed
lines (`Shown`); reading undoes showing (`readPatch?_join`).
-/

namespace Vendoring.Patch

/-! ## What a hunk shows -/

/-- A range of lines as a header states it: the number of the first line, counted
from one, or for no lines the number of the line in front of them. -/
structure Range where
  start : Nat
  count : Nat
  deriving DecidableEq, Repr

namespace Range

/-- The range of `n` lines from position `i` on, counted from zero. -/
def span (i n : Nat) : Range := ⟨if n = 0 then i else i + 1, n⟩

/-- Where the range begins, counted from zero. -/
def position (r : Range) : Nat := if r.count = 0 then r.start else r.start - 1

@[simp] theorem count_span (i n : Nat) : (span i n).count = n := rfl

@[simp] theorem position_span (i n : Nat) : (span i n).position = i := by
  unfold position span
  split <;> simp_all

/-- The short form of a range leaves out that it is of one line. -/
def text (r : Range) : String :=
  if r.count = 1 then toString r.start else toString r.start ++ "," ++ toString r.count

theorem text_span (start finish : Nat) :
    (span start (finish - start)).text = rangeText start finish := by
  unfold text span rangeText
  generalize finish - start = n
  by_cases hone : n = 1
  · simp [hone]
  by_cases hzero : n = 0
  · subst hzero
    show toString start ++ "," ++ toString 0 = toString start ++ ",0"
    rw [String.append_assoc]
    rfl
  · simp [hone, hzero]

end Range

inductive Sign
  | context
  | removed
  | added
  deriving DecidableEq, Repr

def Sign.mark : Sign → Char
  | .context => ' '
  | .removed => '-'
  | .added => '+'

theorem Sign.mark_ne (s : Sign) : s.mark ≠ '\n' ∧ s.mark ≠ '\r' ∧ s.mark ≠ '\\' := by
  cases s <;> decide

structure Shown where
  old : Range
  new : Range
  body : List (Sign × Line)
  deriving DecidableEq, Repr

namespace Shown

def header (h : Shown) : Line := "@@ -" ++ h.old.text ++ " +" ++ h.new.text ++ " @@\n"

def text (h : Shown) : String :=
  h.header ++ String.join (h.body.map fun s => lineText s.1.mark.toString s.2)

end Shown

/-! ## The reader -/

def remark : Line := "\\ No newline at end of file\n"

def Line.withoutNewline (l : Line) : Line :=
  if l.toList.getLast? = some '\n' then String.ofList l.toList.dropLast else l

/-- Takes the newline back from every line that a remark follows. -/
def takeBack : List Line → List Line
  | l :: m :: rest =>
    if m = remark then l.withoutNewline :: takeBack rest else l :: takeBack (m :: rest)
  | ls => ls

def readNumber? (cs : List Char) : Option Nat :=
  if cs ≠ [] ∧ cs.all Char.isDigit then some (Nat.ofDigitChars 10 cs 0) else none

def Range.read? (cs : List Char) : Option Range :=
  match cs.splitOn ',' with
  | [start] => (readNumber? start).map (⟨·, 1⟩)
  | [start, count] => (readNumber? start).bind fun s => (readNumber? count).map (⟨s, ·⟩)
  | _ => none

def readHeader? (l : Line) : Option (Range × Range) :=
  match l.toList.splitOn ' ' with
  | [['@', '@'], '-' :: old, '+' :: new, ['@', '@', '\n']] =>
    (Range.read? old).bind fun r => (Range.read? new).map (r, ·)
  | _ => none

def readSigned? (l : Line) : Option (Sign × Line) :=
  match l.toList with
  | ' ' :: rest => some (.context, String.ofList rest)
  | '-' :: rest => some (.removed, String.ofList rest)
  | '+' :: rest => some (.added, String.ofList rest)
  | _ => none

/-- The hunks of the lines, behind the signed lines in front of the first header. -/
def readFrom? : List Line → Option (List (Sign × Line) × List Shown)
  | [] => some ([], [])
  | l :: rest =>
    (readFrom? rest).bind fun (body, hunks) =>
      match readSigned? l with
      | some s => some (s :: body, hunks)
      | none => (readHeader? l).map fun (old, new) => ([], ⟨old, new, body⟩ :: hunks)

/-- The hunks of a patch, without the lines that name the two sides. -/
def readPatch? (text : String) : Option (List Shown) :=
  match readFrom? (takeBack (linesOf text)) with
  | some ([], hunks) => some hunks
  | _ => none

/-! ## Numbers and ranges -/

theorem readNumber?_toString (n : Nat) : readNumber? (toString n).toList = some n := by
  rw [Nat.toString_eq_repr, Nat.toList_repr, readNumber?, if_pos, Nat.ofDigitChars_toDigits]
  · decide
  · decide
  · refine ⟨Nat.toDigits_ne_nil, List.all_eq_true.mpr fun c hc => ?_⟩
    exact Nat.isDigit_of_mem_toDigits (by decide) (by decide) hc

theorem isDigit_of_mem_toString {n : Nat} {c : Char} (h : c ∈ (toString n).toList) :
    c.isDigit = true := by
  rw [Nat.toString_eq_repr, Nat.toList_repr] at h
  exact Nat.isDigit_of_mem_toDigits (by decide) (by decide) h

theorem not_mem_toString {n : Nat} {c : Char} (h : c.isDigit = false) :
    c ∉ (toString n).toList := by
  intro hmem
  rw [isDigit_of_mem_toString hmem] at h
  cases h

namespace Range

theorem not_mem_text {r : Range} {c : Char} (hdigit : c.isDigit = false) (hcomma : c ≠ ',') :
    c ∉ r.text.toList := by
  unfold text
  split
  · exact not_mem_toString hdigit
  · simp only [String.toList_append, List.mem_append, not_or]
    exact ⟨⟨not_mem_toString hdigit, by simpa using hcomma⟩, not_mem_toString hdigit⟩

theorem read?_text (r : Range) : read? r.text.toList = some r := by
  obtain ⟨start, count⟩ := r
  have hstart : ',' ∉ (toString start).toList := not_mem_toString (by decide)
  have hcount : ',' ∉ (toString count).toList := not_mem_toString (by decide)
  unfold read? text
  by_cases hone : count = 1
  · simp only [hone, if_true]
    rw [List.splitOn_eq_singleton hstart]
    simp only
    rw [readNumber?_toString]
    rfl
  · simp only [hone, if_false, String.toList_append, List.append_assoc]
    show (match ((toString start).toList ++ ',' :: (toString count).toList).splitOn ',' with
      | [start] => _ | [start, count] => _ | _ => none) = _
    rw [List.splitOn_append_cons_self, List.splitOn_eq_singleton hstart,
      List.splitOn_eq_singleton hcount]
    simp only [List.singleton_append]
    rw [readNumber?_toString, readNumber?_toString]
    rfl

end Range

/-! ## Lines of a hunk -/

theorem Shown.toList_header (h : Shown) : h.header.toList =
    ['@', '@'] ++ ' ' :: ('-' :: h.old.text.toList ++ ' ' :: ('+' :: h.new.text.toList
      ++ ' ' :: ['@', '@', '\n'])) := by
  simp [header]

theorem readHeader?_header (h : Shown) : readHeader? h.header = some (h.old, h.new) := by
  have hblank (r : Range) : ' ' ∉ r.text.toList := Range.not_mem_text (by decide) (by decide)
  have hold : ' ' ∉ '-' :: h.old.text.toList :=
    List.not_mem_cons_of_ne_of_not_mem (by decide) (hblank h.old)
  have hnew : ' ' ∉ '+' :: h.new.text.toList :=
    List.not_mem_cons_of_ne_of_not_mem (by decide) (hblank h.new)
  rw [readHeader?, h.toList_header, List.splitOn_append_cons_self, List.splitOn_append_cons_self,
    List.splitOn_append_cons_self, List.splitOn_eq_singleton hold,
    List.splitOn_eq_singleton hnew]
  show ((Range.read? h.old.text.toList).bind fun r => (Range.read? h.new.text.toList).map (r, ·))
    = _
  rw [Range.read?_text, Range.read?_text]
  rfl

/-- A signed line as a patch shows it. -/
def signed (s : Sign × Line) : Line := s.1.mark.toString ++ s.2

theorem toList_signed (s : Sign × Line) : (signed s).toList = s.1.mark :: s.2.toList := by
  simp [signed]

theorem readSigned?_signed (s : Sign × Line) : readSigned? (signed s) = some s := by
  obtain ⟨sign, l⟩ := s
  unfold readSigned?
  rw [toList_signed]
  cases sign <;> simp [Sign.mark]

theorem readSigned?_header (h : Shown) : readSigned? h.header = none := by
  unfold readSigned?
  rw [h.toList_header]
  rfl

/-- The lines that show a signed line. -/
def signedLines (s : Sign × Line) : List Line :=
  if s.2.isComplete then [signed s] else [signed s ++ "\n", remark]

theorem join_signedLines (s : Sign × Line) :
    String.join (signedLines s) = lineText s.1.mark.toString s.2 := by
  unfold signedLines lineText signed
  split
  · simp
  · simp only [String.join_cons, String.join_nil, remark, String.append_assoc, String.append_empty]
    rfl

namespace Shown

def lines (h : Shown) : List Line := h.header :: h.body.flatMap signedLines

theorem join_lines (h : Shown) : String.join h.lines = h.text := by
  rw [lines, String.join_cons, text]
  refine congrArg (h.header ++ ·) ?_
  induction h.body with
  | nil => rfl
  | cons s body ih =>
    rw [List.flatMap_cons, String.join_append, ih, join_signedLines, List.map_cons,
      String.join_cons]

end Shown

theorem join_texts (hs : List Shown) :
    String.join (hs.map Shown.text) = String.join (hs.flatMap Shown.lines) := by
  induction hs with
  | nil => rfl
  | cons h hs ih =>
    rw [List.map_cons, String.join_cons, ih, List.flatMap_cons, String.join_append, h.join_lines]

/-! ## Lines that splitting finds again -/

/-- A line that ends in a break and does not start with a line feed. -/
def Line.Found (l : Line) : Prop := l.Ended ∧ l.toList.head? ≠ some '\n'

theorem found_header (h : Shown) : h.header.Found := by
  have hfeed (r : Range) : '\n' ∉ r.text.toList := Range.not_mem_text (by decide) (by decide)
  have hcarriage (r : Range) : '\r' ∉ r.text.toList := Range.not_mem_text (by decide) (by decide)
  have hheader : h.header.toList = (['@', '@', ' ', '-'] ++ h.old.text.toList ++ [' ', '+']
      ++ h.new.text.toList ++ [' ', '@', '@']) ++ ['\n'] := by
    simp [h.toList_header]
  refine ⟨⟨_, ['\n'], hheader, ⟨?_, ?_⟩, .feed⟩, ?_⟩
  · simp [hfeed]
  · simp [hcarriage]
  · simp [hheader]

theorem found_of_mem_signedLines {s : Sign × Line} (h : s.2.Ended ∨ s.2.Unended) {l : Line}
    (hl : l ∈ signedLines s) : l.Found := by
  obtain ⟨hfeed, hcarriage, -⟩ := s.1.mark_ne
  have hmark (cs : List Char) (hcs : Unbroken cs) : Unbroken (s.1.mark :: cs) :=
    unbroken_cons_iff.mpr ⟨⟨hfeed, hcarriage⟩, hcs⟩
  have hhead (cs : List Char) : (s.1.mark :: cs).head? ≠ some '\n' :=
    fun heq => hfeed (Option.some.inj heq)
  unfold signedLines at hl
  rcases h with h | h
  · rw [if_pos (Line.isComplete_of_ended h), List.mem_singleton] at hl
    obtain ⟨content, brk, hcontent, hunbroken, hbrk⟩ := h
    rw [hl, Line.Found, Line.Ended, toList_signed, hcontent]
    exact ⟨⟨s.1.mark :: content, brk, rfl, hmark content hunbroken, hbrk⟩, hhead _⟩
  · rw [if_neg (by simp [Line.not_isComplete_of_unended h])] at hl
    rcases List.mem_cons.mp hl with rfl | hl
    · rw [Line.Found, Line.Ended, String.toList_append, toList_signed]
      exact ⟨⟨s.1.mark :: s.2.toList, ['\n'], rfl, hmark _ h.2, .feed⟩, hhead _⟩
    · rw [List.mem_singleton.mp hl]
      refine ⟨⟨remark.toList.dropLast, ['\n'], by decide, ⟨by decide, by decide⟩, .feed⟩, ?_⟩
      decide

/-- The lines of the sides are as splitting leaves them. -/
def Shown.Lawful (h : Shown) : Prop := ∀ s ∈ h.body, s.2.Ended ∨ s.2.Unended

theorem linesOf_join_lines {hs : List Shown} (h : ∀ x ∈ hs, x.Lawful) :
    linesOf (String.join (hs.flatMap Shown.lines)) = hs.flatMap Shown.lines := by
  have hfound : ∀ l ∈ hs.flatMap Shown.lines, l.Found := by
    intro l hl
    obtain ⟨x, hx, hl⟩ := List.mem_flatMap.mp hl
    rcases List.mem_cons.mp hl with rfl | hl
    · exact found_header x
    · obtain ⟨s, hs, hl⟩ := List.mem_flatMap.mp hl
      exact found_of_mem_signedLines (h x hx s hs) hl
  exact linesOf_join (fun l hl => (hfound l hl).1) fun l hl => (hfound l hl).2

/-! ## Reading back -/

theorem takeBack_cons {rest : List Line} (h : rest.head? ≠ some remark) (l : Line) :
    takeBack (l :: rest) = l :: takeBack rest := by
  cases rest with
  | nil => rfl
  | cons m rest => rw [takeBack, if_neg fun heq => h (congrArg some heq)]

theorem withoutNewline_append (l : Line) : Line.withoutNewline (l ++ "\n") = l := by
  have hl : (l ++ "\n").toList = l.toList ++ ['\n'] := String.toList_append
  rw [Line.withoutNewline, hl, if_pos List.getLast?_concat, List.dropLast_concat,
    String.ofList_toList]

theorem signed_ne_remark (s : Sign × Line) (rest : String) : signed s ++ rest ≠ remark := by
  intro h
  have hhead := congrArg (fun l : Line => l.toList.head?) h
  simp only [String.toList_append, toList_signed, List.cons_append, List.head?_cons] at hhead
  exact s.1.mark_ne.2.2 (Option.some.inj hhead)

theorem head?_signedLines_append (s : Sign × Line) (rest : List Line) :
    (signedLines s ++ rest).head? ≠ some remark := by
  intro h
  unfold signedLines at h
  split at h
  · have hsigned := signed_ne_remark s ""
    rw [String.append_empty] at hsigned
    exact hsigned (Option.some.inj h)
  · exact signed_ne_remark s "\n" (Option.some.inj h)

theorem takeBack_signedLines_append {rest : List Line} (h : rest.head? ≠ some remark)
    (s : Sign × Line) : takeBack (signedLines s ++ rest) = signed s :: takeBack rest := by
  unfold signedLines
  split
  · exact takeBack_cons h (signed s)
  · show takeBack ((signed s ++ "\n") :: remark :: rest) = _
    rw [takeBack, if_pos rfl, withoutNewline_append]

theorem takeBack_body_append {rest : List Line} (h : rest.head? ≠ some remark)
    (body : List (Sign × Line)) :
    takeBack (body.flatMap signedLines ++ rest) = body.map signed ++ takeBack rest
      ∧ (body.flatMap signedLines ++ rest).head? ≠ some remark := by
  induction body with
  | nil => exact ⟨rfl, h⟩
  | cons s body ih =>
    rw [List.flatMap_cons, List.append_assoc, takeBack_signedLines_append ih.2, ih.1]
    exact ⟨rfl, head?_signedLines_append s _⟩

theorem header_ne_remark (h : Shown) : h.header ≠ remark := by
  intro heq
  have hhead := congrArg (fun l : Line => l.toList.head?) heq
  simp only [Shown.toList_header] at hhead
  exact absurd (Option.some.inj hhead) (show '@' ≠ '\\' by decide)

theorem takeBack_lines (hs : List Shown) :
    takeBack (hs.flatMap Shown.lines) = hs.flatMap fun h => h.header :: h.body.map signed := by
  induction hs with
  | nil => rfl
  | cons h hs ih =>
    have hrest : (hs.flatMap Shown.lines).head? ≠ some remark := by
      cases hs with
      | nil => exact nofun
      | cons h' hs => exact fun heq => header_ne_remark h' (Option.some.inj heq)
    obtain ⟨hbody, hhead⟩ := takeBack_body_append hrest h.body
    rw [List.flatMap_cons, List.flatMap_cons, Shown.lines, List.cons_append,
      takeBack_cons hhead, hbody, ih]
    rfl

theorem readFrom?_body_append {rest : List Line} {hs : List Shown}
    (h : readFrom? rest = some ([], hs)) (body : List (Sign × Line)) :
    readFrom? (body.map signed ++ rest) = some (body, hs) := by
  induction body with
  | nil => exact h
  | cons s body ih =>
    rw [List.map_cons, List.cons_append, readFrom?, ih]
    show (match readSigned? (signed s) with | some s => _ | none => _) = _
    rw [readSigned?_signed]

theorem readFrom?_lines (hs : List Shown) :
    readFrom? (hs.flatMap fun h => h.header :: h.body.map signed) = some ([], hs) := by
  induction hs with
  | nil => rfl
  | cons h hs ih =>
    rw [List.flatMap_cons, List.cons_append, readFrom?, readFrom?_body_append ih]
    show (match readSigned? h.header with | some s => _ | none => _) = _
    rw [readSigned?_header, readHeader?_header]
    rfl

/-- Reading undoes showing. -/
theorem readPatch?_join {hs : List Shown} (h : ∀ x ∈ hs, x.Lawful) :
    readPatch? (String.join (hs.map Shown.text)) = some hs := by
  rw [readPatch?, join_texts, linesOf_join_lines h, takeBack_lines, readFrom?_lines]

end Vendoring.Patch
