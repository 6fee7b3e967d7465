import Vendoring.Proofs.Layout

/-!
# What a unit tells

A unit is a pair of lines for each included entry, so it can be read back:
`read?` splits it at newlines, takes the name of an entry from between the
quotes of one line and the macro from the next. That this undoes the writing
(`read?_unitText`) rests on validation, which keeps newlines and quotes out of
the entries and makes the macro an identifier. So the text of a unit says
which entries it includes, in which order and with which macro
(`unit_reads_back`), and comparing texts is comparing these.
-/

namespace Vendoring

/-! ## What validation keeps out -/

/-- No character of a valid entry ends a line or a quoted name. -/
theorem Entry.harmless_of_flaw?_eq_none {e : Entry} (h : e.flaw? = none) {c : Char}
    (hc : c ∈ e.text.toList) : c ≠ '"' ∧ c ≠ '\\' ∧ isControl c = false := by
  obtain ⟨-, hbackslash, hquote, -⟩ := flaw?_eq_none_iff.mp h
  exact ⟨(hquote c hc).1, fun heq => hbackslash (heq ▸ hc), (hquote c hc).2⟩

theorem newline_not_mem_of_isIdentifier {name : String}
    (h : Manifest.isIdentifier name = true) : '\n' ∉ name.toList := by
  unfold Manifest.isIdentifier at h
  cases hname : name.toList with
  | nil => exact List.not_mem_nil
  | cons c rest =>
    rw [hname, Bool.and_eq_true, List.all_eq_true] at h
    intro hmem
    rcases List.mem_cons.mp hmem with rfl | hmem
    · exact absurd h.1 (by decide)
    · exact absurd (h.2 _ hmem) (by decide)

namespace Manifest

theorem isIdentifier_of_valid {m : Manifest} (h : m.invalid? = none) :
    isIdentifier m.aggregate.undefMacro = true := by
  simp only [invalid?, Option.orElse_eq_orElse, Option.orElse_eq_or, Option.or_eq_none_iff] at h
  obtain ⟨-, haggregate, -⟩ := h
  unfold invalidAggregate? at haggregate
  split at haggregate
  · cases haggregate
  split at haggregate
  · cases haggregate
  · next hname => simpa using hname

end Manifest

/-! ## The lines of a unit -/

namespace Aggregate

def includeLine (path : String) : String := "#include \"" ++ path ++ "\""

def undefLine (undefMacro : String) : String := "#undef " ++ undefMacro

theorem pair_eq (undefMacro path : String) :
    pair undefMacro path = includeLine path ++ "\n" ++ undefLine undefMacro ++ "\n" := by
  simp only [pair, includeLine, undefLine, String.append_assoc]
  rfl

/-- The lines of a text in which a newline ends every line. -/
def lines? (text : String) : Option (List String) :=
  let parts := text.toList.splitOn '\n'
  if parts.getLast? = some [] then some (parts.dropLast.map String.ofList) else none

/-- The lines that include `paths`, without their newlines. -/
def unitLines (undefMacro : String) (paths : List String) : List String :=
  paths.flatMap fun path => [includeLine path, undefLine undefMacro]

theorem length_unitLines (undefMacro : String) (paths : List String) :
    (unitLines undefMacro paths).length = 2 * paths.length := by
  rw [unitLines, List.length_flatMap]
  simp [List.map_const', Nat.mul_comm]

theorem splitOn_line {line : String} (h : '\n' ∉ line.toList) (rest : String) :
    (line ++ "\n" ++ rest).toList.splitOn '\n' = line.toList :: rest.toList.splitOn '\n' := by
  rw [String.toList_append, String.toList_append, List.append_assoc]
  show (line.toList ++ '\n' :: rest.toList).splitOn '\n' = _
  rw [List.splitOn_append_cons_self, List.splitOn_eq_singleton h, List.singleton_append]

/-- Neither a path nor a macro breaks its line. -/
theorem splitOn_unitText {undefMacro : String} (hundef : '\n' ∉ undefMacro.toList)
    {paths : List String} (hpaths : ∀ path ∈ paths, '\n' ∉ path.toList) :
    (unitText undefMacro paths).toList.splitOn '\n'
      = (unitLines undefMacro paths).map String.toList ++ [[]] := by
  have hundef : '\n' ∉ (undefLine undefMacro).toList := by
    rw [undefLine, String.toList_append, List.mem_append, not_or]
    exact ⟨by decide, hundef⟩
  induction paths with
  | nil => rfl
  | cons path rest ih =>
    have hinclude : '\n' ∉ (includeLine path).toList := by
      rw [includeLine, String.toList_append, String.toList_append, List.mem_append,
        List.mem_append, not_or, not_or]
      exact ⟨⟨by decide, hpaths path (List.mem_cons_self ..)⟩, by decide⟩
    have hunit : unitText undefMacro (path :: rest) = includeLine path ++ "\n"
        ++ (undefLine undefMacro ++ "\n" ++ unitText undefMacro rest) := by
      rw [unitText, List.map_cons, String.join_cons, pair_eq]
      simp only [String.append_assoc]
      rfl
    rw [hunit, splitOn_line hinclude, splitOn_line hundef,
      ih fun p hp => hpaths p (List.mem_cons_of_mem _ hp)]
    rfl

theorem lines?_unitText {undefMacro : String} (hundef : '\n' ∉ undefMacro.toList)
    {paths : List String} (hpaths : ∀ path ∈ paths, '\n' ∉ path.toList) :
    lines? (unitText undefMacro paths) = some (unitLines undefMacro paths) := by
  have hback : String.ofList ∘ String.toList = id := funext fun _ => String.ofList_toList
  unfold lines?
  simp only [splitOn_unitText hundef hpaths, List.getLast?_concat, List.dropLast_concat,
    List.map_map, hback, List.map_id, if_true]

/-! ## Reading a unit -/

/-- What follows `start` in a line that begins with it. -/
def after? (start line : String) : Option (List Char) :=
  if start.toList.isPrefixOf line.toList then some (line.toList.drop start.toList.length) else none

/-- The name between the quotes of an inclusion line: it goes from the first
quote to the next one, and the line ends there. -/
def readInclude? (line : String) : Option String := do
  let quoted ← after? "#include \"" line
  if quoted.dropWhile (· != '"') = ['"'] then
    some (String.ofList (quoted.takeWhile (· != '"')))
  else none

def readUndef? (line : String) : Option String :=
  (after? "#undef " line).map String.ofList

/-- The names of alternating lines, each with the macro that ends it. -/
def readLines? : List String → Option (List (String × String))
  | [] => some []
  | [_] => none
  | first :: second :: rest => do
    let path ← readInclude? first
    let undefMacro ← readUndef? second
    let more ← readLines? rest
    return (path, undefMacro) :: more

def read? (text : String) : Option (List (String × String)) := do
  let lines ← lines? text
  readLines? lines

theorem after?_append (start rest : String) : after? start (start ++ rest) = some rest.toList := by
  rw [after?, String.toList_append, if_pos (List.isPrefixOf_iff_prefix.mpr (List.prefix_append ..)),
    List.drop_left]

theorem readInclude?_includeLine {path : String} (h : '"' ∉ path.toList) :
    readInclude? (includeLine path) = some path := by
  have hname : ∀ c ∈ path.toList, (c != '"') = true := fun c hc =>
    bne_iff_ne.mpr fun heq => h (heq ▸ hc)
  rw [readInclude?, includeLine, String.append_assoc, after?_append, String.toList_append]
  show (if (path.toList ++ ['"']).dropWhile (· != '"') = ['"'] then
    some (String.ofList ((path.toList ++ ['"']).takeWhile (· != '"'))) else none) = _
  rw [List.dropWhile_append_of_pos hname, List.takeWhile_append_of_pos hname, if_pos (by rfl)]
  simp

theorem readUndef?_undefLine (undefMacro : String) :
    readUndef? (undefLine undefMacro) = some undefMacro := by
  rw [readUndef?, undefLine, after?_append, Option.map_some, String.ofList_toList]

theorem readLines?_unitLines (undefMacro : String) {paths : List String}
    (h : ∀ path ∈ paths, '"' ∉ path.toList) :
    readLines? (unitLines undefMacro paths) = some (paths.map fun path => (path, undefMacro)) := by
  induction paths with
  | nil => rfl
  | cons path rest ih =>
    show readLines? (includeLine path :: undefLine undefMacro :: unitLines undefMacro rest) = _
    rw [readLines?, readInclude?_includeLine (h path (List.mem_cons_self ..)),
      readUndef?_undefLine, ih fun p hp => h p (List.mem_cons_of_mem _ hp)]
    rfl

/-- Reading undoes writing. -/
theorem read?_unitText {undefMacro : String} (hundef : '\n' ∉ undefMacro.toList)
    {paths : List String} (hpaths : ∀ path ∈ paths, '\n' ∉ path.toList ∧ '"' ∉ path.toList) :
    read? (unitText undefMacro paths) = some (paths.map fun path => (path, undefMacro)) := by
  rw [read?, lines?_unitText hundef fun p hp => (hpaths p hp).1]
  exact readLines?_unitLines undefMacro fun p hp => (hpaths p hp).2

end Aggregate

/-! ## Units of valid manifests -/

namespace Manifest

/-- The entries that the unit includes. -/
def included (m : Manifest) : List Entry :=
  (Aggregate.Plan.ofEntries m.aggregate m.sources.files).included

/-- The text of the unit. -/
def unit (m : Manifest) : String :=
  (Aggregate.Plan.ofEntries m.aggregate m.sources.files).unitText m.aggregate

theorem included_harmless {m : Manifest} (hvalid : m.invalid? = none) {e : Entry}
    (he : e ∈ m.included) {c : Char} (hc : c ∈ e.text.toList) :
    c ≠ '"' ∧ c ≠ '\\' ∧ isControl c = false := by
  rw [included, Aggregate.Plan.included_ofEntries] at he
  exact Entry.harmless_of_flaw?_eq_none
    ((flaw?_of_valid hvalid).1 .sources e ((List.mem_filter.mp he).1)) hc

theorem included_newline_quote {m : Manifest} (hvalid : m.invalid? = none) :
    ∀ path ∈ m.included.map Entry.text, '\n' ∉ path.toList ∧ '"' ∉ path.toList := by
  intro path hpath
  obtain ⟨e, he, rfl⟩ := List.mem_map.mp hpath
  exact ⟨fun h => absurd (included_harmless hvalid he h).2.2 (by decide),
    fun h => (included_harmless hvalid he h).1 rfl⟩

theorem lines?_unit {m : Manifest} (hvalid : m.invalid? = none) :
    Aggregate.lines? m.unit
      = some (Aggregate.unitLines m.aggregate.undefMacro (m.included.map Entry.text)) :=
  Aggregate.lines?_unitText (newline_not_mem_of_isIdentifier (isIdentifier_of_valid hvalid))
    fun path hpath => (included_newline_quote hvalid path hpath).1

/-- What a unit is read back to: the included entries, each with the macro. -/
theorem read?_unit {m : Manifest} (hvalid : m.invalid? = none) :
    Aggregate.read? m.unit = some (m.included.map fun e => (e.text, m.aggregate.undefMacro)) := by
  rw [unit, Aggregate.Plan.unitText, ← included, Aggregate.read?_unitText
    (newline_not_mem_of_isIdentifier (isIdentifier_of_valid hvalid))
    (included_newline_quote hvalid), List.map_map]
  rfl

/-- Units with the same text include the same entries and undefine the same
macro. -/
theorem unit_eq_iff {m m' : Manifest} (hvalid : m.invalid? = none)
    (hvalid' : m'.invalid? = none) :
    m.unit = m'.unit ↔ m.included = m'.included
      ∧ (m.included ≠ [] → m.aggregate.undefMacro = m'.aggregate.undefMacro) := by
  constructor
  · intro h
    have hread := congrArg Aggregate.read? h
    rw [read?_unit hvalid, read?_unit hvalid', Option.some.injEq] at hread
    have hincluded : m.included = m'.included := by
      have htexts := congrArg (List.map fun p => Entry.mk p.1) hread
      rw [List.map_map, List.map_map] at htexts
      exact (List.map_id _).symm.trans (htexts.trans (List.map_id _))
    refine ⟨hincluded, fun hne => ?_⟩
    obtain ⟨e, rest, hcons⟩ := List.exists_cons_of_ne_nil hne
    rw [← hincluded, hcons] at hread
    exact (Prod.mk.inj (List.cons.inj hread).1).2
  · rintro ⟨hincluded, hundef⟩
    rw [unit, unit, Aggregate.Plan.unitText, Aggregate.Plan.unitText, ← included, ← included,
      ← hincluded]
    by_cases hne : m.included = []
    · rw [hne]
      rfl
    · rw [hundef hne]

end Manifest

theorem AggregateSettings.isFragment_iff {settings : AggregateSettings} {e : Entry} :
    settings.isFragment e = true
      ↔ ∃ suffix ∈ settings.fragmentSuffixes, suffix.toList <:+ e.text.toList := by
  simp only [isFragment, List.any_eq_true, List.isSuffixOf_iff_suffix]

theorem Aggregate.unitText_ofEntries (settings : AggregateSettings) (entries : List Entry) :
    (Plan.ofEntries settings entries).unitText settings
      = String.join ((entries.filter fun e =>
          decide ¬∃ suffix ∈ settings.fragmentSuffixes,
            suffix.toList <:+ e.text.toList).map fun e =>
        "#include \"" ++ e.text ++ "\"\n#undef " ++ settings.undefMacro ++ "\n") := by
  have hkept : ∀ e ∈ entries, (!settings.isFragment e)
      = decide ¬∃ suffix ∈ settings.fragmentSuffixes, suffix.toList <:+ e.text.toList := by
    intro e _
    rw [Bool.eq_iff_iff, Bool.not_eq_true', ← Bool.not_eq_true,
      AggregateSettings.isFragment_iff, decide_eq_true_iff]
  rw [Plan.unitText, Plan.included_ofEntries, unitText, List.map_map, List.filter_congr hkept]
  rfl

/-- The unit is the pairs of lines of the entries that end in no fragment
suffix, in their order and with every text as it is. If the manifest is
valid, it consists of just these lines, two for each included entry; every
line and every quoted name ends where the entry does, so that the unit can be
read back; and it is the unit of another valid manifest only if that includes
the same entries with the same macro. -/
theorem unit_reads_back (m m' : Manifest) (hvalid : m.invalid? = none)
    (hvalid' : m'.invalid? = none) :
    (∀ (settings : AggregateSettings) (entries : List Entry),
      (Aggregate.Plan.ofEntries settings entries).unitText settings
          = String.join ((entries.filter fun e =>
              decide ¬∃ suffix ∈ settings.fragmentSuffixes,
                suffix.toList <:+ e.text.toList).map fun e =>
            "#include \"" ++ e.text ++ "\"\n#undef " ++ settings.undefMacro ++ "\n")
        ∧ ((∀ e ∈ entries, ∃ suffix ∈ settings.fragmentSuffixes,
            suffix.toList <:+ e.text.toList) →
          (Aggregate.Plan.ofEntries settings entries).unitText settings = ""))
    ∧ (∃ lines, Aggregate.lines? m.unit = some lines
        ∧ lines = (m.included.flatMap fun e =>
          ["#include \"" ++ e.text ++ "\"", "#undef " ++ m.aggregate.undefMacro])
        ∧ lines.length = 2 * m.included.length)
    ∧ (∀ e ∈ m.included, ∀ c ∈ e.text.toList, c ≠ '"' ∧ c ≠ '\\' ∧ isControl c = false)
    ∧ Aggregate.read? m.unit = some (m.included.map fun e => (e.text, m.aggregate.undefMacro))
    ∧ (m.unit = m'.unit ↔ m.included = m'.included
        ∧ (m.included ≠ [] → m.aggregate.undefMacro = m'.aggregate.undefMacro)) := by
  refine ⟨fun settings entries => ⟨Aggregate.unitText_ofEntries settings entries,
      fun hfragments => ?_⟩,
    ⟨_, Manifest.lines?_unit hvalid, ?_, ?_⟩,
    fun e he c hc => Manifest.included_harmless hvalid he hc, Manifest.read?_unit hvalid,
    Manifest.unit_eq_iff hvalid hvalid'⟩
  · have hnone : (entries.filter fun e => decide ¬∃ suffix ∈ settings.fragmentSuffixes,
        suffix.toList <:+ e.text.toList) = [] :=
      List.filter_eq_nil_iff.mpr fun e he => by simpa using hfragments e he
    rw [Aggregate.unitText_ofEntries, hnone]
    rfl
  · rw [Aggregate.unitLines, List.flatMap_map]
    rfl
  · rw [Aggregate.length_unitLines, List.length_map]

/-! Entries with blanks, braces and a repetition, and the same ones with
another macro. -/

namespace Manifest

def braced : Manifest where
  aggregate := { fragmentSuffixes := [".inc", "b.h"], undefMacro := "TAG_1" }
  headers := ⟨⟨"inc"⟩, ⟨"include"⟩, []⟩
  sources := ⟨⟨"src"⟩, ⟨"lib"⟩,
    [⟨"\x7b\x7b path \x7d\x7d.cpp"⟩, ⟨"t.inc"⟩, ⟨"x/a&b.h"⟩, ⟨"x/<c>.cpp"⟩,
      ⟨"\x7b\x7b path \x7d\x7d.cpp"⟩]⟩
  tests := ⟨⟨"t"⟩, ⟨"tests"⟩, []⟩

def retagged : Manifest :=
  { braced with aggregate := { braced.aggregate with undefMacro := "TAG_2" } }

theorem braced_unit_reads_back :
    Aggregate.read? braced.unit = some [("\x7b\x7b path \x7d\x7d.cpp", "TAG_1"),
        ("x/<c>.cpp", "TAG_1"), ("\x7b\x7b path \x7d\x7d.cpp", "TAG_1")]
      ∧ braced.unit ≠ retagged.unit := by
  obtain ⟨-, -, -, hread, hiff⟩ :=
    unit_reads_back braced retagged (by decide +kernel) (by decide +kernel)
  have hincluded : braced.included = [⟨"\x7b\x7b path \x7d\x7d.cpp"⟩, ⟨"x/<c>.cpp"⟩,
      ⟨"\x7b\x7b path \x7d\x7d.cpp"⟩] := by decide +kernel
  rw [hincluded] at hread hiff
  exact ⟨hread, fun h => absurd ((hiff.mp h).2 (List.cons_ne_nil _ _)) (by decide)⟩

end Manifest

end Vendoring
