import Vendoring.Proofs.Yaml.Reading
import Vendoring.Proofs.Yaml.Styles
import Vendoring.Yaml.Written

/-!
# The tokens of mappings, lists and scalars

One lemma for each thing that a manifest is made of: a name with its colon
(`Reaches.takeName`), the dash of a list (`Reaches.takeDash`), a written scalar
(`Awaits.takeScalar`), an empty list (`Awaits.takeEmptyList`) and the end of
the text (`Reaches.takeEnd`). Each says which tokens are taken and what comes next.
-/

namespace Vendoring.Yaml.Reading

variable {r : Reading}

/-! ## Which token is taken -/

theorem indicator_cases {c : Char} (h : isIndicator c = true) (hreserved : isReserved c = false) :
    c = '-' ∨ c = '?' ∨ c = ':' := by
  simp [isIndicator] at h
  simp [isReserved] at hreserved
  tauto

section Dispatch

variable {c : Char} {rest : List Char}

theorem peekAt_one (htext : r.cursor.rest = c :: rest) : r.cursor.peekAt 1 = rest.head? := by
  rw [Cursor.peekAt, htext, List.getElem?_cons_succ, ← List.head?_eq_getElem?]

/-- What opens nothing else may open a plain scalar, punctuation included. -/
theorem startsPlain_of_not_opens (hflow : r.inFlow = false) {next : Option Char}
    (hopens : opensStructure c next = false) (hblank : isBlank c = false)
    (hbreak : isBreak c = false) : r.startsPlain c next = true := by
  rw [opensStructure, Bool.or_eq_false_iff] at hopens
  obtain ⟨hreserved, hword⟩ := hopens
  rw [startsPlain, hflow, hblank, hbreak]
  cases hindicator : isIndicator c with
  | false => rfl
  | true =>
    have hends : endsWord next = false := by
      rcases indicator_cases hindicator hreserved with rfl | rfl | rfl <;> exact hword
    have hgap : next.any isBlank = false := by
      cases next with
      | none => rfl
      | some d => exact (Bool.or_eq_false_iff.mp hends).1
    rcases indicator_cases hindicator hreserved with rfl | rfl | rfl <;> rw [hgap, hends] <;> rfl

variable (hle : r.indent ≤ r.column)

include hle

theorem takeHere_end (htext : r.cursor.rest = []) : r.takeHere = r.takeEnd := by
  rw [takeHere, dedent_self hle]
  simp only [Cursor.peek, htext, List.head?_nil]

/-- A character that opens nothing else opens a plain scalar. -/
theorem takeHere_plain (hflow : r.inFlow = false) (htext : r.cursor.rest = c :: rest)
    (hopens : opensStructure c rest.head? = false) (hblank : isBlank c = false)
    (hbreak : isBreak c = false) (hdocument : r.cursor.atDocumentIndicator = false) :
    r.takeHere = r.takePlainScalar := by
  have hstarts := startsPlain_of_not_opens hflow hopens hblank hbreak
  have hnext := peekAt_one htext
  rw [opensStructure, Bool.or_eq_false_iff] at hopens
  obtain ⟨hreserved, hword⟩ := hopens
  rw [Cursor.atDocumentIndicator, Bool.or_eq_false_iff] at hdocument
  have hne {d : Char} (hd : isReserved d = true) : (c == d) = false := by
    refine beq_false_of_ne ?_
    rintro rfl
    rw [hd] at hreserved
    cases hreserved
  have hword' {d : Char} (hd : (d == '?' || d == ':' || d == '-') = true) :
      (c == d && endsWord rest.head?) = false := by
    cases hc : c == d with
    | false => rfl
    | true =>
      rw [beq_iff_eq.mp hc, hd, Bool.true_and] at hword
      rw [Bool.true_and, hword]
  rw [takeHere, dedent_self hle]
  simp only [Cursor.peek, htext, List.head?_cons, hnext, hdocument.1, hdocument.2, hflow,
    hne (by decide : isReserved '%' = true), hne (by decide : isReserved '[' = true),
    hne (by decide : isReserved '{' = true), hne (by decide : isReserved ']' = true),
    hne (by decide : isReserved '}' = true), hne (by decide : isReserved ',' = true),
    hne (by decide : isReserved '*' = true), hne (by decide : isReserved '&' = true),
    hne (by decide : isReserved '!' = true), hne (by decide : isReserved '|' = true),
    hne (by decide : isReserved '>' = true), hne (by decide : isReserved '\x27' = true),
    hne (by decide : isReserved '"' = true),
    hword' (by decide : ('-' == '?' || '-' == ':' || '-' == '-') = true),
    hword' (by decide : ('?' == '?' || '?' == ':' || '?' == '-') = true),
    hword' (by decide : (':' == '?' || ':' == ':' || ':' == '-') = true), hstarts, Bool.and_false,
    Bool.false_and, Bool.false_or, Bool.false_eq_true, if_false, if_true]

omit hle

/-- A dash that is no line between two documents. -/
theorem takeHere_dash (hle : r.indent ≤ r.column) (hcolumn : 0 < r.cursor.mark.column)
    (htext : r.cursor.rest = '-' :: rest) (hrest : endsWord rest.head? = true) :
    r.takeHere = r.takeBlockEntry := by
  have hnext := peekAt_one htext
  rw [takeHere, dedent_self hle]
  simp [Cursor.peek, htext, hnext, hrest, Cursor.atTriple, hcolumn.ne']

variable (hle : r.indent ≤ r.column)

include hle

theorem takeHere_colon (htext : r.cursor.rest = ':' :: rest) (hrest : endsWord rest.head? = true) :
    r.takeHere = r.takeValue := by
  have hnext := peekAt_one htext
  rw [takeHere, dedent_self hle]
  simp [Cursor.peek, htext, hnext, hrest, Cursor.atTriple]

theorem takeHere_open (htext : r.cursor.rest = '[' :: rest) :
    r.takeHere = r.openFlow .flowSequenceStart := by
  rw [takeHere, dedent_self hle]
  simp [Cursor.peek, htext, Cursor.atTriple]

theorem takeHere_close (htext : r.cursor.rest = ']' :: rest) :
    r.takeHere = r.closeFlow .flowSequenceEnd := by
  rw [takeHere, dedent_self hle]
  simp [Cursor.peek, htext, Cursor.atTriple]

theorem takeHere_literal (hflow : r.inFlow = false) (htext : r.cursor.rest = '|' :: rest) :
    r.takeHere = r.takeBlockScalar false := by
  rw [takeHere, dedent_self hle]
  simp [Cursor.peek, htext, Cursor.atTriple, hflow]

theorem takeHere_singleQuoted (htext : r.cursor.rest = '\x27' :: rest) :
    r.takeHere = r.takeProperty (quotedScalar · true) := by
  rw [takeHere, dedent_self hle]
  simp [Cursor.peek, htext, Cursor.atTriple]

theorem takeHere_doubleQuoted (htext : r.cursor.rest = '"' :: rest) :
    r.takeHere = r.takeProperty (quotedScalar · false) := by
  rw [takeHere, dedent_self hle]
  simp [Cursor.peek, htext, Cursor.atTriple]

end Dispatch

/-! ## Possible keys -/

theorem inFlow_none (h : r.keys = [none]) : r.inFlow = false := by
  rw [inFlow, h]
  rfl

theorem dropKey_none {outer : List (Option PossibleKey)} (h : r.keys = none :: outer) :
    r.dropKey = .ok r := by
  rw [dropKey, h]

theorem noteKey_allowed (h : r.keys = [none]) (hallowed : r.keyAllowed = true) :
    r.noteKey = .ok { r with
      keys := [some ⟨r.indent == r.column, r.tokens.length, r.cursor.mark⟩] } := by
  rw [noteKey, if_pos hallowed, dropKey_none h]
  simp [bind, Except.bind, pure, Except.pure, inFlow_none h, h]

theorem noteKey_refused (hallowed : r.keyAllowed = false) : r.noteKey = .ok r := by
  rw [noteKey, hallowed]
  rfl

/-- Inside a line, a key that is noted need not become one. -/
theorem noteKey_harmless (h : r.keys = [none]) (hinside : r.indent < r.column) :
    ∃ keys, r.noteKey = .ok { r with keys := keys } ∧ Harmless keys r.cursor.mark.line := by
  by_cases hallowed : r.keyAllowed = true
  · exact ⟨_, noteKey_allowed h hallowed,
      Or.inr ⟨_, rfl, beq_false_of_ne hinside.ne, Nat.le_refl _⟩⟩
  · exact ⟨r.keys, noteKey_refused (eq_false_of_ne_true hallowed), Or.inl h⟩

/-! ## Names -/

/-- Behind a colon or a dash the reading waits for a value, in a place that is
indented deeper than the block. -/
structure Awaits (r : Reading) (text : List Char) (indents : List Int)
    (kinds : List Token.Kind) : Prop where
  text : r.cursor.rest = text
  indents : r.indents = indents
  kinds : r.kinds = kinds
  keys : r.keys = [none]
  deeper : r.indent < r.column

/-- The blocks that are open behind a name at `column`. -/
def opened (column : Nat) (indents : List Int) : List Int :=
  if (column : Int) ≤ indents.headD 0 then indents else column :: indents

/-- The token in front of a name that opens a block. -/
def opening (column : Nat) (indents : List Int) : List Token.Kind :=
  if (column : Int) ≤ indents.headD 0 then [] else [.blockMappingStart]

/-- Behind a name that may become a key. -/
structure AwaitsColon (r : Reading) (rest : List Char) (column : Nat) (indents : List Int)
    (before : List Token.Kind) (name : List Char) : Prop where
  text : r.cursor.rest = ':' :: rest
  indents : r.indents = indents
  kinds : r.kinds = before ++ [.scalar name .plain]
  key : ∃ k : PossibleKey, r.keys = [some k] ∧ k.tokenNumber = before.length
    ∧ k.mark.column = column ∧ PossibleKey.isStale k r.cursor.mark = false
  deeper : max r.indent column ≤ r.column

@[simp] theorem kinds_allowKey (allowed : Bool) : (r.allowKey allowed).kinds = r.kinds := rfl

@[simp] theorem kinds_takeMark (n : Nat) (kind : Token.Kind) :
    (r.takeMark n kind).kinds = r.kinds ++ [kind] :=
  r.kinds_push ⟨kind, r.cursor.mark, (r.cursor.skipMany n).mark⟩

theorem cursor_takeMark {c : Char} {rest : List Char} (htext : r.cursor.rest = c :: rest)
    (kind : Token.Kind) : (r.takeMark 1 kind).cursor = ⟨rest, r.cursor.mark.forward 1⟩ := by
  have hcursor : r.cursor = ⟨c :: rest, r.cursor.mark⟩ := by rw [← htext]
  rw [takeMark, hcursor]
  rfl

theorem kinds_insert (number : Nat) (t : Token) :
    (r.insert number t).kinds = r.kinds.take number ++ t.kind :: r.kinds.drop number := by
  simp [kinds, insert, ← List.map_take, ← List.map_drop, List.take_reverse, List.drop_reverse]

/-- The token of a block goes in front of token `number`, if it opens one. -/
theorem openBlock_spec (hflow : r.inFlow = false) (column number : Nat) (m : Mark) :
    ∃ r', r.openBlock column (some number) .blockMappingStart m = r'
      ∧ r'.kinds = r.kinds.take number ++ opening column r.indents ++ r.kinds.drop number
      ∧ r'.indents = opened column r.indents ∧ r'.indent = max r.indent column
      ∧ r'.keys = r.keys ∧ r'.cursor = r.cursor := by
  refine ⟨_, rfl, ?_⟩
  have hhead : r.indents.headD 0 = r.indent := rfl
  rw [openBlock, hflow, Bool.false_or, opening, opened, hhead]
  by_cases hle : (column : Int) ≤ r.indent
  · simp [hle]
  · have hlt := Int.not_le.mp hle
    have hkinds := kinds_insert
      (r := { r with indent := (column : Int), outerIndents := r.indent :: r.outerIndents }) number
      (mark .blockMappingStart m)
    have hmax : (column : Int) = max r.indent column := (max_eq_right hlt.le).symm
    simp only [if_neg hle, decide_eq_false hle, Bool.false_eq_true, if_false]
    refine ⟨?_, rfl, hmax, rfl, rfl⟩
    rw [hkinds, List.append_assoc]
    rfl

/-- The colon makes a possible key one: its token goes in front of the scalar,
behind the token of the block if it opens one. -/
theorem AwaitsColon.takeValue {rest name : List Char} {column : Nat} {indents : List Int}
    {before : List Token.Kind} (h : r.AwaitsColon rest column indents before name)
    (hrest : endsWord rest.head? = true) :
    ∃ r', r.takeToken = .ok r' ∧ r'.Awaits rest (opened column indents)
        (before ++ opening column indents ++ [.key, .scalar name .plain, .value])
      ∧ r'.keyAllowed = false := by
  obtain ⟨k, hkeys, hnumber, hcolumn, hfresh⟩ := h.key
  have hbegins : Begins (':' :: rest) := by
    intro c hc
    obtain rfl : ':' = c := Option.some.inj hc
    decide
  have htake : r.takeToken = r.takeValue := by
    rw [takeToken, arrive_here hbegins h.text, dropStale_fresh hkeys hfresh]
    exact takeHere_colon (le_of_max_le_left h.deeper) h.text hrest
  let r₁ : Reading := { r with keys := [none] }
  have hkeyed : (r₁.insert k.tokenNumber (mark .key k.mark)).kinds
      = before ++ [.key, .scalar name .plain] := by
    have hkinds₁ : r₁.kinds = before ++ [.scalar name .plain] := h.kinds
    rw [kinds_insert, hkinds₁, hnumber, List.take_left, List.drop_left]
    rfl
  obtain ⟨r₂, hopen, hkinds, hindents, hindent, hkeys₂, hcursor⟩ :=
    openBlock_spec (r := r₁.insert k.tokenNumber (mark .key k.mark)) rfl column k.tokenNumber
      k.mark
  refine ⟨(r₂.allowKey false).takeMark 1 .value, ?_, ?_, rfl⟩
  · rw [htake, Reading.takeValue, hkeys]
    simp only
    rw [← hopen, hcolumn]
  · have htext₂ : (r₂.allowKey false).cursor.rest = ':' :: rest := by
      rw [allowKey, hcursor]
      exact h.text
    have hcursor₃ := cursor_takeMark htext₂ .value
    refine ⟨by rw [hcursor₃], ?_, ?_, ?_, ?_⟩
    · rw [← h.indents]
      exact hindents
    · have hindents₁ : (r₁.insert k.tokenNumber (mark .key k.mark)).indents = indents := h.indents
      rw [kinds_takeMark, kinds_allowKey, hkinds, hkeyed, hindents₁, hnumber, List.take_left,
        List.drop_left, List.append_assoc _ [_, _]]
      rfl
    · exact hkeys₂
    · have hdeep : r₂.indent ≤ r.column := hindent.le.trans h.deeper
      rw [Reading.column, hcursor₃]
      have hcolumn₃ :
          (((r₂.allowKey false).cursor.mark.forward 1).column : Int) = r.column + 1 := by
        rw [allowKey, hcursor, Mark.forward_column, Nat.cast_add]
        rfl
      rw [hcolumn₃]
      exact Int.lt_add_one_of_le hdeep

theorem opensStructure_of_letter {c : Char} (hc : (c.isAlpha || c == '_') = true)
    (next : Option Char) : opensStructure c next = false := by
  have hne {d : Char} (hd : (d.isAlpha || d == '_') = false) : (c == d) = false :=
    beq_false_of_ne (ne_of_letter hc hd)
  have hreserved : isReserved c = false := by
    have hletters : "#,[]\x7b\x7d&*!|>\x27\"%@\x60".toList.all
        (fun d => !(d.isAlpha || d == '_')) = true := by
      decide
    refine List.contains_eq_any_beq.trans (List.any_eq_false.mpr fun d hd => ?_)
    have hother := List.all_eq_true.mp hletters d hd
    rw [Bool.not_eq_true'] at hother
    rw [hne hother]
    exact Bool.false_ne_true
  rw [opensStructure, hreserved, hne (by decide), hne (by decide), hne (by decide)]
  rfl

section Name

variable {name rest : List Char} (hname : IsName name) (hlength : name.length ≤ 1024)
  (hrest : endsWord rest.head? = true)

include hname hlength hrest

/-- The name itself is taken as a scalar, and may become a key. -/
theorem takeHere_name {column : Nat} {indents : List Int} {before : List Token.Kind}
    (hat : r.At (name ++ ':' :: rest) column indents before) (hkeys : r.keys = [none])
    (hallowed : r.keyAllowed = true) (hle : r.indent ≤ r.column) :
    ∃ r', r.takeHere = .ok r' ∧ r'.AwaitsColon rest column indents before name
      ∧ r'.dropStale = .ok r' := by
  have hcursor : r.cursor = ⟨name ++ ':' :: rest, r.cursor.mark⟩ := by rw [← hat.text]
  have htake : r.takeHere = r.takePlainScalar := by
    obtain ⟨c, w, rfl⟩ := List.exists_cons_of_ne_nil hname.nonempty
    have hc := hname.letters c (List.mem_cons_self ..)
    obtain ⟨hblank, hbreak⟩ := word_of_letter hc
    have hopens : opensStructure c (w ++ ':' :: rest).head? = false :=
      opensStructure_of_letter hc _
    have hdocument : r.cursor.atDocumentIndicator = false := by
      rw [Cursor.atDocumentIndicator, hcursor,
        Cursor.atTriple_of_head (hname.head_ne (by decide) _),
        Cursor.atTriple_of_head (hname.head_ne (by decide) _)]
      rfl
    exact takeHere_plain hle (inFlow_none hkeys) hat.text hopens hblank hbreak hdocument
  have hscalar := plainScalar_name hname hrest r.indent r.cursor.mark
  rw [← hcursor] at hscalar
  let finish := r.cursor.mark.forward name.length
  let k : PossibleKey := ⟨r.indent == r.column, r.tokens.length, r.cursor.mark⟩
  let r' : Reading := ({ r with keys := [some k] }.allowKey false).accept
    (⟨.scalar name .plain, r.cursor.mark, finish⟩, ⟨':' :: rest, finish⟩)
  have htaken : r.takePlainScalar = .ok r' := by
    have hflow : (decide ((1 : Nat) > 1)) = false := rfl
    rw [takePlainScalar, noteKey_allowed hkeys hallowed]
    simp only [bind, Except.bind, inFlow, List.length_singleton, hflow, hscalar, pure, Except.pure]
    rfl
  have hfresh : PossibleKey.isStale k r'.cursor.mark = false := by
    simp [PossibleKey.isStale, k, r', accept, finish]
    omega
  refine ⟨r', htake.trans htaken, ⟨rfl, hat.indents, ?_, ⟨k, rfl, ?_, hat.column, hfresh⟩, ?_⟩,
    dropStale_fresh rfl hfresh⟩
  · rw [← hat.kinds]
    exact kinds_push _ _
  · rw [← hat.kinds]
    simp [k, Reading.kinds]
  · have hcolumn : r'.column = r.column + name.length := by
      simp [Reading.column, r', accept, finish]
    have hhere : r.column = column := congrArg Nat.cast hat.column
    have hindent : r'.indent = r.indent := rfl
    rw [hcolumn, hindent]
    exact max_le (by omega) (by omega)

theorem Reaches.takeName {column : Nat} {indents : List Int} {before : List Token.Kind}
    (h : r.Reaches (name ++ ':' :: rest) column indents before) :
    ∃ r', r.Leads r' ∧ r'.Awaits rest (opened column indents)
        (before ++ opening column indents ++ [.key, .scalar name .plain, .value])
      ∧ r'.keyAllowed = false := by
  obtain ⟨a, htake, hat, hkeys, hallowed, hle, hless⟩ := h
  obtain ⟨r₁, hfirst, hcolon, hfresh⟩ := takeHere_name hname hlength hrest hat hkeys hallowed hle
  obtain ⟨r₂, hsecond, hawaits, hrefused⟩ := hcolon.takeValue hrest
  have hscalar : r.Leads r₁ := by
    refine leads_of_take (by rw [htake, hfirst]; exact hfresh) hcolon.kinds (by simp) ?_
    have := List.length_pos_iff.mpr hname.nonempty
    rw [hcolon.text]
    simp only [List.length_append, List.length_cons] at hless ⊢
    omega
  have hvalue : r₁.Leads r₂ := by
    have hkinds : r₂.kinds
        = (before ++ opening column indents ++ [.key, .scalar name .plain]) ++ [.value] := by
      rw [hawaits.kinds, List.append_assoc _ [_, _]]
      rfl
    refine leads_of_take (by rw [hsecond]; exact dropStale_none hawaits.keys) hkinds (by simp) ?_
    rw [hawaits.text, hcolon.text]
    exact Nat.lt_succ_self _
  exact ⟨r₂, hscalar.trans hvalue, hawaits, hrefused⟩

end Name

/-! ## Dashes -/

theorem Reaches.takeDash {rest : List Char} (hrest : endsWord rest.head? = true) {column : Nat}
    (hcolumn : 0 < column) {outer : List Int} {before : List Token.Kind}
    (h : r.Reaches ('-' :: rest) column (column :: outer) before) :
    ∃ r', r.Leads r' ∧ r'.Awaits rest (column :: outer) (before ++ [.blockEntry]) := by
  obtain ⟨a, htake, hat, hkeys, hallowed, hle, hless⟩ := h
  have hindent : a.indent = column := (List.cons.inj hat.indents).1
  have hinside : 0 < a.cursor.mark.column := hat.column ▸ hcolumn
  have hopen : a.openBlock a.cursor.mark.column none .blockSequenceStart a.cursor.mark = a := by
    have hsame : (a.cursor.mark.column : Int) ≤ a.indent := by rw [hindent, hat.column]
    rw [openBlock, decide_eq_true hsame, Bool.or_true, if_pos rfl]
  have htaken : r.takeToken = .ok ((a.allowKey true).takeMark 1 .blockEntry) := by
    rw [htake, takeHere_dash hle hinside hat.text hrest, takeBlockEntry, hallowed, hopen]
    simp [bind, Except.bind, pure, Except.pure, dropKey_none hkeys]
  have hcursor := cursor_takeMark (r := a.allowKey true) hat.text .blockEntry
  have hkinds : ((a.allowKey true).takeMark 1 .blockEntry).kinds = before ++ [.blockEntry] := by
    rw [kinds_takeMark, kinds_allowKey, hat.kinds]
  refine ⟨_, leads_of_take (by rw [htaken]; exact dropStale_none hkeys) hkinds (by simp) ?_,
    ⟨by rw [hcursor], hat.indents, hkinds, hkeys, ?_⟩⟩
  · rw [hcursor]
    exact hless
  · have hdeep : a.indent < a.column + 1 := Int.lt_add_one_of_le hle
    rw [Reading.column, hcursor, Mark.forward_column, Nat.cast_add]
    exact hdeep

/-! ## Scalars -/

section Scalars

variable {indents : List Int} {before : List Token.Kind}

/-- The blank in front of a value is skipped. -/
theorem Awaits.arrive {text : List Char} (h : r.Awaits (' ' :: text) indents before)
    (hbegins : Begins text) :
    ∃ a : Reading, r.takeToken = a.takeHere ∧ a.Awaits text indents before
      ∧ a.keyAllowed = r.keyAllowed := by
  have hcursor : r.cursor = ⟨List.replicate 1 ' ' ++ text, r.cursor.mark⟩ := by
    rw [List.replicate_one, List.singleton_append, ← h.text]
  refine ⟨{ r with cursor := ⟨text, r.cursor.mark.forward 1⟩ }, ?_,
    ⟨rfl, h.indents, h.kinds, h.keys, ?_⟩, rfl⟩
  · have hnone : dropStale { r with cursor := ⟨text, r.cursor.mark.forward 1⟩ } = .ok _ :=
      dropStale_none h.keys
    rw [takeToken, arrive_spaces hbegins hcursor, hnone]
    rfl
  · have hdeep := h.deeper
    rw [Reading.column] at hdeep ⊢
    rw [Mark.forward_column, Nat.cast_add]
    exact hdeep.trans (Int.lt_succ _)

/-- What is read as one token leaves no key that must become one. -/
theorem Awaits.takeProperty {text : List Char} (h : r.Awaits text indents before)
    (read : Cursor → Except Problem (Token × Cursor)) {t : Token} {c : Cursor}
    (hread : read r.cursor = .ok (t, c)) :
    ∃ r', r.takeProperty read = .ok r' ∧ r'.cursor = c ∧ r'.indents = indents
      ∧ r'.kinds = before ++ [t.kind] ∧ Harmless r'.keys r.cursor.mark.line := by
  obtain ⟨keys, hnote, hkeys⟩ := noteKey_harmless h.keys h.deeper
  refine ⟨({ r with keys := keys }.allowKey false).accept (t, c), ?_, rfl, h.indents, ?_, hkeys⟩
  · rw [Reading.takeProperty, hnote]
    simp only [bind, Except.bind, hread]
    rfl
  · rw [← h.kinds]
    exact kinds_push _ t

variable {cs body : List Char} {column : Nat} (hbody : Begins body)

include hbody

/-- A quoted scalar ends in front of the end of its line. -/
theorem Awaits.takeQuoted (single : Bool) {quote : Char} {w : List Char}
    (hlast : ∀ i ∈ indents.getLast?, i ≤ column)
    (hquote : quote = if single then '\x27' else '"') (hquoted : Quoted quote w cs)
    (h : r.Awaits (' ' :: quote :: (w ++ quote :: '\n' :: (List.replicate column ' ' ++ body)))
      indents before) :
    ∃ r', r.Leads r' ∧ r'.Reaches body column (within column indents)
      (before ++ [.scalar cs (if single then .singleQuoted else .doubleQuoted)]
        ++ closing column indents) := by
  have hbegins : Begins (quote :: (w ++ quote :: '\n' :: (List.replicate column ' ' ++ body))) := by
    intro c hc
    obtain rfl : quote = c := Option.some.inj hc
    rw [hquote]
    cases single <;> decide
  obtain ⟨a, htake, ha, -⟩ := h.arrive hbegins
  have hcursor : a.cursor
      = ⟨quote :: (w ++ quote :: '\n' :: (List.replicate column ' ' ++ body)), a.cursor.mark⟩ := by
    rw [← ha.text]
  have hrest : ('\n' :: (List.replicate column ' ' ++ body)).head? ≠ some '\x27' := by simp
  obtain ⟨m', hread, hline⟩ := quotedScalar_of_quoted hquote hrest hquoted a.cursor.mark
  rw [← hcursor] at hread
  have hhere : a.takeHere = a.takeProperty (quotedScalar · single) := by
    cases single with
    | true => exact takeHere_singleQuoted ha.deeper.le (hquote ▸ ha.text)
    | false => exact takeHere_doubleQuoted ha.deeper.le (hquote ▸ ha.text)
  obtain ⟨r', htaken, hcursor', hindents, hkinds, hharmless⟩ :=
    ha.takeProperty (quotedScalar · single) hread
  obtain ⟨keys, hdrop, hharmless'⟩ := dropStale_harmless hharmless
  have hlater : a.cursor.mark.line ≤ r'.cursor.mark.line := by
    rw [hcursor']
    exact hline
  refine ⟨{ r' with keys := keys }, leads_of_take ?_ hkinds (by simp) ?_, reaches_line hbody
    ⟨by rw [hcursor'], rfl, hindents, hkinds⟩ (hharmless'.mono hlater) hlast⟩
  · rw [htake, hhere, htaken]
    exact hdrop
  · rw [hcursor', h.text]
    simp only [List.length_cons, List.length_append]
    omega

/-- A scalar that ends with its line leaves the reading in front of the next
token. -/
theorem reaches_behind {r' : Reading} {kind : Token.Kind} {line : Nat}
    (hlast : ∀ i ∈ indents.getLast?, i ≤ column) (htake : r.takeToken = .ok r')
    (hat : r'.At body column indents (before ++ [kind])) (hkind : kind ≠ .streamEnd)
    (hkeys : Harmless r'.keys line) (hline : line < r'.cursor.mark.line)
    (hallowed : r'.keyAllowed = true) (hless : body.length < r.cursor.rest.length) :
    ∃ r', r.Leads r' ∧ r'.Reaches body column (within column indents)
      (before ++ [kind] ++ closing column indents) := by
  have hat' : ({ r' with keys := [none] } : Reading).At body column indents (before ++ [kind]) :=
    ⟨hat.text, hat.column, hat.indents, hat.kinds⟩
  refine ⟨{ r' with keys := [none] }, leads_of_take ?_ hat'.kinds hkind ?_,
    reaches_here hbody hat' rfl hallowed hlast⟩
  · rw [htake]
    exact dropStale_passed hkeys hline
  · rw [hat'.text]
    exact hless

theorem Awaits.takePlain {outer : List Int}
    (hlast : ∀ i ∈ ((2 : Int) :: outer).getLast?, i ≤ column) (hcolumn : column ≤ 2)
    (hopens : ∀ c ∈ cs.head?, opensStructure c cs.tail.head? = false) (hplain : PlainText 'x' cs)
    (h : r.Awaits (' ' :: (cs ++ '\n' :: (List.replicate column ' ' ++ body))) (2 :: outer)
      before) :
    ∃ r', r.Leads r' ∧ r'.Reaches body column (within column (2 :: outer))
      (before ++ [.scalar cs .plain] ++ closing column (2 :: outer)) := by
  obtain ⟨c, w, rfl⟩ := List.exists_cons_of_ne_nil hplain.nonempty
  have hopens : opensStructure c w.head? = false := hopens c rfl
  have hreserved := (Bool.or_eq_false_iff.mp hopens).1
  have hsolid := hplain.solid ('\n' :: (List.replicate column ' ' ++ body))
  have hbegins : Begins (c :: w ++ '\n' :: (List.replicate column ' ' ++ body)) := by
    intro d hd
    obtain rfl : c = d := Option.some.inj hd
    obtain ⟨hblank, hbreak⟩ := hsolid c rfl
    refine ⟨hblank, hbreak, ?_, ?_⟩
    · rintro rfl
      cases hreserved
    · rintro rfl
      exact absurd (hplain.printable '\ufeff' (List.mem_cons_self ..)) (by decide)
  obtain ⟨a, htake, ha, -⟩ := h.arrive hbegins
  have hcursor : a.cursor
      = ⟨c :: w ++ '\n' :: (List.replicate column ' ' ++ body), a.cursor.mark⟩ := by
    rw [← ha.text]
  have hindent : a.indent = 2 := (List.cons.inj ha.indents).1
  have hdeep : (2 : Int) < a.cursor.mark.column := hindent ▸ ha.deeper
  have hdocument := Cursor.atDocumentIndicator_of_column (c := a.cursor) (by omega)
  have hnext :
      opensStructure c (w ++ '\n' :: (List.replicate column ' ' ++ body)).head? = false := by
    cases w with
    | nil => exact hopens
    | cons d w => exact hopens
  have hhere := takeHere_plain ha.deeper.le (inFlow_none ha.keys) ha.text hnext (hsolid c rfl).1
    (hsolid c rfl).2 hdocument
  have hshallow : (column : Int) < 2 + 1 := by omega
  obtain ⟨finish, m', hread, hcolumn', hline⟩ :=
    plainScalar_line hplain hbody.solid hshallow hdeep (by omega)
  rw [← hcursor, ← hindent] at hread
  obtain ⟨keys, hnote, hkeys⟩ := noteKey_harmless ha.keys ha.deeper
  have hflow : ({ a with keys := keys } : Reading).inFlow = false := by
    rcases hkeys with hkeys | ⟨k, hkeys, -⟩ <;> rw [inFlow, hkeys] <;> rfl
  have htaken : r.takeToken = .ok (({ a with keys := keys }.allowKey true).accept
      (⟨.scalar (c :: w) .plain, a.cursor.mark, finish⟩, ⟨body, m'⟩)) := by
    rw [htake, hhere, takePlainScalar, hnote]
    simp only [bind, Except.bind, hflow, hread]
    rfl
  refine reaches_behind hbody hlast htaken ⟨rfl, hcolumn', ha.indents, ?_⟩ (by simp) hkeys hline
    rfl ?_
  · rw [← ha.kinds]
    exact kinds_push _ _
  · rw [h.text]
    simp only [List.length_cons, List.length_append]
    omega

theorem Awaits.takeLiteral {outer : List Int}
    (hlast : ∀ i ∈ ((2 : Int) :: outer).getLast?, i ≤ column) (hcolumn : column < 4) (hne : cs ≠ [])
    (hprint : ∀ c ∈ cs, isPrintable c = true)
    (h : r.Awaits (' ' :: '|' :: (literalHints cs ++ '\n' ::
      (literalFrom 4 true cs ++ (List.replicate column ' ' ++ body)))) (2 :: outer) before) :
    ∃ r', r.Leads r' ∧ r'.Reaches body column (within column (2 :: outer))
      (before ++ [.scalar cs .literal] ++ closing column (2 :: outer)) := by
  have hbegins : Begins ('|' :: (literalHints cs ++ '\n' ::
      (literalFrom 4 true cs ++ (List.replicate column ' ' ++ body)))) := by
    intro c hc
    obtain rfl : '|' = c := Option.some.inj hc
    decide
  obtain ⟨a, htake, ha, -⟩ := h.arrive hbegins
  have hcursor : a.cursor = ⟨'|' :: (literalHints cs ++ '\n' ::
      (literalFrom 4 true cs ++ (List.replicate column ' ' ++ body))), a.cursor.mark⟩ := by
    rw [← ha.text]
  have hindent : a.indent = 2 := (List.cons.inj ha.indents).1
  obtain ⟨finish, m', hread, hcolumn', hline⟩ :=
    blockScalar_literal hcolumn hbody.solid a.cursor.mark hne hprint
  rw [← hcursor] at hread
  have htaken : r.takeToken = .ok ((a.allowKey true).accept
      (⟨.scalar cs .literal, a.cursor.mark, finish⟩, ⟨body, m'⟩)) := by
    rw [htake, takeHere_literal ha.deeper.le (inFlow_none ha.keys) ha.text, takeBlockScalar,
      dropKey_none ha.keys]
    simp only [bind, Except.bind, hindent, hread]
    rfl
  refine reaches_behind hbody hlast htaken ⟨rfl, hcolumn', ha.indents, ?_⟩ (by simp)
    (Or.inl ha.keys) hline rfl ?_
  · rw [← ha.kinds]
    exact kinds_push _ _
  · rw [h.text]
    simp only [List.length_cons, List.length_append]
    omega

/-- Whatever its style, a scalar that was written is taken as it was. -/
theorem Awaits.takeScalar {outer : List Int}
    (hlast : ∀ i ∈ ((2 : Int) :: outer).getLast?, i ≤ column) (hcolumn : column ≤ 2)
    (h : r.Awaits (writtenScalar 4 cs ++ (List.replicate column ' ' ++ body)) (2 :: outer) before) :
    ∃ r', r.Leads r' ∧ r'.Reaches body column (within column (2 :: outer))
      (before ++ [.scalar cs (styleOf cs)] ++ closing column (2 :: outer)) := by
  rw [writtenScalar] at h
  cases hstyle : styleOf cs with
  | plain =>
    obtain ⟨hopens, hplain⟩ := plain_of_styleOf hstyle
    rw [hstyle] at h
    simp only [List.append_assoc, List.cons_append, List.nil_append] at h
    exact h.takePlain hbody hlast hcolumn hopens hplain
  | singleQuoted =>
    rw [hstyle] at h
    simp only [List.append_assoc, List.cons_append, List.nil_append] at h
    exact h.takeQuoted hbody true hlast rfl
      (quoted_single (by decide) (singleQuotable_of_styleOf hstyle))
  | doubleQuoted =>
    rw [hstyle] at h
    simp only [List.append_assoc, List.cons_append, List.nil_append] at h
    exact h.takeQuoted hbody false hlast rfl (quoted_double cs)
  | literal =>
    obtain ⟨hne, hprint⟩ := literal_of_styleOf hstyle
    rw [hstyle] at h
    simp only [List.append_assoc, List.cons_append] at h
    exact h.takeLiteral hbody hlast (by omega) hne hprint
  | folded => exact absurd hstyle styleOf_ne_folded

/-! ## Lists and the end of the text -/

/-- No value on the line of its key. -/
theorem Awaits.reaches_nextLine (hlast : ∀ i ∈ indents.getLast?, i ≤ column)
    (h : r.Awaits ('\n' :: (List.replicate column ' ' ++ body)) indents before) :
    r.Reaches body column (within column indents) (before ++ closing column indents) :=
  reaches_line hbody ⟨h.text, rfl, h.indents, h.kinds⟩ (Or.inl h.keys) hlast

omit hbody in
theorem begins_bracket {c : Char} (hc : c = '[' ∨ c = ']') (rest : List Char) :
    Begins (c :: rest) := by
  intro d hd
  obtain rfl : c = d := Option.some.inj hd
  rcases hc with rfl | rfl <;> decide

omit hbody in
/-- The opening bracket puts the reading inside a list. -/
theorem Awaits.takeOpening {rest : List Char} (hrefused : r.keyAllowed = false)
    (h : r.Awaits (' ' :: '[' :: rest) indents before) :
    ∃ r', r.Leads r' ∧ r'.cursor.rest = rest ∧ r'.indents = indents
      ∧ r'.kinds = before ++ [.flowSequenceStart] ∧ r'.keys = [none, none]
      ∧ r'.indent < r'.column := by
  obtain ⟨a, htake, ha, hrefused'⟩ := h.arrive (begins_bracket (Or.inl rfl) _)
  let a' : Reading := { a with keys := none :: a.keys }.allowKey true
  have hcursor := cursor_takeMark (r := a') ha.text .flowSequenceStart
  have hkeys : a'.keys = [none, none] := congrArg (none :: ·) ha.keys
  have hkinds : (a'.takeMark 1 .flowSequenceStart).kinds = before ++ [.flowSequenceStart] := by
    rw [← ha.kinds]
    exact kinds_takeMark 1 .flowSequenceStart
  have hopen : r.takeToken = .ok (a'.takeMark 1 .flowSequenceStart) := by
    rw [htake, takeHere_open ha.deeper.le ha.text, openFlow,
      noteKey_refused (hrefused'.trans hrefused)]
    rfl
  refine ⟨_, leads_of_take (by rw [hopen]; exact dropStale_none_none hkeys) hkinds (by simp) ?_,
    by rw [hcursor], ha.indents, hkinds, hkeys, ?_⟩
  · rw [hcursor, h.text]
    exact Nat.lt_succ_of_lt (Nat.lt_succ_self _)
  · have hdeep := ha.deeper
    rw [Reading.column] at hdeep ⊢
    rw [hcursor, Mark.forward_column, Nat.cast_add]
    exact hdeep.trans (Int.lt_succ _)

theorem Awaits.takeEmptyList (hlast : ∀ i ∈ indents.getLast?, i ≤ column)
    (hrefused : r.keyAllowed = false)
    (h : r.Awaits (' ' :: '[' :: ']' :: '\n' :: (List.replicate column ' ' ++ body)) indents
      before) :
    ∃ r', r.Leads r' ∧ r'.Reaches body column (within column indents)
      (before ++ [.flowSequenceStart, .flowSequenceEnd] ++ closing column indents) := by
  obtain ⟨a, hleads, htext, hindents, hkinds, hkeys, hdeep⟩ := h.takeOpening hrefused
  let a' : Reading := { a with keys := [none] }.allowKey false
  have hcursor := cursor_takeMark (r := a') htext .flowSequenceEnd
  have hkinds' : (a'.takeMark 1 .flowSequenceEnd).kinds
      = (before ++ [.flowSequenceStart]) ++ [.flowSequenceEnd] := by
    rw [← hkinds]
    exact kinds_takeMark 1 .flowSequenceEnd
  have hclose : a.takeToken = .ok (a'.takeMark 1 .flowSequenceEnd) := by
    have harrive : a.arrive = .ok a :=
      (arrive_here (begins_bracket (Or.inr rfl) _) htext).trans (dropStale_none_none hkeys)
    rw [takeToken, harrive]
    refine (takeHere_close hdeep.le htext).trans ?_
    rw [closeFlow, dropKey_none hkeys]
    simp [bind, Except.bind, pure, Except.pure, inFlow, hkeys, a']
  have hleads' : a.Leads (a'.takeMark 1 .flowSequenceEnd) := by
    have hkeys' : (a'.takeMark 1 .flowSequenceEnd).keys = [none] := rfl
    refine leads_of_take (by rw [hclose]; exact dropStale_none hkeys') hkinds' (by simp) ?_
    rw [hcursor, htext]
    exact Nat.lt_succ_self _
  have hat : (a'.takeMark 1 .flowSequenceEnd).At ('\n' :: (List.replicate column ' ' ++ body)) _
      indents _ :=
    ⟨by rw [hcursor], rfl, hindents, hkinds'⟩
  have hreaches := reaches_line hbody hat (Or.inl rfl) hlast
  rw [List.append_assoc before] at hreaches
  exact ⟨_, hleads.trans hleads', hreaches⟩

end Scalars

/-! ## In front of what is left -/

/-- What is left of a text begins with the spaces that indent the next token. -/
def IsPlaced (rest : List Char) (column : Nat) (body : List Char) : Prop :=
  rest = List.replicate column ' ' ++ body ∧ Begins body

theorem isPlaced_unique {rest body body' : List Char} {column column' : Nat}
    (h : IsPlaced rest column body) (h' : IsPlaced rest column' body') :
    column = column' ∧ body = body' := by
  obtain ⟨rfl, hbody⟩ := h
  obtain ⟨heq, hother⟩ := h'
  induction column generalizing column' with
  | zero =>
    cases column' with
    | zero => exact ⟨rfl, heq⟩
    | succ n =>
      subst heq
      exact absurd (hbody ' ' rfl).1 (by decide)
  | succ n ih =>
    cases column' with
    | zero =>
      rw [List.replicate_zero, List.nil_append] at heq
      subst heq
      exact absurd (hother ' ' rfl).1 (by decide)
    | succ n' =>
      obtain ⟨hn, hb⟩ := ih (List.cons.inj heq).2
      exact ⟨congrArg (· + 1) hn, hb⟩

/-- The reading stands in front of what is left of the text, with the blocks
still open that were open behind the last token. -/
def Stands (r : Reading) (rest : List Char) (indents : List Int) (before : List Token.Kind) :
    Prop :=
  ∃ column body, IsPlaced rest column body
    ∧ r.Reaches body column (within column indents) (before ++ closing column indents)

theorem Stands.reaches {column : Nat} {rest body : List Char} {indents : List Int}
    {before : List Token.Kind} (h : r.Stands rest indents before)
    (hplaced : IsPlaced rest column body) :
    r.Reaches body column (within column indents) (before ++ closing column indents) := by
  obtain ⟨column', body', hplaced', hreaches⟩ := h
  obtain ⟨rfl, rfl⟩ := isPlaced_unique hplaced hplaced'
  exact hreaches

/-- The end closes the one block that is still open. -/
theorem Reaches.takeEnd {before : List Token.Kind} (h : r.Reaches [] 0 [0, -1] before)
    (fuel : Nat) :
    (TokenStream.readAll (fuel + 1) r).problem = none
      ∧ (TokenStream.readAll (fuel + 1) r).tokens.map Token.kind
        = before ++ [.blockEnd, .streamEnd] := by
  obtain ⟨a, htake, hat, hkeys, -, hle, -⟩ := h
  obtain ⟨hindent, houter⟩ := List.cons.inj hat.indents
  let closed : Reading :=
    { a.push (mark .blockEnd a.cursor.mark) with indent := -1, outerIndents := [] }
  let done : Reading := (closed.allowKey false).push (mark .streamEnd a.cursor.mark)
  have hclose : a.dedent (-1) = closed := by
    rw [dedent, inFlow_none hkeys, if_neg Bool.false_ne_true, houter, closeBlocks, hindent,
      if_neg (by decide), closeBlocks]
  have hend : r.takeToken = .ok done := by
    have hsame : ({ a with cursor := ⟨[], a.cursor.mark⟩ } : Reading) = a := by rw [← hat.text]
    have hkeys' : closed.keys = [none] := hkeys
    rw [htake, takeHere_end hle hat.text, Reading.takeEnd]
    simp only [hat.column, beq_self_eq_true, if_true, hsame, hclose, dropKey_none hkeys']
    rfl
  have hkinds : done.kinds = before ++ [.blockEnd, .streamEnd] := by
    rw [← hat.kinds]
    simp [done, closed, kinds, push, allowKey, mark]
  have hfinished : done.isFinished = true := rfl
  have hdrop : done.dropStale = .ok done := dropStale_none hkeys
  have hread : r.takeToken >>= dropStale = .ok done := by
    rw [hend]
    exact hdrop
  rw [TokenStream.readAll, hread]
  simp only [hfinished, if_true, List.map_reverse]
  refine ⟨trivial, ?_⟩
  rw [← hkinds, kinds, List.map_reverse]

end Vendoring.Yaml.Reading
