import Vendoring.Proofs.Yaml.Block
import Vendoring.Yaml.Token.Stream

/-!
# Reading on, from one token to the next

The marks of tokens never decide anything on the way to a manifest, so a
reading is described by the kinds of its tokens (`Reading.kinds`) and by what
its next token will find: `Reaches` says where that stands, once blank lines
are passed, possible keys given up and blocks closed that are indented deeper.
`Leads` is any number of tokens, each of which takes some of the text, so the
length of the text bounds them (`Leads.readAll`).
-/

namespace Vendoring.Yaml

namespace Reading

variable {r r' : Reading}

/-- The kinds of the tokens read so far, in order. -/
def kinds (r : Reading) : List Token.Kind := r.tokens.reverse.map Token.kind

/-- The indentations of the open blocks, innermost first. -/
def indents (r : Reading) : List Int := r.indent :: r.outerIndents

@[simp] theorem kinds_push (r : Reading) (t : Token) : (r.push t).kinds = r.kinds ++ [t.kind] := by
  simp [kinds, push]

/-! ## Possible keys -/

theorem dropStale_none (h : r.keys = [none]) : r.dropStale = .ok r := by
  cases r
  subst h
  rfl

theorem dropStale_none_none (h : r.keys = [none, none]) : r.dropStale = .ok r := by
  cases r
  subst h
  rfl

/-- A possible key that is given up without harm. -/
theorem dropStale_stale {k : PossibleKey} (h : r.keys = [some k]) (hrequired : k.required = false)
    (hstale : PossibleKey.isStale k r.cursor.mark = true) :
    r.dropStale = .ok { r with keys := [none] } := by
  simp [dropStale, h, hstale, hrequired, Option.filter]

theorem dropStale_fresh {k : PossibleKey} (h : r.keys = [some k])
    (hfresh : PossibleKey.isStale k r.cursor.mark = false) : r.dropStale = .ok r := by
  cases r
  subst h
  simp [dropStale, hfresh, Option.filter]

/-- There is no possible key, or one that need not become one and began on
this line or an earlier one. -/
def Harmless (keys : List (Option PossibleKey)) (line : Nat) : Prop :=
  keys = [none] ∨ ∃ k : PossibleKey, keys = [some k] ∧ k.required = false ∧ k.mark.line ≤ line

theorem Harmless.mono {keys : List (Option PossibleKey)} {line line' : Nat}
    (h : Harmless keys line) (hle : line ≤ line') : Harmless keys line' :=
  h.imp_right fun ⟨k, hk, hrequired, hline⟩ => ⟨k, hk, hrequired, hline.trans hle⟩

/-- On a later line harmless keys are given up. -/
theorem dropStale_passed {line : Nat} (h : Harmless r.keys line)
    (hline : line < r.cursor.mark.line) : r.dropStale = .ok { r with keys := [none] } := by
  rcases h with h | ⟨k, h, hrequired, hk⟩
  · rw [dropStale_none h, ← h]
  · refine dropStale_stale h hrequired ?_
    simp only [PossibleKey.isStale, Bool.or_eq_true, decide_eq_true_eq]
    exact Or.inl (Nat.lt_of_le_of_lt hk hline)

theorem dropStale_harmless {line : Nat} (h : Harmless r.keys line) :
    ∃ keys, r.dropStale = .ok { r with keys := keys } ∧ Harmless keys line := by
  rcases h with h | ⟨k, h, hrequired, hk⟩
  · exact ⟨r.keys, dropStale_none h, Or.inl h⟩
  · cases hstale : PossibleKey.isStale k r.cursor.mark with
    | true => exact ⟨[none], dropStale_stale h hrequired hstale, Or.inl rfl⟩
    | false => exact ⟨r.keys, dropStale_fresh h hstale, Or.inr ⟨k, h, hrequired, hk⟩⟩

/-! ## Closing blocks -/

/-- The blocks that stay open in front of something at `column`. -/
def within (column : Nat) (indents : List Int) : List Int :=
  indents.dropWhile fun i => (column : Int) < i

/-- A block ends for each of the others. -/
def closing (column : Nat) (indents : List Int) : List Token.Kind :=
  (indents.takeWhile fun i => (column : Int) < i).map fun _ => .blockEnd

/-- Where a reading stands, which blocks are open and what has been read. -/
structure At (r : Reading) (text : List Char) (column : Nat) (indents : List Int)
    (kinds : List Token.Kind) : Prop where
  text : r.cursor.rest = text
  column : r.cursor.mark.column = column
  indents : r.indents = indents
  kinds : r.kinds = kinds

theorem closeBlocks_at {column : Nat} {outer : List Int} {text : List Char}
    {indents : List Int} {kinds : List Token.Kind} (h : r.At text column indents kinds)
    (houter : r.outerIndents = outer) (hlast : ∀ i ∈ indents.getLast?, i ≤ column) :
    (closeBlocks column outer r).At text column (within column indents)
        (kinds ++ closing column indents)
      ∧ (closeBlocks column outer r).keys = r.keys
      ∧ (closeBlocks column outer r).keyAllowed = r.keyAllowed
      ∧ (closeBlocks column outer r).cursor = r.cursor := by
  induction outer generalizing r indents kinds with
  | nil =>
    have hindents : indents = [r.indent] := by
      rw [← h.indents, Reading.indents, houter]
    subst hindents
    have hle := hlast r.indent rfl
    have hkeep : within column [r.indent] = [r.indent] ∧ closing column [r.indent] = [] := by
      simp [within, closing, Int.not_lt.mpr hle]
    rw [hkeep.1, hkeep.2, List.append_nil]
    exact ⟨h, rfl, rfl, rfl⟩
  | cons i outer ih =>
    have hindents : indents = r.indent :: i :: outer := by
      rw [← h.indents, Reading.indents, houter]
    subst hindents
    rw [closeBlocks]
    by_cases hle : r.indent ≤ column
    · have hkeep : within column (r.indent :: i :: outer) = r.indent :: i :: outer
          ∧ closing column (r.indent :: i :: outer) = [] := by
        simp [within, closing, Int.not_lt.mpr hle]
      rw [if_pos hle, hkeep.1, hkeep.2, List.append_nil]
      exact ⟨h, rfl, rfl, rfl⟩
    · have hlt := Int.not_le.mp hle
      have hdrop : within column (r.indent :: i :: outer) = within column (i :: outer)
          ∧ closing column (r.indent :: i :: outer) = .blockEnd :: closing column (i :: outer) := by
        simp [within, closing, hlt]
      rw [if_neg hle, hdrop.1, hdrop.2]
      have hnext : Reading.At
          { r.push (mark .blockEnd r.cursor.mark) with indent := i, outerIndents := outer }
          text column (i :: outer) (kinds ++ [.blockEnd]) := by
        refine ⟨h.text, h.column, rfl, ?_⟩
        have := r.kinds_push (mark .blockEnd r.cursor.mark)
        rw [h.kinds] at this
        exact this
      obtain ⟨hat, hrest⟩ := ih hnext rfl (by rwa [List.getLast?_cons_cons] at hlast)
      rw [List.append_assoc, List.singleton_append] at hat
      exact ⟨hat, hrest⟩

theorem dedent_at {column : Nat} {text : List Char} {indents : List Int}
    {kinds : List Token.Kind} (h : r.At text column indents kinds) (hkeys : r.keys.length = 1)
    (hlast : ∀ i ∈ indents.getLast?, i ≤ column) :
    (r.dedent r.column).At text column (within column indents) (kinds ++ closing column indents)
      ∧ (r.dedent r.column).keys = r.keys ∧ (r.dedent r.column).keyAllowed = r.keyAllowed
      ∧ (r.dedent r.column).cursor = r.cursor := by
  have hflow : r.inFlow = false := by
    rw [inFlow, hkeys]
    rfl
  rw [dedent, hflow, if_neg Bool.false_ne_true, Reading.column, h.column]
  exact closeBlocks_at h rfl hlast

/-- Where nothing is indented deeper, nothing is closed. -/
theorem dedent_self (h : r.indent ≤ r.column) : r.dedent r.column = r := by
  rw [dedent]
  cases houter : r.outerIndents with
  | nil => rw [closeBlocks, ite_self]
  | cons i outer => rw [closeBlocks, if_pos h, ite_self]

/-! ## Arriving -/

/-- The text begins with something that a token can begin with. -/
def Begins (text : List Char) : Prop :=
  ∀ c ∈ text.head?, isBlank c = false ∧ isBreak c = false ∧ c ≠ '#' ∧ c ≠ '\ufeff'

theorem Begins.solid {text : List Char} (h : Begins text) : Solid text :=
  fun c hc => ⟨(h c hc).1, (h c hc).2.1⟩

/-- Spaces in front of a token are skipped. -/
theorem skipToToken_spaces {n : Nat} {body : List Char} {m : Mark}
    (hcursor : r.cursor = ⟨List.replicate n ' ' ++ body, m⟩) (hbody : Begins body) (k : Nat) :
    skipToToken (k + 1) r = { r with cursor := ⟨body, m.forward n⟩ } := by
  have hmark : Cursor.looksAt ⟨List.replicate n ' ' ++ body, m⟩ '\ufeff' = false := by
    refine beq_false_of_ne fun h => ?_
    cases n with
    | zero => exact (hbody _ h).2.2.2 rfl
    | succ n => cases h
  have hspaces : Cursor.skipWhile
      (fun ch => ch == ' ' || ((r.inFlow || !r.keyAllowed) && ch == '\t'))
        ⟨List.replicate n ' ' ++ body, m⟩ = ⟨body, m.forward n⟩ := by
    have hstop : ∀ c ∈ body.head?,
        (c == ' ' || ((r.inFlow || !r.keyAllowed) && c == '\t')) = false := by
      intro c hc
      have hblank := (hbody c hc).1
      rw [isBlank, Bool.or_eq_false_iff] at hblank
      rw [hblank.1, hblank.2, Bool.and_false, Bool.or_false]
    rw [Cursor.skipWhile_append (by simp) hstop, List.length_replicate]
  have hcomment : Cursor.skipComment ⟨body, m.forward n⟩ = ⟨body, m.forward n⟩ := by
    have hne : Cursor.looksAt ⟨body, m.forward n⟩ '#' = false :=
      beq_false_of_ne fun h => (hbody '#' h).2.2.1 rfl
    rw [Cursor.skipComment, hne, if_neg Bool.false_ne_true]
  rw [skipToToken]
  simp only [hcursor, hmark, Bool.and_false, Bool.false_eq_true, if_false, hspaces, hcomment,
    Cursor.atBreak_of_solid hbody.solid]

/-- So are the end of a line and the spaces behind it. -/
theorem skipToToken_line {n : Nat} {body : List Char} {m : Mark}
    (hcursor : r.cursor = ⟨'\n' :: (List.replicate n ' ' ++ body), m⟩) (hbody : Begins body)
    (hflow : r.inFlow = false) (k : Nat) :
    skipToToken (k + 2) r
      = { r with cursor := ⟨body, (m.nextLine 1).forward n⟩, keyAllowed := true } := by
  have hstep : skipToToken (k + 2) r
      = skipToToken (k + 1)
        { r with cursor := ⟨List.replicate n ' ' ++ body, m.nextLine 1⟩, keyAllowed := true } := by
    have hmark : Cursor.looksAt ⟨'\n' :: (List.replicate n ' ' ++ body), m⟩ '\ufeff' = false := rfl
    have hspaces : Cursor.skipWhile
        (fun ch => ch == ' ' || ((r.inFlow || !r.keyAllowed) && ch == '\t'))
          ⟨'\n' :: (List.replicate n ' ' ++ body), m⟩
            = ⟨'\n' :: (List.replicate n ' ' ++ body), m⟩ := by
      simp [Cursor.skipWhile, Cursor.span, Cursor.spanFrom]
    have hcomment : Cursor.skipComment ⟨'\n' :: (List.replicate n ' ' ++ body), m⟩
        = ⟨'\n' :: (List.replicate n ' ' ++ body), m⟩ := rfl
    have hbreak : Cursor.atBreak ⟨'\n' :: (List.replicate n ' ' ++ body), m⟩ = true := rfl
    have hskip : Cursor.skipBreak ⟨'\n' :: (List.replicate n ' ' ++ body), m⟩
        = ⟨List.replicate n ' ' ++ body, m.nextLine 1⟩ := rfl
    rw [skipToToken]
    simp only [hcursor, hmark, Bool.and_false, Bool.false_eq_true, if_false, hspaces, hcomment,
      hbreak, if_true, hskip]
    rw [hflow, Bool.not_false, Bool.or_true]
  rw [hstep, skipToToken_spaces rfl hbody]

/-! ## What the next token will find -/

/-- The next token stands at `text`, in `column`, where keys are allowed; the
blocks that are indented deeper are closed in front of it. -/
def Reaches (r : Reading) (text : List Char) (column : Nat) (indents : List Int)
    (kinds : List Token.Kind) : Prop :=
  ∃ a : Reading, r.takeToken = a.takeHere ∧ a.At text column indents kinds ∧ a.keys = [none]
    ∧ a.keyAllowed = true ∧ a.indent ≤ a.column ∧ text.length ≤ r.cursor.rest.length

theorem takeHere_dedent (h : (r.dedent r.column).indent ≤ (r.dedent r.column).column) :
    r.takeHere = (r.dedent r.column).takeHere := by
  unfold takeHere
  rw [dedent_self h]

theorem reaches_of_arrive {a : Reading} (harrive : r.arrive = .ok a) {text : List Char}
    {column : Nat} {indents : List Int} {kinds : List Token.Kind}
    (hat : a.At text column indents kinds) (hkeys : a.keys = [none])
    (hallowed : a.keyAllowed = true) (hlast : ∀ i ∈ indents.getLast?, i ≤ column)
    (hlength : text.length ≤ r.cursor.rest.length) :
    r.Reaches text column (within column indents) (kinds ++ closing column indents) := by
  obtain ⟨hclosed, hkeys', hallowed', -⟩ := dedent_at hat (by rw [hkeys]; rfl) hlast
  have hle : (a.dedent a.column).indent ≤ (a.dedent a.column).column := by
    have hhead : (a.dedent a.column).indent ∈ (within column indents).head? := by
      rw [← hclosed.indents]
      rfl
    have hstop := List.head?_dropWhile_not (fun i => decide ((column : Int) < i)) indents
    rw [within] at hhead
    rw [Option.mem_def.mp hhead] at hstop
    have hcolumn : (a.dedent a.column).column = column := by
      rw [Reading.column, hclosed.column]
    rw [hcolumn]
    simpa using hstop
  refine ⟨_, ?_, hclosed, hkeys'.trans hkeys, hallowed'.trans hallowed, hle, hlength⟩
  rw [takeToken, harrive]
  exact takeHere_dedent hle

section Arriving

variable {text : List Char} {column : Nat} {indents : List Int} {kinds : List Token.Kind}
  (hbegins : Begins text)

include hbegins

theorem arrive_spaces {n : Nat} {m : Mark}
    (hcursor : r.cursor = ⟨List.replicate n ' ' ++ text, m⟩) :
    r.arrive = dropStale { r with cursor := ⟨text, m.forward n⟩ } := by
  rw [arrive, skipToToken_spaces hcursor hbegins]

theorem arrive_here (htext : r.cursor.rest = text) : r.arrive = r.dropStale := by
  have hcursor : r.cursor = ⟨List.replicate 0 ' ' ++ text, r.cursor.mark⟩ := by
    rw [List.replicate_zero, List.nil_append, ← htext]
  have hsame : ({ r with cursor := ⟨text, r.cursor.mark.forward 0⟩ } : Reading) = r := by
    rw [Mark.forward_zero, ← htext]
  rw [arrive_spaces hbegins hcursor, hsame]

/-- A reading that stands where the next token begins. -/
theorem reaches_here (hat : r.At text column indents kinds) (hkeys : r.keys = [none])
    (hallowed : r.keyAllowed = true) (hlast : ∀ i ∈ indents.getLast?, i ≤ column) :
    r.Reaches text column (within column indents) (kinds ++ closing column indents) := by
  have harrive : r.arrive = .ok r := (arrive_here hbegins hat.text).trans (dropStale_none hkeys)
  exact reaches_of_arrive harrive hat hkeys hallowed hlast (by rw [hat.text])

/-- A reading that stands at the end of a line. -/
theorem reaches_line {here : Nat} (hat : r.At ('\n' :: (List.replicate column ' ' ++ text)) here
      indents kinds) (hkeys : Harmless r.keys r.cursor.mark.line)
    (hlast : ∀ i ∈ indents.getLast?, i ≤ column) :
    r.Reaches text column (within column indents) (kinds ++ closing column indents) := by
  have hflow : r.inFlow = false := by
    rcases hkeys with h | ⟨k, h, -⟩ <;> rw [inFlow, h] <;> rfl
  have hcursor : r.cursor = ⟨'\n' :: (List.replicate column ' ' ++ text), r.cursor.mark⟩ := by
    rw [← hat.text]
  have hline : r.cursor.mark.line < ((r.cursor.mark.nextLine 1).forward column).line :=
    Nat.lt_succ_self _
  have harrive : r.arrive = .ok { r with
      cursor := ⟨text, (r.cursor.mark.nextLine 1).forward column⟩, keyAllowed := true,
      keys := [none] } := by
    rw [arrive, hat.text, List.length_cons, skipToToken_line hcursor hbegins hflow]
    exact dropStale_passed (r := { r with
      cursor := ⟨text, (r.cursor.mark.nextLine 1).forward column⟩, keyAllowed := true }) hkeys hline
  refine reaches_of_arrive harrive ⟨rfl, ?_, hat.indents, hat.kinds⟩ rfl rfl hlast ?_
  · simp
  · rw [hat.text]
    simp only [List.length_cons, List.length_append]
    omega

end Arriving

/-! ## Steps -/

/-- Some tokens further the reading is `r'`. Every one of them took some of
the text. -/
def Leads (r r' : Reading) : Prop :=
  ∃ n, n + r'.cursor.rest.length ≤ r.cursor.rest.length
    ∧ ∀ fuel, TokenStream.readAll (fuel + n) r = TokenStream.readAll fuel r'

theorem Leads.refl (r : Reading) : r.Leads r := ⟨0, by simp, fun _ => rfl⟩

theorem Leads.trans {r'' : Reading} (h : r.Leads r') (h' : r'.Leads r'') : r.Leads r'' := by
  obtain ⟨n, hn, hread⟩ := h
  obtain ⟨n', hn', hread'⟩ := h'
  refine ⟨n' + n, by omega, fun fuel => ?_⟩
  rw [← Nat.add_assoc, hread, hread']

/-- A reading is not finished as long as its last token does not say so. -/
theorem isFinished_of_kinds {before : List Token.Kind} {kind : Token.Kind}
    (h : r.kinds = before ++ [kind]) : r.isFinished = (kind == .streamEnd) := by
  rw [kinds, List.map_reverse, List.reverse_eq_iff, List.reverse_append, List.reverse_singleton,
    List.singleton_append] at h
  rw [isFinished]
  cases htokens : r.tokens with
  | nil =>
    rw [htokens] at h
    cases h
  | cons t ts =>
    rw [htokens] at h
    rw [← (List.cons.inj h).1]
    rfl

theorem leads_of_take (h : r.takeToken >>= dropStale = .ok r') {before : List Token.Kind}
    {kind : Token.Kind} (hkinds : r'.kinds = before ++ [kind]) (hkind : kind ≠ .streamEnd)
    (hless : r'.cursor.rest.length < r.cursor.rest.length) : r.Leads r' := by
  refine ⟨1, by omega, fun fuel => ?_⟩
  have hgoes : r'.isFinished = false := by
    rw [isFinished_of_kinds hkinds]
    exact beq_false_of_ne hkind
  simp only [TokenStream.readAll, h, hgoes, Bool.false_eq_true, if_false]

end Reading

end Vendoring.Yaml
