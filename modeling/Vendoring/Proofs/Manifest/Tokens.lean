import Vendoring.Manifest.Writing
import Vendoring.Proofs.Yaml.Allowed
import Vendoring.Proofs.Yaml.Taking

/-!
# The tokens of a manifest text

A manifest text is a list of sections, and a section is a list of fields, each
a text or a list of texts (`Writing.sections`). The tokens are found by
induction over these lists: one element, field or section further, the reading
stands in front of what is left of the text (`Reading.Stands`).
-/

namespace Vendoring.Manifest.Writing

open Yaml Yaml.Reading

/-! ## What is written -/

/-- A line of an inner mapping, or the lines of a list. -/
inductive Field
  | text (name text : String)
  | list (name : String) (texts : List String)

/-- A key of the outer mapping, with the inner mapping behind it. -/
structure Section where
  name : String
  fields : List Field

/-- The texts that name something are short, and made of letters and
underscores. -/
def IsKey (name : String) : Prop :=
  IsName name.toList ∧ name.toList.length ≤ 1024

instance (name : String) : Decidable (IsKey name) :=
  inferInstanceAs (Decidable (_ ∧ _))

def scalarKind (s : String) : Token.Kind :=
  .scalar s.toList (styleOf s.toList)

/-- The tokens of a key and its colon. -/
def keyKinds (name : String) : List Token.Kind :=
  [.key, .scalar name.toList .plain, .value]

def elementKinds (s : String) : List Token.Kind :=
  [.blockEntry, scalarKind s]

namespace Field

def name : Field → String
  | .text name _ => name
  | .list name _ => name

def chars : Field → List Char
  | .text name s => textField name s
  | .list name texts => listField name texts

/-- What stands behind the colon. -/
def content : Field → List Char
  | .text _ s => writtenScalar textIndent s.toList
  | .list _ texts => if texts.isEmpty then [' ', '[', ']', '\n'] else '\n' :: texts.flatMap element

def contentKinds : Field → List Token.Kind
  | .text _ s => [scalarKind s]
  | .list _ texts =>
    if texts.isEmpty then [.flowSequenceStart, .flowSequenceEnd] else texts.flatMap elementKinds

def kinds (f : Field) : List Token.Kind := keyKinds f.name ++ f.contentKinds

end Field

namespace Section

def chars (s : Section) : List Char :=
  heading s.name ++ s.fields.flatMap Field.chars

/-- The end of the inner mapping comes with what follows it. -/
def kinds (s : Section) : List Token.Kind :=
  keyKinds s.name ++ .blockMappingStart :: s.fields.flatMap Field.kinds

structure Named (s : Section) : Prop where
  name : IsKey s.name
  nonempty : s.fields ≠ []
  fields : ∀ f ∈ s.fields, IsKey f.name

end Section

/-! ## One element further -/

/-- What is left behind a field or an element. -/
def Follows (rest : List Char) : Prop :=
  ∃ column body, column ≤ 2 ∧ IsPlaced rest column body

theorem follows_nil : Follows [] := ⟨0, [], by omega, rfl, by simp [Begins]⟩

/-- The blocks that are open between the fields of a section. -/
def inside : List Int := [2, 0, -1]

variable {r : Yaml.Reading} {rest : List Char} {before : List Token.Kind}

theorem inside_last (column : Nat) : ∀ i ∈ inside.getLast?, i ≤ (column : Int) := by
  intro i hi
  obtain rfl : -1 = i := Option.some.inj hi
  omega

theorem stands_of_scalar {s : String} (hrest : Follows rest)
    (h : r.Awaits (writtenScalar textIndent s.toList ++ rest) inside before) :
    ∃ r', r.Leads r' ∧ r'.Stands rest inside (before ++ [scalarKind s]) := by
  obtain ⟨column, body, hcolumn, rfl, hbody⟩ := hrest
  obtain ⟨r', hleads, hreaches⟩ := h.takeScalar hbody (inside_last column) hcolumn
  exact ⟨r', hleads, column, body, ⟨rfl, hbody⟩, hreaches⟩

theorem begins_dash (rest : List Char) : Begins ('-' :: rest) := by
  intro c hc
  obtain rfl : '-' = c := Option.some.inj hc
  decide

theorem begins_name {name : String} (h : IsKey name) (rest : List Char) :
    Begins (name.toList ++ rest) := by
  obtain ⟨c, w, hname⟩ := List.exists_cons_of_ne_nil h.1.nonempty
  rw [hname]
  intro d hd
  obtain rfl : c = d := Option.some.inj hd
  have hc := h.1.letters c (by rw [hname]; exact List.mem_cons_self ..)
  obtain ⟨hblank, hbreak⟩ := word_of_letter hc
  exact ⟨hblank, hbreak, ne_of_letter hc (by decide), ne_of_letter hc (by decide)⟩

theorem placed_element (s : String) (rest : List Char) :
    IsPlaced (element s ++ rest) 2 ('-' :: (writtenScalar textIndent s.toList ++ rest)) :=
  ⟨rfl, begins_dash _⟩

theorem follows_elements {texts : List String} (hrest : Follows rest) :
    Follows (texts.flatMap element ++ rest) := by
  cases texts with
  | nil => exact hrest
  | cons s texts =>
    rw [List.flatMap_cons, List.append_assoc]
    exact ⟨2, _, Nat.le_refl 2, placed_element s _⟩

theorem endsWord_writtenScalar (cs rest : List Char) :
    endsWord (writtenScalar textIndent cs ++ rest).head? = true := by
  unfold writtenScalar
  cases styleOf cs <;> rfl

theorem stands_of_element {s : String} (hrest : Follows rest)
    (h : r.Stands (element s ++ rest) inside before) :
    ∃ r', r.Leads r' ∧ r'.Stands rest inside (before ++ elementKinds s) := by
  have hreaches := h.reaches (placed_element s rest)
  have hclosing : before ++ closing 2 inside = before := List.append_nil _
  rw [hclosing] at hreaches
  obtain ⟨r₁, hleads, hawaits⟩ :=
    hreaches.takeDash (endsWord_writtenScalar _ _) (by decide)
  obtain ⟨r₂, hleads', hstands⟩ := stands_of_scalar hrest hawaits
  rw [List.append_assoc] at hstands
  exact ⟨r₂, hleads.trans hleads', hstands⟩

theorem stands_of_elements {texts : List String} (hrest : Follows rest)
    (h : r.Stands (texts.flatMap element ++ rest) inside before) :
    ∃ r', r.Leads r' ∧ r'.Stands rest inside (before ++ texts.flatMap elementKinds) := by
  induction texts generalizing r before with
  | nil => exact ⟨r, Leads.refl r, by simpa using h⟩
  | cons s texts ih =>
    rw [List.flatMap_cons, List.append_assoc] at h
    obtain ⟨r₁, hleads, hstands⟩ := stands_of_element (follows_elements hrest) h
    obtain ⟨r₂, hleads', hstands'⟩ := ih hstands
    rw [List.append_assoc] at hstands'
    exact ⟨r₂, hleads.trans hleads', hstands'⟩

/-! ## One field further -/

theorem placed_field {f : Field} (h : IsKey f.name) (rest : List Char) :
    IsPlaced (f.chars ++ rest) 2 (f.name.toList ++ ':' :: (f.content ++ rest)) := by
  refine ⟨?_, begins_name h _⟩
  cases f <;> simp [Field.chars, textField, listField, Field.name, Field.content, List.replicate]

theorem follows_fields {fields : List Field} (hkeys : ∀ f ∈ fields, IsKey f.name)
    (hrest : Follows rest) : Follows (fields.flatMap Field.chars ++ rest) := by
  cases fields with
  | nil => exact hrest
  | cons f fields =>
    rw [List.flatMap_cons, List.append_assoc]
    exact ⟨2, _, Nat.le_refl 2, placed_field (hkeys f (List.mem_cons_self ..)) _⟩

theorem endsWord_content (f : Field) (rest : List Char) :
    endsWord (f.content ++ rest).head? = true := by
  cases f with
  | text name s => exact endsWord_writtenScalar _ _
  | list name texts =>
    rw [Field.content]
    split <;> rfl

theorem stands_of_content {f : Field} (hrest : Follows rest) (hrefused : r.keyAllowed = false)
    (h : r.Awaits (f.content ++ rest) inside before) :
    ∃ r', r.Leads r' ∧ r'.Stands rest inside (before ++ f.contentKinds) := by
  cases f with
  | text name s => exact stands_of_scalar hrest h
  | list name texts =>
    rw [Field.content] at h
    rw [Field.contentKinds]
    cases texts with
    | nil =>
      obtain ⟨column, body, -, rfl, hbody⟩ := hrest
      obtain ⟨r', hleads, hreaches⟩ := h.takeEmptyList hbody (inside_last column) hrefused
      exact ⟨r', hleads, column, body, ⟨rfl, hbody⟩, hreaches⟩
    | cons s texts =>
      obtain ⟨hplaced, hbegins⟩ := placed_element s (texts.flatMap element ++ rest)
      have hlist : (s :: texts).flatMap element ++ rest
          = List.replicate 2 ' ' ++ '-' :: (writtenScalar textIndent s.toList
            ++ (texts.flatMap element ++ rest)) := by
        rw [List.flatMap_cons, List.append_assoc, hplaced]
      rw [List.isEmpty_cons, if_neg Bool.false_ne_true] at h ⊢
      rw [List.cons_append, hlist] at h
      have hreaches := h.reaches_nextLine hbegins (inside_last 2)
      refine stands_of_elements hrest ⟨2, _, ⟨hlist, hbegins⟩, hreaches⟩

/-- The first field opens the inner mapping. -/
theorem stands_of_field {f : Field} (hkey : IsKey f.name) (hrest : Follows rest)
    {indents : List Int} (hindents : indents = inside ∨ indents = [0, -1])
    (h : r.Stands (f.chars ++ rest) indents before) :
    ∃ r', r.Leads r' ∧ r'.Stands rest inside (before ++ opening 2 indents ++ f.kinds) := by
  have hreaches := h.reaches (placed_field hkey rest)
  have hopens : within 2 indents = indents ∧ closing 2 indents = []
      ∧ opened 2 indents = inside := by
    rcases hindents with rfl | rfl <;> decide
  obtain ⟨hwithin, hclosing, hopened⟩ := hopens
  rw [hwithin, hclosing, List.append_nil] at hreaches
  obtain ⟨r₁, hleads, hawaits, hrefused⟩ :=
    hreaches.takeName hkey.1 hkey.2 (endsWord_content f rest)
  rw [hopened] at hawaits
  obtain ⟨r₂, hleads', hstands⟩ := stands_of_content hrest hrefused hawaits
  rw [List.append_assoc] at hstands
  exact ⟨r₂, hleads.trans hleads', hstands⟩

theorem stands_of_fields {fields : List Field} (hkeys : ∀ f ∈ fields, IsKey f.name)
    (hrest : Follows rest) (h : r.Stands (fields.flatMap Field.chars ++ rest) inside before) :
    ∃ r', r.Leads r' ∧ r'.Stands rest inside (before ++ fields.flatMap Field.kinds) := by
  induction fields generalizing r before with
  | nil => exact ⟨r, Leads.refl r, by simpa using h⟩
  | cons f fields ih =>
    have hkeys' : ∀ f ∈ fields, IsKey f.name := fun g hg => hkeys g (List.mem_cons_of_mem _ hg)
    rw [List.flatMap_cons, List.append_assoc] at h
    obtain ⟨r₁, hleads, hstands⟩ := stands_of_field (hkeys f (List.mem_cons_self ..))
      (follows_fields hkeys' hrest) (Or.inl rfl) h
    obtain ⟨r₂, hleads', hstands'⟩ := ih hkeys' hstands
    have hnone : opening 2 inside = [] := rfl
    rw [hnone, List.append_nil, List.append_assoc] at hstands'
    exact ⟨r₂, hleads.trans hleads', hstands'⟩

/-! ## One section further -/

theorem placed_section {s : Section} (h : IsKey s.name) (rest : List Char) :
    IsPlaced (s.chars ++ rest) 0
      (s.name.toList ++ ':' :: '\n' :: (s.fields.flatMap Field.chars ++ rest)) := by
  refine ⟨?_, begins_name h _⟩
  simp [Section.chars, heading]

theorem follows_sections {sections : List Section} (hnamed : ∀ s ∈ sections, s.Named) :
    Follows (sections.flatMap Section.chars) := by
  cases sections with
  | nil => exact follows_nil
  | cons s sections =>
    rw [List.flatMap_cons]
    exact ⟨0, _, Nat.zero_le 2, placed_section (hnamed s (List.mem_cons_self ..)).name _⟩

/-- The first section opens the outer mapping; another one closes the inner
mapping in front of it. -/
theorem stands_of_section {s : Section} (hnamed : s.Named) (hrest : Follows rest)
    {indents : List Int} (hindents : indents = inside ∨ indents = [-1])
    (h : r.Stands (s.chars ++ rest) indents before) :
    ∃ r', r.Leads r' ∧ r'.Stands rest inside
      (before ++ closing 0 indents ++ opening 0 (within 0 indents) ++ s.kinds) := by
  have hreaches := h.reaches (placed_section hnamed.name rest)
  obtain ⟨r₁, hleads, hawaits, -⟩ := hreaches.takeName hnamed.name.1 hnamed.name.2 rfl
  have hopened : opened 0 (within 0 indents) = [0, -1] := by
    rcases hindents with rfl | rfl <;> decide
  rw [hopened] at hawaits
  obtain ⟨f, fields, hfields⟩ := List.exists_cons_of_ne_nil hnamed.nonempty
  have hkeys := hnamed.fields
  rw [hfields, List.flatMap_cons, List.append_assoc] at hawaits
  rw [hfields] at hkeys
  have hkeys' : ∀ f ∈ fields, IsKey f.name := fun g hg => hkeys g (List.mem_cons_of_mem _ hg)
  have hkey := hkeys f (List.mem_cons_self ..)
  obtain ⟨hplaced, hbegins⟩ := placed_field hkey (fields.flatMap Field.chars ++ rest)
  rw [hplaced] at hawaits
  have hreaches₁ := hawaits.reaches_nextLine hbegins (by simp)
  obtain ⟨r₂, hleads', hstands⟩ := stands_of_field hkey (follows_fields hkeys' hrest) (Or.inr rfl)
    ⟨2, _, ⟨hplaced, hbegins⟩, hreaches₁⟩
  obtain ⟨r₃, hleads'', hstands'⟩ := stands_of_fields hkeys' hrest hstands
  refine ⟨r₃, hleads.trans (hleads'.trans hleads''), ?_⟩
  have hkinds : s.kinds = keyKinds s.name ++ (.blockMappingStart :: f.kinds)
      ++ fields.flatMap Field.kinds := by
    rw [Section.kinds, hfields, List.flatMap_cons]
    simp
  rw [hkinds]
  simpa [keyKinds, opening] using hstands'

/-- The tokens of what is left, in front of a section or the end. -/
theorem reaches_of_sections {sections : List Section} (hnamed : ∀ s ∈ sections, s.Named)
    (h : r.Stands (sections.flatMap Section.chars) inside before) :
    ∃ r', r.Leads r' ∧ r'.Reaches [] 0 [0, -1]
      (before ++ .blockEnd :: sections.flatMap fun s => s.kinds ++ [.blockEnd]) := by
  induction sections generalizing r before with
  | nil =>
    have hplaced : IsPlaced [] 0 [] := ⟨rfl, by simp [Begins]⟩
    exact ⟨r, Leads.refl r, h.reaches hplaced⟩
  | cons s sections ih =>
    have hnamed' : ∀ s ∈ sections, s.Named := fun t ht => hnamed t (List.mem_cons_of_mem _ ht)
    rw [List.flatMap_cons] at h
    obtain ⟨r₁, hleads, hstands⟩ := stands_of_section (hnamed s (List.mem_cons_self ..))
      (follows_sections hnamed') (Or.inl rfl) h
    obtain ⟨r₂, hleads', hreaches⟩ := ih hnamed' hstands
    refine ⟨r₂, hleads.trans hleads', ?_⟩
    simpa [opening, closing, within, inside] using hreaches

/-! ## The whole text -/

theorem allAllowed_key {name : String} (h : IsKey name) : AllAllowed name.toList := by
  intro c hc
  have hletter := h.1.letters c hc
  have halpha : c.isAlpha = (c.isUpper || c.isLower) := rfl
  have hupper : c.isUpper = decide (65 ≤ c.val.toNat ∧ c.val.toNat ≤ 90) := rfl
  have hlower : c.isLower = (decide (97 ≤ c.val.toNat) && decide (c.val.toNat ≤ 122)) := rfl
  rw [halpha, hupper, hlower] at hletter
  simp only [Bool.or_eq_true, Bool.and_eq_true, decide_eq_true_eq, beq_iff_eq] at hletter
  rcases hletter with (⟨hlow, hhigh⟩ | ⟨hlow, hhigh⟩) | rfl
  · exact isAllowed_of_ascii (Nat.le_trans (by decide) hlow) (Nat.le_trans hhigh (by decide))
  · exact isAllowed_of_ascii (Nat.le_trans (by decide) hlow) (Nat.le_trans hhigh (by decide))
  · decide

theorem allAllowed_field {f : Field} (h : IsKey f.name) : AllAllowed f.chars := by
  have hkey := allAllowed_key h
  have helements (texts : List String) : AllAllowed (texts.flatMap element) :=
    AllAllowed.flatMap fun s _ => AllAllowed.cons (by decide) (AllAllowed.cons (by decide)
      (AllAllowed.cons (by decide) (allAllowed_writtenScalar textIndent s.toList)))
  have hcontent : AllAllowed f.content := by
    cases f with
    | text name s => exact allAllowed_writtenScalar textIndent s.toList
    | list name texts =>
      rw [Field.content]
      split_ifs
      · decide
      · exact AllAllowed.cons (by decide) (helements texts)
  obtain ⟨hplaced, -⟩ := placed_field h []
  rw [List.append_nil, List.append_nil] at hplaced
  rw [hplaced]
  exact AllAllowed.append (by decide) (hkey.append (AllAllowed.cons (by decide) hcontent))

theorem allAllowed_section {s : Section} (h : s.Named) : AllAllowed s.chars :=
  AllAllowed.append ((allAllowed_key h.name).append (by decide))
    (AllAllowed.flatMap fun f hf => allAllowed_field (h.fields f hf))

/-- All tokens of a text that is made of sections. -/
theorem tokens_of_sections {sections : List Section} (hne : sections ≠ [])
    (hnamed : ∀ s ∈ sections, s.Named) :
    (TokenStream.ofText (sections.flatMap Section.chars)).problem = none
      ∧ (TokenStream.ofText (sections.flatMap Section.chars)).tokens.map Token.kind
        = .streamStart :: .blockMappingStart :: (sections.flatMap fun s => s.kinds ++ [.blockEnd])
          ++ [.blockEnd, .streamEnd] := by
  have hallowed : AllAllowed (sections.flatMap Section.chars) :=
    AllAllowed.flatMap fun s hs => allAllowed_section (hnamed s hs)
  rw [TokenStream.ofText, hallowed.forbiddenOffset?]
  obtain ⟨s, rest, rfl⟩ := List.exists_cons_of_ne_nil hne
  have hnamed' : ∀ s ∈ rest, s.Named := fun t ht => hnamed t (List.mem_cons_of_mem _ ht)
  have hs := hnamed s (List.mem_cons_self ..)
  let start := Reading.start ⟨(s :: rest).flatMap Section.chars, {}⟩
  have hstart : start.Stands (s.chars ++ rest.flatMap Section.chars) [-1] [.streamStart] := by
    obtain ⟨hplaced, hbegins⟩ := placed_section hs.name (rest.flatMap Section.chars)
    have hat : start.At _ 0 [-1] [.streamStart] := ⟨hplaced, rfl, rfl, rfl⟩
    exact ⟨0, _, ⟨hplaced, hbegins⟩, reaches_here hbegins hat rfl rfl (by simp)⟩
  obtain ⟨r₁, hleads, hstands⟩ :=
    stands_of_section hs (follows_sections hnamed') (Or.inr rfl) hstart
  obtain ⟨r₂, hleads', hreaches⟩ := reaches_of_sections hnamed' hstands
  obtain ⟨n, hn, hread⟩ := hleads.trans hleads'
  have hlength : n ≤ ((s :: rest).flatMap Section.chars).length := Nat.le_of_add_right_le hn
  obtain ⟨fuel, hfuel⟩ :
      ∃ fuel, 2 * ((s :: rest).flatMap Section.chars).length + 2 = fuel + 1 + n :=
    ⟨2 * ((s :: rest).flatMap Section.chars).length + 1 - n, by omega⟩
  obtain ⟨hproblem, htokens⟩ := hreaches.takeEnd fuel
  rw [hfuel, hread]
  refine ⟨hproblem, ?_⟩
  simp only [htokens, List.flatMap_cons]
  simp [opening, closing, within]

/-! ## The sections of a manifest -/

def settingsFields (s : AggregateSettings) : List Field :=
  [.text "output" s.output.text, .text "undef_macro" s.undefMacro,
    .list "fragment_suffixes" s.fragmentSuffixes]

def layoutFields (l : Layout) : List Field :=
  [.text "source" l.source.text, .text "destination" l.destination.text,
    .list "files" (l.files.map Entry.text)]

def sections (m : Manifest) : List Section :=
  [⟨"amalgamation", settingsFields m.aggregate⟩, ⟨"headers", layoutFields m.headers⟩,
    ⟨"sources", layoutFields m.sources⟩, ⟨"tests", layoutFields m.tests⟩]

theorem settings_named (name : String) (hname : IsKey name) (s : AggregateSettings) :
    Section.Named ⟨name, settingsFields s⟩ where
  name := hname
  nonempty := List.cons_ne_nil _ _
  fields := by
    have houtput : IsKey "output" := by decide
    have hmacro : IsKey "undef_macro" := by decide
    have hsuffixes : IsKey "fragment_suffixes" := by decide
    simp [settingsFields, Field.name, houtput, hmacro, hsuffixes]

theorem layout_named (name : String) (hname : IsKey name) (l : Layout) :
    Section.Named ⟨name, layoutFields l⟩ where
  name := hname
  nonempty := List.cons_ne_nil _ _
  fields := by
    have hsource : IsKey "source" := by decide
    have hdestination : IsKey "destination" := by decide
    have hfiles : IsKey "files" := by decide
    simp [layoutFields, Field.name, hsource, hdestination, hfiles]

theorem sections_named (m : Manifest) : ∀ s ∈ sections m, s.Named := by
  have hsettings := settings_named "amalgamation" (by decide) m.aggregate
  have hheaders := layout_named "headers" (by decide) m.headers
  have hsources := layout_named "sources" (by decide) m.sources
  have htests := layout_named "tests" (by decide) m.tests
  simp [sections, hsettings, hheaders, hsources, htests]

theorem toText_toList (m : Manifest) :
    m.toText.toList = (sections m).flatMap Section.chars := by
  simp [toText, sections, Section.chars, settings, layout, settingsFields,
    layoutFields, Field.chars]

end Vendoring.Manifest.Writing
