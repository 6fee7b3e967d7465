import Mathlib.Data.List.Nodup
import Vendoring.Manifest.Reading
import Vendoring.Proofs.Manifest.Events

/-!
# A written manifest is read back

The document of a manifest text holds one item for each event of its mapping.
`Reads` says that a reader takes certain items for a certain value, whatever
their marks, and a mapping that lists the fields of a shape in order is read
field by field (`reads_shape`). So every manifest is the one that its text holds
(`ofText_toText`).
-/

namespace Vendoring.Manifest

open Yaml

namespace Reading

/-! ## Readers -/

/-- Items that begin with `items` are read as `a`, up to what is behind. -/
def Reads {α : Type} (read : Document → Trail → Items → Except Unreadable (α × Items))
    (items : List Item) (a : α) : Prop :=
  ∀ doc trail (marked : Items) behind, marked.map Prod.fst = items ++ behind →
    ∃ rest : Items, rest.map Prod.fst = behind ∧ read doc trail marked = .ok (a, rest)

/-- A text as the writer writes it. -/
def wordItem (s : String) : Item :=
  .scalar ⟨none, s.toList, styleOf s.toList⟩

def keyItem (name : String) : Item :=
  .scalar ⟨none, name.toList, .plain⟩

theorem text_scalar (doc : Document) (trail : Trail) (expected : Expected) (s : String)
    (style : ScalarStyle) (m : Mark) (rest : Items) :
    text doc trail expected ((.scalar ⟨none, s.toList, style⟩, m) :: rest) = .ok (s, rest) := by
  rw [text, atTarget, textItem, String.ofList_toList]
  nofun

theorem reads_text (expected : Expected) (s : String) :
    Reads (text · · expected ·) [wordItem s] s := by
  intro doc trail marked behind hmarked
  obtain ⟨⟨item, m⟩, rest, rfl, rfl, hrest⟩ := List.map_eq_cons_iff.mp hmarked
  exact ⟨rest, hrest, text_scalar ..⟩

theorem Reads.map {α β : Type} {read : Document → Trail → Items → Except Unreadable (α × Items)}
    {items : List Item} {a : α} (h : Reads read items a) (f : α → β) :
    Reads (fun doc trail items => (read doc trail items).map fun (a, rest) => (f a, rest)) items
      (f a) := by
  intro doc trail marked behind hmarked
  obtain ⟨rest, hrest, hread⟩ := h doc trail marked behind hmarked
  exact ⟨rest, hrest, by simp only [hread, Except.map]⟩

theorem elements_words (doc : Document) (trail : Trail) {texts : List String} (index : Nat)
    {marked : Items} {behind : List Item}
    (h : marked.map Prod.fst = texts.map wordItem ++ .sequenceEnd :: behind) :
    ∃ rest : Items, rest.map Prod.fst = behind
      ∧ elements doc trail index marked = .ok (texts, rest) := by
  induction texts generalizing marked index with
  | nil =>
    obtain ⟨⟨item, m⟩, rest, rfl, rfl, hrest⟩ := List.map_eq_cons_iff.mp h
    exact ⟨rest, hrest, rfl⟩
  | cons s texts ih =>
    obtain ⟨⟨item, m⟩, rest, rfl, rfl, hrest⟩ := List.map_eq_cons_iff.mp h
    obtain ⟨rest', hrest', hread⟩ := ih (index + 1) hrest
    refine ⟨rest', hrest', ?_⟩
    rw [wordItem, elements, text_scalar]
    · simp only [bind, Except.bind, hread]
      rfl
    · nofun

theorem reads_texts (texts : List String) :
    Reads Reading.texts (.sequenceStart :: (texts.map wordItem ++ [.sequenceEnd])) texts := by
  intro doc trail marked behind hmarked
  rw [List.cons_append, List.append_assoc, List.singleton_append] at hmarked
  obtain ⟨⟨item, m⟩, rest, rfl, rfl, hrest⟩ := List.map_eq_cons_iff.mp hmarked
  obtain ⟨rest', hrest', hread⟩ := elements_words doc trail 0 hrest
  exact ⟨rest', hrest', hread⟩

theorem reads_path (p : Path) : Reads path [wordItem p.text] p :=
  (reads_text .pathText p.text).map Path.mk

theorem reads_word (s : String) : Reads word [wordItem s] s :=
  reads_text .text s

theorem reads_entry (e : Entry) : Reads entry [wordItem e.text] e :=
  (reads_text .text e.text).map Entry.mk

theorem reads_entries (es : List Entry) :
    Reads entries (.sequenceStart :: ((es.map Entry.text).map wordItem ++ [.sequenceEnd])) es := by
  have h := (reads_texts (es.map Entry.text)).map (List.map Entry.mk)
  have hback : (es.map Entry.text).map Entry.mk = es := by
    rw [List.map_map]
    exact List.map_id es
  rw [hback] at h
  exact h

/-! ## Mappings -/

section Mappings

variable {σ α : Type}

/-- What stands behind the key of a field, and what it sets. -/
abbrev Setting (σ : Type) := List Item × (σ → σ)

/-- The pairs of a mapping that lists these fields in order. -/
def pairItems : List (Field σ) → List (Setting σ) → List Item
  | f :: fields, v :: settings => keyItem f.name :: (v.1 ++ pairItems fields settings)
  | _, _ => []

/-- No field is set before its turn. -/
def Unset : List (Field σ) → List (Setting σ) → σ → Prop
  | f :: fields, v :: settings, draft => f.isSet draft = false ∧ Unset fields settings (v.2 draft)
  | _, _, _ => True

def fill (settings : List (Setting σ)) (draft : σ) : σ :=
  settings.foldl (fun draft v => v.2 draft) draft

theorem Reads.field {read : Document → Trail → Items → Except Unreadable (α × Items)}
    {items : List Item} {a : α} (h : Reads read items a) (name : String) (isSet : σ → Bool)
    (set : α → σ → σ) : Reads (Field.of name isSet set read).read items (set a) :=
  h.map set

theorem find?_name {all : List (Field σ)} (hnodup : (all.map Field.name).Nodup) {f : Field σ}
    (hf : f ∈ all) : all.find? (fun g => g.name == f.name) = some f := by
  cases hfind : all.find? (fun g => g.name == f.name) with
  | none => exact absurd (List.find?_eq_none.mp hfind f hf) (by simp)
  | some g =>
    have hname := List.find?_some hfind
    rw [List.inj_on_of_nodup_map hnodup (List.mem_of_find?_eq_some hfind) hf (beq_iff_eq.mp hname)]

theorem pairs_of_fields {all fields : List (Field σ)} (hnodup : (all.map Field.name).Nodup)
    (hall : ∀ f ∈ fields, f ∈ all) {settings : List (Setting σ)}
    (hreads : List.Forall₂ (fun f v => Reads f.read v.1 v.2) fields settings) (doc : Document)
    (trail : Trail) (m : Mark) {draft : σ} (hunset : Unset fields settings draft) {marked : Items}
    {behind : List Item}
    (hmarked : marked.map Prod.fst = pairItems fields settings ++ .mappingEnd :: behind)
    {fuel : Nat} (hfuel : fields.length < fuel) :
    ∃ rest : Items, rest.map Prod.fst = behind
      ∧ pairs doc all trail m fuel draft marked = .ok (fill settings draft, rest) := by
  obtain ⟨k, rfl⟩ : ∃ k, fuel = k + 1 := ⟨fuel - 1, by omega⟩
  induction hreads generalizing draft marked k with
  | nil =>
    obtain ⟨⟨item, n⟩, rest, rfl, rfl, hrest⟩ := List.map_eq_cons_iff.mp hmarked
    exact ⟨rest, hrest, rfl⟩
  | @cons f v fields settings hread _ ih =>
    rw [pairItems, List.cons_append, List.append_assoc] at hmarked
    obtain ⟨⟨item, n⟩, rest, rfl, rfl, hrest⟩ := List.map_eq_cons_iff.mp hmarked
    obtain ⟨rest₁, hrest₁, hvalue⟩ :=
      hread doc (trail ++ [stepOfKey (keyItem f.name)]) rest _ hrest
    rw [List.length_cons] at hfuel
    obtain ⟨rest₂, hrest₂, hmore⟩ := ih (fun g hg => hall g (List.mem_cons_of_mem _ hg)) hunset.2
      hrest₁ (k - 1) (by omega)
    have hfind := find?_name hnodup (hall f (List.mem_cons_self ..))
    refine ⟨rest₂, hrest₂, ?_⟩
    have hk : k - 1 + 1 = k := by omega
    rw [hk] at hmore
    rw [keyItem, pairs, text_scalar]
    · simp only [bind, Except.bind, hfind, hunset.1, Bool.false_eq_true, if_false]
      rw [keyItem] at hvalue
      simp only [hvalue]
      exact hmore
    · nofun

theorem length_le_pairItems {R : Field σ → Setting σ → Prop} {fields : List (Field σ)}
    {settings : List (Setting σ)} (h : List.Forall₂ R fields settings) :
    fields.length ≤ (pairItems fields settings).length := by
  induction h with
  | nil => exact Nat.le_refl 0
  | cons _ _ ih =>
    simp only [pairItems, List.length_cons, List.length_append]
    omega

/-- A mapping that lists all fields of a shape in order. -/
theorem reads_shape {shape : Shape σ α} (hnodup : (shape.fields.map Field.name).Nodup)
    {settings : List (Setting σ)}
    (hreads : List.Forall₂ (fun f v => Reads f.read v.1 v.2) shape.fields settings)
    (hunset : Unset shape.fields settings shape.empty) {a : α}
    (hfinish : shape.finish (fill settings shape.empty) = .ok a) :
    Reads shape.read (.mappingStart :: (pairItems shape.fields settings ++ [.mappingEnd])) a := by
  intro doc trail marked behind hmarked
  rw [List.cons_append, List.append_assoc, List.singleton_append] at hmarked
  obtain ⟨⟨item, m⟩, rest, rfl, rfl, hrest⟩ := List.map_eq_cons_iff.mp hmarked
  have hfuel : shape.fields.length < rest.length := by
    have hle := length_le_pairItems hreads
    have hlength := congrArg List.length hrest
    rw [List.length_map, List.length_append, List.length_cons] at hlength
    omega
  obtain ⟨rest', hrest', hread⟩ :=
    pairs_of_fields hnodup (fun f hf => hf) hreads doc trail m hunset hrest hfuel
  refine ⟨rest', hrest', ?_⟩
  rw [Shape.read, atTarget]
  · simp only [isAbsent, Bool.false_eq_true, if_false, bind, Except.bind, hread]
    rw [Shape.finishAt, hfinish]
  · nofun

end Mappings

/-! ## Manifests -/

open Writing

def fieldItems : Writing.Field → List Item
  | .text name s => [keyItem name, wordItem s]
  | .list name texts =>
    keyItem name :: .sequenceStart :: (texts.map wordItem ++ [.sequenceEnd])

def mappingItems (fields : List Writing.Field) : List Item :=
  .mappingStart :: (fields.flatMap fieldItems ++ [.mappingEnd])

def sectionItems (s : Writing.Section) : List Item :=
  keyItem s.name :: mappingItems s.fields

def layoutSettings (l : Layout) : List (Setting LayoutDraft) :=
  [([wordItem l.source.text], fun d => { d with source := some l.source }),
    ([wordItem l.destination.text], fun d => { d with destination := some l.destination }),
    (.sequenceStart :: ((l.files.map Entry.text).map wordItem ++ [.sequenceEnd]),
      fun d => { d with files := some l.files })]

theorem reads_layout (l : Layout) :
    Reads layoutShape.read (mappingItems (layoutFields l)) l := by
  have hpairs : (layoutFields l).flatMap fieldItems
      = pairItems layoutShape.fields (layoutSettings l) := by
    simp [layoutFields, fieldItems, pairItems, layoutShape, layoutSettings, Reading.Field.of]
  have hreads : List.Forall₂ (fun f v => Reads f.read v.1 v.2) layoutShape.fields
      (layoutSettings l) :=
    .cons ((reads_path l.source).field _ _ _) (.cons ((reads_path l.destination).field _ _ _)
      (.cons ((reads_entries l.files).field _ _ _) .nil))
  rw [mappingItems, hpairs]
  exact reads_shape (by decide) hreads ⟨rfl, rfl, rfl, trivial⟩ rfl

def aggregateSettings (s : AggregateSettings) : List (Setting SettingsDraft) :=
  [([wordItem s.output.text], fun d => { d with output := some s.output }),
    ([wordItem s.undefMacro], fun d => { d with undefMacro := some s.undefMacro }),
    (.sequenceStart :: (s.fragmentSuffixes.map wordItem ++ [.sequenceEnd]),
      fun d => { d with fragmentSuffixes := some s.fragmentSuffixes })]

theorem reads_settings (s : AggregateSettings) :
    Reads settingsShape.read (mappingItems (settingsFields s)) s := by
  have hpairs : (settingsFields s).flatMap fieldItems
      = pairItems settingsShape.fields (aggregateSettings s) := by
    simp [settingsFields, fieldItems, pairItems, settingsShape, aggregateSettings, Reading.Field.of]
  have hreads : List.Forall₂ (fun f v => Reads f.read v.1 v.2) settingsShape.fields
      (aggregateSettings s) :=
    .cons ((reads_entry s.output).field _ _ _) (.cons ((reads_word s.undefMacro).field _ _ _)
      (.cons ((reads_texts s.fragmentSuffixes).field _ _ _) .nil))
  rw [mappingItems, hpairs]
  exact reads_shape (by decide) hreads ⟨rfl, rfl, rfl, trivial⟩ rfl

def manifestSettings (m : Manifest) : List (Setting ManifestDraft) :=
  [(mappingItems (settingsFields m.aggregate), fun d => { d with aggregate := some m.aggregate }),
    (mappingItems (layoutFields m.headers), fun d => { d with headers := some m.headers }),
    (mappingItems (layoutFields m.sources), fun d => { d with sources := some m.sources }),
    (mappingItems (layoutFields m.tests), fun d => { d with tests := some m.tests })]

theorem reads_manifest (m : Manifest) : Reads manifestShape.read
    (.mappingStart :: ((sections m).flatMap sectionItems ++ [.mappingEnd])) m := by
  have hpairs : (sections m).flatMap sectionItems
      = pairItems manifestShape.fields (manifestSettings m) := by
    simp [sections, sectionItems, mappingItems, pairItems, manifestShape, manifestSettings,
      Reading.Field.of]
  have hreads : List.Forall₂ (fun f v => Reads f.read v.1 v.2) manifestShape.fields
      (manifestSettings m) :=
    .cons ((reads_settings m.aggregate).field _ _ _) (.cons ((reads_layout m.headers).field _ _ _)
      (.cons ((reads_layout m.sources).field _ _ _)
        (.cons ((reads_layout m.tests).field _ _ _) .nil)))
  rw [hpairs]
  exact reads_shape (by decide) hreads ⟨rfl, rfl, rfl, rfl, trivial⟩ rfl

/-! ## The document of a manifest text -/

/-- The event that gives rise to an item, if one without properties does. -/
def event? : Item → Option Event
  | .scalar s => some (.scalar none s)
  | .sequenceStart => some (.sequenceStart none)
  | .sequenceEnd => some .sequenceEnd
  | .mappingStart => some (.mappingStart none)
  | .mappingEnd => some .mappingEnd
  | .alias _ => none
  | .absent => none

theorem event?_field (f : Writing.Field) : (fieldItems f).map event? = f.events.map some := by
  cases f <;> simp [fieldItems, Field.events, Field.contentEvents, Writing.Field.name, keyEvent,
    textEvent, scalarEvent, keyItem, wordItem, event?]

theorem event?_section (s : Writing.Section) :
    (sectionItems s).map event? = s.events.map some := by
  have hfields : (s.fields.flatMap fieldItems).map event?
      = (s.fields.flatMap Field.events).map some := by
    simp only [List.map_flatMap, event?_field]
  simp [sectionItems, mappingItems, Section.events, keyItem, keyEvent, scalarEvent, event?, hfields]

theorem collect_items (problem : Option Problem) {items : List Item} {marked : List (Event × Mark)}
    (h : items.map event? = (marked.map Prod.fst).map some) (d : Document.Draft)
    (rest : List (Event × Mark)) :
    ∃ taken : Items, taken.map Prod.fst = items
      ∧ Document.collect problem d (marked ++ rest)
        = Document.collect problem { d with items := taken.reverse ++ d.items } rest := by
  induction items generalizing marked d with
  | nil =>
    obtain rfl : marked = [] := by simpa using h.symm
    exact ⟨[], rfl, rfl⟩
  | cons item items ih =>
    cases marked with
    | nil => cases h
    | cons pair marked =>
      obtain ⟨event, m⟩ := pair
      obtain ⟨hevent, hmarked⟩ := List.cons.inj h
      obtain ⟨taken, htaken, hcollect⟩ := ih hmarked (d.add item m)
      refine ⟨(item, m) :: taken, by rw [List.map_cons, htaken], ?_⟩
      rw [List.reverse_cons, List.append_assoc]
      refine Eq.trans ?_ hcollect
      cases item <;> cases hevent <;> rfl

/-- The document of a text that is made of sections. -/
theorem document_of_sections {sections : List Writing.Section} (hne : sections ≠ [])
    (hnamed : ∀ s ∈ sections, s.Named) :
    (Document.ofText (sections.flatMap Section.chars)).ending = .whole
      ∧ (Document.ofText (sections.flatMap Section.chars)).items.map Prod.fst
        = .mappingStart :: (sections.flatMap sectionItems ++ [.mappingEnd]) := by
  obtain ⟨hproblem, hevents⟩ := events_of_sections hne hnamed
  rw [Document.ofText, Document.ofEvents, hproblem]
  -- the stream and the document around the mapping
  obtain ⟨⟨_, m₁⟩, events₁, hall, rfl, hevents₁⟩ := List.map_eq_cons_iff.mp hevents
  obtain ⟨⟨_, m₂⟩, events₂, rfl, rfl, hevents₂⟩ := List.map_eq_cons_iff.mp hevents₁
  have hsplit : events₂.map Prod.fst
      = (.mappingStart none :: (sections.flatMap Section.events ++ [.mappingEnd]))
        ++ [.documentEnd, .streamEnd] := by
    rw [hevents₂]
    simp
  obtain ⟨marked, last, rfl, hmarked, hlast⟩ := List.map_eq_append_iff.mp hsplit
  obtain ⟨⟨_, m₃⟩, last₁, rfl, rfl, hlast₁⟩ := List.map_eq_cons_iff.mp hlast
  obtain ⟨⟨_, m₄⟩, last₂, rfl, rfl, -⟩ := List.map_eq_cons_iff.mp hlast₁
  have hitems : (.mappingStart :: (sections.flatMap sectionItems ++ [.mappingEnd])).map event?
      = (marked.map Prod.fst).map some := by
    rw [hmarked]
    simp [List.map_flatMap, event?_section, event?]
  obtain ⟨taken, htaken, hcollect⟩ :=
    collect_items none hitems {} ((.documentEnd, m₃) :: (.streamEnd, m₄) :: last₂)
  have hwhole :
      Document.collect none {} (EventStream.ofText (sections.flatMap Section.chars)).events
        = ⟨taken, [], .whole⟩ := by
    rw [hall, Document.collect, Document.collect, hcollect]
    simp [Document.collect, Document.Draft.finish]
  rw [hwhole]
  exact ⟨rfl, htaken⟩

end Reading

/-! ## Manifests -/

open Reading Writing

/-- Every manifest is the one that its text holds, valid or not. -/
theorem ofText_toText (m : Manifest) : ofText m.toText = .ok m := by
  have hne : sections m ≠ [] := by simp [sections]
  obtain ⟨hending, hitems⟩ := document_of_sections hne (sections_named m)
  obtain ⟨rest, -, hread⟩ := reads_manifest m
    (Document.ofText ((sections m).flatMap Section.chars)) [] _ []
    (hitems.trans (List.append_nil _).symm)
  rw [ofText, toText_toList, ofDocument, hread]
  simp only [bind, Except.bind, hending, pure, Except.pure]

end Vendoring.Manifest
