import Vendoring.Proofs.Manifest.Tokens
import Vendoring.Proofs.Yaml.Outlining

/-!
# The events of a manifest text

The events follow the same lists as the tokens: one field or section further,
the outline stands in front of the next key (`Outline.AtPair`). A text holds at
most as many events as tokens, so the fuel of `EventStream.ofTokens` is enough.
-/

namespace Vendoring.Manifest.Writing

open Yaml Yaml.Outline

def textEvent (s : String) : Event :=
  scalarEvent s.toList (styleOf s.toList)

def keyEvent (name : String) : Event :=
  scalarEvent name.toList .plain

def Field.contentEvents : Field → List Event
  | .text _ s => [textEvent s]
  | .list _ texts => .sequenceStart none :: texts.map textEvent ++ [.sequenceEnd]

def Field.events (f : Field) : List Event := keyEvent f.name :: f.contentEvents

def Section.events (s : Section) : List Event :=
  keyEvent s.name :: .mappingStart none :: s.fields.flatMap Field.events ++ [.mappingEnd]

/-! ## How many there are -/

theorem length_elementKinds (texts : List String) :
    (texts.flatMap elementKinds).length = 2 * texts.length := by
  induction texts with
  | nil => rfl
  | cons s texts ih =>
    rw [List.flatMap_cons, List.length_append, ih, List.length_cons]
    simp [elementKinds]
    omega

theorem length_fieldEvents (f : Field) : f.events.length ≤ f.kinds.length := by
  cases f with
  | text name s =>
    simp [Field.events, Field.contentEvents, Field.kinds, Field.contentKinds, keyKinds]
  | list name texts =>
    cases texts with
    | nil =>
      simp [Field.events, Field.contentEvents, Field.kinds, Field.contentKinds, keyKinds]
    | cons s texts =>
      rw [Field.events, Field.contentEvents, Field.kinds, Field.contentKinds, List.isEmpty_cons,
        if_neg Bool.false_ne_true]
      simp only [List.length_cons, List.length_append, length_elementKinds, keyKinds,
        List.length_map, List.length_nil]
      omega

theorem length_flatMap_le {α β γ : Type} {as : List α} {f : α → List β} {g : α → List γ}
    (h : ∀ a ∈ as, (f a).length ≤ (g a).length) :
    (as.flatMap f).length ≤ (as.flatMap g).length := by
  induction as with
  | nil => exact Nat.le_refl 0
  | cons a as ih =>
    simp only [List.flatMap_cons, List.length_append]
    have hrest := ih fun b hb => h b (List.mem_cons_of_mem _ hb)
    exact Nat.add_le_add (h a (List.mem_cons_self ..)) hrest

theorem length_sectionEvents (s : Section) :
    s.events.length ≤ (s.kinds ++ [Token.Kind.blockEnd]).length := by
  have hfields : (s.fields.flatMap Field.events).length ≤ (s.fields.flatMap Field.kinds).length :=
    length_flatMap_le fun f _ => length_fieldEvents f
  simp only [Section.events, Section.kinds, keyKinds, List.length_cons, List.length_append,
    List.length_nil]
  omega

/-! ## One field further -/

variable {o : Outline} {kinds : List Token.Kind} {after : List Expect}

theorem yields_elements {texts : List String} {kind : Token.Kind} (hkind : kind ≠ .blockEntry)
    {expect : Expect}
    (h : o.Is (texts.flatMap elementKinds ++ kind :: kinds) .bareSequenceEntry (expect :: after)) :
    ∃ o', o.Yields (texts.map textEvent ++ [.sequenceEnd]) o'
      ∧ o'.Is (kind :: kinds) expect after := by
  induction texts generalizing o with
  | nil => exact h.listEnd hkind
  | cons s texts ih =>
    obtain ⟨o₁, hyields, ho₁⟩ := Is.element h
    obtain ⟨o₂, hyields', ho₂⟩ := ih ho₁
    exact ⟨o₂, hyields.trans hyields', ho₂⟩

theorem yields_content {f : Field} {kind : Token.Kind} (hkind : kind ≠ .blockEntry)
    (h : o.Is (.value :: (f.contentKinds ++ kind :: kinds)) .blockMappingValue after) :
    ∃ o', o.Yields f.contentEvents o' ∧ o'.Is (kind :: kinds) .blockMappingKey after := by
  cases f with
  | text name s => exact h.scalarValue
  | list name texts =>
    cases texts with
    | nil => exact Is.emptyListValue h
    | cons s texts =>
      obtain ⟨o₁, hyields, ho₁⟩ := Is.listValue h
      have hlist : o₁.Is ((s :: texts).flatMap elementKinds ++ kind :: kinds) .bareSequenceEntry
          (.blockMappingKey :: after) := ho₁
      obtain ⟨o₂, hyields', ho₂⟩ := yields_elements hkind hlist
      exact ⟨o₂, hyields.trans hyields', ho₂⟩

theorem yields_field {f : Field} {kind : Token.Kind} (hkind : kind ≠ .blockEntry)
    (h : o.AtPair (f.kinds ++ kind :: kinds) after) :
    ∃ o', o.Yields f.events o' ∧ o'.Is (kind :: kinds) .blockMappingKey after := by
  have hkey : o.AtPair (.key :: .scalar f.name.toList .plain :: .value
      :: (f.contentKinds ++ kind :: kinds)) after := h
  obtain ⟨o₁, hyields, ho₁⟩ := hkey.key
  obtain ⟨o₂, hyields', ho₂⟩ := yields_content hkind ho₁
  exact ⟨o₂, hyields.trans hyields', ho₂⟩

theorem yields_fields {f : Field} {fields : List Field}
    (h : o.AtPair ((f :: fields).flatMap Field.kinds ++ .blockEnd :: kinds) after) :
    ∃ o', o.Yields ((f :: fields).flatMap Field.events) o'
      ∧ o'.Is (.blockEnd :: kinds) .blockMappingKey after := by
  induction fields generalizing o f with
  | nil =>
    rw [List.flatMap_singleton] at h ⊢
    exact yields_field nofun h
  | cons g fields ih =>
    rw [List.flatMap_cons, List.append_assoc] at h
    have hkey : Token.Kind.key ≠ .blockEntry := nofun
    obtain ⟨o₁, hyields, ho₁⟩ := yields_field hkey h
    obtain ⟨o₂, hyields', ho₂⟩ := ih (Or.inl ho₁)
    rw [List.flatMap_cons]
    exact ⟨o₂, hyields.trans hyields', ho₂⟩

/-! ## One section further -/

theorem yields_section {s : Section} (hne : s.fields ≠ [])
    (h : o.AtPair ((s.kinds ++ [.blockEnd]) ++ kinds) after) :
    ∃ o', o.Yields s.events o' ∧ o'.Is kinds .blockMappingKey after := by
  rw [List.append_assoc, List.singleton_append] at h
  have hkey : o.AtPair (.key :: .scalar s.name.toList .plain :: .value
      :: .blockMappingStart :: (s.fields.flatMap Field.kinds ++ .blockEnd :: kinds)) after := h
  obtain ⟨o₁, hyields₁, ho₁⟩ := hkey.key
  obtain ⟨o₂, hyields₂, ho₂⟩ := ho₁.mappingValue
  obtain ⟨f, fields, hfields⟩ := List.exists_cons_of_ne_nil hne
  rw [hfields] at ho₂
  obtain ⟨o₃, hyields₃, ho₃⟩ := yields_fields ho₂
  obtain ⟨o₄, hyields₄, ho₄⟩ := ho₃.mappingEnd
  refine ⟨o₄, ?_, ho₄⟩
  rw [Section.events, hfields]
  exact hyields₁.trans (hyields₂.trans (hyields₃.trans hyields₄))

theorem yields_sections {s : Section} {sections : List Section}
    (hne : ∀ t ∈ s :: sections, t.fields ≠ [])
    (h : o.AtPair (((s :: sections).flatMap fun s => s.kinds ++ [.blockEnd]) ++ kinds) after) :
    ∃ o', o.Yields ((s :: sections).flatMap Section.events) o'
      ∧ o'.Is kinds .blockMappingKey after := by
  induction sections generalizing o s with
  | nil =>
    rw [List.flatMap_singleton] at h ⊢
    exact yields_section (hne s (List.mem_cons_self ..)) h
  | cons t sections ih =>
    rw [List.flatMap_cons, List.append_assoc] at h
    obtain ⟨o₁, hyields, ho₁⟩ := yields_section (hne s (List.mem_cons_self ..)) h
    obtain ⟨o₂, hyields', ho₂⟩ := ih (fun u hu => hne u (List.mem_cons_of_mem _ hu)) (Or.inl ho₁)
    rw [List.flatMap_cons]
    exact ⟨o₂, hyields.trans hyields', ho₂⟩

/-! ## The whole text -/

/-- All events of a text that is made of sections. -/
theorem events_of_sections {sections : List Section} (hne : sections ≠ [])
    (hnamed : ∀ s ∈ sections, s.Named) :
    (EventStream.ofText (sections.flatMap Section.chars)).problem = none
      ∧ (EventStream.ofText (sections.flatMap Section.chars)).events.map Prod.fst
        = .streamStart :: .documentStart :: .mappingStart none
          :: (sections.flatMap Section.events ++ [.mappingEnd, .documentEnd, .streamEnd]) := by
  obtain ⟨-, htokens⟩ := tokens_of_sections hne hnamed
  have hlength := congrArg List.length htokens
  obtain ⟨s, rest, rfl⟩ := List.exists_cons_of_ne_nil hne
  obtain ⟨o₁, hyields₁, ho₁⟩ := yields_start htokens
  obtain ⟨o₂, hyields₂, ho₂⟩ :=
    yields_sections (fun t ht => (hnamed t ht).nonempty) ho₁
  obtain ⟨o₃, hyields₃, ho₃⟩ := ho₂.mappingEnd
  let text := (s :: rest).flatMap Section.chars
  let events : List Event := [.streamStart, .documentStart, .mappingStart none]
    ++ ((s :: rest).flatMap Section.events ++ [.mappingEnd])
  have hyields : (Outline.ofTokens (TokenStream.ofText text)).Yields events o₃ :=
    hyields₁.trans (hyields₂.trans hyields₃)
  obtain ⟨marked, hmarked, hread⟩ := hyields
  -- the tokens are more than the events, so two steps are left for the end
  have hless : events.length + 2 ≤ 4 * (TokenStream.ofText text).tokens.length + 4 := by
    have hevents : ((s :: rest).flatMap Section.events).length
        ≤ ((s :: rest).flatMap fun s => s.kinds ++ [Token.Kind.blockEnd]).length :=
      length_flatMap_le fun t _ => length_sectionEvents t
    rw [List.length_map] at hlength
    simp only [events, text, hlength, List.length_cons, List.length_append, List.length_nil]
    omega
  obtain ⟨fuel, hfuel⟩ :
      ∃ fuel, 4 * (TokenStream.ofText text).tokens.length + 4 = fuel + 2 + events.length :=
    ⟨4 * (TokenStream.ofText text).tokens.length + 4 - (events.length + 2), by omega⟩
  obtain ⟨m, m', hend⟩ := readAll_end ho₃ fuel
  rw [EventStream.ofText, EventStream.ofTokens, hfuel, hread, hend]
  refine ⟨rfl, ?_⟩
  simp [hmarked, events]

end Vendoring.Manifest.Writing
