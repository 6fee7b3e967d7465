import Vendoring.Yaml.Event

/-!
# The events of mappings and lists

As for tokens, marks decide nothing, so an outline is described by the kinds
of its tokens and by what it expects (`Outline.Is`). `Yields` is any number of
events; there is one lemma for each thing that a manifest is made of.
-/

namespace Vendoring.Yaml

/-- A scalar without properties. -/
def scalarEvent (cs : List Char) (style : ScalarStyle) : Event :=
  .scalar none ⟨none, cs, style⟩

namespace Outline

variable {o o' : Outline} {kinds : List Token.Kind} {after : List Expect}

/-- The tokens left, and what is expected now and afterwards. -/
structure Is (o : Outline) (kinds : List Token.Kind) (expect : Expect) (after : List Expect) :
    Prop where
  kinds : o.tokens.map Token.kind = kinds
  expect : o.expect = expect
  after : o.afterwards = after

/-- The outline `o` gives out `events` and goes on as `o'`. -/
def Yields (o : Outline) (events : List Event) (o' : Outline) : Prop :=
  ∃ marked : List (Event × Mark), marked.map Prod.fst = events
    ∧ ∀ fuel, EventStream.readAll (fuel + events.length) o
      = ⟨marked ++ (EventStream.readAll fuel o').events, (EventStream.readAll fuel o').problem⟩

theorem Yields.refl (o : Outline) : o.Yields [] o := ⟨[], rfl, fun _ => rfl⟩

theorem Yields.trans {o'' : Outline} {events events' : List Event} (h : o.Yields events o')
    (h' : o'.Yields events' o'') : o.Yields (events ++ events') o'' := by
  obtain ⟨marked, hmarked, hread⟩ := h
  obtain ⟨marked', hmarked', hread'⟩ := h'
  refine ⟨marked ++ marked', by rw [List.map_append, hmarked, hmarked'], fun fuel => ?_⟩
  rw [List.length_append, Nat.add_comm events.length, ← Nat.add_assoc, hread, hread']
  simp only [List.append_assoc]

theorem yields_next {event : Event} {m : Mark} (h : o.next = .ok (event, m, o'))
    (hevent : event ≠ .streamEnd) : o.Yields [event] o' := by
  refine ⟨[(event, m)], rfl, fun fuel => ?_⟩
  rw [List.length_singleton, EventStream.readAll, h]
  cases event <;> first | exact absurd rfl hevent | rfl

/-! ## Nodes -/

section Nodes

variable {expect : Expect} (block : Bool) (hafter : o.afterwards = expect :: after)

include hafter

theorem node_scalar {cs : List Char} {style : ScalarStyle} (bare : Bool)
    (h : o.tokens.map Token.kind = .scalar cs style :: kinds) :
    ∃ m o', o.node block bare = .ok (scalarEvent cs style, m, o') ∧ o'.Is kinds expect after := by
  obtain ⟨t, rest, htokens, hkind, hrest⟩ := List.map_eq_cons_iff.mp h
  refine ⟨t.start, o.resume.skip, ?_, ?_⟩
  · simp [node, peek, htokens, hkind, takeProperties, resolveTag, bind, Except.bind, pure,
      Except.pure, scalarEvent]
  · exact ⟨by simp [skip, resume, htokens, hrest], by simp [skip, resume, hafter],
      by simp [skip, resume, hafter]⟩

omit hafter

/-- A block mapping, whose opening token is still to be taken. -/
theorem node_blockMapping (bare : Bool)
    (h : o.tokens.map Token.kind = .blockMappingStart :: kinds) (hafter : o.afterwards = after) :
    ∃ m o', o.node true bare = .ok (.mappingStart none, m, o')
      ∧ o'.Is (.blockMappingStart :: kinds) .blockMappingFirst after := by
  obtain ⟨t, rest, htokens, hkind, hrest⟩ := List.map_eq_cons_iff.mp h
  refine ⟨t.start, o.turn .blockMappingFirst, ?_, ⟨h, rfl, hafter⟩⟩
  simp [node, peek, htokens, hkind, takeProperties, resolveTag, bind, Except.bind, pure,
    Except.pure]

theorem node_flowSequence (bare : Bool)
    (h : o.tokens.map Token.kind = .flowSequenceStart :: kinds) (hafter : o.afterwards = after) :
    ∃ m o', o.node block bare = .ok (.sequenceStart none, m, o')
      ∧ o'.Is (.flowSequenceStart :: kinds) .flowSequenceFirst after := by
  obtain ⟨t, rest, htokens, hkind, hrest⟩ := List.map_eq_cons_iff.mp h
  refine ⟨t.start, o.turn .flowSequenceFirst, ?_, ⟨h, rfl, hafter⟩⟩
  simp [node, peek, htokens, hkind, takeProperties, resolveTag, bind, Except.bind, pure,
    Except.pure]

/-- A list that is not indented deeper than its key. -/
theorem node_bareSequence (h : o.tokens.map Token.kind = .blockEntry :: kinds)
    (hafter : o.afterwards = after) :
    ∃ m o', o.node block true = .ok (.sequenceStart none, m, o')
      ∧ o'.Is (.blockEntry :: kinds) .bareSequenceEntry after := by
  obtain ⟨t, rest, htokens, hkind, hrest⟩ := List.map_eq_cons_iff.mp h
  refine ⟨t.start, o.turn .bareSequenceEntry, ?_, ⟨h, rfl, hafter⟩⟩
  simp [node, peek, htokens, hkind, takeProperties, resolveTag, bind, Except.bind, pure,
    Except.pure]

end Nodes

/-! ## Keys and values -/

/-- In front of the first key of a mapping, or of another one. -/
def AtPair (o : Outline) (kinds : List Token.Kind) (after : List Expect) : Prop :=
  o.Is kinds .blockMappingKey after ∨ o.Is (.blockMappingStart :: kinds) .blockMappingFirst after

theorem blockMappingKey_scalar {cs : List Char} {style : ScalarStyle}
    (h : o.tokens.map Token.kind = .key :: .scalar cs style :: kinds)
    (hafter : o.afterwards = after) :
    ∃ m o', o.blockMappingKey = .ok (scalarEvent cs style, m, o')
      ∧ o'.Is kinds .blockMappingValue after := by
  obtain ⟨t, rest, htokens, hkind, hrest⟩ := List.map_eq_cons_iff.mp h
  obtain ⟨u, rest', rfl, hkind', -⟩ := List.map_eq_cons_iff.mp hrest
  have htokens' : (o.skip.later .blockMappingValue).tokens.map Token.kind
      = .scalar cs style :: kinds := by
    rw [later, skip, htokens]
    exact hrest
  obtain ⟨m, o', hnode, ho'⟩ := node_scalar true (congrArg _ hafter) true htokens'
  refine ⟨m, o', ?_, ho'⟩
  rw [← hnode]
  simp [blockMappingKey, peek, skip, htokens, hkind, hkind', bind, Except.bind]

/-- A key is given out as a scalar. -/
theorem AtPair.key {cs : List Char} {style : ScalarStyle}
    (h : o.AtPair (.key :: .scalar cs style :: kinds) after) :
    ∃ o', o.Yields [scalarEvent cs style] o' ∧ o'.Is kinds .blockMappingValue after := by
  rcases h with ⟨hkinds, hexpect, hafter⟩ | ⟨hkinds, hexpect, hafter⟩
  · obtain ⟨m, o', hread, ho'⟩ := blockMappingKey_scalar hkinds hafter
    have hnext : o.next = .ok (scalarEvent cs style, m, o') := by
      rw [next, hexpect]
      exact hread
    exact ⟨o', yields_next hnext nofun, ho'⟩
  · obtain ⟨t, rest, htokens, hkind, hrest⟩ := List.map_eq_cons_iff.mp hkinds
    let entered : Outline := { o.skip with starts := t.start :: o.starts }
    have hkinds' : entered.tokens.map Token.kind = .key :: .scalar cs style :: kinds := by
      rw [← hrest]
      simp [entered, skip, htokens]
    obtain ⟨m, o', hread, ho'⟩ := blockMappingKey_scalar hkinds' hafter
    have hnext : o.next = .ok (scalarEvent cs style, m, o') := by
      rw [next, hexpect]
      simp only [enter, peek, htokens, bind, Except.bind]
      exact hread
    exact ⟨o', yields_next hnext nofun, ho'⟩

/-- The end of a mapping. -/
theorem Is.mappingEnd {expect : Expect}
    (h : o.Is (.blockEnd :: kinds) .blockMappingKey (expect :: after)) :
    ∃ o', o.Yields [.mappingEnd] o' ∧ o'.Is kinds expect after := by
  obtain ⟨t, rest, htokens, hkind, hrest⟩ := List.map_eq_cons_iff.mp h.kinds
  have hnext : o.next = .ok (.mappingEnd, t.start, o.close.skip) := by
    rw [next, h.expect]
    simp [blockMappingKey, peek, htokens, hkind, bind, Except.bind, pure, Except.pure]
  refine ⟨o.close.skip, yields_next hnext nofun, ?_, ?_, ?_⟩
  · simp [close, skip, resume, htokens, hrest]
  · simp [close, skip, resume, h.after]
  · simp [close, skip, resume, h.after]

/-- Behind a key the value is a node, whatever it begins with. -/
theorem next_value {kind : Token.Kind} (h : o.Is (.value :: kind :: kinds) .blockMappingValue after)
    (hkind : kind ≠ .key ∧ kind ≠ .value ∧ kind ≠ .blockEnd) :
    o.next = (o.skip.later .blockMappingKey).node true true
      ∧ (o.skip.later .blockMappingKey).tokens.map Token.kind = kind :: kinds
      ∧ (o.skip.later .blockMappingKey).afterwards = .blockMappingKey :: after := by
  obtain ⟨t, rest, htokens, hvalue, hrest⟩ := List.map_eq_cons_iff.mp h.kinds
  obtain ⟨u, rest', rfl, hkind', -⟩ := List.map_eq_cons_iff.mp hrest
  refine ⟨?_, ?_, congrArg _ h.after⟩
  · obtain ⟨hkey, hval, hend⟩ := hkind
    subst hkind'
    rw [next, h.expect]
    simp only [blockMappingValue, peek, skip, htokens, hvalue, bind, Except.bind, List.drop_one,
      List.tail_cons]
  · rw [later, skip, htokens]
    exact hrest

theorem Is.scalarValue {cs : List Char} {style : ScalarStyle}
    (h : o.Is (.value :: .scalar cs style :: kinds) .blockMappingValue after) :
    ∃ o', o.Yields [scalarEvent cs style] o' ∧ o'.Is kinds .blockMappingKey after := by
  obtain ⟨hnext, hkinds, hafter⟩ := next_value h ⟨nofun, nofun, nofun⟩
  obtain ⟨m, o', hnode, ho'⟩ := node_scalar true hafter true hkinds
  exact ⟨o', yields_next (hnext.trans hnode) nofun, ho'⟩

theorem Is.mappingValue
    (h : o.Is (.value :: .blockMappingStart :: kinds) .blockMappingValue after) :
    ∃ o', o.Yields [.mappingStart none] o' ∧ o'.AtPair kinds (.blockMappingKey :: after) := by
  obtain ⟨hnext, hkinds, hafter⟩ := next_value h ⟨nofun, nofun, nofun⟩
  obtain ⟨m, o', hnode, ho'⟩ := node_blockMapping true hkinds hafter
  exact ⟨o', yields_next (hnext.trans hnode) nofun, Or.inr ho'⟩

theorem Is.emptyListValue
    (h : o.Is (.value :: .flowSequenceStart :: .flowSequenceEnd :: kinds) .blockMappingValue
      after) :
    ∃ o', o.Yields [.sequenceStart none, .sequenceEnd] o' ∧ o'.Is kinds .blockMappingKey after := by
  obtain ⟨hnext, hkinds, hafter⟩ := next_value h ⟨nofun, nofun, nofun⟩
  obtain ⟨m, o₁, hnode, hkinds₁, hexpect₁, hafter₁⟩ := node_flowSequence true true hkinds hafter
  obtain ⟨t, rest, htokens, -, hrest⟩ := List.map_eq_cons_iff.mp hkinds₁
  obtain ⟨u, rest', rfl, hkind, hrest'⟩ := List.map_eq_cons_iff.mp hrest
  let entered : Outline := { o₁.skip with starts := t.start :: o₁.starts }
  have hnext₁ : o₁.next = .ok (.sequenceEnd, u.start, entered.close.skip) := by
    rw [next, hexpect₁]
    simp [enter, flowSequenceEntry, peek, skip, htokens, hkind, bind, Except.bind, pure,
      Except.pure, entered]
  refine ⟨entered.close.skip, (yields_next (hnext.trans hnode) nofun).trans
    (yields_next hnext₁ nofun), ?_, ?_, ?_⟩
  · simp [entered, close, skip, resume, htokens, hrest']
  · simp [entered, close, skip, resume, hafter₁]
  · simp [entered, close, skip, resume, hafter₁]

/-! ## Lists -/

theorem Is.listValue (h : o.Is (.value :: .blockEntry :: kinds) .blockMappingValue after) :
    ∃ o', o.Yields [.sequenceStart none] o'
      ∧ o'.Is (.blockEntry :: kinds) .bareSequenceEntry (.blockMappingKey :: after) := by
  obtain ⟨hnext, hkinds, hafter⟩ := next_value h ⟨nofun, nofun, nofun⟩
  obtain ⟨m, o', hnode, ho'⟩ := node_bareSequence true hkinds hafter
  exact ⟨o', yields_next (hnext.trans hnode) nofun, ho'⟩

theorem Is.element {cs : List Char} {style : ScalarStyle}
    (h : o.Is (.blockEntry :: .scalar cs style :: kinds) .bareSequenceEntry after) :
    ∃ o', o.Yields [scalarEvent cs style] o' ∧ o'.Is kinds .bareSequenceEntry after := by
  obtain ⟨t, rest, htokens, hkind, hrest⟩ := List.map_eq_cons_iff.mp h.kinds
  obtain ⟨u, rest', rfl, hkind', -⟩ := List.map_eq_cons_iff.mp hrest
  have hkinds : (o.skip.later .bareSequenceEntry).tokens.map Token.kind
      = .scalar cs style :: kinds := by
    rw [later, skip, htokens]
    exact hrest
  obtain ⟨m, o', hnode, ho'⟩ := node_scalar true (congrArg _ h.after) false hkinds
  have hnext : o.next = .ok (scalarEvent cs style, m, o') := by
    rw [next, h.expect, ← hnode]
    simp [bareSequenceEntry, peek, skip, htokens, hkind, hkind', bind, Except.bind]
  exact ⟨o', yields_next hnext nofun, ho'⟩

/-- Anything but a dash ends such a list. -/
theorem Is.listEnd {kind : Token.Kind} (hkind : kind ≠ .blockEntry) {expect : Expect}
    (h : o.Is (kind :: kinds) .bareSequenceEntry (expect :: after)) :
    ∃ o', o.Yields [.sequenceEnd] o' ∧ o'.Is (kind :: kinds) expect after := by
  obtain ⟨t, rest, htokens, rfl, hrest⟩ := List.map_eq_cons_iff.mp h.kinds
  have hnext : o.next = .ok (.sequenceEnd, t.start, o.resume) := by
    rw [next, h.expect]
    simp only [bareSequenceEntry, peek, htokens, bind, Except.bind]
    rfl
  refine ⟨o.resume, yields_next hnext nofun, h.kinds, ?_, ?_⟩
  · simp [resume, h.after]
  · simp [resume, h.after]

/-! ## Documents -/

/-- A text that is one mapping, up to the first key. -/
theorem yields_start {s : TokenStream}
    (h : s.tokens.map Token.kind = .streamStart :: .blockMappingStart :: kinds) :
    ∃ o', (ofTokens s).Yields [.streamStart, .documentStart, .mappingStart none] o'
      ∧ o'.AtPair kinds [.documentEnd] := by
  obtain ⟨t, rest, htokens, -, hrest⟩ := List.map_eq_cons_iff.mp h
  obtain ⟨u, rest', rfl, hkind, -⟩ := List.map_eq_cons_iff.mp hrest
  let o₁ : Outline := ((ofTokens s).turn .implicitDocument).skip
  let o₂ : Outline := ({ o₁ with handles := defaultHandles }.later .documentEnd).turn .blockNode
  have hfirst : (ofTokens s).next = .ok (.streamStart, t.start, o₁) := by
    simp [next, ofTokens, peek, htokens, bind, Except.bind, pure, Except.pure, o₁]
  have htokens₁ : o₁.tokens = u :: rest' := by
    simp [o₁, skip, turn, ofTokens, htokens]
  have hsecond : o₁.next = .ok (.documentStart, u.start, o₂) := by
    have hexpect : o₁.expect = .implicitDocument := rfl
    rw [next, hexpect]
    simp [documentStart, peek, htokens₁, hkind, bind, Except.bind, pure, Except.pure, o₂]
  have hkinds : o₂.tokens.map Token.kind = .blockMappingStart :: kinds := by
    have hsame : o₂.tokens = o₁.tokens := rfl
    rw [hsame, htokens₁, hrest]
  obtain ⟨m, o₃, hnode, ho₃⟩ := node_blockMapping false hkinds rfl
  have hthird : o₂.next = .ok (.mappingStart none, m, o₃) := hnode
  exact ⟨o₃, (yields_next hfirst nofun).trans
    ((yields_next hsecond nofun).trans (yields_next hthird nofun)), Or.inr ho₃⟩

/-- The end of the text behind the document. -/
theorem readAll_end (h : o.Is [.streamEnd] .documentEnd []) (fuel : Nat) :
    ∃ m m', EventStream.readAll (fuel + 2) o = ⟨[(.documentEnd, m), (.streamEnd, m')], none⟩ := by
  obtain ⟨t, rest, htokens, hkind, hrest⟩ := List.map_eq_cons_iff.mp h.kinds
  obtain rfl : rest = [] := List.map_eq_nil_iff.mp hrest
  let o₁ : Outline := { o with handles := [] }.turn .documentStart
  have hfirst : o.next = .ok (.documentEnd, t.start, o₁) := by
    rw [next, h.expect]
    simp [documentEnd, peek, htokens, hkind, bind, Except.bind, pure, Except.pure, o₁]
  have hsecond : o₁.next = .ok (.streamEnd, t.start, (o₁.skip).turn .nothing) := by
    have hexpect : o₁.expect = .documentStart := rfl
    have htokens₁ : o₁.tokens = [t] := htokens
    rw [next, hexpect]
    simp [documentStart, peek, htokens₁, hkind, bind, Except.bind, pure, Except.pure, skip, turn]
  refine ⟨t.start, t.start, ?_⟩
  simp [EventStream.readAll, hfirst, hsecond]

end Outline

end Vendoring.Yaml
