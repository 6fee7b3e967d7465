import Vendoring.Proofs.Ordering

/-!
# The names that the check lets through

An entry passes the check exactly when it is spelled as segments with `/` between
them, each of them safe (`flaw?_eq_none_iff_spells`). There is one such spelling
of a text, since no segment holds a separator, and it is the one that `segments`
finds.

Such a name keeps its spelling as a path. Below any root its components stand
behind those of the root, and what `stripBase?` leaves is the name again, whatever
silent segments the root ends in (`stripBase?_join`).
-/

namespace Vendoring

open Vendoring.Path

/-! ## Safe segments -/

/-- What a segment may consist of. -/
structure SafeChar (c : Char) : Prop where
  separator : c ≠ '/'
  backslash : c ≠ '\\'
  quote : c ≠ '"'
  colon : c ≠ ':'
  control : isControl c = false

structure SafeSegment (s : String) : Prop where
  nonempty : s ≠ ""
  dot : s ≠ "."
  dots : s ≠ ".."
  chars : ∀ c ∈ s.toList, SafeChar c

/-- The text is spelled as these segments. -/
structure Spells (segments : List String) (text : String) : Prop where
  nonempty : segments ≠ []
  safe : ∀ s ∈ segments, SafeSegment s
  text_eq : text = "/".intercalate segments

theorem mem_intercalate {segments : List String} {c : Char}
    (h : c ∈ ("/".intercalate segments).toList) : c = '/' ∨ ∃ s ∈ segments, c ∈ s.toList := by
  induction segments with
  | nil => simp at h
  | cons s rest ih =>
    by_cases hrest : rest = []
    · subst hrest
      rw [String.intercalate_singleton] at h
      exact Or.inr ⟨s, List.mem_cons_self .., h⟩
    · rw [String.intercalate_cons_of_ne_nil hrest, String.toList_append, String.toList_append,
        List.mem_append, List.mem_append] at h
      rcases h with (h | h) | h
      · exact Or.inr ⟨s, List.mem_cons_self .., h⟩
      · exact Or.inl (List.mem_singleton.mp h)
      · exact (ih h).imp_right fun ⟨t, ht, hc⟩ => ⟨t, List.mem_cons_of_mem _ ht, hc⟩

theorem Spells.segments_eq {segments : List String} {e : Entry} (h : Spells segments e.text) :
    segments = e.segments := by
  have hslash : ∀ s ∈ segments.map String.toList, '/' ∉ s := by
    intro s hs hmem
    obtain ⟨t, ht, rfl⟩ := List.mem_map.mp hs
    exact ((h.safe t ht).chars _ hmem).separator rfl
  have hsplit : e.text.toList.splitOn '/' = segments.map String.toList := by
    rw [h.text_eq, String.toList_intercalate]
    exact List.splitOn_intercalate '/' hslash (by simpa using h.nonempty)
  simp [Entry.segments, hsplit]

namespace Entry

variable {e : Entry}

/-- The segments of an entry, put together again. -/
theorem intercalate_segments (e : Entry) : "/".intercalate e.segments = e.text := by
  refine String.toList_injective ?_
  have hback : String.toList ∘ String.ofList = id := funext fun _ => String.toList_ofList
  rw [String.toList_intercalate, segments, List.map_map, hback, List.map_id]
  exact List.intercalate_splitOn '/'

theorem spells_segments (h : e.flaw? = none) : Spells e.segments e.text := by
  obtain ⟨-, hbackslash, hquote, -, hsegments⟩ := flaw?_eq_none_iff.mp h
  refine ⟨by simp [segments], fun s hs => ?_, (intercalate_segments e).symm⟩
  obtain ⟨hempty, hdot, hdots, hcolon⟩ := segmentFlaw?_eq_none_iff.mp (hsegments s hs)
  refine ⟨hempty, hdot, hdots, fun c hc => ?_⟩
  obtain ⟨cs, hcs, rfl⟩ := List.mem_map.mp hs
  obtain ⟨hmem, hslash⟩ := mem_splitOn hcs (String.toList_ofList ▸ hc)
  exact ⟨hslash, fun h => hbackslash (h ▸ hmem), (hquote c hmem).1, fun h => hcolon (h ▸ hc),
    (hquote c hmem).2⟩

theorem flaw?_of_spells {segments : List String} (h : Spells segments e.text) :
    e.flaw? = none := by
  obtain rfl := h.segments_eq
  have hchar (c : Char) (hc : c ∈ e.text.toList) : c = '/' ∨ SafeChar c := by
    rw [h.text_eq] at hc
    exact (mem_intercalate hc).imp_right fun ⟨s, hs, hcs⟩ => (h.safe s hs).chars c hcs
  -- a text that is empty or begins with a separator has an empty segment
  have hhead : e.text.toList ≠ [] ∧ e.text.toList.head? ≠ some '/' := by
    have hnot : "" ∉ e.segments := fun hmem => (h.safe _ hmem).nonempty rfl
    cases htext : e.text.toList with
    | nil => exact absurd (by simp [segments, htext]) hnot
    | cons c rest =>
      refine ⟨List.cons_ne_nil _ _, fun hslash => hnot ?_⟩
      obtain rfl := Option.some.inj hslash
      simp [segments, htext, List.splitOn_cons_eq_if_modifyHead]
  refine flaw?_eq_none_iff.mpr ⟨?_, ?_, ?_, hhead.2, ?_⟩
  · intro hempty
    exact hhead.1 (by rw [hempty]; rfl)
  · intro hmem
    rcases hchar _ hmem with heq | hsafe
    · exact absurd heq (by decide)
    · exact hsafe.backslash rfl
  · intro c hc
    rcases hchar c hc with rfl | hsafe
    · decide
    · exact ⟨hsafe.quote, hsafe.control⟩
  · intro s hs
    have hsafe := h.safe s hs
    exact segmentFlaw?_eq_none_iff.mpr ⟨hsafe.nonempty, hsafe.dot, hsafe.dots,
      fun hmem => (hsafe.chars _ hmem).colon rfl⟩

theorem flaw?_eq_none_iff_spells : e.flaw? = none ↔ ∃ segments, Spells segments e.text :=
  ⟨fun h => ⟨_, spells_segments h⟩, fun ⟨_, h⟩ => flaw?_of_spells h⟩

end Entry

/-! ## Paths below a root -/

namespace Path

variable {q : Path}

/-- The first names are taken off, and the silent segments behind them are what is
left in front of the rest. -/
theorem dropSpoken_append (xs ys : List Segment) :
    ∃ zs, (∀ z ∈ zs, z.isSilent = true)
      ∧ dropSpoken (inner xs).length (xs ++ ys) = zs ++ ys := by
  induction xs with
  | nil => exact ⟨[], by simp, by simp [inner, dropSpoken]⟩
  | cons s rest ih =>
    obtain ⟨zs, hzs, hdrop⟩ := ih
    cases hs : s.isSilent with
    | true =>
      rw [inner_cons_of_silent hs]
      cases hlength : (inner rest).length with
      | zero =>
        rw [hlength, dropSpoken] at hdrop
        exact ⟨s :: zs, List.forall_mem_cons.mpr ⟨hs, hzs⟩, congrArg (s :: ·) hdrop⟩
      | succ n =>
        refine ⟨zs, hzs, ?_⟩
        rw [List.cons_append, dropSpoken, if_pos hs, ← hlength, hdrop]
    | false =>
      obtain ⟨c, -, hcons⟩ := inner_cons_of_name hs
      refine ⟨zs, hzs, ?_⟩
      rw [hcons, List.length_cons, List.cons_append, dropSpoken, if_neg (by simp [hs]), hdrop]

theorem dropSilentEnd_of_spoken {body : List Segment} (h : ∀ s ∈ body, s.isSilent = false) :
    dropSilentEnd body = body := by
  induction body using List.reverseRecOn with
  | nil => rfl
  | append_singleton front s _ => rw [dropSilentEnd_concat, h s (by simp), if_neg (by simp)]

theorem ofSegments_cons {head : Segment} {body : List Segment} (h : q.segments = head :: body) :
    ofSegments (some head) body = q := by
  rw [ofSegments, ← h, ← text_eq, String.ofList_toList]

theorem bodyAfter_of_nonempty {p : Path} (h : p.text ≠ "") {head : Option Segment}
    {body : List Segment} (hhb : p.headAndBody = (head, body)) (n : Nat) :
    p.bodyAfter n = dropSpoken n body := by
  obtain ⟨_, _, hhb', -, -, hempty⟩ := headAndBody_split p
  obtain ⟨rfl, rfl⟩ := Prod.mk.inj (hhb.symm.trans hhb')
  unfold bodyAfter
  rw [hhb]
  cases head with
  | none => rfl
  | some head =>
    have hhead : head ≠ [] := fun hnil => h (hempty (congrArg some hnil)).1
    simp only [beq_iff_eq, hhead, if_false]

/-! A path of nothing but names is what is left when a root in front of it is
stripped off again, to the letter. -/

section Names

variable (hrel : q.isAbsolute = false) (hq : ∀ s ∈ q.segments, s.isSilent = false)

include hrel hq

theorem stripBase?_empty : q.stripBase? ⟨""⟩ = some q := by
  obtain ⟨first, rest, hsegments, hhb, -⟩ := headAndBody_of_relative hrel
  have hend : dropSilentEnd rest = rest := dropSilentEnd_of_spoken fun s hs =>
    hq s (hsegments ▸ List.mem_cons_of_mem _ hs)
  have hstarts : q.startsWith ⟨""⟩ = true := startsWith_iff.mpr List.nil_prefix
  have hempty : (Path.components ⟨""⟩).length = 0 := by decide
  unfold stripBase?
  rw [if_pos hstarts, hempty]
  simp only [hhb, hend, ofSegments_cons hsegments]

/-- As many segments of the root are taken off as it has components, and what is
silent behind them. -/
theorem dropWhile_bodyAfter_join {root : Path} {n : Nat} (hroot : root.components.length = n + 1)
    (hbelow : (root.join q).components = root.components ++ inner q.segments) :
    ((root.join q).bodyAfter n).dropWhile Segment.isSilent = q.segments := by
  have htext : root.text ≠ "" := text_ne_empty_of_components (by
    intro hnil
    simp [hnil] at hroot)
  have hjoin : (root.join q).text ≠ "" := text_ne_empty_of_components (by
    intro hnil
    simp [hbelow, ← List.length_eq_zero_iff, hroot] at hnil)
  obtain ⟨head, body, hhb, hseg, -⟩ := headAndBody_split (root.join q)
  obtain ⟨s, stem, hstem⟩ := List.exists_cons_of_ne_nil (stem_ne_nil htext)
  obtain rfl : body = stem ++ q.segments := by
    rw [segments_join root hrel, hstem] at hseg
    exact (List.cons.inj hseg).2.symm
  -- the first segment of the root counts for one component
  have hlength : (inner stem).length = n := by
    obtain ⟨c, hc⟩ := components_cons hjoin hhb
    have hcount := congrArg List.length (hc.symm.trans hbelow)
    simp only [List.length_cons, List.length_append, inner_append, hroot] at hcount
    omega
  obtain ⟨zs, hzs, hdrop⟩ := dropSpoken_append stem q.segments
  rw [bodyAfter_of_nonempty hjoin hhb, ← hlength, hdrop, List.dropWhile_append_of_pos hzs]
  obtain ⟨first, rest, hsegments, -⟩ := headAndBody_of_relative hrel
  rw [hsegments, List.dropWhile_cons_of_neg]
  simp [hq first (hsegments ▸ List.mem_cons_self ..)]

theorem stripBase?_join (root : Path)
    (hbelow : (root.join q).components = root.components ++ inner q.segments) :
    (root.join q).stripBase? root = some q := by
  have hstarts : (root.join q).startsWith root = true :=
    startsWith_iff.mpr (hbelow ▸ List.prefix_append ..)
  cases hlength : root.components.length with
  | zero =>
    have htext : root.text = "" := by_contra fun h =>
      components_ne_nil h (List.length_eq_zero_iff.mp hlength)
    obtain rfl : root = ⟨""⟩ := by rw [← htext]
    rw [join_empty hrel]
    exact stripBase?_empty hrel hq
  | succ n =>
    obtain ⟨first, rest, hsegments, -⟩ := headAndBody_of_relative hrel
    unfold stripBase?
    rw [if_pos hstarts, hlength]
    simp only [dropWhile_bodyAfter_join hrel hq hlength hbelow, dropSilentEnd_of_spoken hq]
    rw [hsegments]
    exact congrArg some (ofSegments_cons hsegments)

end Names

end Path

namespace Entry

variable {e e' : Entry}

theorem toPath_eq (h : e.flaw? = none) : e.toPath = ⟨e.text⟩ := by
  have htext : e.toPath.text = e.text := String.toList_injective (by
    rw [text_eq, segments_toPath h, List.intercalate_splitOn])
  rw [← htext]

theorem spoken_toPath (h : e.flaw? = none) : ∀ s ∈ e.toPath.segments, s.isSilent = false :=
  fun _ hs => (segment_of_flaw?_eq_none h (segments_toPath h ▸ hs)).1

theorem inner_toPath (h : e.flaw? = none) :
    inner e.toPath.segments = e.segments.map Component.name := by
  rw [inner_of_inward (toPath_inward h)]
  exact congrArg (List.map Component.name) (names_toPath h)

theorem components_toPath (h : e.flaw? = none) :
    e.toPath.components = e.segments.map Component.name := by
  rw [components_eq, opening_toPath h, inner_toPath h]
  rfl

theorem components_join_toPath (h : e.flaw? = none) (root : Path) :
    (root.join e.toPath).components = root.components ++ e.segments.map Component.name := by
  rw [components_below h, inner_toPath h]

theorem segments_injective : Function.Injective segments := by
  intro e e' h
  have htext := intercalate_segments e
  rw [h, intercalate_segments] at htext
  exact congrArg Entry.mk htext.symm

/-- Below one root the paths of two entries are told apart. -/
theorem same_join_iff (h : e.flaw? = none) (h' : e'.flaw? = none) (root : Path) :
    (root.join e.toPath).Same (root.join e'.toPath) ↔ e = e' := by
  rw [Same, components_join_toPath h, components_join_toPath h', List.append_cancel_left_eq,
    List.map_inj_right fun _ _ => Component.name.inj, segments_injective.eq_iff]

/-- The check lets through the safe names and no others, and each of them is one place
below any root. A name that passes is spelled by one list of safe segments; they are
the components of its path, which is relative, stand behind those of any root that it
is joined to, and are what stripping that root leaves, to the letter. Below a root, two
names are one path just when they are one text. -/
theorem checked_names_are_safe :
    (∀ e : Entry, e.flaw? = none ↔ ∃ segments, Spells segments e.text)
    ∧ (∀ (e : Entry) (segments : List String), Spells segments e.text → segments = e.segments)
    ∧ ∀ e : Entry, e.flaw? = none →
      e.toPath.isAbsolute = false
      ∧ e.toPath.components = e.segments.map Component.name
      ∧ ∀ root : Path,
        (root.join e.toPath).components = root.components ++ e.segments.map Component.name
        ∧ (root.join e.toPath).stripBase? root = some e.toPath
        ∧ ∀ e' : Entry, e'.flaw? = none →
          ((root.join e.toPath).Same (root.join e'.toPath) ↔ e = e') := by
  refine ⟨fun e => flaw?_eq_none_iff_spells, fun e segments h => h.segments_eq, fun e h =>
    ⟨toPath_relative h, components_toPath h, fun root => ⟨components_join_toPath h root, ?_,
      fun e' h' => same_join_iff h h' root⟩⟩⟩
  exact stripBase?_join (toPath_relative h) (spoken_toPath h) root (components_below h root)

/-! A name with a blank, below a root with silent segments inside and at its end. -/

theorem blank_is_safe : flaw? ⟨"adt/a b.h"⟩ = none ∧ flaw? ⟨"adt/a b.H"⟩ = none
    ∧ (Path.join ⟨"./up//lib/."⟩ (toPath ⟨"adt/a b.h"⟩)).components
      = Path.components ⟨"./up//lib/."⟩ ++ [.name "adt", .name "a b.h"]
    ∧ (Path.join ⟨"./up//lib/."⟩ (toPath ⟨"adt/a b.h"⟩)).stripBase? ⟨"./up//lib/."⟩
      = some ⟨"adt/a b.h"⟩
    ∧ ¬(Path.join ⟨"./up//lib/."⟩ (toPath ⟨"adt/a b.h"⟩)).Same
      (Path.join ⟨"./up//lib/."⟩ (toPath ⟨"adt/a b.H"⟩)) := by
  have h : flaw? ⟨"adt/a b.h"⟩ = none := by decide +kernel
  have h' : flaw? ⟨"adt/a b.H"⟩ = none := by decide +kernel
  obtain ⟨-, -, hroot⟩ := checked_names_are_safe.2.2 ⟨"adt/a b.h"⟩ h
  obtain ⟨hcomponents, hstrip, hsame⟩ := hroot ⟨"./up//lib/."⟩
  refine ⟨h, h', hcomponents, hstrip.trans ?_, fun heq => ?_⟩
  · rw [toPath_eq h]
  · exact absurd ((hsame ⟨"adt/a b.H"⟩ h').mp heq) (by decide)

end Entry

end Vendoring
