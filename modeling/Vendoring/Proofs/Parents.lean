import Vendoring.Proofs.Names

/-!
# The path around a path, and the path beside it

The parent of a path is spelled as a beginning of it, so silent segments at
the end have to be dropped first. `SilentEnd` says how a list of segments
can end, and each lemma about `parent?` is one case split on it. What later
proofs need of a parent is collected in `IsParent`: one name less, the same
start, no new way outwards, and a spelling that is no longer.

The temporary file of a path is joined to its parent, which is how
`isSibling_sibling` finds its names.
-/

namespace Vendoring

namespace Path

/-! ## Silent segments at the end -/

theorem dropSilentEnd_concat (xs : List Segment) (s : Segment) :
    dropSilentEnd (xs ++ [s]) = if s.isSilent then dropSilentEnd xs else xs ++ [s] := by
  unfold dropSilentEnd
  rw [List.reverse_append, List.reverse_singleton, List.singleton_append, List.dropWhile_cons]
  split <;> simp

/-- Either all segments are silent, or all behind the last name are. -/
inductive SilentEnd (body : List Segment) : Prop
  | silent (hd : dropSilentEnd body = []) (hs : spoken body = [])
  | name (front : List Segment) (s : Segment) (rest : List Segment)
      (hb : body = front ++ s :: rest) (hs : s.isSilent = false) (hr : spoken rest = [])
      (hd : dropSilentEnd body = front ++ [s])

theorem silentEnd (body : List Segment) : SilentEnd body := by
  induction body using List.reverseRecOn with
  | nil => exact .silent rfl rfl
  | append_singleton xs s ih =>
    cases hs : s.isSilent with
    | false =>
      refine .name xs s [] rfl hs rfl ?_
      rw [dropSilentEnd_concat, hs]
      simp
    | true =>
      have hd : dropSilentEnd (xs ++ [s]) = dropSilentEnd xs := by
        rw [dropSilentEnd_concat, hs, if_pos rfl]
      have hsp : spoken [s] = [] := spoken_cons_of_silent hs []
      cases ih with
      | silent hd' hs' => exact .silent (hd.trans hd') (by rw [spoken_append, hs', hsp]; rfl)
      | name front t rest hb ht hr hd' =>
        refine .name front t (rest ++ [s]) ?_ ht ?_ (hd.trans hd')
        · rw [hb]; simp
        · rw [spoken_append, hr, hsp]; rfl

/-! ## Paths built from segments -/

theorem text_eq (p : Path) : p.text.toList = ['/'].intercalate p.segments :=
  (List.intercalate_splitOn '/').symm

/-- A path built from segments has just these, but for the empty one behind
the root alone. -/
theorem segments_ofSegments {head : Option Segment} {body : List Segment}
    (h : ∀ s ∈ head.getD [] :: body, '/' ∉ s) :
    (ofSegments head body).segments = head.getD [] :: body
      ∨ head = none ∧ body = [] ∧ (ofSegments head body).segments = [[], []] := by
  cases head with
  | some head =>
    left
    rw [ofSegments, segments, String.toList_ofList]
    exact List.splitOn_intercalate '/' h (List.cons_ne_nil head body)
  | none =>
    by_cases hb : body = []
    · right
      subst hb
      refine ⟨rfl, rfl, ?_⟩
      rw [ofSegments, segments, String.toList_ofList, List.splitOn_cons_eq_if_modifyHead,
        if_pos (by rfl)]
      rfl
    · left
      rw [ofSegments, segments, String.toList_ofList, List.splitOn_cons_eq_if_modifyHead,
        if_pos (by rfl),
        List.splitOn_intercalate '/' (fun s hs => h s (List.mem_cons_of_mem _ hs)) hb]
      rfl

theorem isAbsolute_ofSegments {head : Option Segment} (body : List Segment)
    (hne : head ≠ some []) (h : '/' ∉ head.getD []) :
    (ofSegments head body).isAbsolute = head.isNone := by
  cases head with
  | none => simp [ofSegments, isAbsolute]
  | some head =>
    cases head with
    | nil => exact absurd rfl hne
    | cons c rest =>
      have hc : c ≠ '/' := fun hc => h (hc ▸ List.mem_cons_self ..)
      cases body with
      | nil => simp [ofSegments, isAbsolute, hc]
      | cons s more => simp [ofSegments, isAbsolute, List.intercalate_cons_cons, hc]

/-- The text of the first segments is a beginning of the text of all. -/
theorem intercalate_append_beginning (sep : List Char) {xs : List Segment} (ys : List Segment)
    (h : xs ≠ []) : sep.intercalate xs <+: sep.intercalate (xs ++ ys) := by
  induction xs with
  | nil => exact absurd rfl h
  | cons x more ih =>
    cases more with
    | nil =>
      cases ys with
      | nil => simp
      | cons y rest => simp [List.intercalate_cons_cons]
    | cons x' more =>
      have := ih (List.cons_ne_nil _ _)
      simpa [List.intercalate_cons_cons] using this

/-! ## Parents -/

theorem parent?_of_silent {p : Path} {head : Option Segment} {body : List Segment}
    (h : p.headAndBody = (head, body)) (hd : dropSilentEnd body = []) :
    p.parent? = if head.getD [] = [] then none else some ⟨""⟩ := by
  simp only [parent?]
  rw [h]
  simp only [hd]
  cases head with
  | none => rfl
  | some head => cases head <;> rfl

theorem parent?_of_name {p : Path} {head : Option Segment} {body front : List Segment}
    {s : Segment} (h : p.headAndBody = (head, body)) (hd : dropSilentEnd body = front ++ [s]) :
    p.parent? = some (ofSegments head (dropSilentEnd front)) := by
  simp only [parent?]
  rw [h]
  simp only [hd]
  cases front with
  | nil => rfl
  | cons x xs =>
    rw [List.cons_append]
    simp only
    rw [← List.cons_append, List.dropLast_concat]

/-- What a parent is to a path. It is tidy in that it ends in a name again if
it has one. -/
structure IsParent (up p : Path) : Prop where
  names : up.names = p.names.dropLast
  absolute : up.isAbsolute = p.isAbsolute
  inward : p.Inward → up.Inward
  beginning : up.text.toList <+: p.text.toList
  tidy : up.names = [] ∨ up.EndsInName

theorem dropSilentEnd_front (body : List Segment) : dropSilentEnd body <+: body := by
  cases silentEnd body with
  | silent hd _ => rw [hd]; exact List.nil_prefix
  | name front s rest hb _ _ hd => rw [hd, hb]; exact ⟨rest, by simp⟩

theorem spoken_dropSilentEnd (body : List Segment) : spoken (dropSilentEnd body) = spoken body := by
  cases silentEnd body with
  | silent hd hs => rw [hd, hs]; rfl
  | name front s rest hb hs hr hd =>
    rw [hd, hb, spoken_append, spoken_append, spoken_cons_of_name hs, spoken_cons_of_name hs, hr]
    rfl

/-- The parent of a path with a name behind its head. -/
theorem isParent_ofSegments {p : Path} {head : Option Segment} {front rest : List Segment}
    {s : Segment} (hseg : p.segments = head.getD [] :: (front ++ s :: rest))
    (habs : p.isAbsolute = head.isNone) (hhead : head ≠ some [])
    (hs : s.isSilent = false) (hr : spoken rest = []) :
    IsParent (ofSegments head (dropSilentEnd front)) p := by
  have hsub : ∀ t ∈ head.getD [] :: dropSilentEnd front, t ∈ p.segments := by
    intro t ht
    rw [hseg]
    rcases List.mem_cons.mp ht with rfl | ht
    · exact List.mem_cons_self ..
    · exact List.mem_cons_of_mem _ (List.mem_append_left _ ((dropSilentEnd_front front).subset ht))
  have hslash : ∀ t ∈ head.getD [] :: dropSilentEnd front, '/' ∉ t :=
    fun t ht => slash_not_mem (hsub t ht)
  have hnames : p.names.dropLast = spoken (head.getD [] :: front) := by
    rw [Path.names, hseg, ← List.cons_append, spoken_append, spoken_cons_of_name hs, hr,
      List.dropLast_concat]
  have hup : (ofSegments head (dropSilentEnd front)).names = spoken (head.getD [] :: front) := by
    rw [← List.singleton_append, spoken_append, ← spoken_dropSilentEnd front, ← spoken_append]
    rcases segments_ofSegments hslash with h | ⟨rfl, hd, h⟩
    · rw [Path.names, h]
      rfl
    · rw [Path.names, h, hd]
      rfl
  refine ⟨hup.trans hnames.symm, ?_, ?_, ?_, ?_⟩
  · rw [isAbsolute_ofSegments _ hhead (hslash _ (List.mem_cons_self ..)), habs]
  · intro hin hmem
    rcases segments_ofSegments hslash with h | ⟨rfl, hd, h⟩
    · exact hin (hsub _ (h ▸ hmem))
    · rw [h] at hmem
      simp at hmem
  · rcases segments_ofSegments hslash with h | ⟨rfl, hd, h⟩
    · rw [text_eq p, text_eq (ofSegments _ _), h, hseg]
      obtain ⟨more, hmore⟩ := dropSilentEnd_front front
      have := intercalate_append_beginning ['/'] (more ++ s :: rest)
        (List.cons_ne_nil (head.getD []) (dropSilentEnd front))
      rwa [List.cons_append, ← List.append_assoc, hmore] at this
    · rw [text_eq p, text_eq (ofSegments _ _), h, hseg]
      cases front <;> simp [List.intercalate_cons_cons]
  · cases silentEnd front with
    | silent hd hs' =>
      rcases hsil : Segment.isSilent (head.getD []) with _ | _
      · right
        rcases segments_ofSegments hslash with h | ⟨rfl, _, _⟩
        · exact ⟨[], head.getD [], by rw [h, hd]; rfl, hsil⟩
        · cases hsil
      · left
        rw [hup, spoken_cons_of_silent hsil, hs']
    | name front' t rest' hb ht hr' hd =>
      right
      rcases segments_ofSegments hslash with h | ⟨_, hd', _⟩
      · exact ⟨head.getD [] :: front', t, by rw [h, hd]; rfl, ht⟩
      · rw [hd] at hd'
        simp at hd'

theorem isParent_of_parent? {p up : Path} (h : p.parent? = some up) : IsParent up p := by
  obtain ⟨head, body, hhb, hseg, habs, hempty⟩ := headAndBody_split p
  cases silentEnd body with
  | silent hd hs =>
    rw [parent?_of_silent hhb hd] at h
    split at h
    · cases h
    · next hne =>
      obtain rfl := Option.some.inj h
      have hrel : p.isAbsolute = false := by
        rw [habs]
        cases head with
        | none => exact absurd rfl hne
        | some head => rfl
      refine ⟨?_, hrel.symm, ?_, List.nil_prefix, Or.inl rfl⟩
      · rw [names, names, hseg, ← List.singleton_append, spoken_append, hs]
        cases hsil : Segment.isSilent (head.getD []) with
        | true => rw [spoken_cons_of_silent hsil]; rfl
        | false => rw [spoken_cons_of_name hsil]; rfl
      · intro _
        simp [Inward, segments]
  | name front s rest hb hs hr hd =>
    rw [parent?_of_name hhb hd] at h
    obtain rfl := Option.some.inj h
    refine isParent_ofSegments (hb ▸ hseg) habs ?_ hs hr
    intro hhead
    obtain ⟨_, hbody⟩ := hempty hhead
    rw [hb] at hbody
    simp at hbody

theorem parent?_isSome {p : Path} (h : p.names ≠ []) : ∃ up, p.parent? = some up := by
  obtain ⟨head, body, hhb, hseg, -, -⟩ := headAndBody_split p
  cases silentEnd body with
  | silent hd hs =>
    rw [parent?_of_silent hhb hd]
    split
    · next hhead =>
      rw [names, hseg, hhead, spoken_cons_of_silent rfl, hs] at h
      exact absurd rfl h
    · exact ⟨_, rfl⟩
  | name front s rest hb hs hr hd => exact ⟨_, parent?_of_name hhb hd⟩

/-! ## The temporary file -/

theorem getLast?_components {p : Path} {front : List Segment} {last : Segment}
    (hseg : p.segments = front ++ [last]) (hlast : last.isSilent = false)
    (hup : last ≠ ['.', '.']) :
    p.components.getLast? = some (.name (String.ofList last)) := by
  have hlast' : Segment.component? last = some (.name (String.ofList last)) := by
    rw [Segment.component?, hlast, if_neg (by simp), if_neg (by simpa using hup)]
  obtain ⟨head, body, hhb, hsplit, habs, _⟩ := headAndBody_split p
  rw [hseg] at hsplit
  unfold components
  rw [hhb]
  cases front with
  | nil =>
    obtain ⟨hhead, rfl⟩ := List.cons.inj hsplit
    cases head with
    | none =>
      subst hhead
      cases hlast
    | some head =>
      obtain rfl : last = head := hhead
      have hdot : (last == ['.']) = false := by
        rw [Segment.isSilent, Bool.or_eq_false_iff] at hlast
        exact hlast.2
      simp [headComponent?, hdot, hlast']
  | cons x xs =>
    obtain rfl : xs ++ [last] = body := (List.cons.inj hsplit).2
    have hlist : [last].filterMap Segment.component? = [.name (String.ofList last)] := by
      rw [List.filterMap_cons, hlast', List.filterMap_nil]
    cases head with
    | none =>
      simp only
      rw [List.filterMap_append, hlist, ← List.cons_append, List.getLast?_concat]
    | some head =>
      simp only
      rw [List.filterMap_append, hlist, ← List.append_assoc, List.getLast?_concat]

theorem fileName?_eq {p : Path} {front : List Segment} {last : Segment}
    (hseg : p.segments = front ++ [last]) (hlast : last.isSilent = false)
    (hup : last ≠ ['.', '.']) : p.fileName? = some (String.ofList last) := by
  rw [fileName?, getLast?_components hseg hlast hup]

/-- The path beside a path is joined to its parent. -/
theorem sibling_eq_join {p up : Path} {name : String} (hname : p.fileName? = some name)
    (hup : p.parent? = some up) (suffix : String) :
    p.sibling suffix = up.join ⟨name ++ suffix⟩ := by
  unfold sibling withFileName
  rw [hname, hup, Option.isSome_some, if_pos rfl, Option.getD_some, Option.getD_some]

/-- The path that has `name` where `p` has its last name. -/
structure IsSibling (q p : Path) (name : Segment) : Prop where
  names : q.names = p.names.dropLast ++ [String.ofList name]
  absolute : q.isAbsolute = p.isAbsolute
  inward : p.Inward → q.Inward
  endsInName : q.EndsInName

theorem isSibling_sibling {p : Path} {front : List Segment} {last : Segment}
    (hseg : p.segments = front ++ [last]) (hlast : last.isSilent = false)
    (hup : last ≠ ['.', '.']) {suffix : String} (hsuffix : '/' ∉ suffix.toList)
    (hlong : 2 ≤ suffix.toList.length) :
    IsSibling (p.sibling suffix) p (last ++ suffix.toList) := by
  have hname := fileName?_eq hseg hlast hup
  have hslash : '/' ∉ last ++ suffix.toList := by
    intro h
    rcases List.mem_append.mp h with h | h
    · exact slash_not_mem (p := p) (s := last) (by rw [hseg]; simp) h
    · exact hsuffix h
  have hlength : 2 < (last ++ suffix.toList).length := by
    cases last with
    | nil => cases hlast
    | cons c cs =>
      rw [List.length_append, List.length_cons]
      omega
  have hsilent : Segment.isSilent (last ++ suffix.toList) = false := by
    rw [Segment.isSilent, Bool.or_eq_false_iff]
    constructor <;> refine beq_false_of_ne fun h => ?_ <;> simp [h] at hlength
  have hne : p.names ≠ [] := by
    rw [names, hseg, spoken_append, spoken_cons_of_name hlast]
    simp
  obtain ⟨up, hparent⟩ := parent?_isSome hne
  have hp := isParent_of_parent? hparent
  have htmp : p.sibling suffix = up.join ⟨String.ofList (last ++ suffix.toList)⟩ := by
    rw [sibling_eq_join hname hparent, String.ofList_append, String.ofList_toList]
  have hrel := isAbsolute_of_name hslash
  rw [htmp]
  have hsegs := segments_of_name hslash
  refine ⟨?_, ?_, ?_, ?_⟩
  · rw [names_join up hrel, hp.names]
    congr 1
    rw [names, hsegs, spoken_cons_of_name hsilent]
    rfl
  · rw [isAbsolute_join up hrel, hp.absolute]
  · intro hin
    refine (hp.inward hin).join ?_ hrel
    unfold Inward
    rw [hsegs, List.mem_singleton]
    intro h
    rw [← h] at hlength
    exact absurd hlength (by decide)
  · refine EndsInName.join up ⟨[], _, ?_, hsilent⟩ hrel
    rw [hsegs]
    rfl

theorem isSibling_temporary {p : Path} {front : List Segment} {last : Segment}
    (hseg : p.segments = front ++ [last]) (hlast : last.isSilent = false)
    (hup : last ≠ ['.', '.']) :
    IsSibling (Disk.temporary p) p (last ++ ".carve.tmp".toList) := by
  unfold Disk.temporary
  exact isSibling_sibling hseg hlast hup (by decide) (by decide)

end Path

end Vendoring
