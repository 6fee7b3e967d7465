import Vendoring.Proofs.Collisions

/-!
# The order of paths, and paths inside others

Paths are ordered by their components, so two paths that compare equal are
the same path (`compare_eq_iff`), and sorting different ones puts them in
strict order (`sorted_mergeSort`).

A path that starts with another one is taken apart again: joining what
`stripBase?` leaves to the base gives the path back (`join_stripBase?`).
-/

namespace Vendoring

/-! ## The order -/

namespace Component

/-- What the order looks at in components of one kind. -/
def label : Component → String
  | .name s => s
  | _ => ""

theorem compare_eq_lex : Component.compare = compareLex (compareOn rank) (compareOn label) := by
  funext a b
  cases a <;> cases b <;>
    simp [Component.compare, compareLex, compareOn, rank, label, Ordering.then]

instance : Std.TransCmp Component.compare := by
  rw [compare_eq_lex]
  infer_instance

instance : Std.LawfulEqCmp Component.compare where
  eq_of_compare {a b} h := by
    cases a <;> cases b <;> simp_all [Component.compare, rank]

end Component

namespace Path

variable {p q : Path}

theorem compareComponents_eq : compareComponents = List.compareLex Component.compare := by
  funext xs ys
  induction xs generalizing ys with
  | nil => cases ys <;> rfl
  | cons a as ih =>
    cases ys with
    | nil => rfl
    | cons b bs => rw [compareComponents, ih, List.compareLex_cons_cons]

theorem Same.symm (h : p.Same q) : q.Same p :=
  Eq.symm h

theorem compare_eq_iff : p.compare q = .eq ↔ p.Same q := by
  rw [Path.compare, compareComponents_eq, Std.LawfulEqCmp.compare_eq_iff_eq]
  rfl

/-- How paths are sorted. -/
def le (p q : Path) : Bool :=
  p.compare q != .gt

theorem le_iff : p.le q = true ↔ (p.compare q).isLE = true := by
  rw [le, bne_iff_ne, Ordering.isLE_iff_ne_gt]

theorem le_trans {a b c : Path} (hab : a.le b = true) (hbc : b.le c = true) : a.le c = true := by
  rw [le_iff, Path.compare, compareComponents_eq] at *
  exact Std.TransCmp.isLE_trans hab hbc

theorem compare_swap (a b : Path) : b.compare a = (a.compare b).swap := by
  rw [Path.compare, Path.compare, compareComponents_eq]
  exact Std.OrientedCmp.eq_swap

theorem le_total (a b : Path) : (a.le b || b.le a) = true := by
  rw [le, le, compare_swap a b]
  cases a.compare b <;> rfl

/-- Sorting paths that differ puts them in strict order. -/
theorem sorted_mergeSort {paths : List Path} (h : paths.Pairwise fun p q => ¬p.Same q) :
    (paths.mergeSort le).Pairwise fun p q => p.compare q = .lt := by
  have hsorted : (paths.mergeSort le).Pairwise fun p q => p.le q = true :=
    @List.pairwise_mergeSort Path le (fun _ _ _ => le_trans) le_total paths
  have hdistinct : (paths.mergeSort le).Pairwise fun p q => ¬p.Same q :=
    (List.mergeSort_perm paths le).symm.pairwise h fun hpq hqp => hpq hqp.symm
  refine (hsorted.and hdistinct).imp fun {p q} hpq => ?_
  obtain ⟨hle, hne⟩ := hpq
  rw [← compare_eq_iff] at hne
  cases hc : p.compare q with
  | lt => rfl
  | eq => exact absurd hc hne
  | gt => rw [le, hc] at hle; cases hle

/-! ## What two spellings share -/

theorem root_not_mem_inner (segments : List Segment) : .root ∉ inner segments := by
  intro h
  obtain ⟨s, -, hs⟩ := List.mem_filterMap.mp h
  unfold Segment.component? at hs
  split at hs
  · cases hs
  split at hs <;> cases hs

theorem root_mem_components {p : Path} : .root ∈ p.components ↔ p.isAbsolute = true := by
  rw [components_eq, List.mem_append, Option.mem_toList, ← opening_eq_root_iff]
  exact or_iff_left (root_not_mem_inner _)

/-- What a component says when it is spoken. -/
def spokenName? : Component → Option String
  | .up => some ".."
  | .name s => some s
  | _ => none

theorem spoken_eq_inner (segments : List Segment) :
    spoken segments = (inner segments).filterMap spokenName? := by
  induction segments with
  | nil => rfl
  | cons s rest ih =>
    cases hs : s.isSilent with
    | true => rw [spoken_cons_of_silent hs, inner_cons_of_silent hs, ih]
    | false =>
      rw [spoken_cons_of_name hs, ih, inner, inner, List.filterMap_cons, Segment.component?,
        if_neg (by simp [hs])]
      by_cases hup : s = ['.', '.']
      · subst hup
        rfl
      · rw [if_neg (by simpa using hup)]
        rfl

/-- Without a `..` all that segments contribute is names. -/
theorem inner_of_inward {segments : List Segment} (h : ['.', '.'] ∉ segments) :
    inner segments = (spoken segments).map .name := by
  induction segments with
  | nil => rfl
  | cons s rest ih =>
    obtain ⟨hs, hrest⟩ := not_or.mp fun hmem => h (List.mem_cons.mpr hmem)
    cases hsilent : s.isSilent with
    | true => rw [inner_cons_of_silent hsilent, spoken_cons_of_silent hsilent, ih hrest]
    | false =>
      have hname : Segment.component? s = some (.name (String.ofList s)) := by
        rw [Segment.component?, if_neg (by simp [hsilent]), if_neg (by simpa using Ne.symm hs)]
      rw [spoken_cons_of_name hsilent, List.map_cons, ← ih hrest, inner, List.filterMap_cons,
        hname]
      rfl

theorem names_eq (p : Path) : p.names = p.components.filterMap spokenName? := by
  have hopening : p.opening.toList.filterMap spokenName? = [] := by
    unfold opening
    split
    · rfl
    split <;> rfl
  rw [components_eq, List.filterMap_append, hopening, List.nil_append, ← spoken_eq_inner]
  rfl

theorem Same.names (h : p.Same q) : p.names = q.names := by
  rw [names_eq, names_eq, h]

theorem Same.isAbsolute (h : p.Same q) : p.isAbsolute = q.isAbsolute := by
  rw [Bool.eq_iff_iff, ← root_mem_components, ← root_mem_components, h]

/-! ## Paths inside others -/

theorem startsWith_iff : p.startsWith q = true ↔ q.components <+: p.components :=
  List.isPrefixOf_iff_prefix

theorem Same.startsWith {p' q' : Path} (hp : p.Same p') (hq : q.Same q') :
    p.startsWith q = p'.startsWith q' := by
  rw [Path.startsWith, Path.startsWith, hp, hq]

theorem inner_cons_of_name {s : Segment} (h : s.isSilent = false) :
    ∃ c, Segment.component? s = some c ∧ ∀ rest, inner (s :: rest) = c :: inner rest := by
  obtain ⟨c, hc⟩ : ∃ c, Segment.component? s = some c := by
    unfold Segment.component?
    rw [if_neg (by simp [h])]
    split <;> exact ⟨_, rfl⟩
  refine ⟨c, hc, fun rest => ?_⟩
  rw [inner, List.filterMap_cons, hc]
  rfl

theorem inner_dropSpoken (n : Nat) (body : List Segment) :
    inner (dropSpoken n body) = (inner body).drop n := by
  induction body generalizing n with
  | nil => cases n <;> simp [dropSpoken, inner]
  | cons s rest ih =>
    cases n with
    | zero => rfl
    | succ n =>
      cases hs : s.isSilent with
      | true => rw [dropSpoken, if_pos hs, ih, inner_cons_of_silent hs]
      | false =>
        obtain ⟨c, -, hcons⟩ := inner_cons_of_name hs
        rw [dropSpoken, if_neg (by simp [hs]), ih, hcons, List.drop_succ_cons]

theorem inner_dropWhile_silent (body : List Segment) :
    inner (body.dropWhile Segment.isSilent) = inner body := by
  induction body with
  | nil => rfl
  | cons s rest ih =>
    rw [List.dropWhile_cons]
    split
    · next hs => rw [ih, inner_cons_of_silent hs]
    · rfl

theorem inner_of_spoken_nil {segments : List Segment} (h : spoken segments = []) :
    inner segments = [] := by
  induction segments with
  | nil => rfl
  | cons s rest ih =>
    cases hs : s.isSilent with
    | true =>
      rw [spoken_cons_of_silent hs] at h
      rw [inner_cons_of_silent hs, ih h]
    | false =>
      rw [spoken_cons_of_name hs] at h
      cases h

theorem inner_dropSilentEnd (body : List Segment) :
    inner (dropSilentEnd body) = inner body := by
  cases silentEnd body with
  | silent hd hs => rw [hd, inner_of_spoken_nil hs]; rfl
  | name front s rest hb hs hr hd =>
    rw [hd, hb, List.append_cons front s rest, inner_append _ rest, inner_of_spoken_nil hr,
      List.append_nil]

theorem headComponent?_isSome {head : Segment} (h : head ≠ []) :
    ∃ c, headComponent? head = some c := by
  unfold headComponent?
  by_cases hdot : head = ['.']
  · exact ⟨_, if_pos (beq_iff_eq.mpr hdot)⟩
  · have hspoken : head.isSilent = false := by
      rw [Segment.isSilent, Bool.or_eq_false_iff]
      exact ⟨beq_false_of_ne h, beq_false_of_ne hdot⟩
    obtain ⟨c, hc, -⟩ := inner_cons_of_name hspoken
    exact ⟨c, by rw [if_neg (by simpa using hdot), hc]⟩

/-- A path has one component and those of its segments behind the first one, unless
it is empty. -/
theorem components_cons (h : p.text ≠ "") {head : Option Segment} {body : List Segment}
    (hhb : p.headAndBody = (head, body)) : ∃ c, p.components = c :: inner body := by
  obtain ⟨_, _, hhb', -, -, hempty⟩ := headAndBody_split p
  obtain ⟨rfl, rfl⟩ := Prod.mk.inj (hhb.symm.trans hhb')
  unfold components
  rw [hhb]
  cases head with
  | none => exact ⟨.root, rfl⟩
  | some head =>
    obtain ⟨c, hc⟩ := headComponent?_isSome fun hnil => h (hempty (congrArg some hnil)).1
    exact ⟨c, by simp only [hc]; rfl⟩

theorem components_ne_nil (h : p.text ≠ "") : p.components ≠ [] := by
  obtain ⟨c, hc⟩ := components_cons h rfl
  rw [hc]
  exact List.cons_ne_nil _ _

theorem text_ne_empty_of_components (h : p.components ≠ []) : p.text ≠ "" := by
  intro hempty
  rw [show p = ⟨""⟩ by rw [← hempty]] at h
  exact h rfl

/-- Taking components off the front of a path. -/
theorem inner_bodyAfter (p : Path) (n : Nat) :
    inner (p.bodyAfter n) = p.components.drop (n + 1) := by
  obtain ⟨head, body, hhb, -⟩ := headAndBody_split p
  unfold bodyAfter components
  rw [hhb]
  cases head with
  | none => exact inner_dropSpoken n body
  | some head =>
    by_cases hnil : head = []
    · subst hnil
      exact inner_dropSpoken (n + 1) body
    · obtain ⟨c, hc⟩ := headComponent?_isSome hnil
      simp only [beq_iff_eq, hnil, if_false, hc]
      exact inner_dropSpoken n body

theorem dropSpoken_subset (n : Nat) (body : List Segment) : dropSpoken n body ⊆ body := by
  induction body generalizing n with
  | nil => cases n <;> exact List.Subset.refl _
  | cons s rest ih =>
    cases n with
    | zero => exact List.Subset.refl _
    | succ n =>
      rw [dropSpoken]
      split <;> exact fun _ h => List.mem_cons_of_mem _ (ih _ h)

theorem bodyAfter_subset (p : Path) (n : Nat) : p.bodyAfter n ⊆ p.segments := by
  obtain ⟨head, body, hhb, hseg, -⟩ := headAndBody_split p
  have hbody : body ⊆ p.segments := fun _ h => hseg ▸ List.mem_cons_of_mem _ h
  unfold bodyAfter
  rw [hhb]
  cases head with
  | none => exact fun _ h => hbody (dropSpoken_subset n body h)
  | some head =>
    simp only
    split <;> exact fun _ h => hbody (dropSpoken_subset _ body h)

/-- What `stripBase?` leaves is relative, and has the components behind the
base. -/
theorem stripBase?_eq {base : Path} (hbase : base.components ≠ [])
    (h : p.startsWith base = true) :
    ∃ rel, p.stripBase? base = some rel ∧ rel.isAbsolute = false ∧ rel.opening = none
      ∧ rel.components = p.components.drop base.components.length := by
  obtain ⟨n, hn⟩ := Nat.exists_eq_succ_of_ne_zero (mt List.length_eq_zero_iff.mp hbase)
  have hinner := inner_bodyAfter p n
  rw [← inner_dropWhile_silent, ← inner_dropSilentEnd] at hinner
  unfold stripBase?
  rw [if_pos h, hn]
  simp only
  cases hleft : dropSilentEnd ((p.bodyAfter n).dropWhile Segment.isSilent) with
  | nil =>
    rw [hleft] at hinner
    exact ⟨⟨""⟩, rfl, rfl, rfl, hinner⟩
  | cons s rest =>
    have hfront := dropSilentEnd_front ((p.bodyAfter n).dropWhile Segment.isSilent)
    rw [hleft] at hinner hfront
    have hslash : ∀ s' ∈ s :: rest, '/' ∉ s' := fun s' hs' => slash_not_mem
      (bodyAfter_subset p n ((List.dropWhile_suffix _).subset (hfront.subset hs')))
    have hs : s.isSilent = false := by
      obtain ⟨more, hmore⟩ := hfront
      have := List.head?_dropWhile_not Segment.isSilent (p.bodyAfter n)
      rw [← hmore] at this
      simpa using this
    have hempty : s ≠ [] := by
      rintro rfl
      cases hs
    have habs : (ofSegments (some s) rest).isAbsolute = false :=
      isAbsolute_ofSegments rest (by simpa using hempty) (hslash s (List.mem_cons_self ..))
    have hsegments : (ofSegments (some s) rest).segments = s :: rest :=
      (@segments_ofSegments (some s) rest hslash).resolve_right fun h => nomatch h.1
    have hopening : (ofSegments (some s) rest).opening = none := by
      rw [opening, habs, if_neg Bool.false_ne_true, hsegments, List.head?_cons, if_neg]
      intro hdot
      rw [Option.some.inj hdot] at hs
      cases hs
    refine ⟨_, rfl, habs, hopening, ?_⟩
    rw [components_eq, hopening, hsegments]
    exact hinner

theorem components_stripBase? {base rel : Path} (hbase : base.text ≠ "")
    (h : p.startsWith base = true) (hrel : p.stripBase? base = some rel) :
    base.components ++ rel.components = p.components := by
  obtain ⟨rel', hrel', -, -, hcomponents⟩ := stripBase?_eq (components_ne_nil hbase) h
  rw [hrel] at hrel'
  rw [Option.some.inj hrel', hcomponents]
  exact List.prefix_iff_eq_append.mp (startsWith_iff.mp h)

/-- A base without components leaves another spelling of the path. -/
theorem stripBase?_of_components_eq_nil {base : Path} (hbase : base.components = []) :
    ∃ rel, p.stripBase? base = some rel ∧ rel.Same p := by
  obtain ⟨head, body, hhb, hseg, habs, hempty⟩ := headAndBody_split p
  refine ⟨ofSegments head (dropSilentEnd body), ?_, ?_⟩
  · unfold stripBase?
    rw [if_pos (startsWith_iff.mpr (hbase ▸ List.nil_prefix)), hbase, hhb]
    rfl
  · by_cases hnil : head = some []
    · obtain ⟨htext, rfl⟩ := hempty hnil
      rw [hnil, show p = ⟨""⟩ by rw [← htext]]
      rfl
    · have hslash : ∀ s ∈ head.getD [] :: dropSilentEnd body, '/' ∉ s := by
        intro s hs
        refine slash_not_mem (p := p) (hseg ▸ ?_)
        rcases List.mem_cons.mp hs with rfl | hs
        · exact List.mem_cons_self ..
        · exact List.mem_cons_of_mem _ ((dropSilentEnd_front body).subset hs)
      have hrel := isAbsolute_ofSegments (dropSilentEnd body) hnil
        (hslash _ (List.mem_cons_self ..))
      have hopening : (ofSegments head (dropSilentEnd body)).opening = p.opening := by
        rw [opening, opening, hrel, habs, hseg]
        rcases segments_ofSegments hslash with h | ⟨rfl, -, h⟩
        · rw [h]
          rfl
        · rfl
      have hinner : inner (ofSegments head (dropSilentEnd body)).segments = inner p.segments := by
        rw [hseg, ← List.singleton_append, inner_append, ← inner_dropSilentEnd body,
          ← inner_append]
        rcases segments_ofSegments hslash with h | ⟨rfl, hd, h⟩
        · rw [h]
          rfl
        · rw [h, hd]
          rfl
      rw [Same, components_eq, components_eq p, hopening, hinner]

/-- Stripping a base and joining it again. -/
theorem join_stripBase? {base : Path} (hbase : base.text ≠ "") (h : p.startsWith base = true) :
    ∃ rel, p.stripBase? base = some rel ∧ (base.join rel).Same p := by
  obtain ⟨rel, hrel, habs, hopening, -⟩ := stripBase?_eq (components_ne_nil hbase) h
  refine ⟨rel, hrel, ?_⟩
  rw [Same, components_join hbase habs, ← components_stripBase? hbase h hrel, components_eq rel,
    hopening, Option.toList_none, List.nil_append]

theorem compareComponents_append_left (xs ys zs : List Component) :
    compareComponents (zs ++ xs) (zs ++ ys) = compareComponents xs ys := by
  induction zs with
  | nil => rfl
  | cons z zs ih =>
    have hself : z.compare z = .eq := Std.ReflCmp.compare_self
    rw [List.cons_append, List.cons_append, compareComponents, ih, hself]
    rfl

/-- Stripping keeps the order. -/
theorem compare_stripBase? {base rel rel' : Path} (hbase : base.text ≠ "")
    (hp : p.startsWith base = true) (hq : q.startsWith base = true)
    (hrel : p.stripBase? base = some rel) (hrel' : q.stripBase? base = some rel') :
    rel.compare rel' = p.compare q := by
  rw [Path.compare, Path.compare, ← components_stripBase? hbase hp hrel,
    ← components_stripBase? hbase hq hrel', compareComponents_append_left]

end Path

end Vendoring
