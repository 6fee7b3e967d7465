import Vendoring.Manifest.File
import Vendoring.Proofs.Exchanging
import Vendoring.Proofs.Ordering
import Vendoring.Proofs.Trails

/-!
# What saving a manifest leaves behind

On a tree without links a path has one goal, whatever comes to stand there, and the
temporary file has another one (`goal_sibling_ne`). So it can be said of each
location what becomes of it. A save that succeeds has replaced what was at the goal
of the path and left nothing at the temporary one (`Stored`); one that fails on the
way has changed nothing but what was at the temporary one (`Intact`). Directories
around the path may have been made either way.

A path may have no name to put a suffix to, such as `..`; the temporary name is
that of a member then, and the save fails when it comes to the move.
-/

namespace Vendoring

open Vendoring.Path FileTree

namespace Path

variable {p : Path} {name suffix : String}

/-! ## The goal of the temporary file -/

/-- A name among the components is a segment. -/
theorem segment_of_name (h : .name name ∈ p.components) :
    ∃ s ∈ p.segments, s ≠ ['.', '.'] ∧ name = String.ofList s := by
  rw [components_eq, List.mem_append, Option.mem_toList] at h
  rcases h with h | h
  · unfold opening at h
    split at h
    · cases h
    split at h <;> cases h
  · obtain ⟨s, hs, hname⟩ := List.mem_filterMap.mp h
    unfold Segment.component? at hname
    split at hname
    · cases hname
    split at hname
    · cases hname
    next hup =>
    refine ⟨s, hs, by simpa using hup, ?_⟩
    exact (Component.name.inj (Option.some.inj hname)).symm

theorem components_of_fileName? (h : p.fileName? = some name) :
    ∃ front, p.components = front ++ [.name name] := by
  unfold fileName? at h
  split at h
  · next s hlast =>
    obtain rfl := Option.some.inj h
    exact List.getLast?_eq_some_iff.mp hlast
  · cases h

/-- A name longer than `..` is that of a member. -/
theorem goal_join (q : Path) {s : Segment} (hslash : '/' ∉ s) (hlong : 2 < s.length)
    (here : Location) :
    (q.join ⟨String.ofList s⟩).goal here = String.ofList s :: q.goal here := by
  have hrel := isAbsolute_of_name hslash
  have hne (t : Segment) (ht : t.length ≤ 2) : s ≠ t := by
    rintro rfl
    omega
  have hsilent : s.isSilent = false := by
    rw [Segment.isSilent, Bool.or_eq_false_iff]
    exact ⟨beq_false_of_ne (hne [] (by decide)), beq_false_of_ne (hne ['.'] (by decide))⟩
  have hname : Path.names ⟨String.ofList s⟩ = [String.ofList s] := by
    rw [names, segments_of_name hslash, spoken_cons_of_name hsilent]
    rfl
  rw [goal, startOf, isAbsolute_join q hrel, names_join q hrel, hname,
    goalFrom_concat _ _ (name_eq_up_iff.not.mpr (hne ['.', '.'] (by decide)))]
  rfl

/-- The temporary file stands beside what the path leads to, or inside when the path
has no name to put the suffix to. -/
theorem goal_sibling (p : Path) (hsuffix : '/' ∉ suffix.toList)
    (hlong : 2 < suffix.toList.length) (here : Location) :
    (p.sibling suffix).goal here = suffix :: p.goal here
      ∨ ∃ name l, p.goal here = name :: l
        ∧ (p.sibling suffix).goal here = (name ++ suffix) :: l := by
  cases hname : p.fileName? with
  | none =>
    left
    have hjoin : p.sibling suffix = p.join ⟨String.ofList suffix.toList⟩ := by
      rw [sibling, withFileName, hname, Option.isSome_none, if_neg Bool.false_ne_true,
        Option.getD_none, String.empty_append, String.ofList_toList]
    rw [hjoin, goal_join p hsuffix hlong, String.ofList_toList]
  | some name =>
    right
    obtain ⟨front, hcomponents⟩ := components_of_fileName? hname
    have hmem : .name name ∈ p.components := by simp [hcomponents]
    obtain ⟨s, hs, hnot, rfl⟩ := segment_of_name hmem
    have hp : p.names = front.filterMap spokenName? ++ [String.ofList s] := by
      rw [names_eq, hcomponents, List.filterMap_append]
      rfl
    obtain ⟨up, hup⟩ := parent?_isSome (p := p) (by rw [hp]; simp)
    have hparent := isParent_of_parent? hup
    have hnames : p.names = up.names ++ [String.ofList s] := by
      rw [hparent.names, hp, List.dropLast_concat]
    have hslash : '/' ∉ s ++ suffix.toList := by
      rw [List.mem_append, not_or]
      exact ⟨slash_not_mem hs, hsuffix⟩
    have hjoin : p.sibling suffix = up.join ⟨String.ofList (s ++ suffix.toList)⟩ := by
      rw [sibling_eq_join hname hup, String.ofList_append, String.ofList_toList]
    refine ⟨String.ofList s, up.goal here, ?_, ?_⟩
    · rw [goal, hnames, goalFrom_concat _ _ (name_eq_up_iff.not.mpr hnot), goal, startOf, startOf,
        hparent.absolute]
    · rw [hjoin, goal_join up hslash (by rw [List.length_append]; omega), String.ofList_append,
        String.ofList_toList]

theorem goal_sibling_ne (p : Path) (hsuffix : '/' ∉ suffix.toList)
    (hlong : 2 < suffix.toList.length) (here : Location) :
    (p.sibling suffix).goal here ≠ p.goal here := by
  rcases goal_sibling p hsuffix hlong here with h | ⟨name, l, hp, h⟩
  · rw [h]
    simp
  · rw [h, hp]
    intro heq
    have hlength := congrArg (fun name : String => name.toList.length) (List.cons.inj heq).1
    simp only [String.toList_append, List.length_append] at hlength
    omega

end Path

namespace Disk

variable {d d₁ d' : Disk} {p q : Path} {s : Spot} {node : Node} {bytes : ByteArray} {mode : Nat}

/-! ## On a tree without links -/

theorem Replaced.linkFree (h : d.Replaced p s bytes mode d') (hfree : d.tree.LinkFree) :
    d'.tree.LinkFree := by
  intro l target hl
  rw [h.nodes] at hl
  split at hl
  · cases hl
  · exact hfree l target hl

theorem Replaced.not_loops (h : d.Replaced p s bytes mode d') (hfree : d.tree.LinkFree) :
    ¬d.Loops p s :=
  not_loops_of_not_directoryLink h.spot h.slash h.free (not_isDirectoryLink hfree p)

/-- The last name of a path stands at its goal. -/
theorem location_of_spot? (hfree : d.tree.LinkFree) (h : d.spot? p = .ok (some s)) :
    s.location = p.goal d.here :=
  (spot?_eq_goal ⟨hfree, rfl⟩ h).1

/-- What is written is a file at the last name. -/
theorem replaced_of_write (hfree : d.tree.LinkFree) (h : d.write q bytes = (.ok (), d')) :
    ∃ s mode, d.Replaced q s bytes mode d' := by
  unfold write at h
  split at h
  · cases h
  next l htarget =>
  obtain rfl := (Prod.mk.inj h).2
  obtain ⟨s, hspot, -⟩ := writesTo_of_writeTarget htarget
  rw [hspot] at htarget
  obtain ⟨hslash, hfits, ⟨rfl, hfile⟩ | ⟨target, _, -, hlink, -⟩⟩ := writeTarget_cases htarget
  · have hold : d.tree.node? s.location ≠ some .directory := fun hdir => by cases hfile _ hdir
    exact ⟨s, _, rfl, hspot, hslash, hfits, hold,
      node?_put _ _ _ (canPut_of_spot? hspot hslash hold)⟩
  · exact absurd hlink (hfree _ target)

theorem write_error_disk {f : FileFault} (h : d.write q bytes = (.error f, d')) : d' = d := by
  unfold write at h
  split at h
  · exact (Prod.mk.inj h).2.symm
  · cases (Prod.mk.inj h).1

theorem isFile_of_linkFree {l : Location} (hfree : d.tree.LinkFree)
    (hnode : d.tree.node? l = some node) (hold : d.tree.node? l ≠ some .directory) :
    node.isFile = true := by
  cases node with
  | file => rfl
  | directory => exact absurd hnode hold
  | link target => exact absurd hnode (hfree l target)

/-- What was moved away leaves nothing behind. -/
theorem Renamed.missing {a b : Spot} (h : d.Renamed d₁ q p a b node) (hfree : d.tree.LinkFree)
    (hne : a.location ≠ b.location) : d₁.node? q = .error .notFound := by
  have hold : d.tree.node? a.location ≠ some .directory := by
    rw [h.there]
    exact fun hdir => h.movable (Option.some.inj hdir)
  have hways : d.tree.SameWays d₁.tree := sameWays_of_files fun m there hm hfile => by
    rw [h.nodes, if_neg, if_neg, hm]
    · rintro rfl
      rw [isFile_of_linkFree hfree hm hold] at hfile
      cases hfile
    · rintro rfl
      rw [isFile_of_linkFree hfree hm h.free] at hfile
      cases hfile
  obtain ⟨htext, front, last, happroach, hname⟩ := approach_of_spot? h.source h.sourceSlash
  have hhere : d₁.here = d.here := by rw [h.tree]; rfl
  have hkept := happroach.keep hways
  rw [← hhere] at hkept
  refine hkept.missing htext (hname ▸ h.sourceFits) ?_
  rw [← hname, ← Spot.location, h.nodes, if_neg hne, if_pos rfl]

/-! ## What becomes of a location -/

/-- What stood at the location stands there still, or nothing did and now a directory
around the path does. -/
def Undisturbed (d : Disk) (path : Path) (l : Location) (d' : Disk) : Prop :=
  d'.tree.node? l = d.tree.node? l
    ∨ d.tree.node? l = none ∧ d'.tree.node? l = some .directory
      ∧ ∃ q : Path, q.Around path ∧ l = q.goal d.here

theorem Paved.undisturbed {path : Path} (h : d.Paved (·.Around path) d₁) (hfree : d.tree.LinkFree)
    (l : Location) : d.Undisturbed path l d₁ := by
  cases hnode : d.tree.node? l with
  | some node => exact Or.inl (hnode ▸ h.kept l node hnode)
  | none =>
    cases hnode' : d₁.tree.node? l with
    | none => exact Or.inl (hnode'.trans hnode.symm)
    | some node =>
      obtain ⟨rfl, q, hq, hlocate⟩ := h.made l node hnode hnode'
      exact Or.inr ⟨hnode, hnode', q, hq, locate?_eq_goal ⟨h.linkFree hfree, h.here⟩ hlocate⟩

/-- A disk on which a manifest should have been saved and was not. -/
structure Intact (d : Disk) (path : Path) (d' : Disk) : Prop where
  here : d'.here = d.here
  node : ∀ node, d.node? path = .ok node → d'.node? path = .ok node
  goal : ∀ node, d.tree.node? (path.goal d.here) = some node →
    d'.tree.node? (path.goal d.here) = some node
  others : ∀ l, d.Undisturbed path l d'
    ∨ l = (path.sibling ".tmp").goal d.here
      ∧ (∃ bytes mode, d.tree.node? l = some (.file bytes mode)) ∧ d'.tree.node? l = none

/-- A disk on which one was saved with these bytes. -/
structure Stored (d : Disk) (path : Path) (bytes : ByteArray) (d' : Disk) : Prop where
  here : d'.here = d.here
  content : ∃ mode, d'.node? path = .ok (.file bytes mode)
  temporary : d'.node? (path.sibling ".tmp") = .error .notFound
  vacated : d'.tree.node? ((path.sibling ".tmp").goal d.here) = none
  files : ∀ l node, l = path.goal d.here ∨ l = (path.sibling ".tmp").goal d.here →
    d.tree.node? l = some node → node.isFile = true
  others : ∀ l, l ≠ path.goal d.here → l ≠ (path.sibling ".tmp").goal d.here →
    d.Undisturbed path l d'

section Saving

variable {path : Path} {d₂ d₃ : Disk} (hfree : d.tree.LinkFree)
  (hpaved : d.Paved (·.Around path) d₁)

include hfree hpaved

theorem Paved.intact : d.Intact path d₁ where
  here := hpaved.here
  node _ h := hpaved.toExtends.node? h
  goal node h := hpaved.kept _ node h
  others l := Or.inl (hpaved.undisturbed hfree l)

section Written

variable (hreplaced : d₁.Replaced (path.sibling ".tmp") s bytes mode d₂)

include hreplaced

theorem location_temporary : s.location = (path.sibling ".tmp").goal d.here := by
  rw [← hpaved.here]
  exact location_of_spot? (hpaved.linkFree hfree) hreplaced.spot

/-- What was written is removed again. -/
theorem intact_discard : d.Intact path (d₂.discard (path.sibling ".tmp")) := by
  have hfree₁ := hpaved.linkFree hfree
  have hlocation := location_temporary hfree hpaved hreplaced
  have hne : (path.sibling ".tmp").goal d.here ≠ path.goal d.here :=
    goal_sibling_ne path (by decide) (by decide) d.here
  have hnodes := hreplaced.node?_discard (hreplaced.not_loops hfree₁)
  have hhere : (d₂.discard (path.sibling ".tmp")).here = d₁.here :=
    (discard_here d₂ _).trans hreplaced.here
  have hgoal : (d₂.discard (path.sibling ".tmp")).tree.node? (path.goal d.here)
      = d₁.tree.node? (path.goal d.here) := by
    rw [hnodes, hlocation, if_neg hne.symm]
  refine ⟨hhere.trans hpaved.here, fun node h => ?_, fun node h => ?_, fun l => ?_⟩
  · refine node?_keep hhere (fun m there hm hfile => ?_) (fun l hl => ?_)
      (hpaved.toExtends.node? h)
    · rw [hnodes, if_neg, hm]
      rintro rfl
      rw [isFile_of_linkFree hfree₁ hm hreplaced.free] at hfile
      cases hfile
    · rw [locate?_eq_goal ⟨hfree₁, hpaved.here⟩ hl, hgoal]
  · rw [hgoal, hpaved.kept _ node h]
  · by_cases hl : l = s.location
    · -- a file at the temporary name is lost
      subst hl
      have hgone := (hnodes s.location).trans (if_pos rfl)
      cases hnode : d.tree.node? s.location with
      | none => exact Or.inl (Or.inl (hgone.trans hnode.symm))
      | some node =>
        have hfile := isFile_of_linkFree hfree hnode fun hdir =>
          hreplaced.free (hpaved.kept _ _ hdir)
        cases node with
        | file bytes mode => exact Or.inr ⟨hlocation, ⟨bytes, mode, rfl⟩, hgone⟩
        | directory => cases hfile
        | link target => cases hfile
    · rw [Undisturbed, hnodes, if_neg hl]
      exact Or.inl (hpaved.undisturbed hfree l)

/-- What was written is moved to the path. -/
theorem stored_of_rename (hrename : d₂.rename (path.sibling ".tmp") path = (.ok (), d₃)) :
    d.Stored path bytes d₃ := by
  have hfree₁ := hpaved.linkFree hfree
  have hfree₂ := hreplaced.linkFree hfree₁
  have hlocation := location_temporary hfree hpaved hreplaced
  have hne : (path.sibling ".tmp").goal d.here ≠ path.goal d.here :=
    goal_sibling_ne path (by decide) (by decide) d.here
  obtain ⟨a, b, node, hrenamed⟩ := renamed_of_rename hrename
  obtain rfl : a = s := Option.some.inj (Except.ok.inj
    (hrenamed.source.symm.trans (hreplaced.spot?_iff.mpr (hreplaced.not_loops hfree₁))))
  obtain rfl : node = .file bytes mode :=
    Option.some.inj (hrenamed.there.symm.trans hreplaced.arrived)
  have hhere : d₂.here = d.here := hreplaced.here.trans hpaved.here
  have hhere₃ : d₃.here = d₂.here := by rw [hrenamed.tree]; rfl
  have hgoal : b.location = path.goal d.here := by
    rw [← hhere]
    exact location_of_spot? hfree₂ hrenamed.target
  rw [← hlocation, ← hgoal] at hne
  refine ⟨hhere₃.trans hhere, ⟨mode, hrenamed.node? rfl (not_isDirectoryLink hfree₂ path)⟩,
    hrenamed.missing hfree₂ hne, ?_, fun l node hl hnode => ?_, fun l hl htmp => ?_⟩
  · rw [← hlocation, hrenamed.nodes, if_neg hne, if_pos rfl]
  · refine isFile_of_linkFree hfree hnode fun hdir => ?_
    rcases hl with hl | hl
    · refine hrenamed.free ?_
      rw [hreplaced.nodes, if_neg (Ne.symm hne), hgoal, ← hl, hpaved.kept _ _ hdir]
    · refine hreplaced.free ?_
      rw [hlocation, ← hl, hpaved.kept _ _ hdir]
  · rw [← hgoal] at hl
    rw [← hlocation] at htmp
    rw [Undisturbed, hrenamed.nodes, if_neg hl, if_neg htmp, hreplaced.nodes, if_neg htmp]
    exact hpaved.undisturbed hfree l

end Written

end Saving

end Disk

/-! ## Saving -/

namespace Manifest

variable {d : Disk} {path : Path}

theorem createParent_paved (d : Disk) (path : Path) :
    d.Paved (·.Around path) (createParent d path).2 := by
  unfold createParent
  split
  · exact Disk.Paved.refl d _
  · next up hup => exact Disk.createDirectories_paved (Option.filter_eq_some_iff.mp hup).1

theorem createParent_eq_error {x : ManifestError} (h : (createParent d path).1 = .error x) :
    ∃ q f, x = .io q f := by
  unfold createParent at h
  split at h
  · cases h
  next up hup =>
  cases hcreate : d.createDirectories up with
  | mk r d₁ =>
    rw [hcreate] at h
    cases r with
    | ok => cases h
    | error f => exact ⟨up, f, (Except.error.inj h).symm⟩

/-- Saving is atomic. An invalid manifest is refused and nothing is done. A valid one
is saved, or else what stood at the path stands there still; either way there is no
new file but the manifest, and no other file has changed but one at the temporary
name. -/
theorem save_is_atomic (m : Manifest) (path : Path) (d : Disk) (hfree : d.tree.LinkFree) :
    (∀ reason, m.invalid? = some reason → m.save path d = (.error (.invalid reason), d))
    ∧ (m.invalid? = none →
      (∃ q f, (m.save path d).1 = .error (.io q f)) ∧ d.Intact path (m.save path d).2
      ∨ (m.save path d).1 = .ok () ∧ d.Stored path m.toText.toUTF8 (m.save path d).2) := by
  refine ⟨fun reason hreason => by simp only [save, hreason], fun hvalid => ?_⟩
  have hpaved := createParent_paved d path
  have hfault (x : ManifestError) (h : (createParent d path).1 = .error x) :
      ∃ q f, x = .io q f := createParent_eq_error h
  simp only [save, hvalid]
  cases hparent : createParent d path with
  | mk r d₁ =>
    rw [hparent] at hpaved hfault
    cases r with
    | error x =>
      obtain ⟨q, f, rfl⟩ := hfault x rfl
      exact Or.inl ⟨⟨q, f, rfl⟩, hpaved.intact hfree⟩
    | ok _ =>
      simp only
      cases hwrite : d₁.write (path.sibling ".tmp") m.toText.toUTF8 with
      | mk r d₂ =>
        cases r with
        | error f =>
          obtain rfl := Disk.write_error_disk hwrite
          exact Or.inl ⟨⟨_, f, rfl⟩, hpaved.intact hfree⟩
        | ok _ =>
          obtain ⟨s, mode, hreplaced⟩ := Disk.replaced_of_write (hpaved.linkFree hfree) hwrite
          simp only
          cases hrename : d₂.rename (path.sibling ".tmp") path with
          | mk r d₃ =>
            cases r with
            | error f =>
              obtain rfl := Disk.rename_error_disk hrename
              exact Or.inl ⟨⟨_, f, rfl⟩, Disk.intact_discard hfree hpaved hreplaced⟩
            | ok _ => exact Or.inr ⟨rfl, Disk.stored_of_rename hfree hpaved hreplaced hrename⟩

/-! A manifest saved over an old one behind a directory that has to be made, and
one that is not saved because its path insists on a directory. A file stands at the
temporary name both times. -/

def storeTree : FileTree :=
  ((FileTree.empty.put ["conf"] .directory).put ["m.yaml", "conf"]
    (.file "old".toUTF8 0o600)).put ["m.yaml.tmp", "conf"] (.file "stale".toUTF8 0o600)

theorem shared_layout_is_stored : storeTree.LinkFree
    ∧ Disk.Stored ⟨storeTree, []⟩ ⟨"conf/new/../m.yaml"⟩ sharedLayout.toText.toUTF8
      (sharedLayout.save ⟨"conf/new/../m.yaml"⟩ ⟨storeTree, []⟩).2
    ∧ Disk.Intact ⟨storeTree, []⟩ ⟨"conf/m.yaml/"⟩
      (sharedLayout.save ⟨"conf/m.yaml/"⟩ ⟨storeTree, []⟩).2 := by
  have hfree : storeTree.LinkFree := linkFree_of_nodes (by decide +kernel)
  have hvalid : sharedLayout.invalid? = none := by decide +kernel
  have hsaved : (sharedLayout.save ⟨"conf/new/../m.yaml"⟩ ⟨storeTree, []⟩).1 = .ok () := by
    decide +kernel
  have hfailed : (sharedLayout.save ⟨"conf/m.yaml/"⟩ ⟨storeTree, []⟩).1
      = .error (.io ⟨"conf/m.yaml/"⟩ .notDirectory) := by decide +kernel
  have hsave := (save_is_atomic sharedLayout ⟨"conf/new/../m.yaml"⟩ ⟨storeTree, []⟩ hfree).2 hvalid
  have hsave' := (save_is_atomic sharedLayout ⟨"conf/m.yaml/"⟩ ⟨storeTree, []⟩ hfree).2 hvalid
  rw [hsaved] at hsave
  rw [hfailed] at hsave'
  exact ⟨hfree, (hsave.resolve_left fun ⟨⟨_, _, herror⟩, _⟩ => nomatch herror).2,
    (hsave'.resolve_right fun ⟨hok, _⟩ => nomatch hok).2⟩

end Manifest

end Vendoring
