import Vendoring.Command.Execute
import Vendoring.Proofs.Differing
import Vendoring.Proofs.Ordering
import Vendoring.Proofs.Patch.Applying

/-!
# Differences name their files

A difference is announced because of what stands at two paths, and its text is made
from what the two contents are. A file that is not there has the content of an empty
one, so one difference has nothing to show: that of a missing file whose source is
empty (`Entry.Blank`). Every other one names its file, in the lines in front of its
hunks or in the line that stands for contents that are no text (`Headed`).
-/

namespace Vendoring

/-! ## Names -/

/-- A file is named by the components that its path has behind those of the root, and
by all of them where the path is not below it. -/
def NamedBelow (root p : Path) (name : String) : Prop :=
  ∃ cs : List Component, name = "/".intercalate (cs.map Component.text)
    ∧ if p.startsWith root then root.components ++ cs = p.components else cs = p.components

theorem namedBelow_patchName (root p : Path) : NamedBelow root p (patchName p root) := by
  refine ⟨((p.stripBase? root).getD p).components, rfl, ?_⟩
  split
  · next hbelow =>
    by_cases hroot : root.components = []
    · obtain ⟨rel, hrel, hsame⟩ := Path.stripBase?_of_components_eq_nil (p := p) hroot
      rw [hrel, hroot]
      exact hsame
    · have htext := Path.text_ne_empty_of_components hroot
      obtain ⟨rel, hrel, -⟩ := Path.join_stripBase? htext hbelow
      rw [hrel]
      exact Path.components_stripBase? htext hbelow hrel
  · next hbeside =>
    unfold Path.stripBase?
    rw [if_neg hbeside]
    rfl

/-- The text says that the contents of a file differ, or names the file on both sides in
front of at least one hunk. -/
inductive Headed (name : String) : String → Prop
  | binary : Headed name ("Binary files a/" ++ name ++ " and b/" ++ name ++ " differ\n")
  | hunks {body : String} {hs : List Patch.Shown} (hread : Patch.readPatch? body = some hs)
      (hne : hs ≠ []) (hstart : "@@ -".toList <+: body.toList) :
      Headed name ("--- a/" ++ name ++ "\n+++ b/" ++ name ++ "\n" ++ body)

theorem startsWith_join_texts {hs : List Patch.Shown} (h : hs ≠ []) :
    "@@ -".toList <+: (String.join (hs.map Patch.Shown.text)).toList := by
  obtain ⟨x, hs, rfl⟩ := List.exists_cons_of_ne_nil h
  rw [List.map_cons, String.join_cons, Patch.Shown.text, String.toList_append,
    String.toList_append, Patch.Shown.toList_header, List.append_assoc]
  exact List.prefix_append ['@', '@', ' ', '-'] _

theorem headed_patchText (name : String) {old new : ByteArray} (hne : old ≠ new) :
    Headed name (patchText name old new) := by
  cases hold : String.fromUTF8? old with
  | none =>
    simp only [patchText, hold]
    exact .binary
  | some a =>
    cases hnew : String.fromUTF8? new with
    | none =>
      simp only [patchText, hold, hnew]
      exact .binary
    | some b =>
      obtain ⟨hnonempty, htext⟩ := Patch.patchText_eq name hold hnew hne
      rw [htext]
      exact .hunks (Patch.readPatch?_shownHunks a b) hnonempty (startsWith_join_texts hnonempty)

theorem Headed.ne_empty {name patch : String} (h : Headed name patch) : patch ≠ "" := by
  cases h <;> simp

theorem patchText_empty (name : String) :
    patchText name ByteArray.empty ByteArray.empty = "" := by
  have hempty : String.fromUTF8? ByteArray.empty = some "" := by decide +kernel
  simp only [patchText, hempty]
  rfl

/-! ## Entries -/

/-- The file of the entry is missing, and its source has no bytes. -/
def Entry.Blank (e : Entry) (c : Category) (d : Disk) : Prop :=
  entryState c e d = .ok .missing ∧ d.read? (c.sourcePath e) = .ok ByteArray.empty

/-- The difference of an entry names its file, except for a blank one. -/
structure FileDifference.TellsOf (diff : FileDifference) (c : Category) (e : Entry) (root : Path)
    (d : Disk) : Prop where
  path : diff.path = c.destinationPath e
  blank : e.Blank c d → diff.patch = ""
  headed : ¬e.Blank c d → ∃ name, NamedBelow root diff.path name ∧ Headed name diff.patch

section Entries

variable {c : Category} {root : Path} {d : Disk} {diff : FileDifference}

theorem readOrEmpty_eq_ok_of_not_file {p : Path} {bytes : ByteArray}
    (hfile : d.isFile? p = .ok false) (h : readOrEmpty d p = .ok bytes) :
    bytes = ByteArray.empty := by
  by_cases hdir : d.isDirectory p = true
  · obtain ⟨n, hn, hkind⟩ : ∃ n, d.node? p = .ok n ∧ n.isDirectory = true := by
      unfold Disk.isDirectory at hdir
      cases hn : d.node? p with
      | error f => rw [hn] at hdir; cases hdir
      | ok n => rw [hn] at hdir; exact ⟨n, rfl, hdir⟩
    cases n with
    | file => cases hkind
    | link => cases hkind
    | directory =>
      rw [readOrEmpty, Disk.read?, hn] at h
      cases h
  · rw [Disk.readOrEmpty_of_not_file hfile (Bool.not_eq_true _ ▸ hdir)] at h
    exact (Except.ok.inj h).symm

theorem entryDifference_tells {e : Entry} {diffs : List FileDifference}
    (h : entryDifference c root e d = .ok diffs) (hdiff : diff ∈ diffs) :
    diff.TellsOf c e root d := by
  cases Disk.found d (c.sourcePath e) (c.destinationPath e) with
  | sourceError x hs =>
    rw [entryDifference, entryState_of_source_error hs] at h
    cases h
  | noSource hs =>
    rw [entryDifference, entryState_of_no_source hs] at h
    cases h
  | destinationError x hs hd =>
    rw [entryDifference, entryState_of_destination_error hs hd] at h
    cases h
  | noDestination hs hd =>
    obtain ⟨new, mode, hnew⟩ := Disk.isFile?_eq_true_iff.mp hs
    have hstate := entryState_of_no_destination hs hd
    rw [entryDifference_of_changed root (Or.inr hstate), Disk.readOrEmpty_of_file hnew] at h
    cases hold : readOrEmpty d (c.destinationPath e) with
    | error x => rw [hold] at h; cases h
    | ok old =>
      obtain rfl := readOrEmpty_eq_ok_of_not_file hd hold
      rw [hold] at h
      cases h
      cases List.mem_singleton.mp hdiff
      refine ⟨rfl, fun hblank => ?_, fun hblank => ⟨_, namedBelow_patchName root _, ?_⟩⟩
      · have hread := (Disk.read?_of_file hnew).symm.trans hblank.2
        rw [Except.ok.inj hread]
        exact patchText_empty (patchName (c.destinationPath e) root)
      · refine headed_patchText _ fun heq => hblank ⟨hstate, ?_⟩
        rw [Disk.read?_of_file hnew, heq]
  | files new old mode mode' hs hd =>
    have hstate := entryState_of_files hs hd
    by_cases hsame : new = old
    · rw [if_pos hsame] at hstate
      rw [entryDifference, hstate] at h
      cases h
      cases hdiff
    · rw [if_neg hsame] at hstate
      rw [entryDifference_of_changed root (Or.inl hstate), Disk.readOrEmpty_of_file hs,
        Disk.readOrEmpty_of_file hd] at h
      cases h
      cases List.mem_singleton.mp hdiff
      refine ⟨rfl, fun hblank => ?_, fun _ => ⟨_, namedBelow_patchName root _, ?_⟩⟩
      · rw [Entry.Blank, hstate] at hblank
        cases hblank.1
      · exact headed_patchText _ (Ne.symm hsame)

theorem exists_of_stale {e : Entry} {diffs : List FileDifference}
    (hstate : entryState c e d = .ok .outdated ∨ entryState c e d = .ok .missing)
    (h : entryDifference c root e d = .ok diffs) : ∃ diff ∈ diffs, diff.TellsOf c e root d := by
  have htells {diff : FileDifference} (hdiff : diff ∈ diffs) := entryDifference_tells h hdiff
  rw [entryDifference_of_changed root hstate] at h
  obtain ⟨old, -, h⟩ := bind_eq_ok h
  obtain ⟨new, -, h⟩ := bind_eq_ok h
  cases h
  exact ⟨_, List.mem_singleton.mpr rfl, htells (List.mem_singleton.mpr rfl)⟩

end Entries

/-- A loop that collects lists collects those of all elements. -/
theorem collect_eq_ok {ε α β : Type} {f : α → Except ε (List β)} {g : List α → Except ε (List β)}
    (hnil : g [] = .ok [])
    (hcons : ∀ x xs, g (x :: xs) = f x >>= fun one => g xs >>= fun more => .ok (one ++ more))
    {xs : List α} {ys : List β} (h : g xs = .ok ys) :
    (∀ x ∈ xs, ∃ one, f x = .ok one ∧ one ⊆ ys)
      ∧ ∀ y ∈ ys, ∃ x ∈ xs, ∃ one, f x = .ok one ∧ y ∈ one := by
  induction xs generalizing ys with
  | nil =>
    rw [hnil] at h
    cases h
    exact ⟨nofun, nofun⟩
  | cons x xs ih =>
    rw [hcons] at h
    obtain ⟨one, hone, h⟩ := bind_eq_ok h
    obtain ⟨more, hmore, h⟩ := bind_eq_ok h
    cases h
    obtain ⟨hall, hfrom⟩ := ih hmore
    refine ⟨fun x' hx' => ?_, fun y hy => ?_⟩
    · rcases List.mem_cons.mp hx' with rfl | hx'
      · exact ⟨one, hone, List.subset_append_left ..⟩
      · obtain ⟨one', hone', hsub⟩ := hall x' hx'
        exact ⟨one', hone', List.Subset.trans hsub (List.subset_append_right ..)⟩
    · rcases List.mem_append.mp hy with hy | hy
      · exact ⟨x, List.mem_cons_self .., one, hone, hy⟩
      · obtain ⟨x', hx', one', hone', hy⟩ := hfrom y hy
        exact ⟨x', List.mem_cons_of_mem _ hx', one', hone', hy⟩

/-- The differences are those of the entries of the category, and every entry that a run
would write is among them. -/
structure TellOf (diffs : List FileDifference) (c : Category) (root : Path) (d : Disk) :
    Prop where
  tells : ∀ diff ∈ diffs, ∃ e ∈ c.entries, diff.TellsOf c e root d
  stale : ∀ e ∈ c.entries, entryState c e d = .ok .outdated ∨ entryState c e d = .ok .missing →
    ∃ diff ∈ diffs, diff.TellsOf c e root d

theorem categoryDifferences_tell {c : Category} {root : Path} {d : Disk}
    {diffs : List FileDifference} (h : categoryDifferences c root d = .ok diffs) :
    TellOf diffs c root d := by
  obtain ⟨hall, hfrom⟩ := collect_eq_ok (f := fun e => entryDifference c root e d)
    (g := entryDifferences c root d) rfl (fun _ _ => rfl) h
  refine ⟨fun diff hdiff => ?_, fun e he hstate => ?_⟩
  · obtain ⟨e, he, one, hone, hdiff⟩ := hfrom diff hdiff
    exact ⟨e, he, entryDifference_tells hone hdiff⟩
  · obtain ⟨one, hone, hsub⟩ := hall e he
    obtain ⟨diff, hdiff, htells⟩ := exists_of_stale hstate hone
    exact ⟨diff, hsub hdiff, htells⟩

/-! ## The whole tree -/

/-- The difference of the unit always names it. -/
def FileDifference.TellsOfUnit (diff : FileDifference) (m : Manifest) (source root : Path) :
    Prop :=
  diff.path = (m.category .sources source root).aggregatePath m.aggregate
    ∧ ∃ name, NamedBelow root diff.path name ∧ Headed name diff.patch

section Tree

variable {m : Manifest} {source root : Path} {d : Disk} {diffs : List FileDifference}
  {diff : FileDifference}

theorem aggregateDifference_tells
    (h : aggregateDifference (m.category .sources source root) m.aggregate root d = .ok diffs)
    (hdiff : diff ∈ diffs) : diff.TellsOfUnit m source root := by
  unfold aggregateDifference at h
  obtain ⟨old, -, h⟩ := bind_eq_ok h
  split at h
  · cases h
    cases hdiff
  · next hne =>
    cases h
    cases List.mem_singleton.mp hdiff
    exact ⟨rfl, _, namedBelow_patchName root _,
      headed_patchText _ fun heq => hne (bytes_beq_iff.mpr heq)⟩

/-- What is printed of several differences contains each of them. -/
theorem exists_append_differencesText (root : Path) (h : diff ∈ diffs) :
    ∃ before behind, Command.differencesText root diffs = before ++ diff.patch ++ behind := by
  obtain ⟨front, rest, rfl⟩ := List.append_of_mem h
  unfold Command.differencesText
  rw [if_neg (by simp), List.map_append, List.map_cons, String.join_append, String.join_cons]
  generalize String.join (front.map _) = before
  generalize String.join (rest.map _) = behind
  split
  · exact ⟨before, behind, (String.append_assoc ..).symm⟩
  · exact ⟨before, "\n" ++ behind, by simp only [String.append_assoc]⟩

theorem treeDifferences_tell (h : treeDifferences m source root d = .ok diffs) :
    (∀ diff ∈ diffs, (∃ c ∈ m.categories source root, ∃ e ∈ c.entries, diff.TellsOf c e root d)
        ∨ diff.TellsOfUnit m source root)
      ∧ ∀ c ∈ m.categories source root, ∀ e ∈ c.entries,
        entryState c e d = .ok .outdated ∨ entryState c e d = .ok .missing →
          ∃ diff ∈ diffs, diff.TellsOf c e root d := by
  unfold treeDifferences at h
  obtain ⟨files, hfiles, h⟩ := bind_eq_ok h
  obtain ⟨unit, hunit, h⟩ := bind_eq_ok h
  cases h
  obtain ⟨hall, hfrom⟩ := collect_eq_ok (f := fun c => categoryDifferences c root d)
    (g := categoriesDifferences root d) rfl (fun _ _ => rfl) hfiles
  refine ⟨fun diff hdiff => ?_, fun c hc e he hstate => ?_⟩
  · rcases List.mem_append.mp hdiff with hdiff | hdiff
    · obtain ⟨c, hc, one, hone, hdiff⟩ := hfrom diff hdiff
      exact Or.inl ⟨c, hc, (categoryDifferences_tell hone).tells diff hdiff⟩
    · exact Or.inr (aggregateDifference_tells hunit hdiff)
  · obtain ⟨one, hone, hsub⟩ := hall c hc
    obtain ⟨diff, hdiff, htells⟩ := (categoryDifferences_tell hone).stale e he hstate
    exact ⟨diff, List.mem_append_left _ (hsub hdiff), htells⟩

end Tree

/-- Every difference names its file, except that of a missing file whose source is empty,
which has no text. The files that a run would write are all among the differences, and
what is printed contains each of these. -/
theorem differences_name_their_files (m : Manifest) (source root : Path) (d : Disk) :
    (∀ c diffs, categoryDifferences c root d = .ok diffs → TellOf diffs c root d)
      ∧ ∀ diffs, treeDifferences m source root d = .ok diffs →
        (∀ diff ∈ diffs,
            (∃ c ∈ m.categories source root, ∃ e ∈ c.entries, diff.TellsOf c e root d)
              ∨ diff.TellsOfUnit m source root)
          ∧ (∀ c ∈ m.categories source root, ∀ e ∈ c.entries,
            entryState c e d = .ok .outdated ∨ entryState c e d = .ok .missing →
              ∃ diff ∈ diffs, diff.TellsOf c e root d)
          ∧ ∀ chosen, ∀ diff ∈ diffs, ∃ before behind,
            (Command.showDifferences ⟨source, root, chosen⟩ d m).output
              = before ++ diff.patch ++ behind := by
  refine ⟨fun c diffs h => categoryDifferences_tell h, fun diffs h => ?_⟩
  obtain ⟨htells, hstale⟩ := treeDifferences_tell h
  refine ⟨htells, hstale, fun chosen diff hdiff => ?_⟩
  have houtput : (Command.showDifferences ⟨source, root, chosen⟩ d m).output
      = Command.differencesText root diffs := by
    unfold Command.showDifferences
    rw [h]
    rfl
  rw [houtput]
  exact exists_append_differencesText root hdiff

/-! Nothing is vendored yet of an empty header, a source that is no text, and a test. -/

def motley : Manifest where
  aggregate := {}
  headers := ⟨⟨"inc"⟩, ⟨"include"⟩, [⟨"a.h"⟩]⟩
  sources := ⟨⟨"src"⟩, ⟨"lib"⟩, [⟨"b.cpp"⟩]⟩
  tests := ⟨⟨"t"⟩, ⟨"tests"⟩, [⟨"c.cpp"⟩]⟩

def motleyTree : FileTree :=
  ((((((FileTree.empty.put ["up"] .directory).put ["inc", "up"] .directory).put
    ["a.h", "inc", "up"] (.file ByteArray.empty 0o644)).put ["src", "up"] .directory).put
    ["b.cpp", "src", "up"] (.file ⟨#[255]⟩ 0o644)).put ["t", "up"] .directory).put
    ["c.cpp", "t", "up"] (.file "c".toUTF8 0o644)

theorem motley_is_told :
    ∃ diffs, treeDifferences motley ⟨"up"⟩ ⟨"out"⟩ ⟨motleyTree, []⟩ = .ok diffs
      ∧ diffs.length = 4
      ∧ (∀ diff ∈ diffs,
          (∃ c ∈ motley.categories ⟨"up"⟩ ⟨"out"⟩, ∃ e ∈ c.entries,
              diff.TellsOf c e ⟨"out"⟩ ⟨motleyTree, []⟩)
            ∨ diff.TellsOfUnit motley ⟨"up"⟩ ⟨"out"⟩)
      ∧ ∀ diff ∈ diffs, ∃ before behind,
        (Command.showDifferences ⟨⟨"up"⟩, ⟨"out"⟩, none⟩ ⟨motleyTree, []⟩ motley).output
          = before ++ diff.patch ++ behind := by
  have hlength : (treeDifferences motley ⟨"up"⟩ ⟨"out"⟩ ⟨motleyTree, []⟩).toOption.map List.length
      = some 4 := by
    decide +kernel
  cases hdiffs : treeDifferences motley ⟨"up"⟩ ⟨"out"⟩ ⟨motleyTree, []⟩ with
  | error x => rw [hdiffs] at hlength; cases hlength
  | ok diffs =>
    rw [hdiffs] at hlength
    obtain ⟨htells, -, hprinted⟩ :=
      (differences_name_their_files motley ⟨"up"⟩ ⟨"out"⟩ ⟨motleyTree, []⟩).2 diffs hdiffs
    exact ⟨diffs, rfl, Option.some.inj hlength, htells, hprinted none⟩

/-- The header is announced as a difference that shows nothing. -/
theorem blank_header_is_not_named :
    (treeDifferences motley ⟨"up"⟩ ⟨"out"⟩ ⟨motleyTree, []⟩).toOption.map List.head?
        = some (some ⟨⟨"out/include/a.h"⟩, ""⟩)
      ∧ ∀ name, ¬Headed name "" :=
  ⟨by decide +kernel, fun _ h => h.ne_empty rfl⟩

end Vendoring
