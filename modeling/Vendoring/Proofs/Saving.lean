import Vendoring.Manifest.File
import Vendoring.Proofs.Manifest.Readback
import Vendoring.Proofs.Moving

/-!
# A saved manifest is loaded again

The text of a manifest is the manifest (`parse_toText`), and saving leaves that
text where the path leads, if the path still leads anywhere (`node?_of_save`).
Only links can prevent that: a link at the temporary name takes the place of
what was written through it, and a link to a directory that the path leads
through is gone when a file takes its place.
-/

namespace Vendoring

namespace Manifest

variable {m : Manifest} {d d' : Disk} {path : Path}

/-- What is told about a manifest that a path names. -/
def duplicateNotices (m : Manifest) (path : Path) : List Notice :=
  m.duplicates.map fun (kind, e) => .duplicateEntry path kind e

theorem parse_toText (hvalid : m.invalid? = none) (origin : Path) :
    parse m.toText origin = (.ok m, m.duplicateNotices origin) := by
  rw [parse, ofText_toText]
  simp only [hvalid]
  rfl

theorem fromUTF8?_toUTF8 (s : String) : String.fromUTF8? s.toUTF8 = some s := by
  unfold String.fromUTF8?
  exact dif_pos s.isValidUTF8

theorem node?_of_save (h : m.save path d = (.ok (), d')) :
    (∃ mode, d'.node? path = .ok (.file m.toText.toUTF8 mode))
      ∨ d'.exists? path = false ∧ ((createParent d path).2.IsLink (path.sibling ".tmp")
        ∨ (createParent d path).2.IsDirectoryLink path) := by
  unfold save at h
  split at h
  · cases h
  split at h
  · cases h
  next d₁ hparent =>
  simp only at h
  split at h
  · cases h
  next d₂ hwrite =>
  split at h
  · cases h
  next d₃ hrename =>
  obtain rfl := (Prod.mk.inj h).2
  rw [hparent]
  exact Disk.node?_of_write_of_rename (by decide) (by decide) hwrite hrename

theorem load_of_file {mode : Nat} (hvalid : m.invalid? = none)
    (hfile : d.node? path = .ok (.file m.toText.toUTF8 mode)) :
    d.readText? path = .ok m.toText ∧ load d path = (.ok m, m.duplicateNotices path) := by
  have htext : d.readText? path = .ok m.toText := by
    rw [Disk.readText?, Disk.read?, hfile]
    simp only [bind, Except.bind, fromUTF8?_toUTF8]
  have hthere : d.exists? path = true := by
    rw [Disk.exists?, hfile]
    rfl
  have hload : load d path = parse m.toText path := by
    unfold load
    simp only [hthere, htext, Bool.not_true, Bool.false_eq_true, if_false]
  exact ⟨htext, hload.trans (parse_toText hvalid path)⟩

theorem saved_manifest_loads (hvalid : m.invalid? = none) :
    (∀ origin, parse m.toText origin = (.ok m, m.duplicateNotices origin))
    ∧ ∀ d path d', m.save path d = (.ok (), d') →
      (d'.readText? path = .ok m.toText ∧ load d' path = (.ok m, m.duplicateNotices path))
      ∨ load d' path = (.error (.absent path), [])
        ∧ ((createParent d path).2.IsLink (path.sibling ".tmp")
          ∨ (createParent d path).2.IsDirectoryLink path) := by
  refine ⟨parse_toText hvalid, fun d path d' hsave => ?_⟩
  refine (node?_of_save hsave).imp (fun ⟨_, hfile⟩ => load_of_file hvalid hfile)
    (And.imp_left fun hthere => ?_)
  unfold load
  simp only [hthere, Bool.not_false, if_true]

/-! A manifest whose texts are hard to write, saved over a link to a file. -/

def difficult : Manifest where
  aggregate := ⟨⟨"Support.cpp"⟩, "DEBUG_TYPE", ["1e3", " #", "a\nb\n"]⟩
  headers := ⟨⟨"it's: \"x\" "⟩, ⟨"\n\n in"⟩, [⟨"a.h"⟩, ⟨"a.h"⟩]⟩
  sources := ⟨⟨""⟩, ⟨"lib"⟩, []⟩
  tests := ⟨⟨"null"⟩, ⟨"\x07\ttest"⟩, [⟨"~"⟩]⟩

def linkedDisk : Disk where
  tree := (((FileTree.empty.put ["conf"] .directory).put
    ["m.yaml", "conf"] (.file "old".toUTF8 0o644)).put
    ["m.yaml"] (.link "conf/m.yaml")).put ["m.yaml.tmp"] (.file "stale".toUTF8 0o600)
  here := []

theorem difficult_is_loaded : difficult.invalid? = none
    ∧ (difficult.save ⟨"m.yaml"⟩ linkedDisk).1 = .ok ()
    ∧ load (difficult.save ⟨"m.yaml"⟩ linkedDisk).2 ⟨"m.yaml"⟩
      = (.ok difficult, difficult.duplicateNotices ⟨"m.yaml"⟩) := by
  have hvalid : difficult.invalid? = none := by decide +kernel
  have hsaved : (difficult.save ⟨"m.yaml"⟩ linkedDisk).1 = .ok () := by decide +kernel
  have hsave : difficult.save ⟨"m.yaml"⟩ linkedDisk
      = (.ok (), (difficult.save ⟨"m.yaml"⟩ linkedDisk).2) := Prod.ext hsaved rfl
  have hparent : (createParent linkedDisk ⟨"m.yaml"⟩).2 = linkedDisk := rfl
  have htemporary : linkedDisk.spot? (Path.sibling ⟨"m.yaml"⟩ ".tmp")
      = .ok (some ⟨[], "m.yaml.tmp", false⟩) := by decide +kernel
  have hpath : linkedDisk.spot? ⟨"m.yaml"⟩ = .ok (some ⟨[], "m.yaml", false⟩) := by decide +kernel
  refine ⟨hvalid, hsaved, (((saved_manifest_loads hvalid).2 _ _ _ hsave).resolve_right ?_).2⟩
  rw [hparent]
  rintro ⟨-, ⟨s, target, hspot, hlink⟩ | ⟨s, hspot, target, n, dir, hlink, hwalk, hdir⟩⟩
  · obtain rfl := Option.some.inj (Except.ok.inj (htemporary.symm.trans hspot))
    cases hlink
  · obtain rfl := Option.some.inj (Except.ok.inj (hpath.symm.trans hspot))
    cases hlink
    have hfile : linkedDisk.tree.walk 1 [] (Path.segments ⟨"conf/m.yaml"⟩)
        = .ok ["m.yaml", "conf"] := by decide +kernel
    obtain ⟨_, _, hfile⟩ := FileTree.walks_of_walk hfile
    obtain rfl := Except.ok.inj (hfile.det hwalk)
    cases hdir

/-- Saved through a temporary name that is a link to the file itself, or along
a path that leads through itself, a manifest is lost. -/
theorem links_lose_manifests :
    difficult.invalid? = none
    ∧ (let d : Disk := ⟨.put .empty ["m.yaml.tmp"] (.link "m.yaml"), []⟩
      (difficult.save ⟨"m.yaml"⟩ d).1 = .ok ()
      ∧ (load (difficult.save ⟨"m.yaml"⟩ d).2 ⟨"m.yaml"⟩).1 = .error (.absent ⟨"m.yaml"⟩))
    ∧ (let d : Disk := ⟨(FileTree.empty.put ["conf"] .directory).put ["m"] (.link "conf"), []⟩
      (difficult.save ⟨"m/../m"⟩ d).1 = .ok ()
      ∧ (load (difficult.save ⟨"m/../m"⟩ d).2 ⟨"m/../m"⟩).1 = .error (.absent ⟨"m/../m"⟩)) := by
  decide +kernel

end Manifest

end Vendoring
