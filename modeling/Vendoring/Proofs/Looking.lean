import Vendoring.Proofs.Contents
import Vendoring.Difference

/-!
# What the readers see at a path

Everything that decides about a file looks at it through one of four
questions: is it a regular file (`isFile?`), does it hold the same bytes as
another one (`identical?`), does it hold a given text (`compareWithText`),
and what are its bytes (`readOrEmpty`). All four are answered here by
`Disk.node?`, so that what is said of one reader is said of the others.
-/

namespace Vendoring

namespace Disk

variable {d : Disk} {p source destination : Path}

theorem isFile?_eq_true_iff :
    d.isFile? p = .ok true ↔ ∃ bytes mode, d.node? p = .ok (.file bytes mode) := by
  unfold isFile?
  split
  · next n hn =>
    cases n <;> simp [hn, Node.isFile]
  · next hn => simp [hn]
  · next f _ hn => simp [hn]

theorem isFile?_of_file {bytes : ByteArray} {mode : Nat}
    (h : d.node? p = .ok (.file bytes mode)) : d.isFile? p = .ok true :=
  isFile?_eq_true_iff.mpr ⟨bytes, mode, h⟩

/-- The errors of looking are errors of the file system at that very path. -/
theorem isFile?_eq_error {x : SyncError} (h : d.isFile? p = .error x) :
    ∃ f, x = .io p f := by
  unfold isFile? at h
  split at h
  · cases h
  · cases h
  · next f _ _ => exact ⟨f, (Except.error.inj h).symm⟩

/-- What can be found at the two paths of an entry, in the order in which the
readers look: the source comes first, and without it nothing else counts. -/
inductive Found (d : Disk) (source destination : Path) : Prop
  | sourceError (x : SyncError) (hs : d.isFile? source = .error x)
  | noSource (hs : d.isFile? source = .ok false)
  | destinationError (x : SyncError) (hs : d.isFile? source = .ok true)
      (hd : d.isFile? destination = .error x)
  | noDestination (hs : d.isFile? source = .ok true) (hd : d.isFile? destination = .ok false)
  | files (a b : ByteArray) (mode mode' : Nat) (hs : d.node? source = .ok (.file a mode))
      (hd : d.node? destination = .ok (.file b mode'))

theorem found (d : Disk) (source destination : Path) : Found d source destination := by
  cases hs : d.isFile? source with
  | error x => exact .sourceError x hs
  | ok isFile =>
    cases isFile with
    | false => exact .noSource hs
    | true =>
      cases hd : d.isFile? destination with
      | error x => exact .destinationError x hs hd
      | ok isFile =>
        cases isFile with
        | false => exact .noDestination hs hd
        | true =>
          obtain ⟨a, mode, ha⟩ := isFile?_eq_true_iff.mp hs
          obtain ⟨b, mode', hb⟩ := isFile?_eq_true_iff.mp hd
          exact .files a b mode mode' ha hb

/-! ## Two files -/

theorem identical?_of_files {a b : ByteArray} {mode mode' : Nat}
    (hs : d.node? source = .ok (.file a mode))
    (hd : d.node? destination = .ok (.file b mode')) :
    d.identical? source destination = .ok (decide (a = b)) := by
  unfold identical?
  rw [hd, hs]
  by_cases hsize : a.size = b.size
  · simp only [if_pos hsize]
    congr 1
    rw [Bool.eq_iff_iff, sameStream_chunks, decide_eq_true_iff]
  · have hne : a ≠ b := fun h => hsize (congrArg ByteArray.size h)
    simp [hsize, hne]

theorem identical?_of_not_file (h : d.isFile? destination = .ok false) :
    d.identical? source destination = .ok false := by
  unfold isFile? at h
  unfold identical?
  split at h
  · next n hn =>
    cases n with
    | file bytes mode => simp [Node.isFile] at h
    | directory => rw [hn]
    | link target => rw [hn]
  · next hn => rw [hn]
  · cases h

theorem identical?_of_error {x : SyncError} (h : d.isFile? destination = .error x) :
    d.identical? source destination = .error x := by
  unfold isFile? at h
  unfold identical?
  split at h
  · cases h
  · cases h
  · next f hne hn =>
    rw [hn]
    cases f <;> first | exact h | exact absurd rfl hne

theorem requireSource_of_error {x : SyncError} (kind : Kind) (e : Entry)
    (h : d.isFile? source = .error x) : d.requireSource kind e source = .error x := by
  rw [requireSource, h]
  rfl

theorem requireSource_of_not_file (kind : Kind) (e : Entry) (h : d.isFile? source = .ok false) :
    d.requireSource kind e source = .error (.missingSource kind e source) := by
  rw [requireSource, h]
  rfl

theorem requireSource_of_file (kind : Kind) (e : Entry) (h : d.isFile? source = .ok true) :
    d.requireSource kind e source = .ok () := by
  rw [requireSource, h]
  rfl

/-! ## Bytes and texts -/

theorem read?_eq_ok_iff {bytes : ByteArray} :
    d.read? p = .ok bytes ↔ ∃ mode, d.node? p = .ok (.file bytes mode) := by
  unfold read?
  cases hnode : d.node? p with
  | error f => simp [bind, Except.bind]
  | ok n => cases n <;> simp [bind, Except.bind]

theorem read?_of_file {bytes : ByteArray} {mode : Nat}
    (h : d.node? p = .ok (.file bytes mode)) : d.read? p = .ok bytes :=
  read?_eq_ok_iff.mpr ⟨mode, h⟩

theorem readOrEmpty_of_file {bytes : ByteArray} {mode : Nat}
    (h : d.node? p = .ok (.file bytes mode)) : readOrEmpty d p = .ok bytes := by
  unfold readOrEmpty
  rw [read?_of_file h]

/-- A path that leads to no regular file reads as an empty one, unless it
leads to a directory. -/
theorem readOrEmpty_of_not_file (h : d.isFile? p = .ok false) (hdir : d.isDirectory p = false) :
    readOrEmpty d p = .ok ByteArray.empty := by
  unfold isFile? at h
  unfold readOrEmpty read?
  split at h
  · next n hn =>
    cases n with
    | file bytes mode => simp [Node.isFile] at h
    | directory => simp [isDirectory, hn, Except.toOption, Node.isDirectory] at hdir
    | link target => simp [hn, bind, Except.bind]
  · next hn => simp [hn, bind, Except.bind]
  · cases h

theorem compareWithText_of_file {bytes : ByteArray} {mode : Nat} (text : String)
    (h : d.node? p = .ok (.file bytes mode)) :
    compareWithText d p text = .ok (some (bytes == text.toUTF8)) := by
  unfold compareWithText
  rw [read?_of_file h]

end Disk

end Vendoring
