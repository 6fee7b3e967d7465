import Mathlib.Data.List.Basic
import Vendoring.Proofs.Looking

/-!
# Comparing two files as they are read

A reader hands a file out in chunks, and two readers need not cut at the same
places, nor one reader at the same places twice (`Chunking`). `Answers` is the loop
over the two streams without a bound on its rounds: it comes to an answer, and
that answer is the one of `sameStream` (`answers_sameStreamUpTo`), which does not
depend on the cuts. So two files compare equal just when their bytes are equal.
-/

namespace Vendoring

/-- A content as a reader hands it out. There are no empty chunks: one would say
that the file is at its end. -/
structure Chunking (bytes : ByteArray) where
  chunks : List Chunk
  proper : ∀ c ∈ chunks, c ≠ []
  whole : chunks.flatten = bytes.data.toList

/-- The content in chunks of one size. -/
def Chunking.buffered (bytes : ByteArray) : Chunking bytes where
  chunks := Vendoring.chunks bytes
  proper := ne_nil_of_mem_chunksUpTo (by decide)
  whole := flatten_chunks bytes

/-- The content byte by byte. -/
def Chunking.bytewise (bytes : ByteArray) : Chunking bytes where
  chunks := bytes.data.toList.map ([·])
  proper := by simp
  whole := by rw [← List.flatMap_def, List.flatMap_singleton']

/-! ## The loop -/

/-- The loop answers `r` on two streams after `k` rounds in which it found no
difference. -/
inductive Answers : Nat → List Chunk → List Chunk → Bool → Prop
  | ended {as bs : List Chunk} (h : as = [] ∨ bs = []) :
      Answers 0 as bs (as.isEmpty && bs.isEmpty)
  | differs {a b : Chunk} {as bs : List Chunk}
      (h : a.take (min a.length b.length) ≠ b.take (min a.length b.length)) :
      Answers 0 (a :: as) (b :: bs) false
  | next {k : Nat} {a b : Chunk} {as bs : List Chunk} {r : Bool}
      (h : a.take (min a.length b.length) = b.take (min a.length b.length))
      (hrest : Answers k (afterChunk (min a.length b.length) a as)
        (afterChunk (min a.length b.length) b bs) r) :
      Answers (k + 1) (a :: as) (b :: bs) r

variable {as bs : List Chunk} {r r' : Bool} {k k' : Nat}

theorem Answers.det (h : Answers k as bs r) (h' : Answers k' as bs r') : k = k' ∧ r = r' := by
  induction h generalizing k' r' with
  | ended hend =>
    cases h' with
    | ended => exact ⟨rfl, rfl⟩
    | differs => simp at hend
    | next => simp at hend
  | differs hne =>
    cases h' with
    | ended hend => simp at hend
    | differs => exact ⟨rfl, rfl⟩
    | next heq => exact absurd heq hne
  | next heq hrest ih =>
    cases h' with
    | ended hend => simp at hend
    | differs hne => exact absurd heq hne
    | next _ hrest' =>
      obtain ⟨rfl, rfl⟩ := ih hrest'
      exact ⟨rfl, rfl⟩

/-- In every round a chunk is used up on one side, so the loop ends before the
chunks do. -/
theorem answers_sameStreamUpTo {steps : Nat} (hsteps : as.length + bs.length ≤ steps) :
    ∃ k ≤ steps, Answers k as bs (sameStreamUpTo steps as bs) := by
  induction steps generalizing as bs with
  | zero =>
    obtain rfl : as = [] := List.eq_nil_of_length_eq_zero (by omega)
    obtain rfl : bs = [] := List.eq_nil_of_length_eq_zero (by omega)
    exact ⟨0, Nat.le_refl _, .ended (Or.inl rfl)⟩
  | succ steps ih =>
    match as, bs with
    | [], [] => exact ⟨0, Nat.zero_le _, .ended (Or.inl rfl)⟩
    | [], b :: bs => exact ⟨0, Nat.zero_le _, .ended (Or.inl rfl)⟩
    | a :: as, [] => exact ⟨0, Nat.zero_le _, .ended (Or.inr rfl)⟩
    | a :: as, b :: bs =>
      by_cases heq : a.take (min a.length b.length) = b.take (min a.length b.length)
      · have hfewer : (afterChunk (min a.length b.length) a as).length
            + (afterChunk (min a.length b.length) b bs).length ≤ steps := by
          simp only [length_afterChunk]
          simp only [List.length_cons] at hsteps
          split <;> split <;> omega
        obtain ⟨k, hk, hanswers⟩ := ih hfewer
        refine ⟨k + 1, Nat.succ_le_succ hk, ?_⟩
        simp only [sameStreamUpTo, heq, beq_self_eq_true, Bool.true_and]
        exact .next heq hanswers
      · refine ⟨0, Nat.zero_le _, ?_⟩
        simp only [sameStreamUpTo, beq_false_of_ne heq, Bool.false_and]
        exact .differs heq

section Chunking

variable {a b : ByteArray} (left : Chunking a) (right : Chunking b)

/-- Wherever the chunks end, equal streams are equal contents. -/
theorem sameStream_chunking : sameStream left.chunks right.chunks = decide (a = b) := by
  rw [Bool.eq_iff_iff, sameStream_iff left.proper right.proper, left.whole, right.whole,
    Array.toList_inj, decide_eq_true_iff, ByteArray.ext_iff]

theorem answers_chunking : ∃ k ≤ left.chunks.length + right.chunks.length,
    Answers k left.chunks right.chunks (decide (a = b)) := by
  rw [← sameStream_chunking left right]
  exact answers_sameStreamUpTo (Nat.le_refl _)

end Chunking

/-! ## Two files -/

namespace Disk

variable {d : Disk} {source destination : Path}

/-- `identical?` with readers that may cut the two files anywhere. -/
def identicalThrough? (d : Disk) (left right : (bytes : ByteArray) → Chunking bytes)
    (source destination : Path) : Except SyncError Bool :=
  match d.node? destination with
  | .error .notFound => .ok false
  | .error f => .error (.io destination f)
  | .ok (.file there _) =>
    match d.node? source with
    | .error f => .error (.io source f)
    | .ok (.file bytes _) =>
      if bytes.size = there.size then .ok (sameStream (left bytes).chunks (right there).chunks)
      else .ok false
    | .ok _ => .ok false
  | .ok _ => .ok false

theorem identical?_eq_through (d : Disk) (left right : (bytes : ByteArray) → Chunking bytes)
    (source destination : Path) :
    d.identical? source destination = d.identicalThrough? left right source destination := by
  have hstream (a b : ByteArray) : sameStream (chunks a) (chunks b)
      = sameStream (left a).chunks (right b).chunks :=
    (sameStream_chunking (.buffered a) (.buffered b)).trans (sameStream_chunking ..).symm
  cases hd : d.node? destination with
  | error f => cases f <;> simp only [identical?, identicalThrough?, hd]
  | ok there =>
    cases there with
    | directory => simp only [identical?, identicalThrough?, hd]
    | link target => simp only [identical?, identicalThrough?, hd]
    | file there mode =>
      cases hs : d.node? source with
      | error f => simp only [identical?, identicalThrough?, hd, hs]
      | ok node => cases node <;> simp only [identical?, identicalThrough?, hd, hs, hstream]

section RegularSource

variable {bytes : ByteArray} {mode : Nat} (hs : d.node? source = .ok (.file bytes mode))

include hs

/-- What the destination is decides the answer. -/
theorem identical?_of_source : d.identical? source destination =
    match d.node? destination with
    | .ok (.file there _) => .ok (decide (bytes = there))
    | .ok _ => .ok false
    | .error .notFound => .ok false
    | .error f => .error (.io destination f) := by
  cases hd : d.node? destination with
  | error f => cases f <;> simp only [identical?, hd]
  | ok node =>
    cases node with
    | file there mode' => exact identical?_of_files hs hd
    | directory => simp only [identical?, hd]
    | link target => simp only [identical?, hd]

theorem identical?_eq_true_iff : d.identical? source destination = .ok true
    ↔ ∃ mode', d.node? destination = .ok (.file bytes mode') := by
  rw [identical?_of_source hs]
  cases d.node? destination with
  | error f => cases f <;> simp
  | ok node => cases node <;> simp [eq_comm]

theorem identical?_eq_false_iff : d.identical? source destination = .ok false
    ↔ d.node? destination = .error .notFound
      ∨ (∃ node, d.node? destination = .ok node ∧ node.isFile = false)
      ∨ ∃ there mode', d.node? destination = .ok (.file there mode') ∧ there ≠ bytes := by
  rw [identical?_of_source hs]
  cases d.node? destination with
  | error f => cases f <;> simp
  | ok node => cases node <;> simp [Node.isFile, eq_comm (a := bytes)]

/-- Only a destination that cannot be looked at leaves the question open. -/
theorem identical?_eq_error_iff {x : SyncError} : d.identical? source destination = .error x
    ↔ ∃ f, f ≠ .notFound ∧ d.node? destination = .error f ∧ x = .io destination f := by
  rw [identical?_of_source hs]
  cases d.node? destination with
  | error f =>
    constructor
    · intro h
      cases f <;> cases h <;> exact ⟨_, by decide, rfl, rfl⟩
    · rintro ⟨f', hf, hnode, rfl⟩
      obtain rfl := Except.error.inj hnode
      cases f <;> first | rfl | exact absurd rfl hf
  | ok node => cases node <;> simp

end RegularSource

/-- The comparison in chunks is the plain one, and so is the answer about two paths.
However two readers deliver two contents, the loop ends and answers whether they
are equal; the answer about the paths does not depend on how the readers deliver,
it is `true` just for a regular file with the bytes of the source, and `false` just
for what is missing, no regular file or different. -/
theorem comparison_decides_equality (d : Disk) (source destination : Path) (bytes : ByteArray)
    (mode : Nat) (hs : d.node? source = .ok (.file bytes mode)) :
    (∀ (a b : ByteArray) (left : Chunking a) (right : Chunking b),
      sameStream left.chunks right.chunks = decide (a = b)
      ∧ (∃ k ≤ left.chunks.length + right.chunks.length,
          Answers k left.chunks right.chunks (decide (a = b)))
      ∧ ∀ k r, Answers k left.chunks right.chunks r → r = decide (a = b))
    ∧ (∀ left right : (bytes : ByteArray) → Chunking bytes,
      d.identical? source destination = d.identicalThrough? left right source destination)
    ∧ (d.identical? source destination = .ok true
      ↔ ∃ mode', d.node? destination = .ok (.file bytes mode'))
    ∧ (d.identical? source destination = .ok false
      ↔ d.node? destination = .error .notFound
        ∨ (∃ node, d.node? destination = .ok node ∧ node.isFile = false)
        ∨ ∃ there mode', d.node? destination = .ok (.file there mode') ∧ there ≠ bytes)
    ∧ (∀ x, d.identical? source destination = .error x
      ↔ ∃ f, f ≠ .notFound ∧ d.node? destination = .error f ∧ x = .io destination f) := by
  refine ⟨fun a b left right => ⟨sameStream_chunking left right, answers_chunking left right,
    fun k r hanswers => ?_⟩,
    fun left right => identical?_eq_through d left right source destination,
    identical?_eq_true_iff hs, identical?_eq_false_iff hs, fun x => identical?_eq_error_iff hs⟩
  obtain ⟨k', -, hends⟩ := answers_chunking left right
  exact (hanswers.det hends).2

/-! A file, its copy, and one of the same length that differs at its end. -/

def copiedDisk : Disk where
  tree := ((((FileTree.empty.put ["up"] .directory).put ["a.h", "up"]
    (.file "int a;".toUTF8 0o600)).put ["dst"] .directory).put ["a.h", "dst"]
    (.file "int a;".toUTF8 0o644)).put ["b.h", "dst"] (.file "int b;".toUTF8 0o644)
  here := []

theorem copy_is_recognized :
    copiedDisk.node? ⟨"up/a.h"⟩ = .ok (.file "int a;".toUTF8 0o600)
    ∧ copiedDisk.identicalThrough? .buffered .bytewise ⟨"up/a.h"⟩ ⟨"dst/a.h"⟩ = .ok true
    ∧ copiedDisk.identicalThrough? .bytewise .buffered ⟨"up/a.h"⟩ ⟨"dst/b.h"⟩ = .ok false
    ∧ copiedDisk.identicalThrough? .bytewise .buffered ⟨"up/a.h"⟩ ⟨"up/b.h"⟩ = .ok false := by
  have hs : copiedDisk.node? ⟨"up/a.h"⟩ = .ok (.file "int a;".toUTF8 0o600) := by decide +kernel
  have hdecides := fun p => comparison_decides_equality copiedDisk ⟨"up/a.h"⟩ p _ _ hs
  refine ⟨hs, ?_, ?_, ?_⟩
  · obtain ⟨-, hthrough, htrue, -⟩ := hdecides ⟨"dst/a.h"⟩
    rw [← hthrough]
    exact htrue.mpr ⟨0o644, by decide +kernel⟩
  · obtain ⟨-, hthrough, -, hfalse, -⟩ := hdecides ⟨"dst/b.h"⟩
    rw [← hthrough]
    exact hfalse.mpr (.inr (.inr ⟨"int b;".toUTF8, 0o644, by decide +kernel, by decide +kernel⟩))
  · obtain ⟨-, hthrough, -, hfalse, -⟩ := hdecides ⟨"up/b.h"⟩
    rw [← hthrough]
    exact hfalse.mpr (.inl (by decide +kernel))

end Disk

end Vendoring
