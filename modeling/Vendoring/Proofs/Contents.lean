import Vendoring.Sync.Compare

/-!
# The comparison in chunks is equality

`sameStream` never sees two whole contents, only chunks whose ends need not
fall together. The invariant of its recursion is that what is left on both
sides, put together, decides the answer: a step takes equally many bytes off
both (`flatten_afterChunk`), and a step that finds a difference has found it
at the same position on both sides. Every step uses up a chunk on one side,
which is why the number of chunks is enough fuel.

`sameStream_chunks` is what the rest of the theory uses: contents of files
compare equal exactly when they are equal.
-/

namespace Vendoring

/-- What is behind the first `n` bytes of a stream. -/
theorem flatten_afterChunk {n : Nat} {chunk : Chunk} (rest : List Chunk)
    (h : n ≤ chunk.length) :
    (afterChunk n chunk rest).flatten = chunk.drop n ++ rest.flatten := by
  unfold afterChunk
  split
  · rfl
  · next hn =>
    have hall : chunk.drop n = [] := List.drop_eq_nil_of_le (by omega)
    rw [hall, List.nil_append]

theorem ne_nil_of_mem_afterChunk {n : Nat} {chunk : Chunk} {rest : List Chunk}
    (h : ∀ c ∈ rest, c ≠ []) : ∀ c ∈ afterChunk n chunk rest, c ≠ [] := by
  unfold afterChunk
  split
  · next hn =>
    intro c hc
    rcases List.mem_cons.mp hc with rfl | hc
    · intro hnil
      have := List.drop_eq_nil_iff.mp hnil
      omega
    · exact h c hc
  · exact h

/-- A chunk that is used up leaves the stream. -/
theorem length_afterChunk (n : Nat) (chunk : Chunk) (rest : List Chunk) :
    (afterChunk n chunk rest).length = rest.length + if n < chunk.length then 1 else 0 := by
  unfold afterChunk
  split <;> simp

theorem sameStreamUpTo_iff {steps : Nat} {as bs : List Chunk}
    (ha : ∀ a ∈ as, a ≠ []) (hb : ∀ b ∈ bs, b ≠ []) (hs : as.length + bs.length ≤ steps) :
    sameStreamUpTo steps as bs = true ↔ as.flatten = bs.flatten := by
  induction steps generalizing as bs with
  | zero =>
    have h1 : as = [] := List.eq_nil_of_length_eq_zero (by omega)
    have h2 : bs = [] := List.eq_nil_of_length_eq_zero (by omega)
    subst h1 h2
    simp [sameStreamUpTo]
  | succ steps ih =>
    match as, bs with
    | [], [] => simp [sameStreamUpTo]
    | [], b :: bs =>
      have hne : b ≠ [] := hb b (List.mem_cons_self ..)
      simp [sameStreamUpTo, hne]
    | a :: as, [] =>
      have hne : a ≠ [] := ha a (List.mem_cons_self ..)
      simp [sameStreamUpTo, hne]
    | a :: as, b :: bs =>
      have ha' : ∀ c ∈ as, c ≠ [] := fun c hc => ha c (List.mem_cons_of_mem _ hc)
      have hb' : ∀ c ∈ bs, c ≠ [] := fun c hc => hb c (List.mem_cons_of_mem _ hc)
      have hna : min a.length b.length ≤ a.length := Nat.min_le_left ..
      have hnb : min a.length b.length ≤ b.length := Nat.min_le_right ..
      have hfuel : (afterChunk (min a.length b.length) a as).length
          + (afterChunk (min a.length b.length) b bs).length ≤ steps := by
        simp only [length_afterChunk]
        simp only [List.length_cons] at hs
        split <;> split <;> omega
      have hrest := ih (ne_nil_of_mem_afterChunk ha') (ne_nil_of_mem_afterChunk hb') hfuel
      rw [flatten_afterChunk _ hna, flatten_afterChunk _ hnb] at hrest
      simp only [sameStreamUpTo, Bool.and_eq_true, beq_iff_eq, hrest, List.flatten_cons]
      -- both sides are cut at the same length, so the parts agree pairwise
      have hcut : ∀ n : Nat, ∀ c : Chunk, ∀ cs : List Chunk,
          c ++ cs.flatten = c.take n ++ (c.drop n ++ cs.flatten) := by
        intro n c cs
        rw [← List.append_assoc, List.take_append_drop]
      rw [hcut (min a.length b.length) a as, hcut (min a.length b.length) b bs]
      constructor
      · rintro ⟨h1, h2⟩
        rw [h1, h2]
      · intro h
        exact List.append_inj h (by simp only [List.length_take]; omega)

/-- Two streams of chunks are the same exactly when they carry the same
bytes, wherever the chunks end on either side. -/
theorem sameStream_iff {as bs : List Chunk} (ha : ∀ a ∈ as, a ≠ [])
    (hb : ∀ b ∈ bs, b ≠ []) : sameStream as bs = true ↔ as.flatten = bs.flatten :=
  sameStreamUpTo_iff ha hb (Nat.le_refl _)

/-! ## Contents of files -/

theorem flatten_chunksUpTo {size : Nat} (hsize : 0 < size) {n : Nat} {bytes : Chunk}
    (h : bytes.length ≤ n) : (chunksUpTo size n bytes).flatten = bytes := by
  induction n generalizing bytes with
  | zero =>
    rw [List.eq_nil_of_length_eq_zero (Nat.le_zero.mp h)]
    rfl
  | succ n ih =>
    cases bytes with
    | nil => rfl
    | cons byte bytes =>
      have hshorter : ((byte :: bytes).drop size).length ≤ n := by
        simp only [List.length_drop, List.length_cons] at h ⊢
        omega
      rw [chunksUpTo, List.flatten_cons, ih hshorter, List.take_append_drop]
      exact List.cons_ne_nil _ _

theorem ne_nil_of_mem_chunksUpTo {size : Nat} (hsize : 0 < size) {n : Nat} {bytes : Chunk} :
    ∀ c ∈ chunksUpTo size n bytes, c ≠ [] := by
  induction n generalizing bytes with
  | zero => simp [chunksUpTo]
  | succ n ih =>
    cases bytes with
    | nil => simp [chunksUpTo]
    | cons byte bytes =>
      intro c hc
      rw [chunksUpTo, List.mem_cons] at hc
      · rcases hc with rfl | hc
        · simp only [ne_eq, List.take_eq_nil_iff, reduceCtorEq, or_false]
          omega
        · exact ih c hc
      · exact List.cons_ne_nil _ _

theorem get!_eq_getElem {bytes : ByteArray} {i : Nat} (h : i < bytes.data.toList.length) :
    bytes.get! i = bytes.data.toList[i] := by
  have hsize : i < bytes.data.size := by rwa [Array.length_toList] at h
  show bytes.data[i]! = bytes.data.toList[i]
  rw [getElem!_pos bytes.data i hsize, Array.getElem_toList]

/-- Reading on from byte `i` puts the rest behind what was read. -/
theorem toListLoop_eq_append (bytes : ByteArray) (i : Nat) (read : List UInt8) :
    ByteArray.toList.loop bytes i read = read.reverse ++ bytes.data.toList.drop i := by
  have hlength : bytes.data.toList.length = bytes.size := by
    rw [Array.length_toList, ByteArray.size_data]
  fun_induction ByteArray.toList.loop bytes i read with
  | case1 i read hi ih =>
    have hi' : i < bytes.data.toList.length := by omega
    rw [ih, get!_eq_getElem hi', List.drop_eq_getElem_cons hi', List.reverse_cons,
      List.append_assoc, List.singleton_append]
  | case2 i read hi =>
    have hend : bytes.data.toList.drop i = [] := List.drop_eq_nil_of_le (by omega)
    rw [hend, List.append_nil]

/-- The list of bytes is that of the underlying array. -/
theorem toList_eq_data_toList (bytes : ByteArray) : bytes.toList = bytes.data.toList := by
  rw [ByteArray.toList, toListLoop_eq_append, List.reverse_nil, List.nil_append, List.drop_zero]

theorem flatten_chunks (bytes : ByteArray) : (chunks bytes).flatten = bytes.data.toList := by
  rw [chunks, toList_eq_data_toList]
  apply flatten_chunksUpTo (by decide)
  exact Nat.le_of_eq (by rw [Array.length_toList, ByteArray.size_data])

/-- Contents compare equal exactly when they are equal. -/
theorem sameStream_chunks (a b : ByteArray) :
    sameStream (chunks a) (chunks b) = true ↔ a = b := by
  have hne : ∀ bytes : ByteArray, ∀ c ∈ chunks bytes, c ≠ [] := fun bytes =>
    ne_nil_of_mem_chunksUpTo (by decide)
  rw [sameStream_iff (hne a) (hne b), flatten_chunks, flatten_chunks, Array.toList_inj,
    ByteArray.ext_iff]

/-- Comparing arrays of bytes decides equality. -/
theorem bytes_beq_iff {a b : ByteArray} : (a == b) = true ↔ a = b := by
  obtain ⟨a⟩ := a
  obtain ⟨b⟩ := b
  show (a == b) = true ↔ _
  rw [beq_iff_eq, ByteArray.mk.injEq]

end Vendoring
