import Mathlib.Data.List.Infix
import Mathlib.Data.List.Nodup
import Mathlib.Data.List.Pairwise
import Vendoring.Manifest.File

/-!
# Entries that are listed more than once

The loop over the entries of a category keeps two sets, and what they hold is a
matter of how often an entry was passed (`Noted`). So an entry is given where it
is met for the second time (`repeatedAfter_concat`), and all that is said of the
duplicates follows by taking one entry after another from the end of the list.

They come in the order in which the entries are repeated. That need not be the
order in which the entries stood first: of `a, b, b, a` it is `b` that is
repeated sooner.
-/

namespace Vendoring

namespace Manifest

variable {before seen told files rest : List Entry} {a b e x : Entry} {n : Nat}

/-! ## The loop -/

theorem count_concat (files : List Entry) (x e : Entry) :
    (files ++ [x]).count e = files.count e + if x = e then 1 else 0 := by
  simp [List.count_singleton]

/-- What the two sets hold behind some entries. -/
structure Noted (before seen told : List Entry) : Prop where
  seen : ∀ e, e ∈ seen ↔ 1 ≤ before.count e
  told : ∀ e, e ∈ told ↔ 2 ≤ before.count e

namespace Noted

theorem start : Noted [] [] [] :=
  ⟨by simp, by simp⟩

variable (h : Noted before seen told)

include h

theorem first (hnew : x ∉ seen) : Noted (before ++ [x]) (x :: seen) told := by
  have hnone := mt (h.seen x).mpr hnew
  constructor
  · intro e
    rw [count_concat, List.mem_cons, h.seen]
    split <;> grind
  · intro e
    rw [count_concat, h.told]
    split <;> grind

theorem second (hseen : x ∈ seen) : Noted (before ++ [x]) seen (x :: told) := by
  have hthere := (h.seen x).mp hseen
  constructor
  · intro e
    rw [count_concat, h.seen]
    split <;> grind
  · intro e
    rw [count_concat, List.mem_cons, h.told]
    split <;> grind

theorem further (htold : x ∈ told) : Noted (before ++ [x]) seen told := by
  have htwice := (h.told x).mp htold
  constructor
  · intro e
    rw [count_concat, h.seen]
    split <;> grind
  · intro e
    rw [count_concat, h.told]
    split <;> grind

end Noted

/-- The last entry is given if it was passed once. -/
theorem repeatedAfter_concat (h : Noted before seen told) (rest : List Entry) (e : Entry) :
    repeatedAfter seen told (rest ++ [e]) = repeatedAfter seen told rest
      ++ if (before ++ rest).count e = 1 then [e] else [] := by
  induction rest generalizing before seen told with
  | nil =>
    have hseen := h.seen e
    have htold := h.told e
    simp only [List.nil_append, List.append_nil, repeatedAfter]
    by_cases hs : e ∈ seen
    · by_cases ht : e ∈ told
      · have htwice := htold.mp ht
        rw [if_neg (not_not.mpr hs), if_neg (not_not.mpr ht), if_neg (by omega)]
      · have honce := hseen.mp hs
        have hnot := mt htold.mpr ht
        rw [if_neg (not_not.mpr hs), if_pos ht, if_pos (by omega)]
    · have hnew := mt hseen.mpr hs
      rw [if_pos hs, if_neg (by omega)]
  | cons x rest ih =>
    have hsplit : before ++ x :: rest = before ++ [x] ++ rest := List.append_cons ..
    simp only [List.cons_append, repeatedAfter]
    rw [hsplit]
    by_cases hs : x ∈ seen
    · by_cases ht : x ∈ told
      · simp only [hs, ht, not_true_eq_false, if_false, ih (h.further ht)]
      · simp only [hs, ht, not_true_eq_false, not_false_eq_true, if_false, if_true,
          ih (h.second hs), List.cons_append]
    · simp only [hs, not_false_eq_true, if_true, ih (h.first hs)]

/-- The entries of a list that stand more than once. -/
abbrev repeated (files : List Entry) : List Entry :=
  repeatedAfter [] [] files

theorem repeated_concat (files : List Entry) (e : Entry) :
    repeated (files ++ [e]) = repeated files ++ if files.count e = 1 then [e] else [] :=
  repeatedAfter_concat .start files e

theorem mem_repeated : e ∈ repeated files ↔ 2 ≤ files.count e := by
  induction files using List.reverseRecOn with
  | nil => simp [repeated, repeatedAfter]
  | append_singleton files x ih =>
    rw [repeated_concat, List.mem_append, ih, count_concat]
    by_cases hx : x = e
    · subst hx
      by_cases hone : files.count x = 1
      · simp [hone]
      · rw [if_neg hone, if_pos rfl, List.mem_nil_iff, or_false]
        omega
    · have hnot : e ∉ (if files.count x = 1 then [x] else []) := by
        split <;> simp [Ne.symm hx]
      rw [if_neg hx, Nat.add_zero, or_iff_left hnot]

theorem nodup_repeated (files : List Entry) : (repeated files).Nodup := by
  induction files using List.reverseRecOn with
  | nil => exact List.nodup_nil
  | append_singleton files x ih =>
    rw [repeated_concat]
    split
    · next hone =>
      refine ih.append (List.nodup_singleton x) (List.disjoint_singleton.mpr fun hx => ?_)
      have := mem_repeated.mp hx
      omega
    · rwa [List.append_nil]

/-! ## Two orders -/

/-- Along the list `a` is met for the `n`-th time sooner than `b`. -/
def Sooner (n : Nat) (files : List Entry) (a b : Entry) : Prop :=
  ∃ front ∈ files.inits, n ≤ front.count a ∧ front.count b < n

instance : Decidable (Sooner n files a b) := by
  unfold Sooner
  infer_instance

theorem Sooner.append (h : Sooner n files a b) (more : List Entry) :
    Sooner n (files ++ more) a b := by
  obtain ⟨front, hfront, hcount⟩ := h
  exact ⟨front, (List.mem_inits ..).mpr (((List.mem_inits ..).mp hfront).trans
    (List.prefix_append ..)), hcount⟩

theorem Sooner.of_whole (ha : n ≤ files.count a) (hb : files.count b < n) :
    Sooner n files a b :=
  ⟨files, (List.mem_inits ..).mpr List.prefix_rfl, ha, hb⟩

theorem Sooner.asymm (h : Sooner n files a b) : ¬Sooner n files b a := by
  rintro ⟨front', hfront', hb', ha'⟩
  obtain ⟨front, hfront, ha, hb⟩ := h
  rcases List.prefix_or_prefix_of_prefix ((List.mem_inits ..).mp hfront)
    ((List.mem_inits ..).mp hfront') with hle | hle
  · have := hle.sublist.count_le a
    omega
  · have := hle.sublist.count_le b
    omega

/-- Of two entries that are met so often one is so sooner. -/
theorem sooner_total (hne : a ≠ b) (ha : n ≤ files.count a) (hb : n ≤ files.count b)
    (hn : 0 < n) : Sooner n files a b ∨ Sooner n files b a := by
  induction files using List.reverseRecOn with
  | nil =>
    rw [List.count_nil] at ha
    omega
  | append_singleton files x ih =>
    by_cases ha' : n ≤ files.count a
    · by_cases hb' : n ≤ files.count b
      · exact (ih ha' hb').imp (·.append [x]) (·.append [x])
      · exact Or.inl ((Sooner.of_whole ha' (Nat.lt_of_not_le hb')).append [x])
    · by_cases hb' : n ≤ files.count b
      · exact Or.inr ((Sooner.of_whole hb' (Nat.lt_of_not_le ha')).append [x])
      · -- the last entry cannot be both of them
        rw [count_concat] at ha hb
        split at ha
        · next hxa =>
          rw [if_neg (hxa ▸ hne)] at hb
          omega
        · omega

theorem sorted_repeated (files : List Entry) :
    (repeated files).Pairwise (Sooner 2 files) := by
  induction files using List.reverseRecOn with
  | nil => exact List.Pairwise.nil
  | append_singleton files x ih =>
    have hold := ih.imp fun h => h.append [x]
    rw [repeated_concat]
    split
    · next hone =>
      refine List.pairwise_append.mpr ⟨hold, List.pairwise_singleton .., fun a ha e he => ?_⟩
      obtain rfl := List.mem_singleton.mp he
      exact (Sooner.of_whole (mem_repeated.mp ha) (by omega)).append [e]
    · rwa [List.append_nil]

/-- The repeated entries stand as they stood first just when those that stood
sooner are repeated sooner. -/
theorem sorted_repeated_iff (files : List Entry) :
    (repeated files).Pairwise (Sooner 1 files) ↔ ∀ a b, 2 ≤ files.count a → 2 ≤ files.count b →
      Sooner 1 files a b → Sooner 2 files a b := by
  constructor
  · intro h a b ha hb hab
    have hne : a ≠ b := by
      rintro rfl
      exact hab.asymm hab
    refine (sooner_total hne ha hb (by decide)).resolve_right fun hba => ?_
    have hboth := ((sorted_repeated files).and h).imp
      (S := fun a b => Sooner 2 files a b ∧ Sooner 1 files a b
        ∨ Sooner 2 files b a ∧ Sooner 1 files b a) Or.inl
    have : Std.Symm fun a b => Sooner 2 files a b ∧ Sooner 1 files a b
        ∨ Sooner 2 files b a ∧ Sooner 1 files b a := ⟨fun _ _ => Or.symm⟩
    rcases hboth.forall (mem_repeated.mpr ha) (mem_repeated.mpr hb) hne with
      ⟨hsooner, -⟩ | ⟨-, hsooner⟩
    · exact hba.asymm hsooner
    · exact hab.asymm hsooner
  · intro h
    refine (sorted_repeated files).imp_of_mem fun {a b} ha hb hab => ?_
    have hne : a ≠ b := by
      rintro rfl
      exact hab.asymm hab
    have ha' := mem_repeated.mp ha
    have hb' := mem_repeated.mp hb
    refine (sooner_total hne (by omega) (by omega) (by decide)).resolve_right fun hba => ?_
    exact hab.asymm (h b a hb' ha' hba)

/-! ## The duplicates of a manifest -/

/-- Each category gives the entries that it lists more than once, one time each,
in the order in which they are repeated. That is the order in which they stood
first unless an entry that stood later is repeated sooner. A manifest that is
read tells of them in this order. -/
theorem duplicates_in_order_of_return (m : Manifest) :
    (∃ reported : Kind → List Entry,
      m.duplicates = (reported .headers).map (Prod.mk .headers)
        ++ (reported .sources).map (Prod.mk .sources) ++ (reported .tests).map (Prod.mk .tests)
      ∧ ∀ kind, (reported kind).Nodup
        ∧ (∀ e, e ∈ reported kind ↔ 2 ≤ (m.layout kind).files.count e)
        ∧ (reported kind).Pairwise (Sooner 2 (m.layout kind).files)
        ∧ ((reported kind).Pairwise (Sooner 1 (m.layout kind).files) ↔
          ∀ a b, 2 ≤ (m.layout kind).files.count a → 2 ≤ (m.layout kind).files.count b →
            Sooner 1 (m.layout kind).files a b → Sooner 2 (m.layout kind).files a b))
    ∧ ∀ text origin, (parse text origin).2 = match (parse text origin).1 with
      | .ok read => read.duplicates.map fun (kind, e) => .duplicateEntry origin kind e
      | .error _ => [] := by
  refine ⟨⟨fun kind => repeated (m.layout kind).files, ?_, fun kind => ?_⟩, fun text origin => ?_⟩
  · simp [duplicates, Kind.all, List.append_assoc]
  · exact ⟨nodup_repeated _, fun _ => mem_repeated, sorted_repeated _, sorted_repeated_iff _⟩
  · unfold parse
    split
    · rfl
    · split <;> rfl

/-- Of two entries the one that stood first is reported last. -/
theorem nested_repetitions_turn_round :
    let files : List Entry := [⟨"a"⟩, ⟨"b"⟩, ⟨"b"⟩, ⟨"a"⟩]
    let m : Manifest := ⟨{}, ⟨⟨"inc"⟩, ⟨"include"⟩, files⟩, ⟨⟨"src"⟩, ⟨"lib"⟩, []⟩,
      ⟨⟨"t"⟩, ⟨"tests"⟩, []⟩⟩
    m.duplicates = [(.headers, ⟨"b"⟩), (.headers, ⟨"a"⟩)]
      ∧ files.idxOf ⟨"a"⟩ < files.idxOf ⟨"b"⟩
      ∧ ¬(m.duplicates.map Prod.snd).Pairwise (Sooner 1 files) := by
  decide +kernel

end Manifest

end Vendoring
