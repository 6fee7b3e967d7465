import Mathlib.Data.List.TakeDrop
import Vendoring.Patch.Hunk

/-!
# Scripts and pieces

A list of pieces leads from the beginning of two lists of lines to their ends:
every piece starts where the one in front of it stops (`Chain`). A kept piece
knows both of its positions, a deletion its position in the old lines and an
insertion its position in the new ones. The other position of a change is the one
that it was given first, and when deletions and insertions change places it does
not follow; it can be relied on only where there is nothing to change places with
(`Piece.Spans`).

The script leads from end to end wherever the lists are split
(`edits_scriptUpTo`), and no move of a piece changes that (`chain_up`,
`chain_down`).
-/

namespace Vendoring.Patch

variable {old new : List Line} {i j k l m n : Nat}

/-! ## Lines that agree -/

/-- From the two positions on, `n` lines are the same. -/
structure Agrees (old new : List Line) (i j n : Nat) : Prop where
  inOld : i + n ≤ old.length
  inNew : j + n ≤ new.length
  same : (old.drop i).take n = (new.drop j).take n

theorem agrees_add_iff : Agrees old new i j (m + n) ↔
    Agrees old new i j m ∧ Agrees old new (i + m) (j + m) n := by
  constructor
  · rintro ⟨hold, hnew, hsame⟩
    have hlength : ((old.drop i).take m).length = ((new.drop j).take m).length := by
      rw [List.length_take, List.length_take, List.length_drop, List.length_drop]
      omega
    rw [List.take_add, List.take_add, List.drop_drop, List.drop_drop] at hsame
    obtain ⟨hfirst, hrest⟩ := List.append_inj hsame hlength
    exact ⟨⟨by omega, by omega, hfirst⟩, by omega, by omega, hrest⟩
  · rintro ⟨h, h'⟩
    refine ⟨by have := h'.inOld; omega, by have := h'.inNew; omega, ?_⟩
    rw [List.take_add, List.take_add, List.drop_drop, List.drop_drop, h.same, h'.same]

theorem agreement_le_left (xs ys : List Line) : agreement xs ys ≤ xs.length := by
  induction xs generalizing ys with
  | nil => exact Nat.le_refl 0
  | cons x xs ih =>
    cases ys with
    | nil => exact Nat.zero_le _
    | cons y ys =>
      rw [agreement]
      split
      · exact Nat.succ_le_succ (ih ys)
      · exact Nat.zero_le _

theorem agreement_le_right (xs ys : List Line) : agreement xs ys ≤ ys.length := by
  induction xs generalizing ys with
  | nil => exact Nat.zero_le _
  | cons x xs ih =>
    cases ys with
    | nil => exact Nat.le_refl 0
    | cons y ys =>
      rw [agreement]
      split
      · exact Nat.succ_le_succ (ih ys)
      · exact Nat.zero_le _

theorem take_agreement (xs ys : List Line) :
    xs.take (agreement xs ys) = ys.take (agreement xs ys) := by
  induction xs generalizing ys with
  | nil => rfl
  | cons x xs ih =>
    cases ys with
    | nil => rfl
    | cons y ys =>
      rw [agreement]
      split
      · next hxy => rw [List.take_succ_cons, List.take_succ_cons, ih ys, eq_of_beq hxy]
      · rfl

theorem drop_agreement_reverse (xs ys : List Line) :
    xs.drop (xs.length - agreement xs.reverse ys.reverse)
      = ys.drop (ys.length - agreement xs.reverse ys.reverse) := by
  have h := take_agreement xs.reverse ys.reverse
  rw [List.take_reverse, List.take_reverse] at h
  exact List.reverse_inj.mp h

/-! ## The script -/

/-- The runs lead from one list of lines to the other. -/
inductive Edits : List Line → List Line → List Run → Prop
  | nil : Edits [] [] []
  | keep {xs old new : List Line} {rs : List Run} (hxs : xs ≠ []) (h : Edits old new rs) :
      Edits (xs ++ old) (xs ++ new) (.keep xs.length :: rs)
  | delete {xs old new : List Line} {rs : List Run} (hxs : xs ≠ []) (h : Edits old new rs) :
      Edits (xs ++ old) new (.delete xs.length :: rs)
  | insert {xs old new : List Line} {rs : List Run} (hxs : xs ≠ []) (h : Edits old new rs) :
      Edits old (xs ++ new) (.insert xs.length :: rs)

theorem Edits.append {old' new' : List Line} {rs rs' : List Run} (h : Edits old new rs)
    (h' : Edits old' new' rs') : Edits (old ++ old') (new ++ new') (rs ++ rs') := by
  induction h with
  | nil => exact h'
  | keep hxs _ ih =>
    rw [List.append_assoc, List.append_assoc]
    exact .keep hxs ih
  | delete hxs _ ih =>
    rw [List.append_assoc]
    exact .delete hxs ih
  | insert hxs _ ih =>
    rw [List.append_assoc]
    exact .insert hxs ih

theorem edits_keep (xs : List Line) : Edits xs xs (nonempty .keep xs.length) := by
  unfold nonempty
  split
  · next h => rw [List.length_eq_zero_iff.mp h]; exact .nil
  · next h =>
    have hkeep : Edits (xs ++ []) (xs ++ []) [.keep xs.length] :=
      .keep (fun hxs => h (hxs ▸ rfl)) .nil
    rwa [List.append_nil] at hkeep

theorem edits_replace (xs ys : List Line) :
    Edits xs ys (nonempty .delete xs.length ++ nonempty .insert ys.length) := by
  have hinsert : Edits [] ys (nonempty .insert ys.length) := by
    unfold nonempty
    split
    · next h => rw [List.length_eq_zero_iff.mp h]; exact .nil
    · next h =>
      have hinsert : Edits [] (ys ++ []) [.insert ys.length] :=
        .insert (fun hys => h (hys ▸ rfl)) .nil
      rwa [List.append_nil] at hinsert
  have hdelete : Edits xs [] (nonempty .delete xs.length) := by
    unfold nonempty
    split
    · next h => rw [List.length_eq_zero_iff.mp h]; exact .nil
    · next h =>
      have hdelete : Edits (xs ++ []) [] [.delete xs.length] :=
        .delete (fun hxs => h (hxs ▸ rfl)) .nil
      rwa [List.append_nil] at hdelete
  have h := hdelete.append hinsert
  rwa [List.append_nil, List.nil_append] at h

/-- What agrees in front and behind is kept. -/
theorem edits_between {rs : List Run} {front back : Nat} (hfront : agreement old new = front)
    (hback : agreement (old.drop front).reverse (new.drop front).reverse = back)
    (h : Edits ((old.drop front).take ((old.drop front).length - back))
      ((new.drop front).take ((new.drop front).length - back)) rs) :
    Edits old new (nonempty .keep front ++ rs ++ nonempty .keep back) := by
  have hfirst : old.take front = new.take front := hfront ▸ take_agreement old new
  have hlast : (old.drop front).drop ((old.drop front).length - back)
      = (new.drop front).drop ((new.drop front).length - back) :=
    hback ▸ drop_agreement_reverse (old.drop front) (new.drop front)
  have hfirstLength : (old.take front).length = front := by
    rw [List.length_take, Nat.min_eq_left (hfront ▸ agreement_le_left old new)]
  have hlastLength : ((old.drop front).drop ((old.drop front).length - back)).length = back := by
    have hle := hback ▸ agreement_le_left (old.drop front).reverse (new.drop front).reverse
    rw [List.length_reverse] at hle
    rw [List.length_drop]
    omega
  have hold : old = old.take front ++ (old.drop front).take ((old.drop front).length - back)
      ++ (old.drop front).drop ((old.drop front).length - back) := by
    rw [List.append_assoc, List.take_append_drop, List.take_append_drop]
  have hnew : new = old.take front ++ (new.drop front).take ((new.drop front).length - back)
      ++ (old.drop front).drop ((old.drop front).length - back) := by
    rw [hfirst, hlast, List.append_assoc, List.take_append_drop, List.take_append_drop]
  have hedits := ((edits_keep (old.take front)).append h).append
    (edits_keep ((old.drop front).drop ((old.drop front).length - back)))
  rw [hfirstLength, hlastLength, ← hold, ← hnew] at hedits
  exact hedits

/-- Wherever the lists are split, the script leads from one to the other. -/
theorem edits_scriptUpTo (depth : Nat) (old new : List Line) :
    Edits old new (scriptUpTo depth old new) := by
  induction depth generalizing old new with
  | zero => exact edits_replace old new
  | succ depth ih =>
    rw [scriptUpTo]
    refine edits_between rfl rfl ?_
    generalize (List.drop _ old).take _ = old'
    generalize (List.drop _ new).take _ = new'
    split
    · exact edits_replace old' new'
    split
    · next x y _ =>
      split
      · exact edits_replace old' new'
      · have h := (ih (old'.take x) (new'.take y)).append (ih (old'.drop x) (new'.drop y))
        rwa [List.take_append_drop, List.take_append_drop] at h
    · exact edits_replace old' new'

/-! ## Chains -/

/-- Things that lead from one pair of positions to another, each from where the
one in front of it stops. -/
inductive Chain {α : Type} (R : α → Nat → Nat → Nat → Nat → Prop) :
    List α → Nat → Nat → Nat → Nat → Prop
  | nil (i j : Nat) : Chain R [] i j i j
  | cons {x : α} {xs : List α} {i j i' j' k l : Nat} (h : R x i j i' j')
      (hrest : Chain R xs i' j' k l) : Chain R (x :: xs) i j k l

namespace Chain

variable {α : Type} {R : α → Nat → Nat → Nat → Nat → Prop} {xs ys : List α}

theorem append_iff : Chain R (xs ++ ys) i j k l ↔
    ∃ i' j', Chain R xs i j i' j' ∧ Chain R ys i' j' k l := by
  constructor
  · intro h
    induction xs generalizing i j with
    | nil => exact ⟨i, j, .nil i j, h⟩
    | cons x xs ih =>
      cases h with
      | cons hx hrest =>
        obtain ⟨i', j', hxs, hys⟩ := ih hrest
        exact ⟨i', j', .cons hx hxs, hys⟩
  · rintro ⟨i', j', hxs, hys⟩
    induction hxs with
    | nil => exact hys
    | cons hx _ ih => exact .cons hx (ih hys)

theorem singleton_iff {x : α} : Chain R [x] i j k l ↔ R x i j k l := by
  constructor
  · intro h
    cases h with
    | cons hx hrest =>
      cases hrest
      exact hx
  · exact fun h => .cons h (.nil k l)

/-- Another end for a chain. -/
theorem replace_end {zs : List α} (h : ∀ i j, Chain R xs i j k l → Chain R ys i j k l)
    (hchain : Chain R (zs ++ xs) i j k l) : Chain R (zs ++ ys) i j k l := by
  obtain ⟨i', j', hzs, hxs⟩ := append_iff.mp hchain
  exact append_iff.mpr ⟨i', j', hzs, h i' j' hxs⟩

end Chain

/-! ## Pieces -/

/-- A piece leads from its positions past its lines. The other position of a
change may be any, unless changes of the other kind are out of the question:
`D` says that there are deletions and `I` that there are insertions. -/
inductive Piece.Spans (old new : List Line) (D I : Prop) :
    Piece → Nat → Nat → Nat → Nat → Prop
  | keep {i j n : Nat} (hn : 0 < n) (h : Agrees old new i j n) :
      Spans old new D I ⟨.keep, i, j, n⟩ i j (i + n) (j + n)
  | delete {i j y n : Nat} (hn : 0 < n) (h : i + n ≤ old.length) (hD : D) (hy : I ∨ y = j) :
      Spans old new D I ⟨.delete, i, y, n⟩ i j (i + n) j
  | insert {i j x n : Nat} (hn : 0 < n) (h : j + n ≤ new.length) (hI : I) (hx : D ∨ x = i) :
      Spans old new D I ⟨.insert, x, j, n⟩ i j i (j + n)

abbrev PieceChain (old new : List Line) (D I : Prop) : List Piece → Nat → Nat → Nat → Nat → Prop :=
  Chain (Piece.Spans old new D I)

theorem chain_placeRuns {D I : Prop} (pre pre' : List Line) {rs : List Run} (h : Edits old new rs)
    (hD : ∀ n, .delete n ∈ rs → D) (hI : ∀ n, .insert n ∈ rs → I) :
    PieceChain (pre ++ old) (pre' ++ new) D I (placeRuns pre.length pre'.length rs)
      pre.length pre'.length (pre ++ old).length (pre' ++ new).length := by
  induction h generalizing pre pre' with
  | nil =>
    rw [List.append_nil, List.append_nil]
    exact .nil _ _
  | @keep xs old new rs hxs _ ih =>
    have hrest := ih (pre ++ xs) (pre' ++ xs)
      (fun n hn => hD n (List.mem_cons_of_mem _ hn)) (fun n hn => hI n (List.mem_cons_of_mem _ hn))
    rw [List.append_assoc, List.append_assoc] at hrest
    refine .cons (.keep (List.length_pos_iff.mpr hxs) ⟨?_, ?_, ?_⟩) ?_
    · simp
    · simp
    · simp
    · rwa [List.length_append, List.length_append] at hrest
  | @delete xs old new rs hxs _ ih =>
    have hrest := ih (pre ++ xs) pre'
      (fun n hn => hD n (List.mem_cons_of_mem _ hn)) (fun n hn => hI n (List.mem_cons_of_mem _ hn))
    rw [List.append_assoc] at hrest
    refine .cons (.delete (List.length_pos_iff.mpr hxs) (by simp) (hD _ (List.mem_cons_self ..))
      (Or.inr rfl)) ?_
    rwa [List.length_append] at hrest
  | @insert xs old new rs hxs _ ih =>
    have hrest := ih pre (pre' ++ xs)
      (fun n hn => hD n (List.mem_cons_of_mem _ hn)) (fun n hn => hI n (List.mem_cons_of_mem _ hn))
    rw [List.append_assoc] at hrest
    refine .cons (.insert (List.length_pos_iff.mpr hxs) (by simp) (hI _ (List.mem_cons_self ..))
      (Or.inr rfl)) ?_
    rwa [List.length_append] at hrest

/-! ## Sliding -/

section Slide

variable {D I : Prop} {p q : Piece} {ps : List Piece}

/-- A deletion and an insertion side by side can change places. -/
theorem chain_swap
    (hkinds : q.kind = .delete ∧ p.kind = .insert ∨ q.kind = .insert ∧ p.kind = .delete)
    (h : PieceChain old new D I (q :: p :: ps) i j k l) :
    PieceChain old new D I (p :: q :: ps) i j k l := by
  cases h with
  | cons hq h =>
    cases h with
    | cons hp hrest =>
      rcases hkinds with ⟨hq', hp'⟩ | ⟨hq', hp'⟩
      · cases hq with
        | keep => cases hq'
        | insert => cases hq'
        | delete hn hfits hD hy =>
          cases hp with
          | keep => cases hp'
          | delete => cases hp'
          | insert hn' hfits' hI hx =>
            exact .cons (.insert hn' hfits' hI (Or.inl hD))
              (.cons (.delete hn hfits hD (Or.inl hI)) hrest)
      · cases hq with
        | keep => cases hq'
        | delete => cases hq'
        | insert hn hfits hI hx =>
          cases hp with
          | keep => cases hp'
          | insert => cases hp'
          | delete hn' hfits' hD hy =>
            exact .cons (.delete hn' hfits' hD (Or.inl hI))
              (.cons (.insert hn hfits hI (Or.inl hD)) hrest)

/-- Two changes of one kind side by side are one. -/
theorem chain_merge
    (hkinds : q.kind = .delete ∧ p.kind = .delete ∨ q.kind = .insert ∧ p.kind = .insert)
    (h : PieceChain old new D I (q :: p :: ps) i j k l) :
    PieceChain old new D I (q.growBack p.count :: ps) i j k l := by
  cases h with
  | cons hq h =>
    cases h with
    | cons hp hrest =>
      rcases hkinds with ⟨hq', hp'⟩ | ⟨hq', hp'⟩
      · cases hq with
        | keep => cases hq'
        | insert => cases hq'
        | delete hn hfits hD hy =>
          cases hp with
          | keep => cases hp'
          | insert => cases hp'
          | delete hn' hfits' _ _ =>
            rw [Nat.add_assoc] at hrest hfits'
            exact .cons (.delete (Nat.add_pos_left hn _) hfits' hD hy) hrest
      · cases hq with
        | keep => cases hq'
        | delete => cases hq'
        | insert hn hfits hI hx =>
          cases hp with
          | keep => cases hp'
          | delete => cases hp'
          | insert hn' hfits' _ _ =>
            rw [Nat.add_assoc] at hrest hfits'
            exact .cons (.insert (Nat.add_pos_left hn _) hfits' hI hx) hrest

theorem slice_toArray (ls : List Line) (start count : Nat) :
    Focus.slice ls.toArray start count = (ls.drop start).take count := by
  unfold Focus.slice
  rw [List.extract_toArray, List.extract_eq_take_drop, Nat.add_sub_cancel_left]

theorem agrees_commonEnd {c : Nat} (hold : i + c ≤ old.length) (hnew : j + m ≤ new.length)
    (hn : Focus.commonEnd ⟨old.toArray, new.toArray⟩ ⟨.keep, i, k, c⟩ ⟨.insert, l, j, m⟩ = n) :
    n ≤ c ∧ n ≤ m ∧ Agrees old new (i + (c - n)) (j + (m - n)) n := by
  simp only [Focus.commonEnd, slice_toArray] at hn
  have hc : ((old.drop i).take c).length = c := by
    rw [List.length_take, List.length_drop]
    omega
  have hm : ((new.drop j).take m).length = m := by
    rw [List.length_take, List.length_drop]
    omega
  have hnc := agreement_le_left ((old.drop i).take c).reverse ((new.drop j).take m).reverse
  have hnm := agreement_le_right ((old.drop i).take c).reverse ((new.drop j).take m).reverse
  have hsame := drop_agreement_reverse ((old.drop i).take c) ((new.drop j).take m)
  rw [hn, List.length_reverse] at hnc hnm
  rw [hn, hc, hm, List.drop_take, List.drop_take, List.drop_drop, List.drop_drop] at hsame
  rw [hc] at hnc
  rw [hm] at hnm
  rw [Nat.sub_sub_self hnc, Nat.sub_sub_self hnm] at hsame
  exact ⟨hnc, hnm, by omega, by omega, hsame⟩

theorem agrees_commonStart {c : Nat} (hold : i + c ≤ old.length) (hnew : j + m ≤ new.length)
    (hn : Focus.commonStart ⟨old.toArray, new.toArray⟩ ⟨.keep, i, k, c⟩ ⟨.insert, l, j, m⟩ = n) :
    n ≤ c ∧ n ≤ m ∧ Agrees old new i j n := by
  simp only [Focus.commonStart, slice_toArray] at hn
  have hnc := agreement_le_left ((old.drop i).take c) ((new.drop j).take m)
  have hnm := agreement_le_right ((old.drop i).take c) ((new.drop j).take m)
  have hsame := take_agreement ((old.drop i).take c) ((new.drop j).take m)
  rw [hn, List.length_take, List.length_drop] at hnc hnm
  rw [hn, List.take_take, List.take_take, Nat.min_eq_left (by omega),
    Nat.min_eq_left (by omega)] at hsame
  exact ⟨by omega, by omega, by omega, by omega, hsame⟩

theorem chain_keepBelow (hn : 0 < n) (h : Agrees old new i j n) (hold : q.old + q.count - n = i)
    (hnew : p.new + p.count - n = j) (hrest : PieceChain old new D I ps (i + n) (j + n) k l) :
    PieceChain old new D I (Focus.keepBelow q p n ps) i j k l := by
  unfold Focus.keepBelow
  split
  · next x y c rest =>
    cases hrest with
    | cons hkeep hrest =>
      cases hkeep with
      | keep hc hkeep =>
        have hgrown : Piece.growFront ⟨.keep, i + n, j + n, c⟩ n = ⟨.keep, i, j, n + c⟩ := by
          simp [Piece.growFront, Piece.shiftUp, Nat.add_comm]
        rw [hgrown]
        rw [Nat.add_assoc, Nat.add_assoc] at hrest
        exact .cons (.keep (by omega) (agrees_add_iff.mpr ⟨h, hkeep⟩)) hrest
  · rw [hold, hnew]
    exact .cons (.keep hn h) hrest

theorem chain_keepAbove (hn : 0 < n) (h : Agrees old new k l n) (hold : q.old = k)
    (hnew : p.new = l) (hfirst : PieceChain old new D I ps.reverse i j k l) :
    PieceChain old new D I (Focus.keepAbove q p n ps).reverse i j (k + n) (l + n) := by
  unfold Focus.keepAbove
  split
  · next x y c rest =>
    rw [List.reverse_cons] at hfirst ⊢
    obtain ⟨i', j', hfirst, hlast⟩ := Chain.append_iff.mp hfirst
    refine Chain.append_iff.mpr ⟨i', j', hfirst, Chain.singleton_iff.mpr ?_⟩
    cases Chain.singleton_iff.mp hlast with
    | keep hc hkeep =>
      rw [Nat.add_assoc, Nat.add_assoc]
      exact .keep (by omega) (agrees_add_iff.mpr ⟨hkeep, h⟩)
  · rw [List.reverse_cons, hold, hnew]
    exact Chain.append_iff.mpr ⟨k, l, hfirst, Chain.singleton_iff.mpr (.keep hn h)⟩

/-- An insertion moves up past lines that it ends in. -/
theorem chain_slideUp (hq : q.kind = .keep) (hp : p.kind = .insert) (hn : n ≠ 0)
    (hcommon : Focus.commonEnd ⟨old.toArray, new.toArray⟩ q p = n)
    (h : PieceChain old new D I (q :: p :: ps) i j k l) :
    PieceChain old new D I ((if (q.shrinkBack n).count = 0 then [] else [q.shrinkBack n])
      ++ p.shiftUp n :: Focus.keepBelow ((q.shrinkBack n).growBack n) p n ps) i j k l := by
  cases h with
  | cons hqs h =>
    cases h with
    | cons hps hrest =>
      cases hqs with
      | delete => cases hq
      | insert => cases hq
      | @keep _ _ c hc hkeep =>
        cases hps with
        | keep => cases hp
        | delete => cases hp
        | @insert _ _ x m hm hfits hI hx =>
          obtain ⟨hnc, hnm, hlast⟩ := agrees_commonEnd hkeep.inOld hfits hcommon
          have hfirst : Agrees old new i j (c - n) := by
            rw [← Nat.sub_add_cancel hnc] at hkeep
            exact (agrees_add_iff.mp hkeep).1
          refine Chain.append_iff.mpr ⟨i + (c - n), j + (c - n), ?_, ?_⟩
          · split
            · next hzero =>
              rw [show c - n = 0 from hzero]
              exact .nil i j
            · next hleft =>
              exact Chain.singleton_iff.mpr (.keep (Nat.pos_of_ne_zero hleft) hfirst)
          · have hshift : Piece.shiftUp ⟨.insert, x, j + c, m⟩ n
                = ⟨.insert, x - n, j + (c - n), m⟩ := by
              rw [Piece.shiftUp, Nat.add_sub_assoc hnc]
            rw [hshift]
            refine .cons (.insert hm (by omega) hI (hx.imp_right fun hx => by omega)) ?_
            have hsame : j + (c - n) + m = j + c + (m - n) := by omega
            refine chain_keepBelow (Nat.pos_of_ne_zero hn) (hsame ▸ hlast) ?_ ?_ ?_
            · simp only [Piece.shrinkBack, Piece.growBack]
              omega
            · simp only
              omega
            · rwa [show i + (c - n) + n = i + c by omega,
                show j + (c - n) + m + n = j + c + m by omega]

/-- An insertion moves down past lines that it starts with. -/
theorem chain_slideDown {above : List Piece} (hq : q.kind = .keep) (hp : p.kind = .insert)
    (hn : n ≠ 0) (hcommon : Focus.commonStart ⟨old.toArray, new.toArray⟩ q p = n)
    (h : PieceChain old new D I (above.reverse ++ p :: q :: ps) i j k l) :
    PieceChain old new D I ((Focus.keepAbove q p n above).reverse ++ p.shiftDown n ::
      (if (q.shrinkFront n).count = 0 then ps else q.shrinkFront n :: ps)) i j k l := by
  obtain ⟨i', j', habove, h⟩ := Chain.append_iff.mp h
  cases h with
  | cons hps h =>
    cases h with
    | cons hqs hrest =>
      cases hqs with
      | delete => cases hq
      | insert => cases hq
      | @keep _ _ c hc hkeep =>
        cases hps with
        | keep => cases hp
        | delete => cases hp
        | @insert _ _ x m hm hfits hI hx =>
          obtain ⟨hnc, hnm, hfirst⟩ := agrees_commonStart hkeep.inOld hfits hcommon
          refine Chain.append_iff.mpr ⟨i' + n, j' + n,
            chain_keepAbove (Nat.pos_of_ne_zero hn) hfirst rfl rfl habove, ?_⟩
          have hshift : Piece.shiftDown ⟨.insert, x, j', m⟩ n = ⟨.insert, x + n, j' + n, m⟩ := rfl
          rw [hshift]
          refine .cons (.insert hm ?_ hI (hx.imp_right fun hx => by omega)) ?_
          · have := hkeep.inNew
            omega
          · split
            · next hzero =>
              have hzero : c - n = 0 := hzero
              rwa [show i' + n = i' + c by omega, show j' + n + m = j' + m + c by omega]
            · next hleft =>
              have hleft : c - n ≠ 0 := hleft
              have hlast : Agrees old new (i' + n) (j' + m + n) (c - n) := by
                rw [← Nat.add_sub_of_le hnc] at hkeep
                exact (agrees_add_iff.mp hkeep).2
              have hkept := Piece.Spans.keep (D := D) (I := I) (Nat.pos_of_ne_zero hleft) hlast
              rw [show i' + n + (c - n) = i' + c by omega,
                show j' + m + n + (c - n) = j' + m + c by omega] at hkept
              rw [show j' + n + m = j' + m + n by omega]
              exact .cons hkept hrest

end Slide

/-- All pieces, seen from one of them. -/
def Focus.pieces (f : Focus) : List Piece := f.above.reverse ++ f.piece :: f.below

section Moves

variable {D I : Prop}

theorem chain_up (steps : Nat) {f : Focus} (h : PieceChain old new D I f.pieces i j k l) :
    PieceChain old new D I (Focus.up ⟨old.toArray, new.toArray⟩ steps f).pieces i j k l := by
  induction steps generalizing f with
  | zero => exact h
  | succ steps ih =>
    obtain ⟨above, p, below⟩ := f
    cases above with
    | nil => exact h
    | cons q above =>
      simp only [Focus.pieces, List.reverse_cons, List.append_assoc, List.singleton_append] at h
      unfold Focus.up
      simp only
      split
      · next hp hq =>
        split
        · rwa [Focus.pieces, List.reverse_cons, List.append_assoc]
        next hn =>
        refine ih ?_
        have hslid := Chain.replace_end (fun _ _ => chain_slideUp hq hp hn rfl) h
        rw [Focus.pieces]
        split
        · next hzero => rwa [if_pos hzero] at hslid
        · next hleft =>
          rw [if_neg hleft] at hslid
          rwa [List.reverse_cons, List.append_assoc]
      · next hp hq => exact ih (Chain.replace_end (fun _ _ => chain_swap (Or.inl ⟨hq, hp⟩)) h)
      · next hp hq => exact ih (Chain.replace_end (fun _ _ => chain_swap (Or.inr ⟨hq, hp⟩)) h)
      · next hp hq => exact ih (Chain.replace_end (fun _ _ => chain_merge (Or.inr ⟨hq, hp⟩)) h)
      · next hp hq => exact ih (Chain.replace_end (fun _ _ => chain_merge (Or.inl ⟨hq, hp⟩)) h)
      · rwa [Focus.pieces, List.reverse_cons, List.append_assoc]

theorem chain_down (steps : Nat) {f : Focus} (h : PieceChain old new D I f.pieces i j k l) :
    PieceChain old new D I (Focus.down ⟨old.toArray, new.toArray⟩ steps f).pieces i j k l := by
  induction steps generalizing f with
  | zero => exact h
  | succ steps ih =>
    obtain ⟨above, p, below⟩ := f
    cases below with
    | nil => exact h
    | cons q below =>
      simp only [Focus.pieces] at h
      unfold Focus.down
      simp only
      split
      · next hp hq =>
        split
        · exact h
        · next hn => exact ih (chain_slideDown hq hp hn rfl h)
      · next hp hq =>
        refine ih ?_
        rw [Focus.pieces, List.reverse_cons, List.append_assoc]
        exact Chain.replace_end (fun _ _ => chain_swap (Or.inr ⟨hp, hq⟩)) h
      · next hp hq =>
        refine ih ?_
        rw [Focus.pieces, List.reverse_cons, List.append_assoc]
        exact Chain.replace_end (fun _ _ => chain_swap (Or.inl ⟨hp, hq⟩)) h
      · next hp hq => exact ih (Chain.replace_end (fun _ _ => chain_merge (Or.inr ⟨hp, hq⟩)) h)
      · next hp hq => exact ih (Chain.replace_end (fun _ _ => chain_merge (Or.inl ⟨hp, hq⟩)) h)
      · exact h

theorem chain_slideKind (kind : PieceKind) (steps n : Nat) {done todo : List Piece}
    (h : PieceChain old new D I (done.reverse ++ todo) i j k l) :
    PieceChain old new D I (slideKind ⟨old.toArray, new.toArray⟩ kind steps n done todo)
      i j k l := by
  induction n generalizing done todo with
  | zero => exact h
  | succ n ih =>
    cases todo with
    | nil => rwa [List.append_nil] at h
    | cons p todo =>
      rw [slideKind]
      split
      · refine ih ?_
        rw [List.reverse_cons, List.append_assoc]
        exact chain_down steps (chain_up steps (f := ⟨done, p, todo⟩) h)
      · refine ih ?_
        rwa [List.reverse_cons, List.append_assoc]

end Moves

/-! ## No kind of change is lost -/

section Kinds

variable {kind : PieceKind} {ls : Focus.Lines}

theorem mem_kinds_keepBelow (hkind : kind ≠ .keep) (q p : Piece) (n : Nat) (ps : List Piece) :
    kind ∈ (Focus.keepBelow q p n ps).map Piece.kind ↔ kind ∈ ps.map Piece.kind := by
  unfold Focus.keepBelow
  split
  · simp [Piece.growFront, Piece.shiftUp]
  · simp [hkind]

theorem mem_kinds_keepAbove (hkind : kind ≠ .keep) (q p : Piece) (n : Nat) (ps : List Piece) :
    kind ∈ (Focus.keepAbove q p n ps).map Piece.kind ↔ kind ∈ ps.map Piece.kind := by
  unfold Focus.keepAbove
  split
  · simp [Piece.growBack]
  · simp [hkind]

theorem mem_kinds_pieces {f : Focus} : kind ∈ f.pieces.map Piece.kind ↔
    kind ∈ f.above.map Piece.kind ∨ kind = f.piece.kind ∨ kind ∈ f.below.map Piece.kind := by
  simp only [Focus.pieces, List.map_append, List.map_reverse, List.map_cons, List.mem_append,
    List.mem_reverse, List.mem_cons]

theorem kinds_up (hkind : kind ≠ .keep) (steps : Nat) {f : Focus}
    (h : kind ∈ f.pieces.map Piece.kind) :
    kind ∈ (Focus.up ls steps f).pieces.map Piece.kind := by
  induction steps generalizing f with
  | zero => exact h
  | succ steps ih =>
    obtain ⟨above, p, below⟩ := f
    cases above with
    | nil => exact h
    | cons q above =>
      rw [mem_kinds_pieces, List.map_cons, List.mem_cons] at h
      unfold Focus.up
      simp only
      split
      · next hp hq =>
        split
        · rwa [mem_kinds_pieces, List.map_cons, List.mem_cons]
        · refine ih (mem_kinds_pieces.mpr ?_)
          rw [mem_kinds_keepBelow hkind]
          refine Or.imp_left (fun h => ?_) h
          have habove := h.resolve_left fun hkeep => hkind (hkeep.trans hq)
          split
          · exact habove
          · rw [List.map_cons]
            exact List.mem_cons_of_mem _ habove
      all_goals first
        | (refine ih (mem_kinds_pieces.mpr ?_)
           simp only [List.map_cons, List.mem_cons, Piece.growBack]
           grind)
        | rwa [mem_kinds_pieces, List.map_cons, List.mem_cons]

theorem kinds_down (hkind : kind ≠ .keep) (steps : Nat) {f : Focus}
    (h : kind ∈ f.pieces.map Piece.kind) :
    kind ∈ (Focus.down ls steps f).pieces.map Piece.kind := by
  induction steps generalizing f with
  | zero => exact h
  | succ steps ih =>
    obtain ⟨above, p, below⟩ := f
    cases below with
    | nil => exact h
    | cons q below =>
      rw [mem_kinds_pieces, List.map_cons, List.mem_cons] at h
      unfold Focus.down
      simp only
      split
      · next hp hq =>
        split
        · rwa [mem_kinds_pieces, List.map_cons, List.mem_cons]
        · refine ih (mem_kinds_pieces.mpr ?_)
          rw [mem_kinds_keepAbove hkind]
          refine Or.imp_right (Or.imp_right fun h => ?_) h
          have hbelow := h.resolve_left fun hkeep => hkind (hkeep.trans hq)
          split
          · exact hbelow
          · rw [List.map_cons]
            exact List.mem_cons_of_mem _ hbelow
      all_goals first
        | (refine ih (mem_kinds_pieces.mpr ?_)
           simp only [List.map_cons, List.mem_cons, Piece.growBack]
           grind)
        | rwa [mem_kinds_pieces, List.map_cons, List.mem_cons]

theorem kinds_slideKind (hkind : kind ≠ .keep) (moved : PieceKind) (steps n : Nat)
    {done todo : List Piece} (h : kind ∈ (done.reverse ++ todo).map Piece.kind) :
    kind ∈ (slideKind ls moved steps n done todo).map Piece.kind := by
  induction n generalizing done todo with
  | zero => exact h
  | succ n ih =>
    cases todo with
    | nil => rwa [List.append_nil] at h
    | cons p todo =>
      rw [slideKind]
      split
      · refine ih ?_
        rw [List.reverse_cons, List.append_assoc]
        exact kinds_down hkind steps (kinds_up hkind steps (f := ⟨done, p, todo⟩) h)
      · refine ih ?_
        rwa [List.reverse_cons, List.append_assoc]

theorem kinds_slide (hkind : kind ≠ .keep) {ps : List Piece} (h : kind ∈ ps.map Piece.kind) :
    kind ∈ (slide old new ps).map Piece.kind :=
  kinds_slideKind hkind .insert _ _ (kinds_slideKind hkind .delete _ _ h)

end Kinds

def Run.kind : Run → PieceKind
  | .keep _ => .keep
  | .delete _ => .delete
  | .insert _ => .insert

theorem kinds_placeRuns (i j : Nat) (rs : List Run) :
    (placeRuns i j rs).map Piece.kind = rs.map Run.kind := by
  induction rs generalizing i j with
  | nil => rfl
  | cons r rs ih => cases r <;> exact congrArg (_ :: ·) (ih _ _)

/-- The kinds of change that a script makes are there in the end. -/
theorem kind_mem_slide {r : Run} {rs : List Run} (hr : r ∈ rs) (hkind : r.kind ≠ .keep) :
    r.kind ∈ (slide old new (placeRuns 0 0 rs)).map Piece.kind := by
  refine kinds_slide hkind ?_
  rw [kinds_placeRuns]
  exact List.mem_map_of_mem hr

/-- The pieces of the two lists. -/
def pieces (old new : List Line) : List Piece := slide old new (placeRuns 0 0 (script old new))

theorem chain_pieces (old new : List Line) :
    PieceChain old new (.delete ∈ (pieces old new).map Piece.kind)
      (.insert ∈ (pieces old new).map Piece.kind) (pieces old new) 0 0 old.length new.length := by
  have hD (n : Nat) (h : .delete n ∈ script old new) :
      .delete ∈ (pieces old new).map Piece.kind :=
    kind_mem_slide (r := .delete n) h (show PieceKind.delete ≠ .keep by decide)
  have hI (n : Nat) (h : .insert n ∈ script old new) :
      .insert ∈ (pieces old new).map Piece.kind :=
    kind_mem_slide (r := .insert n) h (show PieceKind.insert ≠ .keep by decide)
  have hplaced := chain_placeRuns [] [] (edits_scriptUpTo _ old new) hD hI
  exact chain_slideKind .insert _ _ (chain_slideKind .delete _ _ hplaced)

end Vendoring.Patch
