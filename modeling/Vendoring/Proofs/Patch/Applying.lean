import Mathlib.Data.List.Forall2
import Vendoring.Difference
import Vendoring.Proofs.Patch.Grouping
import Vendoring.Proofs.Patch.Reading

/-!
# Applying a patch

A hunk is applied where its header says that its old lines stand, and both ranges
have to be those of its lines (`Shown.Fits`). The hunks of two texts turn the one
into the other with the ranges that their blocks really span (`replayFrom?_covers`).
The headers state these ranges, except that the range of a side can be wrong in a
hunk that begins or ends with changes of the other side alone
(`Shown.Sure`).
-/

namespace Vendoring.Patch

variable {old new : List Line} {D I : Prop} {i j k l m n : Nat}

/-! ## The sides of a hunk -/

/-- The lines of a side; the other side's own ones have the sign `other`. -/
def sideLines (other : Sign) (body : List (Sign × Line)) : List Line :=
  (body.filter (·.1 != other)).map Prod.snd

def Shown.oldLines (h : Shown) : List Line := sideLines .added h.body

def Shown.newLines (h : Shown) : List Line := sideLines .removed h.body

theorem sideLines_append (other : Sign) (xs ys : List (Sign × Line)) :
    sideLines other (xs ++ ys) = sideLines other xs ++ sideLines other ys := by
  unfold sideLines
  rw [List.filter_append, List.map_append]

theorem sideLines_map (other sign : Sign) (ls : List Line) :
    sideLines other (ls.map (sign, ·)) = if sign = other then [] else ls := by
  unfold sideLines
  split
  · next heq =>
    rw [List.map_eq_nil_iff, List.filter_eq_nil_iff]
    simp [heq]
  · next hne =>
    rw [List.filter_eq_self.mpr (by simp [hne]), List.map_map]
    exact List.map_id ls

/-! ## Applying -/

/-- The hunk can be applied behind the first `done` old lines, which have become
`made` new ones: it does not reach back, its old lines are there, and its ranges are
those of its lines. -/
structure Shown.Fits (old : List Line) (done made : Nat) (h : Shown) : Prop where
  behind : done ≤ h.old.position
  inside : h.old.position ≤ old.length
  oldLines : (old.drop h.old.position).take h.oldLines.length = h.oldLines
  oldRange : h.old = .span h.old.position h.oldLines.length
  newRange : h.new = .span (made + (h.old.position - done)) h.newLines.length

instance (old : List Line) (done made : Nat) (h : Shown) : Decidable (h.Fits old done made) :=
  decidable_of_iff
    (done ≤ h.old.position ∧ h.old.position ≤ old.length
      ∧ (old.drop h.old.position).take h.oldLines.length = h.oldLines
      ∧ h.old = .span h.old.position h.oldLines.length
      ∧ h.new = .span (made + (h.old.position - done)) h.newLines.length)
    ⟨fun ⟨h₁, h₂, h₃, h₄, h₅⟩ => ⟨h₁, h₂, h₃, h₄, h₅⟩,
      fun ⟨h₁, h₂, h₃, h₄, h₅⟩ => ⟨h₁, h₂, h₃, h₄, h₅⟩⟩

/-- The new lines behind the first `made` ones. -/
def replayFrom? (old : List Line) (done made : Nat) : List Shown → Option (List Line)
  | [] => some (old.drop done)
  | h :: rest =>
    if h.Fits old done made then
      (replayFrom? old (h.old.position + h.old.count) (h.new.position + h.new.count) rest).map
        ((old.drop done).take (h.old.position - done) ++ h.newLines ++ ·)
    else none

def replay? (old : List Line) (hs : List Shown) : Option (List Line) := replayFrom? old 0 0 hs

/-- Applies hunks to a text, given by its bytes. -/
def patched? (old : ByteArray) (hs : List Shown) : Option ByteArray :=
  (String.fromUTF8? old).bind fun text =>
    (replay? (linesOf text) hs).map fun ls => (String.join ls).toUTF8

/-! ## What a hunk of two texts shows -/

/-- The signed lines of a block. -/
def Block.body (old new : List Line) (b : Block) : List (Sign × Line) :=
  if b.kept then ((old.drop b.old).take b.oldCount).map (.context, ·)
  else ((old.drop b.old).take b.oldCount).map (.removed, ·)
    ++ ((new.drop b.new).take b.newCount).map (.added, ·)

def Hunk.body (old new : List Line) (x : Hunk) : List (Sign × Line) :=
  x.flatMap (Block.body old new)

/-- What the text of a hunk shows. -/
def Hunk.shown (old new : List Line) (x : Hunk) : Shown :=
  match x.head?, x.getLast? with
  | some first, some last =>
    ⟨.span first.old (last.old + last.oldCount - first.old),
      .span first.new (last.new + last.newCount - first.new), x.body old new⟩
  | _, _ => ⟨⟨0, 0⟩, ⟨0, 0⟩, []⟩

theorem linesText_toArray (sign : Sign) (ls : List Line) (start count : Nat) :
    linesText sign.mark.toString ls.toArray start count = String.join
      ((((ls.drop start).take count).map (sign, ·)).map fun s => lineText s.1.mark.toString s.2) := by
  rw [List.map_map, ← slice_toArray]
  rfl

theorem Block.text_toArray (b : Block) : b.text old.toArray new.toArray
    = String.join ((b.body old new).map fun s => lineText s.1.mark.toString s.2) := by
  unfold text body
  split
  · exact linesText_toArray .context old b.old b.oldCount
  · rw [List.map_append, String.join_append, ← linesText_toArray, ← linesText_toArray]
    rfl

theorem Hunk.text_toArray {x : Hunk} (h : x ≠ []) :
    x.text old.toArray new.toArray = (x.shown old new).text := by
  have hbody : String.join (x.map (Block.text old.toArray new.toArray))
      = String.join ((x.body old new).map fun s => lineText s.1.mark.toString s.2) := by
    unfold body
    clear h
    induction x with
    | nil => rfl
    | cons b x ih =>
      rw [List.map_cons, String.join_cons, ih, Block.text_toArray, List.flatMap_cons,
        List.map_append, String.join_append]
  obtain ⟨first, hfirst⟩ := Option.ne_none_iff_exists'.mp (mt List.head?_eq_none_iff.mp h)
  obtain ⟨last, hlast⟩ := Option.ne_none_iff_exists'.mp (mt List.getLast?_eq_none_iff.mp h)
  rw [text, header, shown, hfirst, hlast, hbody]
  simp only [Shown.text, Shown.header, Range.text_span]

theorem sideLines_body_of_spans {b : Block} (h : b.Spans old new D I i j k l) :
    sideLines .added (b.body old new) = (old.drop i).take (k - i)
      ∧ sideLines .removed (b.body old new) = (new.drop j).take (l - j) := by
  cases h with
  | @kept _ _ n hn h =>
    have hbody : (keptBlock i j n).body old new = ((old.drop i).take n).map (.context, ·) := rfl
    rw [hbody, sideLines_map, sideLines_map, Nat.add_sub_cancel_left, Nat.add_sub_cancel_left]
    exact ⟨rfl, h.same⟩
  | @change _ _ x y n m _ hx hy =>
    have hbody : Block.body old new ⟨false, x, n, y, m⟩
      = ((old.drop x).take n).map (.removed, ·) ++ ((new.drop y).take m).map (.added, ·) := rfl
    rw [hbody, sideLines_append, sideLines_append, Nat.add_sub_cancel_left, Nat.add_sub_cancel_left]
    simp only [sideLines_map, reduceCtorEq, if_false, if_true, List.append_nil, List.nil_append]
    refine ⟨?_, ?_⟩
    · rcases hx with rfl | ⟨rfl, -⟩
      · rfl
      · rfl
    · rcases hy with rfl | ⟨rfl, -⟩
      · rfl
      · rfl

theorem drop_take_append {ls : List Line} {i' : Nat} (hi : i ≤ i') (hk : i' ≤ k) :
    (ls.drop i).take (i' - i) ++ (ls.drop i').take (k - i') = (ls.drop i).take (k - i) := by
  have hdrop : ls.drop i' = (ls.drop i).drop (i' - i) := by
    rw [List.drop_drop, Nat.add_sub_cancel' hi]
  rw [hdrop, ← List.take_add]
  congr 1
  omega

/-- The lines of the two sides are those that the blocks span. -/
theorem sideLines_body_of_chain {x : Hunk} (h : BlockChain old new D I x i j k l) :
    sideLines .added (x.body old new) = (old.drop i).take (k - i)
      ∧ sideLines .removed (x.body old new) = (new.drop j).take (l - j) := by
  induction h with
  | nil i j => simp [Hunk.body, sideLines]
  | cons hb hrest ih =>
    obtain ⟨hold, hnew⟩ := sideLines_body_of_spans hb
    have hle := BlockChain.le (.cons hb (.nil _ _))
    have hle' := BlockChain.le hrest
    rw [Hunk.body, List.flatMap_cons, sideLines_append, sideLines_append, hold, hnew]
    rw [Hunk.body] at ih
    rw [ih.1, ih.2, drop_take_append hle.1 hle'.1, drop_take_append hle.2 hle'.2]
    exact ⟨rfl, rfl⟩

/-! ## Applying the hunks of two texts -/

theorem Covers.le {hs : List Hunk} (h : Covers old new D I hs i j k l) : i ≤ k ∧ j ≤ l := by
  induction h with
  | gap => omega
  | hunk _ _ hx _ ih =>
    have := hx.le
    omega

/-- `e` has the signed lines of the hunk, and the ranges that its blocks span. -/
def Hunk.Exact (old new : List Line) (D I : Prop) (x : Hunk) (e : Shown) : Prop :=
  ∃ i j k l, x ≠ [] ∧ BlockChain old new D I x i j k l ∧ k ≤ old.length ∧ l ≤ new.length
    ∧ e = ⟨.span i (k - i), .span j (l - j), x.body old new⟩

/-- The step behind a gap, with the ranges that the blocks span. -/
theorem replayFrom?_cons {x : Hunk} {g i' j' : Nat} {rest : List Shown}
    (hgap : Agrees old new i j g) (hx : BlockChain old new D I x (i + g) (j + g) i' j')
    (hi : i' ≤ old.length) (hj : j' ≤ new.length)
    (hrest : replayFrom? old i' j' rest = some (new.drop j')) :
    replayFrom? old i j (⟨.span (i + g) (i' - (i + g)), .span (j + g) (j' - (j + g)),
      x.body old new⟩ :: rest) = some (new.drop j) := by
  obtain ⟨hle, hle'⟩ := hx.le
  obtain ⟨hold, hnew⟩ := sideLines_body_of_chain hx
  generalize he : (⟨.span (i + g) (i' - (i + g)), .span (j + g) (j' - (j + g)), x.body old new⟩
    : Shown) = e
  have hposition : e.old.position = i + g := by rw [← he, Range.position_span]
  have hcount : e.old.count = i' - (i + g) := by rw [← he, Range.count_span]
  have hposition' : e.new.position = j + g := by rw [← he, Range.position_span]
  have hcount' : e.new.count = j' - (j + g) := by rw [← he, Range.count_span]
  have holdLines : e.oldLines = (old.drop (i + g)).take (i' - (i + g)) := by
    rw [← he]
    exact hold
  have hnewLines : e.newLines = (new.drop (j + g)).take (j' - (j + g)) := by
    rw [← he]
    exact hnew
  have hlength : e.oldLines.length = i' - (i + g) := by
    rw [holdLines, List.length_take, List.length_drop]
    omega
  have hlength' : e.newLines.length = j' - (j + g) := by
    rw [hnewLines, List.length_take, List.length_drop]
    omega
  have hfits : e.Fits old i j := by
    refine ⟨by omega, by omega, ?_, ?_, ?_⟩
    · rw [hlength, hposition, holdLines]
    · rw [hlength, hposition, ← he]
    · rw [hlength', hposition, Nat.add_sub_cancel_left, ← he]
  have hmade : (old.drop i).take g ++ (new.drop (j + g)).take (j' - (j + g)) ++ new.drop j'
      = new.drop j := calc
    _ = (new.drop j).take g ++ ((new.drop (j + g)).take (j' - (j + g))
          ++ (new.drop (j + g)).drop (j' - (j + g))) := by
      rw [hgap.same, List.append_assoc, List.drop_drop, Nat.add_sub_cancel' hle']
    _ = (new.drop j).take g ++ (new.drop j).drop g := by
      rw [List.take_append_drop, List.drop_drop]
    _ = new.drop j := List.take_append_drop ..
  rw [replayFrom?, if_pos hfits, hposition, hcount, hposition', hcount', Nat.add_sub_cancel' hle,
    Nat.add_sub_cancel' hle', hrest, Nat.add_sub_cancel_left, hnewLines, Option.map_some, hmade]

/-- The hunks turn the old lines from `i` on into the new ones from `j` on. -/
theorem replayFrom?_covers {hs : List Hunk} (h : Covers old new D I hs i j k l)
    (hk : k = old.length) (hl : l = new.length) :
    ∃ exact, replayFrom? old i j exact = some (new.drop j)
      ∧ List.Forall₂ (Hunk.Exact old new D I) hs exact := by
  induction h with
  | gap h =>
    have hsame := h.same
    rw [List.take_of_length_le (by rw [List.length_drop]; omega),
      List.take_of_length_le (by rw [List.length_drop]; omega)] at hsame
    exact ⟨[], by rw [replayFrom?, hsame], .nil⟩
  | hunk hgap hne hx hrest ih =>
    obtain ⟨exact, happly, hexact⟩ := ih hk hl
    obtain ⟨hi, hj⟩ := hrest.le
    exact ⟨_ :: exact, replayFrom?_cons hgap hx (by omega) (by omega) happly,
      .cons ⟨_, _, _, _, hne, hx, by omega, by omega, rfl⟩ hexact⟩

/-! ## The ranges that headers state -/

/-- The changes in front of the first line that is kept. -/
def Shown.opening (h : Shown) : List (Sign × Line) := h.body.takeWhile (·.1 != .context)

/-- The changes behind the last line that is kept, the last one first. -/
def Shown.closing (h : Shown) : List (Sign × Line) := h.body.reverse.takeWhile (·.1 != .context)

/-- There is nothing of the changes, or something of the side. -/
def Shows (sign : Sign) (changes : List (Sign × Line)) : Prop :=
  changes = [] ∨ ∃ l, (sign, l) ∈ changes

/-- The hunk neither begins nor ends with changes of the other side alone. -/
def Shown.Sure (sign : Sign) (h : Shown) : Prop := Shows sign h.opening ∧ Shows sign h.closing

/-- No hunk changes anything on the side. -/
def Untouched (sign : Sign) (hs : List Shown) : Prop := ∀ h ∈ hs, ∀ l, (sign, l) ∉ h.body

/-- In the signed lines of the block, lines are kept exactly if the block is. -/
def Sorted (f : Block → List (Sign × Line)) (b : Block) : Prop :=
  f b ≠ [] ∧ ∀ s ∈ f b, s.1 = .context ↔ b.kept = true

theorem takeWhile_flatMap {f : Block → List (Sign × Line)} {b : Block} {bs : List Block}
    (h : ∀ b' ∈ b :: bs, Sorted f b') (halternate : Alternate (b :: bs)) :
    ((b :: bs).flatMap f).takeWhile (·.1 != .context) = if b.kept then [] else f b := by
  have hkept {b' : Block} {bs' : List Block} (hb' : b' ∈ b :: bs) (hkept : b'.kept = true) :
      ((b' :: bs').flatMap f).takeWhile (·.1 != .context) = [] := by
    obtain ⟨hne, hsigns⟩ := h b' hb'
    obtain ⟨s, ss, hs⟩ := List.exists_cons_of_ne_nil hne
    have hcontext := (hsigns s (hs ▸ List.mem_cons_self ..)).mpr hkept
    rw [List.flatMap_cons, hs, List.cons_append, List.takeWhile_cons, hcontext]
    rfl
  split
  · next hb => exact hkept (List.mem_cons_self ..) hb
  · next hb =>
    have hchanges : ∀ s ∈ f b, (s.1 != .context) = true := fun s hs =>
      bne_iff_ne.mpr fun heq => hb (((h b (List.mem_cons_self ..)).2 s hs).mp heq)
    rw [List.flatMap_cons, List.takeWhile_append_of_pos hchanges]
    cases bs with
    | nil => exact List.append_nil _
    | cons b' bs =>
      have hb' : b'.kept = true := by
        have hdiffers := (alternate_cons_iff.mp halternate).1 b' rfl
        cases hb'' : b'.kept
        · exact absurd ((Bool.not_eq_true _ ▸ hb).trans hb''.symm) hdiffers
        · rfl
      rw [hkept (by simp) hb', List.append_nil]

/-- The kind of change that a sign stands for. -/
def Sign.kind : Sign → PieceKind
  | .context => .keep
  | .removed => .delete
  | .added => .insert

theorem mem_map_sign {sign sign' : Sign} {line : Line} {ls : List Line} :
    (sign, line) ∈ ls.map (sign', ·) ↔ sign = sign' ∧ line ∈ ls := by
  rw [List.mem_map]
  constructor
  · rintro ⟨line', hline, heq⟩
    obtain ⟨rfl, rfl⟩ := Prod.mk.inj heq
    exact ⟨rfl, hline⟩
  · rintro ⟨rfl, hline⟩
    exact ⟨line, hline, rfl⟩

/-- Where a position may be out of date, there is no line to be taken from it. -/
theorem exists_mem_of_settles {E : Prop} {x : Nat} {ls : List Line} (h : Settles E x i n)
    (hle : i + n ≤ ls.length) : (∃ line, line ∈ (ls.drop x).take n) ↔ 0 < n := by
  rcases h with rfl | ⟨rfl, -⟩
  · rw [← List.length_pos_iff_exists_mem, List.length_take, List.length_drop]
    omega
  · simp

section Spans

variable {b : Block}

/-- The signs of a block tell whether it is kept and what it changes. -/
theorem exists_sign_iff (hk : k ≤ old.length) (hl : l ≤ new.length)
    (h : b.Spans old new D I i j k l) (sign : Sign) :
    (∃ line, (sign, line) ∈ b.body old new)
      ↔ if sign = .context then b.kept = true else b.Changes sign.kind := by
  cases h with
  | @kept _ _ n hn h =>
    have hsome := exists_mem_of_settles (E := False) (Or.inl rfl) h.inOld
    show (∃ line, (sign, line) ∈ ((old.drop i).take n).map (.context, ·)) ↔ _
    simp only [mem_map_sign, exists_and_left, hsome]
    cases sign <;> simp [hn, keptBlock, Block.Changes]
  | @change _ _ x y n m _ hx hy =>
    have hold := exists_mem_of_settles hx hk
    have hnew := exists_mem_of_settles hy hl
    show (∃ line, (sign, line) ∈ ((old.drop x).take n).map (.removed, ·)
      ++ ((new.drop y).take m).map (.added, ·)) ↔ _
    simp only [List.mem_append, mem_map_sign, exists_or, exists_and_left, hold, hnew]
    cases sign <;> simp [Block.Changes, Block.size, Sign.kind]

theorem sorted_body (hk : k ≤ old.length) (hl : l ≤ new.length)
    (h : b.Spans old new D I i j k l) : Sorted (Block.body old new) b := by
  refine ⟨fun hnil => ?_, fun s hs => ?_⟩
  · have hnone (sign : Sign) : ¬∃ line, (sign, line) ∈ b.body old new := by simp [hnil]
    have hkept := hnone .context
    have hdeleted := hnone .removed
    have hinserted := hnone .added
    rw [exists_sign_iff hk hl h] at hkept hdeleted hinserted
    cases h with
    | kept => exact hkept rfl
    | change hsome =>
      rcases Nat.add_pos_iff_pos_or_pos.mp hsome with hn | hm
      · exact hdeleted ⟨rfl, hn⟩
      · exact hinserted ⟨rfl, hm⟩
  · have hsign := (exists_sign_iff hk hl h s.1).mp ⟨s.2, hs⟩
    split at hsign
    · next heq => exact ⟨fun _ => hsign, fun _ => heq⟩
    · next hne => exact ⟨fun heq => absurd heq hne, fun hkept => absurd (hkept ▸ hsign.1) nofun⟩

theorem Sorted.reverse {f : Block → List (Sign × Line)} (h : Sorted f b) :
    Sorted (List.reverse ∘ f) b := by
  refine ⟨fun hnil => h.1 (List.reverse_eq_nil_iff.mp hnil), fun s hs => ?_⟩
  exact h.2 s (List.mem_reverse.mp hs)

theorem Settles.eq {E : Prop} {x : Nat} (h : Settles E x i n) (hsure : ¬E ∨ 0 < n) : x = i := by
  rcases h with rfl | ⟨rfl, hE⟩
  · rfl
  · rcases hsure with hsure | hsure
    · exact absurd hE hsure
    · exact absurd hsure (Nat.lt_irrefl 0)

theorem Block.Spans.old_eq (h : b.Spans old new D I i j k l)
    (hsure : ¬D ∨ b.kept = true ∨ b.Changes .delete) : b.old = i ∧ b.old + b.oldCount = k := by
  cases h with
  | kept => exact ⟨rfl, rfl⟩
  | change _ hx _ =>
    obtain rfl := hx.eq (hsure.imp_right fun h => (h.resolve_left nofun).2)
    exact ⟨rfl, rfl⟩

theorem Block.Spans.new_eq (h : b.Spans old new D I i j k l)
    (hsure : ¬I ∨ b.kept = true ∨ b.Changes .insert) : b.new = j ∧ b.new + b.newCount = l := by
  cases h with
  | kept => exact ⟨rfl, rfl⟩
  | change _ _ hy =>
    obtain rfl := hy.eq (hsure.imp_right fun h => (h.resolve_left nofun).2)
    exact ⟨rfl, rfl⟩

end Spans

/-! ## Headers -/

theorem BlockChain.exists_of_mem {x : Hunk} {b : Block} (h : BlockChain old new D I x i j k l)
    (hb : b ∈ x) : ∃ i' j' k' l', b.Spans old new D I i' j' k' l' ∧ k' ≤ k ∧ l' ≤ l := by
  induction h with
  | nil => cases hb
  | cons hfirst hrest ih =>
    rcases List.mem_cons.mp hb with rfl | hb
    · exact ⟨_, _, _, _, hfirst, (BlockChain.le hrest).1, (BlockChain.le hrest).2⟩
    · exact ih hb

theorem BlockChain.sorted {x : Hunk} (hk : k ≤ old.length) (hl : l ≤ new.length)
    (h : BlockChain old new D I x i j k l) : ∀ b ∈ x, Sorted (Block.body old new) b := by
  intro b hb
  obtain ⟨_, _, k', l', hspans, hk', hl'⟩ := h.exists_of_mem hb
  exact sorted_body (by omega) (by omega) hspans

theorem BlockChain.exists_first {x : Hunk} {b : Block} (h : BlockChain old new D I x i j k l)
    (hb : x.head? = some b) : ∃ k' l', b.Spans old new D I i j k' l' ∧ k' ≤ k ∧ l' ≤ l := by
  cases h with
  | nil => cases hb
  | cons hfirst hrest =>
    cases hb
    exact ⟨_, _, hfirst, BlockChain.le hrest⟩

theorem BlockChain.exists_last {x : Hunk} {b : Block} (h : BlockChain old new D I x i j k l)
    (hb : x.getLast? = some b) : ∃ i' j', b.Spans old new D I i' j' k l := by
  obtain ⟨bs, rfl⟩ := List.getLast?_eq_some_iff.mp hb
  obtain ⟨i', j', -, hlast⟩ := Chain.append_iff.mp h
  exact ⟨i', j', Chain.singleton_iff.mp hlast⟩

theorem Hunk.body_shown (x : Hunk) : (x.shown old new).body = x.body old new := by
  cases x with
  | nil => rfl
  | cons b x =>
    rw [shown, List.getLast?_cons]
    rfl

theorem Alternate.reverse {bs : List Block} (h : Alternate bs) : Alternate bs.reverse := by
  unfold Alternate
  rw [List.map_reverse, List.isChain_reverse]
  exact List.IsChain.imp (fun _ _ => Ne.symm) h

section Header

variable {x : Hunk} {first last : Block}

theorem opening_shown (hk : k ≤ old.length) (hl : l ≤ new.length)
    (h : BlockChain old new D I x i j k l) (halternate : Alternate x)
    (hfirst : x.head? = some first) :
    (x.shown old new).opening = if first.kept then [] else first.body old new := by
  have hsorted := h.sorted hk hl
  obtain ⟨bs, rfl⟩ := List.head?_eq_some_iff.mp hfirst
  rw [Shown.opening, Hunk.body_shown]
  exact takeWhile_flatMap hsorted halternate

theorem closing_shown (hk : k ≤ old.length) (hl : l ≤ new.length)
    (h : BlockChain old new D I x i j k l) (halternate : Alternate x)
    (hlast : x.getLast? = some last) :
    (x.shown old new).closing = if last.kept then [] else (last.body old new).reverse := by
  have hsorted := h.sorted hk hl
  obtain ⟨bs, rfl⟩ := List.getLast?_eq_some_iff.mp hlast
  have hreverse : (bs ++ [last]).reverse = last :: bs.reverse := by simp
  have halternate := halternate.reverse
  rw [hreverse] at halternate
  rw [Shown.closing, Hunk.body_shown, Hunk.body, List.reverse_flatMap, hreverse]
  refine takeWhile_flatMap (fun b hb => ?_) halternate
  rw [← hreverse, List.mem_reverse] at hb
  exact (hsorted b hb).reverse

/-- If a hunk can be relied on for a side, so can its first and its last block. -/
theorem kept_or_changes_of_sure (hk : k ≤ old.length) (hl : l ≤ new.length)
    (h : BlockChain old new D I x i j k l) (halternate : Alternate x)
    (hfirst : x.head? = some first) (hlast : x.getLast? = some last) {sign : Sign}
    (hsign : sign ≠ .context) (hsure : (x.shown old new).Sure sign) :
    (first.kept = true ∨ first.Changes sign.kind)
      ∧ (last.kept = true ∨ last.Changes sign.kind) := by
  have hchanges {b : Block} (hb : b ∈ x) (line : Line) (hline : (sign, line) ∈ b.body old new) :
      b.Changes sign.kind := by
    obtain ⟨_, _, k', l', hspans, hk', hl'⟩ := h.exists_of_mem hb
    have hiff := exists_sign_iff (by omega) (by omega) hspans sign
    rw [if_neg hsign] at hiff
    exact hiff.mp ⟨line, hline⟩
  obtain ⟨hopening, hclosing⟩ := hsure
  rw [opening_shown hk hl h halternate hfirst] at hopening
  rw [closing_shown hk hl h halternate hlast] at hclosing
  refine ⟨?_, ?_⟩
  · have hmem := List.mem_of_head? hfirst
    split at hopening
    · next hkept => exact Or.inl hkept
    · obtain ⟨line, hline⟩ := hopening.resolve_left (h.sorted hk hl first hmem).1
      exact Or.inr (hchanges hmem line hline)
  · have hmem := List.mem_of_getLast? hlast
    split at hclosing
    · next hkept => exact Or.inl hkept
    · obtain ⟨line, hline⟩ := hclosing.resolve_left (h.sorted hk hl last hmem).reverse.1
      exact Or.inr (hchanges hmem line (List.mem_reverse.mp hline))

theorem opening_eq_nil (hk : k ≤ old.length) (hl : l ≤ new.length)
    (h : BlockChain old new D I x i j k l) (halternate : Alternate x) (hne : x ≠ [])
    (hstart : StartsWith true x) : (x.shown old new).opening = [] := by
  obtain ⟨first, hfirst⟩ := Option.ne_none_iff_exists'.mp (mt List.head?_eq_none_iff.mp hne)
  rw [opening_shown hk hl h halternate hfirst, if_pos (hstart first hfirst)]

theorem closing_eq_nil (hk : k ≤ old.length) (hl : l ≤ new.length)
    (h : BlockChain old new D I x i j k l) (halternate : Alternate x) (hne : x ≠ [])
    (hend : StartsWith true x.reverse) : (x.shown old new).closing = [] := by
  obtain ⟨last, hlast⟩ := Option.ne_none_iff_exists'.mp (mt List.getLast?_eq_none_iff.mp hne)
  rw [closing_shown hk hl h halternate hlast,
    if_pos (hend last (List.head?_reverse.trans hlast))]

end Header

/-- `e` has the signed lines of `h`, and its ranges too where these can be relied on: a
side is changed nowhere (`unchanged`), or the hunk neither begins nor ends with changes of
the other side alone. -/
structure Shown.Corrects (unchanged : Sign → Prop) (h e : Shown) : Prop where
  body : e.body = h.body
  old : unchanged .removed ∨ h.Sure .removed → e.old = h.old
  new : unchanged .added ∨ h.Sure .added → e.new = h.new

theorem corrects_of_exact {x : Hunk} {e : Shown} {unchanged : Sign → Prop}
    (hD : unchanged .removed → ¬D) (hI : unchanged .added → ¬I) (halternate : Alternate x)
    (h : x.Exact old new D I e) : (x.shown old new).Corrects unchanged e := by
  obtain ⟨i, j, k, l, hne, hx, hk, hl, rfl⟩ := h
  obtain ⟨first, hfirst⟩ := Option.ne_none_iff_exists'.mp (mt List.head?_eq_none_iff.mp hne)
  obtain ⟨last, hlast⟩ := Option.ne_none_iff_exists'.mp (mt List.getLast?_eq_none_iff.mp hne)
  obtain ⟨_, _, hspans, -, -⟩ := hx.exists_first hfirst
  obtain ⟨_, _, hspans'⟩ := hx.exists_last hlast
  have hends {E : Prop} (sign : Sign) (hsign : sign ≠ .context)
      (hsure : ¬E ∨ (x.shown old new).Sure sign) :
      (¬E ∨ first.kept = true ∨ first.Changes sign.kind)
        ∧ (¬E ∨ last.kept = true ∨ last.Changes sign.kind) := by
    rcases hsure with hnone | hsure
    · exact ⟨Or.inl hnone, Or.inl hnone⟩
    · obtain ⟨h, h'⟩ := kept_or_changes_of_sure hk hl hx halternate hfirst hlast hsign hsure
      exact ⟨Or.inr h, Or.inr h'⟩
  refine ⟨x.body_shown.symm, fun hsure => ?_, fun hsure => ?_⟩
  · have hold := hends .removed nofun (hsure.imp_left hD)
    rw [Hunk.shown, hfirst, hlast]
    simp only [(hspans.old_eq hold.1).1, (hspans'.old_eq hold.2).2]
  · have hnew := hends .added nofun (hsure.imp_left hI)
    rw [Hunk.shown, hfirst, hlast]
    simp only [(hspans.new_eq hnew.1).1, (hspans'.new_eq hnew.2).2]

/-! ## Patches -/

theorem Covers.exists_of_mem {hs : List Hunk} {x : Hunk} (h : Covers old new D I hs i j k l)
    (hx : x ∈ hs) :
    x ≠ [] ∧ ∃ i' j' k' l', BlockChain old new D I x i' j' k' l' ∧ k' ≤ k ∧ l' ≤ l := by
  induction h with
  | gap => cases hx
  | hunk _ hne hchain hrest ih =>
    rcases List.mem_cons.mp hx with rfl | hx
    · exact ⟨hne, _, _, _, _, hchain, hrest.le⟩
    · exact ih hx

/-- What the patch of two texts shows. -/
def shownHunks (old new : List Line) : List Shown := (hunks old new).map (Hunk.shown old new)

theorem eq_of_hunks_eq_nil (h : hunks old new = []) : old = new := by
  have hcovers := covers_hunks old new
  rw [h] at hcovers
  generalize hk : old.length = k at hcovers
  generalize hl : new.length = l at hcovers
  cases hcovers with
  | gap hsame =>
    have hsame := hsame.same
    rwa [List.drop_zero, List.drop_zero, List.take_of_length_le (by omega),
      List.take_of_length_le (by omega)] at hsame

theorem unifiedText_eq (oldName newName : String) (hne : old ≠ new) :
    unifiedText oldName newName old new = "--- " ++ oldName ++ "\n+++ " ++ newName ++ "\n"
      ++ String.join ((shownHunks old new).map Shown.text) := by
  have htexts : (hunks old new).map (Hunk.text old.toArray new.toArray)
      = (shownHunks old new).map Shown.text := by
    rw [shownHunks, List.map_map]
    refine List.map_congr_left fun x hx => Hunk.text_toArray ?_
    exact ((covers_hunks old new).exists_of_mem hx).1
  unfold unifiedText
  split
  · next hnil => exact absurd (eq_of_hunks_eq_nil hnil) hne
  · rw [htexts]

theorem lawful_shown {x : Hunk} (hold : ∀ l ∈ old, l.Ended ∨ l.Unended)
    (hnew : ∀ l ∈ new, l.Ended ∨ l.Unended) : (x.shown old new).Lawful := by
  intro s hs
  rw [x.body_shown] at hs
  obtain ⟨b, -, hs⟩ := List.mem_flatMap.mp hs
  have htaken {sign : Sign} {ls : List Line} {i n : Nat}
      (hs : s ∈ ((ls.drop i).take n).map (sign, ·)) : s.2 ∈ ls :=
    List.mem_of_mem_drop (List.mem_of_mem_take (mem_map_sign.mp hs).2)
  unfold Block.body at hs
  split at hs
  · exact hold _ (htaken hs)
  · rcases List.mem_append.mp hs with hs | hs
    · exact hold _ (htaken hs)
    · exact hnew _ (htaken hs)

/-- A side without changes anywhere has none in the script either. -/
theorem not_mem_kinds_of_untouched (sign : Sign) (hsign : sign ≠ .context)
    (h : Untouched sign (shownHunks old new)) :
    sign.kind ∉ (pieces old new).map Piece.kind := by
  intro hmem
  have hkind : sign.kind ≠ .keep := by cases sign <;> simp_all [Sign.kind]
  obtain ⟨x, hx, b, hb, hchanges⟩ := exists_changes_hunks hkind hmem
  obtain ⟨-, _, _, _, _, hchain, hk, hl⟩ := (covers_hunks old new).exists_of_mem hx
  obtain ⟨_, _, k', l', hspans, hk', hl'⟩ := hchain.exists_of_mem hb
  have hiff := exists_sign_iff (by omega) (by omega) hspans sign
  rw [if_neg hsign] at hiff
  obtain ⟨line, hline⟩ := hiff.mpr hchanges
  refine h _ (List.mem_map_of_mem hx) line ?_
  rw [x.body_shown]
  exact List.mem_flatMap.mpr ⟨b, hb, hline⟩

theorem toUTF8_of_fromUTF8? {bytes : ByteArray} {text : String}
    (h : String.fromUTF8? bytes = some text) : text.toUTF8 = bytes := by
  unfold String.fromUTF8? at h
  split at h
  · cases h
    rfl
  · cases h

theorem linesOf_injective {a b : String} (h : linesOf a = linesOf b) : a = b := by
  rw [← join_linesOf a, h, join_linesOf]

/-- Every hunk of the patch, beside the one with the ranges that are right. -/
theorem exists_exact (old new : List Line) : ∃ exact, replay? old exact = some new
    ∧ List.Forall₂ (Shown.Corrects (Untouched · (shownHunks old new))) (shownHunks old new)
      exact := by
  obtain ⟨exact, happly, hexact⟩ := replayFrom?_covers (covers_hunks old new) rfl rfl
  have hboth := (List.forall₂_and_left _ _).mpr
    ⟨fun x (hx : x ∈ hunks old new) => alternate_of_mem_hunks hx, hexact⟩
  refine ⟨exact, happly, List.forall₂_map_left_iff.mpr (hboth.imp fun x e h => ?_)⟩
  exact corrects_of_exact (not_mem_kinds_of_untouched .removed nofun)
    (not_mem_kinds_of_untouched .added nofun) h.1 h.2

/-- Where every hunk can be relied on for both sides, the ranges are right as they are. -/
theorem eq_exact {hs exact : List Shown} {unchanged : Sign → Prop}
    (h : List.Forall₂ (Shown.Corrects unchanged) hs exact)
    (hsure : ∀ h ∈ hs, ∀ sign, sign ≠ .context → unchanged sign ∨ h.Sure sign) : exact = hs := by
  induction h with
  | nil => rfl
  | @cons h e hs exact hcorrects _ ih =>
    have hfirst := hsure h (List.mem_cons_self ..)
    have hold := hcorrects.old (hfirst .removed nofun)
    have hnew := hcorrects.new (hfirst .added nofun)
    have hbody := hcorrects.body
    obtain ⟨old, new, body⟩ := e
    cases hold
    cases hnew
    cases hbody
    rw [ih fun h' hh' => hsure h' (List.mem_cons_of_mem _ hh')]

/-- The patch of two texts that differ names them, and shows at least one hunk. -/
theorem patchText_eq (name : String) {old new : ByteArray} {a b : String}
    (hold : String.fromUTF8? old = some a) (hnew : String.fromUTF8? new = some b)
    (hne : old ≠ new) :
    shownHunks (linesOf a) (linesOf b) ≠ [] ∧ patchText name old new
      = "--- a/" ++ name ++ "\n+++ b/" ++ name ++ "\n"
        ++ String.join ((shownHunks (linesOf a) (linesOf b)).map Shown.text) := by
  have hlines : linesOf a ≠ linesOf b := by
    intro heq
    rw [← toUTF8_of_fromUTF8? hold, ← toUTF8_of_fromUTF8? hnew, linesOf_injective heq] at hne
    exact hne rfl
  refine ⟨?_, ?_⟩
  · rw [shownHunks, Ne, List.map_eq_nil_iff]
    exact fun hnil => hlines (eq_of_hunks_eq_nil hnil)
  · simp only [patchText, hold, hnew]
    rw [unifiedText_eq _ _ hlines]
    simp only [String.append_assoc]
    rfl

theorem readPatch?_shownHunks (a b : String) :
    readPatch? (String.join ((shownHunks (linesOf a) (linesOf b)).map Shown.text))
      = some (shownHunks (linesOf a) (linesOf b)) := by
  refine readPatch?_join fun h hh => ?_
  obtain ⟨x, -, rfl⟩ := List.mem_map.mp hh
  exact lawful_shown (fun _ => ended_or_unended) fun _ => ended_or_unended

/-- What is shown by the patch of two texts behind the lines that name them. The
hunks turn the old text into the new one, byte for byte, with ranges that are right
where the headers can be relied on (`corrects`). -/
structure Replays (old new : ByteArray) (body : String) (hs exact : List Shown) : Prop where
  read : readPatch? body = some hs
  nonempty : hs ≠ []
  patched : patched? old exact = some new
  corrects : List.Forall₂ (Shown.Corrects (Untouched · hs)) hs exact
  opening : ∀ h ∈ hs.tail, h.opening = []
  closing : ∀ h ∈ hs.dropLast, h.closing = []
  relied : (∀ h ∈ hs, ∀ sign, sign ≠ .context → Untouched sign hs ∨ h.Sure sign) →
    patched? old hs = some new

/-- The patch of two texts that differ turns the one into the other, and states where,
except for hunks that begin or end with changes of one side alone. -/
theorem patch_replays (name : String) {old new : ByteArray} {a b : String}
    (hold : String.fromUTF8? old = some a) (hnew : String.fromUTF8? new = some b)
    (hne : old ≠ new) :
    ∃ body hs exact,
      patchText name old new = "--- a/" ++ name ++ "\n+++ b/" ++ name ++ "\n" ++ body
        ∧ Replays old new body hs exact := by
  obtain ⟨hnonempty, htext⟩ := patchText_eq name hold hnew hne
  obtain ⟨exact, happly, hcorrects⟩ := exists_exact (linesOf a) (linesOf b)
  have hpatched : patched? old exact = some new := by
    rw [patched?, hold, Option.bind_some, happly, Option.map_some, join_linesOf,
      toUTF8_of_fromUTF8? hnew]
  refine ⟨_, _, exact, htext, readPatch?_shownHunks a b, hnonempty, hpatched, hcorrects, ?_, ?_,
    fun hsure => ?_⟩
  · intro h hh
    rw [shownHunks, ← List.map_tail] at hh
    obtain ⟨x, hx, rfl⟩ := List.mem_map.mp hh
    have hmem := List.mem_of_mem_tail hx
    obtain ⟨hne, _, _, _, _, hchain, hk, hl⟩ := (covers_hunks _ _).exists_of_mem hmem
    exact opening_eq_nil hk hl hchain (alternate_of_mem_hunks hmem) hne
      (startsWith_of_mem_tail _ _ x hx)
  · intro h hh
    rw [shownHunks, ← List.map_dropLast] at hh
    obtain ⟨x, hx, rfl⟩ := List.mem_map.mp hh
    have hmem := List.dropLast_subset _ hx
    obtain ⟨hne, _, _, _, _, hchain, hk, hl⟩ := (covers_hunks _ _).exists_of_mem hmem
    exact closing_eq_nil hk hl hchain (alternate_of_mem_hunks hmem) hne
      (startsWith_of_mem_dropLast _ _ x hx)
  · rw [← eq_exact hcorrects hsure]
    exact hpatched

/-- Texts with every kind of break, one of them without a break at its end. -/
theorem mixed_breaks_replay :
    String.fromUTF8? "a\r\nb\rc\nd".toUTF8 = some "a\r\nb\rc\nd"
      ∧ String.fromUTF8? "a\nb\rd\n".toUTF8 = some "a\nb\rd\n"
      ∧ "a\r\nb\rc\nd".toUTF8 ≠ "a\nb\rd\n".toUTF8
      ∧ ∃ body hs exact,
        patchText "lib/f.txt" "a\r\nb\rc\nd".toUTF8 "a\nb\rd\n".toUTF8
            = "--- a/" ++ "lib/f.txt" ++ "\n+++ b/" ++ "lib/f.txt" ++ "\n" ++ body
          ∧ Replays "a\r\nb\rc\nd".toUTF8 "a\nb\rd\n".toUTF8 body hs exact := by
  have hold : String.fromUTF8? "a\r\nb\rc\nd".toUTF8 = some "a\r\nb\rc\nd" := by decide +kernel
  have hnew : String.fromUTF8? "a\nb\rd\n".toUTF8 = some "a\nb\rd\n" := by decide +kernel
  have hne : "a\r\nb\rc\nd".toUTF8 ≠ "a\nb\rd\n".toUTF8 := by decide +kernel
  exact ⟨hold, hnew, hne, patch_replays "lib/f.txt" hold hnew hne⟩

/-- The insertion passes the deletion and slides past the line behind it. The positions
on the other sides do not follow, so the header tells of one old line where there are
two, and of the second new line alone. -/
theorem slid_insertion_misleads :
    patchText "lib/f.txt" "x\na\n".toUTF8 "a\na\n".toUTF8
        = "--- a/lib/f.txt\n+++ b/lib/f.txt\n@@ -1 +2 @@\n-x\n a\n+a\n"
      ∧ readPatch? "@@ -1 +2 @@\n-x\n a\n+a\n"
        = some [⟨⟨1, 1⟩, ⟨2, 1⟩, [(.removed, "x\n"), (.context, "a\n"), (.added, "a\n")]⟩]
      ∧ patched? "x\na\n".toUTF8
        [⟨⟨1, 1⟩, ⟨2, 1⟩, [(.removed, "x\n"), (.context, "a\n"), (.added, "a\n")]⟩] = none := by
  decide +kernel

end Vendoring.Patch
