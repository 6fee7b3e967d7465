import Mathlib.Data.List.Chain
import Vendoring.Proofs.Patch.Editing

/-!
# Blocks and hunks

Joining pieces to blocks keeps the chain of positions (`chain_blocks`), and kept
blocks alternate with changes. A change states the position of a side on which it
has lines as it is; on a side without lines it may state one that is out of date
(`Settles`).

Cutting the blocks into hunks leaves out kept lines only (`Covers`). What is left of
the kept lines stands at the beginning of every hunk but the first and at the end of
every hunk but the last, so a change can open the first hunk only and close the last
one only.
-/

namespace Vendoring.Patch

variable {old new : List Line} {D I : Prop} {i j k l m n : Nat}

/-! ## Joining pieces -/

/-- The stated position `x` is the position `i`, unless there are none of the `n`
lines here and some elsewhere. -/
def Settles (elsewhere : Prop) (x i n : Nat) : Prop := x = i ∨ n = 0 ∧ elsewhere

/-- A block leads from its positions past its lines. -/
inductive Block.Spans (old new : List Line) (D I : Prop) :
    Block → Nat → Nat → Nat → Nat → Prop
  | kept {i j n : Nat} (hn : 0 < n) (h : Agrees old new i j n) :
      Spans old new D I (keptBlock i j n) i j (i + n) (j + n)
  | change {i j x y n m : Nat} (hsome : 0 < n + m) (hx : Settles D x i n) (hy : Settles I y j m) :
      Spans old new D I ⟨false, x, n, y, m⟩ i j (i + n) (j + m)

abbrev BlockChain (old new : List Line) (D I : Prop) : List Block → Nat → Nat → Nat → Nat → Prop :=
  Chain (Block.Spans old new D I)

/-- The changes under way lead from one pair of positions to another. -/
inductive Pending.Spans (D I : Prop) : Pending → Nat → Nat → Nat → Nat → Prop
  | none (i j : Nat) : Spans D I {} i j i j
  | deleted {i j y n : Nat} (hn : 0 < n) (hD : D) (hy : I ∨ y = j) :
      Spans D I ⟨some (i, y, n), .none⟩ i j (i + n) j
  | inserted {i j x m : Nat} (hm : 0 < m) (hI : I) (hx : D ∨ x = i) :
      Spans D I ⟨.none, some (x, j, m)⟩ i j i (j + m)
  | both {i j x y n m : Nat} (hn : 0 < n) (hD : D) (hI : I) :
      Spans D I ⟨some (i, y, n), some (x, j, m)⟩ i j (i + n) (j + m)

theorem Pending.Spans.add {c : Pending} {p : Piece} {i' j' : Nat} (hkind : p.kind ≠ .keep)
    (hc : c.Spans D I i j i' j') (hp : p.Spans old new D I i' j' k l) :
    (c.add p).Spans D I i j k l := by
  cases hp with
  | keep => exact absurd rfl hkind
  | delete hn _ hD hy =>
    cases hc with
    | none => exact .deleted hn hD hy
    | deleted hn' _ hy' =>
      rw [Nat.add_assoc]
      exact .deleted (Nat.add_pos_left hn' _) hD hy'
    | inserted _ hI _ => exact .both hn hD hI
    | both hn' _ hI =>
      rw [Nat.add_assoc]
      exact .both (Nat.add_pos_left hn' _) hD hI
  | insert hm _ hI hx =>
    cases hc with
    | none => exact .inserted hm hI hx
    | deleted hn hD _ => exact .both hn hD hI
    | inserted hm' _ hx' =>
      rw [Nat.add_assoc]
      exact .inserted (Nat.add_pos_left hm' _) hI hx'
    | both hn hD _ =>
      rw [Nat.add_assoc]
      exact .both hn hD hI

theorem Pending.Spans.blocks {c : Pending} (h : c.Spans D I i j k l) :
    BlockChain old new D I c.blocks i j k l := by
  cases h with
  | none => exact .nil _ _
  | deleted hn _ hy =>
    exact Chain.singleton_iff.mpr (.change (by omega) (Or.inl rfl)
      (hy.elim (fun hI => Or.inr ⟨rfl, hI⟩) Or.inl))
  | inserted hm _ hx =>
    exact Chain.singleton_iff.mpr (.change (by omega)
      (hx.elim (fun hD => Or.inr ⟨rfl, hD⟩) Or.inl) (Or.inl rfl))
  | both hn _ _ =>
    exact Chain.singleton_iff.mpr (.change (by omega) (Or.inl rfl) (Or.inl rfl))

theorem blocksFrom_cons_of_change {p : Piece} (h : p.kind ≠ .keep)
    (kept : Option (Nat × Nat × Nat)) (c : Pending) (ps : List Piece) :
    blocksFrom kept c (p :: ps) = blocksFrom.keptBlocks kept ++ blocksFrom none (c.add p) ps := by
  obtain ⟨kind, x, y, n⟩ := p
  cases kind with
  | keep => exact absurd rfl h
  | delete => rfl
  | insert => rfl

/-- What is under way between pieces and blocks: kept lines or changes. -/
inductive UnderWay (old new : List Line) (D I : Prop) :
    Option (Nat × Nat × Nat) → Pending → Nat → Nat → Nat → Nat → Prop
  | kept {i j n : Nat} (hn : 0 < n) (h : Agrees old new i j n) :
      UnderWay old new D I (some (i, j, n)) {} i j (i + n) (j + n)
  | changes {c : Pending} {i j i' j' : Nat} (h : c.Spans D I i j i' j') :
      UnderWay old new D I none c i j i' j'

theorem chain_blocksFrom {kept : Option (Nat × Nat × Nat)} {c : Pending} {ps : List Piece}
    {i' j' : Nat} (h : UnderWay old new D I kept c i j i' j')
    (hps : PieceChain old new D I ps i' j' k l) :
    BlockChain old new D I (blocksFrom kept c ps) i j k l := by
  induction ps generalizing kept c i j i' j' with
  | nil =>
    cases hps
    cases h with
    | kept hn h => exact Chain.singleton_iff.mpr (.kept hn h)
    | changes h => exact h.blocks
  | cons p ps ih =>
    cases hps with
    | cons hp hps =>
      by_cases hkind : p.kind = .keep
      · cases hp with
        | delete => cases hkind
        | insert => cases hkind
        | keep hn' hkeep =>
          cases h with
          | kept hn h =>
            rw [Nat.add_assoc, Nat.add_assoc] at hps
            exact ih (.kept (by omega) (agrees_add_iff.mpr ⟨h, hkeep⟩)) hps
          | changes h => exact Chain.append_iff.mpr ⟨_, _, h.blocks, ih (.kept hn' hkeep) hps⟩
      · rw [blocksFrom_cons_of_change hkind]
        cases h with
        | kept hn h =>
          exact .cons (.kept hn h) (ih (.changes ((Pending.Spans.none _ _).add hkind hp)) hps)
        | changes h => exact ih (.changes (h.add hkind hp)) hps

/-- The blocks lead from the beginning of both lists to their ends. -/
theorem chain_blocks (old new : List Line) :
    BlockChain old new (.delete ∈ (pieces old new).map Piece.kind)
      (.insert ∈ (pieces old new).map Piece.kind) (blocks old new) 0 0 old.length new.length :=
  chain_blocksFrom (.changes (.none 0 0)) (chain_pieces old new)

theorem BlockChain.le {bs : List Block} (h : BlockChain old new D I bs i j k l) :
    i ≤ k ∧ j ≤ l := by
  induction h with
  | nil => exact ⟨Nat.le_refl _, Nat.le_refl _⟩
  | cons hb _ ih => cases hb <;> omega

/-! ## Kept blocks alternate with changes -/

def Alternate (bs : List Block) : Prop := (bs.map Block.kept).IsChain (· ≠ ·)

theorem Pending.blocks_eq_nil_or (c : Pending) :
    c.blocks = [] ∨ ∃ b, c.blocks = [b] ∧ b.kept = false := by
  unfold blocks
  split
  · exact Or.inr ⟨_, rfl, rfl⟩
  · exact Or.inr ⟨_, rfl, rfl⟩
  · exact Or.inr ⟨_, rfl, rfl⟩
  · exact Or.inl rfl

theorem Pending.blocks_add_ne_nil {p : Piece} (h : p.kind ≠ .keep) (c : Pending) :
    (c.add p).blocks ≠ [] := by
  obtain ⟨kind, x, y, n⟩ := p
  obtain ⟨_ | _, _ | _⟩ := c <;> cases kind <;> first | exact absurd rfl h | exact nofun

theorem alternate_cons_iff {b : Block} {bs : List Block} :
    Alternate (b :: bs) ↔ (∀ b' ∈ bs.head?, b.kept ≠ b'.kept) ∧ Alternate bs := by
  unfold Alternate
  rw [List.map_cons, List.isChain_cons, List.head?_map]
  refine and_congr_left fun _ => ?_
  cases bs.head? <;> simp

/-- The first of the blocks is a kept one, or is none, as `flag` tells. -/
def StartsWith (flag : Bool) (bs : List Block) : Prop := ∀ b ∈ bs.head?, b.kept = flag

theorem alternate_cons {b : Block} {bs : List Block} (hstart : StartsWith (!b.kept) bs)
    (h : Alternate bs) : Alternate (b :: bs) := by
  refine alternate_cons_iff.mpr ⟨fun b' hb' heq => ?_, h⟩
  rw [hstart b' hb'] at heq
  cases hb : b.kept <;> simp [hb] at heq

/-- Behind kept lines come changes, and behind changes kept lines. -/
theorem alternate_blocksFrom (kept : Option (Nat × Nat × Nat)) (c : Pending)
    (h : kept = none ∨ c = {}) (ps : List Piece) :
    Alternate (blocksFrom kept c ps) ∧ (kept ≠ none → StartsWith true (blocksFrom kept c ps))
      ∧ (c.blocks ≠ [] → StartsWith false (blocksFrom kept c ps)) := by
  induction ps generalizing kept c with
  | nil =>
    rcases kept with _ | t
    · show Alternate c.blocks ∧ _ ∧ (_ → StartsWith false c.blocks)
      rcases c.blocks_eq_nil_or with hnil | ⟨b, hb, hkept⟩
      · rw [hnil]
        exact ⟨.nil, fun hne => absurd rfl hne, fun hne => absurd rfl hne⟩
      · rw [hb]
        exact ⟨.singleton _, fun hne => absurd rfl hne,
          fun _ _ heq => Option.some.inj heq ▸ hkept⟩
    · rw [h.resolve_left nofun]
      exact ⟨.singleton _, fun _ _ heq => Option.some.inj heq ▸ rfl, fun hne => absurd rfl hne⟩
  | cons p ps ih =>
    by_cases hkind : p.kind = .keep
    · obtain ⟨kind, x, y, n⟩ := p
      cases hkind
      rcases kept with _ | ⟨x', y', n'⟩
      · show Alternate (c.blocks ++ blocksFrom (some (x, y, n)) {} ps) ∧ _
          ∧ (_ → StartsWith false (c.blocks ++ blocksFrom (some (x, y, n)) {} ps))
        obtain ⟨halternate, hstart, -⟩ := ih (some (x, y, n)) {} (Or.inr rfl)
        rcases c.blocks_eq_nil_or with hnil | ⟨b, hb, hkept⟩
        · rw [hnil]
          exact ⟨halternate, fun hne => absurd rfl hne, fun hne => absurd rfl hne⟩
        · rw [hb]
          refine ⟨alternate_cons ?_ halternate, fun hne => absurd rfl hne,
            fun _ _ heq => Option.some.inj heq ▸ hkept⟩
          rw [hkept]
          exact hstart nofun
      · rw [h.resolve_left nofun]
        obtain ⟨halternate, hstart, -⟩ := ih (some (x', y', n' + n)) {} (Or.inr rfl)
        exact ⟨halternate, fun _ => hstart nofun, fun hne => absurd rfl hne⟩
    · rw [blocksFrom_cons_of_change hkind]
      obtain ⟨halternate, -, hstart⟩ := ih none (c.add p) (Or.inl rfl)
      have hstart := hstart (c.blocks_add_ne_nil hkind)
      rcases kept with _ | t
      · exact ⟨halternate, fun hne => absurd rfl hne, fun _ => hstart⟩
      · rw [h.resolve_left nofun] at halternate hstart ⊢
        exact ⟨alternate_cons hstart halternate, fun _ _ heq => Option.some.inj heq ▸ rfl,
          fun hne => absurd rfl hne⟩

theorem alternate_blocks (old new : List Line) : Alternate (blocks old new) :=
  (alternate_blocksFrom none {} (Or.inl rfl) _).1

/-! ## No change is lost -/

/-- How many lines a block has of a kind of change. -/
def Block.size (kind : PieceKind) (b : Block) : Nat :=
  match kind with
  | .keep => 0
  | .delete => b.oldCount
  | .insert => b.newCount

def Block.Changes (kind : PieceKind) (b : Block) : Prop := b.kept = false ∧ 0 < b.size kind

/-- How many lines of a kind of change are under way. -/
def Pending.size (kind : PieceKind) (c : Pending) : Nat :=
  match kind with
  | .keep => 0
  | .delete => (c.deleted.map (·.2.2)).getD 0
  | .insert => (c.inserted.map (·.2.2)).getD 0

theorem Pending.size_add {kind : PieceKind} (hkind : kind ≠ .keep) (p : Piece) (c : Pending) :
    (c.add p).size kind = c.size kind + if p.kind = kind then p.count else 0 := by
  obtain ⟨moved, x, y, n⟩ := p
  obtain ⟨_ | _, _ | _⟩ := c <;> cases moved <;> cases kind <;> simp_all [add, size]

theorem Pending.exists_changes {kind : PieceKind} {c : Pending} (h : 0 < c.size kind) :
    ∃ b ∈ c.blocks, b.Changes kind := by
  obtain ⟨deleted, inserted⟩ := c
  cases kind with
  | keep => exact absurd h (Nat.lt_irrefl 0)
  | delete =>
    cases deleted with
    | none => exact absurd h (Nat.lt_irrefl 0)
    | some => cases inserted <;> exact ⟨_, List.mem_singleton.mpr rfl, rfl, h⟩
  | insert =>
    cases inserted with
    | none => exact absurd h (Nat.lt_irrefl 0)
    | some => cases deleted <;> exact ⟨_, List.mem_singleton.mpr rfl, rfl, h⟩

theorem exists_changes_blocksFrom {kind : PieceKind} (hkind : kind ≠ .keep)
    (kept : Option (Nat × Nat × Nat)) (c : Pending) {ps : List Piece} (hps : ∀ p ∈ ps, 0 < p.count)
    (h : 0 < c.size kind ∨ kind ∈ ps.map Piece.kind) :
    ∃ b ∈ blocksFrom kept c ps, b.Changes kind := by
  induction ps generalizing kept c with
  | nil =>
    obtain ⟨b, hb, hchanges⟩ := Pending.exists_changes (h.resolve_right List.not_mem_nil)
    exact ⟨b, List.mem_append_right _ hb, hchanges⟩
  | cons p ps ih =>
    have hps' : ∀ p ∈ ps, 0 < p.count := fun p hp => hps p (List.mem_cons_of_mem _ hp)
    rw [List.map_cons, List.mem_cons] at h
    by_cases hp : p.kind = .keep
    · have hrest : 0 < c.size kind ∨ kind ∈ ps.map Piece.kind :=
        h.imp_right fun h => h.resolve_left fun heq => hkind (heq.trans hp)
      obtain ⟨moved, x, y, n⟩ := p
      cases hp
      rcases kept with _ | ⟨x', y', n'⟩
      · show ∃ b ∈ c.blocks ++ blocksFrom (some (x, y, n)) {} ps, _
        rcases hrest with hrest | hrest
        · obtain ⟨b, hb, hchanges⟩ := Pending.exists_changes hrest
          exact ⟨b, List.mem_append_left _ hb, hchanges⟩
        · obtain ⟨b, hb, hchanges⟩ := ih (some (x, y, n)) {} hps' (Or.inr hrest)
          exact ⟨b, List.mem_append_right _ hb, hchanges⟩
      · exact ih (some (x', y', n' + n)) c hps' hrest
    · rw [blocksFrom_cons_of_change hp]
      have hrest : 0 < (c.add p).size kind ∨ kind ∈ ps.map Piece.kind := by
        rw [Pending.size_add hkind]
        rcases h with h | rfl | h
        · exact Or.inl (Nat.add_pos_left h _)
        · rw [if_pos rfl]
          exact Or.inl (Nat.add_pos_right _ (hps p (List.mem_cons_self ..)))
        · exact Or.inr h
      obtain ⟨b, hb, hchanges⟩ := ih none (c.add p) hps' hrest
      exact ⟨b, List.mem_append_right _ hb, hchanges⟩

theorem PieceChain.count_pos {ps : List Piece} (h : PieceChain old new D I ps i j k l) :
    ∀ p ∈ ps, 0 < p.count := by
  induction h with
  | nil => exact nofun
  | cons hp _ ih =>
    intro p hmem
    rcases List.mem_cons.mp hmem with rfl | hmem
    · cases hp <;> assumption
    · exact ih p hmem

theorem exists_changes_blocks {kind : PieceKind} (hkind : kind ≠ .keep)
    (h : kind ∈ (pieces old new).map Piece.kind) : ∃ b ∈ blocks old new, b.Changes kind :=
  exists_changes_blocksFrom hkind none {} (PieceChain.count_pos (chain_pieces old new)) (Or.inr h)

/-! ## Trimming -/

@[simp] theorem Block.kept_firstLines (b : Block) (n : Nat) : (b.firstLines n).kept = b.kept := by
  unfold firstLines
  split
  · next h => exact h.symm
  · rfl

@[simp] theorem Block.kept_lastLines (b : Block) (n : Nat) : (b.lastLines n).kept = b.kept := by
  unfold lastLines
  simp only
  split
  · next h => exact h.symm
  · rfl

theorem Block.firstLines_of_change {b : Block} (h : b.kept = false) (n : Nat) :
    b.firstLines n = b := by
  rw [firstLines, h]
  rfl

theorem Block.lastLines_of_change {b : Block} (h : b.kept = false) (n : Nat) :
    b.lastLines n = b := by
  rw [lastLines, h]
  rfl

theorem Agrees.part {g : Nat} (h : Agrees old new i j n) (hle : g + m ≤ n) :
    Agrees old new (i + g) (j + g) m := by
  rw [← Nat.add_sub_of_le hle] at h
  exact (agrees_add_iff.mp (agrees_add_iff.mp h).1).2

theorem firstLines_keptBlock (i j n m : Nat) :
    (keptBlock i j n).firstLines m = keptBlock i j (min n m) := rfl

theorem lastLines_keptBlock (i j n m : Nat) : (keptBlock i j n).lastLines m
    = keptBlock (i + (n - m)) (j + (n - m)) (n - (n - m)) := rfl

theorem agrees_zero (hi : i ≤ old.length) (hj : j ≤ new.length) : Agrees old new i j 0 :=
  ⟨hi, hj, rfl⟩

theorem spans_lastLines {b : Block} {i' j' : Nat} (hi : i ≤ old.length) (hj : j ≤ new.length)
    (h : b.Spans old new D I i j i' j') :
    ∃ g, Agrees old new i j g
      ∧ (b.lastLines radius).Spans old new D I (i + g) (j + g) i' j' := by
  cases h with
  | @kept _ _ n hn h =>
    have hspans := Block.Spans.kept (D := D) (I := I)
      (show 0 < n - (n - radius) by unfold radius; omega)
      (h.part (g := n - radius) (m := n - (n - radius)) (by omega))
    refine ⟨n - radius, h.part (g := 0) (by omega), ?_⟩
    rwa [lastLines_keptBlock, show i + n = i + (n - radius) + (n - (n - radius)) by omega,
      show j + n = j + (n - radius) + (n - (n - radius)) by omega]
  | change hsome hx hy => exact ⟨0, agrees_zero hi hj, .change hsome hx hy⟩

theorem spans_firstLines {b : Block} {i' j' : Nat} (hi : i' ≤ old.length) (hj : j' ≤ new.length)
    (h : b.Spans old new D I i j i' j') :
    ∃ k l g, (b.firstLines radius).Spans old new D I i j k l ∧ Agrees old new k l g
      ∧ k + g = i' ∧ l + g = j' := by
  cases h with
  | @kept _ _ n hn h =>
    rw [firstLines_keptBlock]
    exact ⟨_, _, n - min n radius,
      .kept (show 0 < min n radius by unfold radius; omega) (h.part (g := 0) (by omega)),
      h.part (by omega), by omega, by omega⟩
  | change hsome hx hy =>
    exact ⟨_, _, 0, .change hsome hx hy, agrees_zero hi hj, rfl, rfl⟩

/-- A long kept block has first lines, last lines and a gap between them. -/
theorem spans_cut {b : Block} {i' j' : Nat} (hlong : b.kept && 2 * radius < b.oldCount)
    (h : b.Spans old new D I i j i' j') :
    ∃ k l g, (b.firstLines radius).Spans old new D I i j k l ∧ Agrees old new k l g
      ∧ (b.lastLines radius).Spans old new D I (k + g) (l + g) i' j' := by
  obtain ⟨hkept, hlong⟩ := Bool.and_eq_true_iff.mp hlong
  have hlong : 2 * radius < b.oldCount := of_decide_eq_true hlong
  cases h with
  | change => cases hkept
  | @kept _ _ n hn h =>
    have hlong : 2 * radius < n := hlong
    have hradius : 0 < radius := by decide
    refine ⟨i + radius, j + radius, n - 2 * radius, ?_, h.part (by omega), ?_⟩
    · rw [firstLines_keptBlock, Nat.min_eq_right (by omega)]
      exact .kept hradius (h.part (g := 0) (by omega))
    · rw [lastLines_keptBlock, Nat.sub_sub_self (by omega),
        show i + radius + (n - 2 * radius) = i + (n - radius) by omega,
        show j + radius + (n - 2 * radius) = j + (n - radius) by omega,
        show i + n = i + (n - radius) + radius by omega,
        show j + n = j + (n - radius) + radius by omega]
      exact .kept hradius (h.part (by omega))

theorem chain_trimFirst {bs : List Block} (hi : i ≤ old.length) (hj : j ≤ new.length)
    (h : BlockChain old new D I bs i j k l) :
    ∃ g, Agrees old new i j g ∧ BlockChain old new D I (trimFirst bs) (i + g) (j + g) k l := by
  cases h with
  | nil => exact ⟨0, agrees_zero hi hj, .nil _ _⟩
  | cons hb hrest =>
    obtain ⟨g, hgap, hlast⟩ := spans_lastLines hi hj hb
    exact ⟨g, hgap, .cons hlast hrest⟩

theorem trimLast_concat (bs : List Block) (b : Block) :
    trimLast (bs ++ [b]) = bs ++ [b.firstLines radius] := by
  unfold trimLast
  rw [List.getLast?_concat]
  simp only [List.dropLast_concat]

theorem chain_trimLast {bs : List Block} (hk : k ≤ old.length) (hl : l ≤ new.length)
    (h : BlockChain old new D I bs i j k l) :
    ∃ i' j' g, BlockChain old new D I (trimLast bs) i j i' j' ∧ Agrees old new i' j' g
      ∧ i' + g = k ∧ j' + g = l := by
  rcases List.eq_nil_or_concat bs with rfl | ⟨bs, b, rfl⟩
  · exact ⟨k, l, 0, h, agrees_zero hk hl, rfl, rfl⟩
  · rw [List.concat_eq_append] at h ⊢
    obtain ⟨i', j', hbs, hb⟩ := Chain.append_iff.mp h
    obtain ⟨k', l', g, hfirst, hgap, hends⟩ := spans_firstLines hk hl (Chain.singleton_iff.mp hb)
    rw [trimLast_concat]
    exact ⟨k', l', g, Chain.append_iff.mpr ⟨i', j', hbs, Chain.singleton_iff.mpr hfirst⟩, hgap,
      hends⟩

theorem kept_trimFirst (bs : List Block) :
    (trimFirst bs).map Block.kept = bs.map Block.kept := by
  cases bs <;> simp [trimFirst]

theorem kept_trimLast (bs : List Block) :
    (trimLast bs).map Block.kept = bs.map Block.kept := by
  rcases List.eq_nil_or_concat bs with rfl | ⟨bs, b, rfl⟩
  · rfl
  · rw [List.concat_eq_append, trimLast_concat]
    simp

theorem mem_trimFirst {b : Block} {bs : List Block} (hb : b.kept = false) (h : b ∈ bs) :
    b ∈ trimFirst bs := by
  cases bs with
  | nil => cases h
  | cons b' bs =>
    rcases List.mem_cons.mp h with rfl | h
    · rw [trimFirst, Block.lastLines_of_change hb]
      exact List.mem_cons_self ..
    · exact List.mem_cons_of_mem _ h

theorem mem_trimLast {b : Block} {bs : List Block} (hb : b.kept = false) (h : b ∈ bs) :
    b ∈ trimLast bs := by
  rcases List.eq_nil_or_concat bs with rfl | ⟨bs, b', rfl⟩
  · cases h
  · rw [List.concat_eq_append] at h ⊢
    rw [trimLast_concat]
    rcases List.mem_append.mp h with h | h
    · exact List.mem_append_left _ h
    · rw [← List.mem_singleton.mp h, Block.firstLines_of_change hb]
      exact List.mem_append_right _ (List.mem_cons_self ..)

/-! ## Cutting into hunks -/

/-- The hunks lead from one pair of positions to another, with kept lines in front of
each of them and behind the last one. -/
inductive Covers (old new : List Line) (D I : Prop) : List Hunk → Nat → Nat → Nat → Nat → Prop
  | gap {i j g : Nat} (h : Agrees old new i j g) : Covers old new D I [] i j (i + g) (j + g)
  | hunk {x : Hunk} {hs : List Hunk} {i j g i' j' k l : Nat} (hgap : Agrees old new i j g)
      (hne : x ≠ []) (hx : BlockChain old new D I x (i + g) (j + g) i' j')
      (hrest : Covers old new D I hs i' j' k l) : Covers old new D I (x :: hs) i j k l

section Cutting

variable {current bs : List Block}

/-- In the end the hunk under way is shown, unless it is empty or holds kept lines
alone. -/
theorem groupFrom_nil (current : List Block) :
    groupFrom current [] = [current.reverse] ∧ current ≠ []
      ∨ groupFrom current [] = [] ∧ ∀ b ∈ current, current = [b] ∧ b.kept = true := by
  unfold groupFrom
  split
  · exact Or.inr ⟨rfl, fun b hb => absurd hb List.not_mem_nil⟩
  · next b =>
    split
    · next hkept =>
      refine Or.inr ⟨rfl, fun b' hb' => ?_⟩
      rw [List.mem_singleton.mp hb']
      exact ⟨rfl, hkept⟩
    · exact Or.inl ⟨rfl, List.cons_ne_nil _ _⟩
  · next hnil _ => exact Or.inl ⟨rfl, hnil⟩

theorem eq_of_mem_groupFrom_nil {x : Hunk} (h : x ∈ groupFrom current []) :
    x = current.reverse := by
  rcases groupFrom_nil current with ⟨hlast, -⟩ | ⟨hnone, -⟩
  · rw [hlast] at h
    exact List.mem_singleton.mp h
  · rw [hnone] at h
    cases h

theorem covers_groupFrom (current : List Block) {i' j' g g' : Nat} (hgap : Agrees old new i j g)
    (hcurrent : BlockChain old new D I current.reverse (i + g) (j + g) i' j')
    (hbs : BlockChain old new D I bs i' j' k l) (hend : Agrees old new k l g') :
    Covers old new D I (groupFrom current bs) i j (k + g') (l + g') := by
  induction bs generalizing current i j i' j' g with
  | nil =>
    cases hbs
    rcases groupFrom_nil current with ⟨hlast, hne⟩ | ⟨hnone, hkept⟩
    · rw [hlast]
      exact .hunk hgap (fun heq => hne (List.reverse_eq_nil_iff.mp heq)) hcurrent (.gap hend)
    rw [hnone]
    cases current with
    | nil =>
      cases hcurrent
      rw [Nat.add_assoc, Nat.add_assoc]
      exact .gap (agrees_add_iff.mpr ⟨hgap, hend⟩)
    | cons b rest =>
      obtain ⟨hsingle, hflag⟩ := hkept b (List.mem_cons_self ..)
      cases hsingle
      cases Chain.singleton_iff.mp hcurrent with
      | change => cases hflag
      | kept _ hb =>
        have hall := agrees_add_iff.mpr ⟨hgap, agrees_add_iff.mpr ⟨hb, hend⟩⟩
        simpa only [Nat.add_assoc] using Covers.gap (D := D) (I := I) hall
  | cons b bs ih =>
    cases hbs with
    | cons hb hbs =>
      rw [groupFrom]
      split
      · next hlong =>
        obtain ⟨k', l', g'', hfirst, hmiddle, hlast⟩ := spans_cut hlong hb
        refine .hunk hgap (by simp) ?_ (ih _ hmiddle (Chain.singleton_iff.mpr hlast) hbs)
        rw [List.reverse_cons]
        exact Chain.append_iff.mpr ⟨_, _, hcurrent, Chain.singleton_iff.mpr hfirst⟩
      · refine ih _ hgap ?_ hbs
        rw [List.reverse_cons]
        exact Chain.append_iff.mpr ⟨_, _, hcurrent, Chain.singleton_iff.mpr hb⟩

theorem alternate_groupFrom (h : Alternate (current.reverse ++ bs)) :
    ∀ x ∈ groupFrom current bs, Alternate x := by
  induction bs generalizing current with
  | nil =>
    rw [List.append_nil] at h
    intro x hx
    rwa [eq_of_mem_groupFrom_nil hx]
  | cons b bs ih =>
    intro x hx
    rw [groupFrom] at hx
    split at hx
    · unfold Alternate at h
      rw [List.map_append] at h
      rcases List.mem_cons.mp hx with rfl | hx
      · rw [List.map_cons, ← List.singleton_append, ← List.append_assoc] at h
        have hfirst := h.left_of_append
        unfold Alternate
        rwa [List.reverse_cons, List.map_append, List.map_singleton, Block.kept_firstLines]
      · refine ih ?_ x hx
        have hrest := h.right_of_append
        unfold Alternate
        rwa [List.reverse_singleton, List.singleton_append, List.map_cons, Block.kept_lastLines]
    · refine ih ?_ x hx
      rwa [List.reverse_cons, List.append_assoc]

theorem startsWith_append {flag : Bool} {xs ys : List Block} (hne : xs ≠ [])
    (h : StartsWith flag xs) : StartsWith flag (xs ++ ys) := by
  cases xs with
  | nil => exact absurd rfl hne
  | cons => exact h

theorem startsWith_groupFrom (hne : current ≠ []) (h : StartsWith true current.reverse) :
    ∀ x ∈ groupFrom current bs, StartsWith true x := by
  have hne : current.reverse ≠ [] := fun heq => hne (List.reverse_eq_nil_iff.mp heq)
  induction bs generalizing current with
  | nil =>
    intro x hx
    rwa [eq_of_mem_groupFrom_nil hx]
  | cons b bs ih =>
    intro x hx
    rw [groupFrom] at hx
    split at hx
    · next hlong =>
      rcases List.mem_cons.mp hx with rfl | hx
      · rw [List.reverse_cons]
        exact startsWith_append hne h
      · refine ih (by simp) ?_ (by simp) x hx
        intro b' hb'
        rw [← Option.some.inj hb', Block.kept_lastLines]
        exact (Bool.and_eq_true_iff.mp hlong).1
    · refine ih (by simp) ?_ (by simp) x hx
      rw [List.reverse_cons]
      exact startsWith_append hne h

/-- Only the first hunk can begin with a change. -/
theorem startsWith_of_mem_tail (current bs : List Block) :
    ∀ x ∈ (groupFrom current bs).tail, StartsWith true x := by
  induction bs generalizing current with
  | nil =>
    intro x hx
    rcases groupFrom_nil current with ⟨hlast, -⟩ | ⟨hnone, -⟩
    · rw [hlast] at hx
      cases hx
    · rw [hnone] at hx
      cases hx
  | cons b bs ih =>
    intro x hx
    rw [groupFrom] at hx
    split at hx
    · next hlong =>
      refine startsWith_groupFrom (List.cons_ne_nil _ _) ?_ x hx
      intro b' hb'
      rw [← Option.some.inj hb', Block.kept_lastLines]
      exact (Bool.and_eq_true_iff.mp hlong).1
    · exact ih (b :: current) x hx

/-- Only the last hunk can end with a change. -/
theorem startsWith_of_mem_dropLast (current bs : List Block) :
    ∀ x ∈ (groupFrom current bs).dropLast, StartsWith true x.reverse := by
  induction bs generalizing current with
  | nil =>
    intro x hx
    rcases groupFrom_nil current with ⟨hlast, -⟩ | ⟨hnone, -⟩
    · rw [hlast] at hx
      cases hx
    · rw [hnone] at hx
      cases hx
  | cons b bs ih =>
    intro x hx
    rw [groupFrom] at hx
    split at hx
    · next hlong =>
      generalize hrest : groupFrom [b.lastLines radius] bs = rest at hx
      cases rest with
      | nil => cases hx
      | cons y rest =>
        rw [List.dropLast_cons_cons, ← hrest] at hx
        rcases List.mem_cons.mp hx with rfl | hx
        · rw [List.reverse_reverse]
          intro b' hb'
          rw [← Option.some.inj hb', Block.kept_firstLines]
          exact (Bool.and_eq_true_iff.mp hlong).1
        · exact ih _ x hx
    · exact ih (b :: current) x hx

/-- Every change is in some hunk. -/
theorem exists_mem_groupFrom (current : List Block) {b : Block} (hb : b.kept = false)
    (h : b ∈ current ∨ b ∈ bs) :
    ∃ x ∈ groupFrom current bs, b ∈ x := by
  induction bs generalizing current with
  | nil =>
    have h := h.resolve_right List.not_mem_nil
    rcases groupFrom_nil current with ⟨hlast, -⟩ | ⟨-, hkept⟩
    · rw [hlast]
      exact ⟨current.reverse, List.mem_singleton.mpr rfl, List.mem_reverse.mpr h⟩
    · rw [(hkept b h).2] at hb
      cases hb
  | cons b' bs ih =>
    rw [groupFrom]
    split
    · next hlong =>
      rcases h with h | h
      · exact ⟨_, List.mem_cons_self .., List.mem_reverse.mpr (List.mem_cons_of_mem _ h)⟩
      · rcases List.mem_cons.mp h with rfl | h
        · exact absurd (hb ▸ (Bool.and_eq_true_iff.mp hlong).1) nofun
        · obtain ⟨x, hx, hmem⟩ := ih [b'.lastLines radius] (Or.inr h)
          exact ⟨x, List.mem_cons_of_mem _ hx, hmem⟩
    · rcases h with h | h
      · exact ih _ (Or.inl (List.mem_cons_of_mem _ h))
      · rcases List.mem_cons.mp h with rfl | h
        · exact ih _ (Or.inl (List.mem_cons_self ..))
        · exact ih _ (Or.inr h)

end Cutting

/-! ## The hunks of two lists -/

theorem covers_hunks (old new : List Line) :
    Covers old new (.delete ∈ (pieces old new).map Piece.kind)
      (.insert ∈ (pieces old new).map Piece.kind) (hunks old new) 0 0 old.length new.length := by
  obtain ⟨g, hgap, hfirst⟩ := chain_trimFirst (Nat.zero_le _) (Nat.zero_le _)
    (chain_blocks old new)
  obtain ⟨i', j', g', hlast, hend, hi', hj'⟩ :=
    chain_trimLast (Nat.le_refl _) (Nat.le_refl _) hfirst
  have hcovers := covers_groupFrom [] hgap (.nil _ _) hlast hend
  rwa [hi', hj'] at hcovers

theorem alternate_of_mem_hunks {x : Hunk} (h : x ∈ hunks old new) : Alternate x := by
  refine alternate_groupFrom ?_ x h
  unfold Alternate
  rw [List.reverse_nil, List.nil_append, kept_trimLast, kept_trimFirst]
  exact alternate_blocks old new

theorem exists_changes_hunks {kind : PieceKind} (hkind : kind ≠ .keep)
    (h : kind ∈ (pieces old new).map Piece.kind) :
    ∃ x ∈ hunks old new, ∃ b ∈ x, b.Changes kind := by
  obtain ⟨b, hb, hchanges⟩ := exists_changes_blocks hkind h
  have hmem := mem_trimLast hchanges.1 (mem_trimFirst hchanges.1 hb)
  obtain ⟨x, hx, hbx⟩ := exists_mem_groupFrom [] hchanges.1 (Or.inr hmem)
  exact ⟨x, hx, b, hbx, hchanges⟩

end Vendoring.Patch
