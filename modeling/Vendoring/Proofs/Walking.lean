import Vendoring.Proofs.Following

/-!
# Walking through links

A walk gives up behind a number of links, and that number is in the way of
every law about walks. `Walks` is the walk without it: a relation that counts
the links. `walk` computes it as far as its number reaches (`walk_cases`), so
a walk has one result (`Walks.det`), two walks are put together and taken
apart (`Walks.append`, `Walks.split`), and silent segments do not matter on
the way to a directory (`Walks.respell`).

The last part compares two trees that differ at one name: there the first one
has a file or a link to a file, and the second one a file with the same
bytes. What a path reads is the same on both (`Disk.read?_refreshed`).
-/

namespace Vendoring

open Vendoring.Path

namespace FileTree

variable {t : FileTree} {l m next : Location} {s : Segment} {segments rest : List Segment}
  {r : Except FileFault Location} {n : Nat}

/-- A walk from `l` along segments, with the number of links on the way. -/
inductive Walks (t : FileTree) :
    Nat → Location → List Segment → Except FileFault Location → Prop
  | done (l : Location) : Walks t 0 l [] (.ok l)
  | blocked {l : Location} {s : Segment} {rest : List Segment} (hl : t.isDirectory l = false) :
      Walks t 0 l (s :: rest) (.error (t.obstacle l))
  | failed {l : Location} {s : Segment} {rest : List Segment} {f : FileFault}
      (hl : t.isDirectory l = true) (hstep : t.step l s = .error f) :
      Walks t 0 l (s :: rest) (.error f)
  | step {n : Nat} {l next : Location} {s : Segment} {rest : List Segment}
      {r : Except FileFault Location} (hl : t.isDirectory l = true) (hstep : t.step l s = .ok next)
      (hnext : ∀ target, t.node? next ≠ some (.link target)) (h : Walks t n next rest r) :
      Walks t n l (s :: rest) r
  | link {n : Nat} {l next : Location} {s : Segment} {rest : List Segment}
      {r : Except FileFault Location} {target : String} (hl : t.isDirectory l = true)
      (hstep : t.step l s = .ok next) (hnext : t.node? next = some (.link target))
      (h : Walks t n (startOf l ⟨target⟩) (Path.segments ⟨target⟩ ++ rest) r) :
      Walks t (n + 1) l (s :: rest) r

/-! ## Steps -/

/-- What a step leads to is there. -/
theorem node?_of_step (hl : t.isDirectory l = true) (hstep : t.step l s = .ok next) :
    ∃ node, t.node? next = some node := by
  have hdir := isDirectory_iff.mp hl
  unfold step at hstep
  split at hstep
  · obtain rfl := Except.ok.inj hstep
    exact ⟨_, hdir⟩
  split at hstep
  · obtain rfl := Except.ok.inj hstep
    exact ⟨_, directory_above (List.tail_suffix l) hdir⟩
  simp only at hstep
  split at hstep
  · cases hstep
  split at hstep
  · next hsome =>
    obtain rfl := Except.ok.inj hstep
    exact Option.isSome_iff_exists.mp hsome
  · cases hstep

/-- A step to what is no directory is a step to a name. -/
theorem tail_of_step (hl : t.isDirectory l = true) (hstep : t.step l s = .ok next)
    (hnext : t.node? next ≠ some .directory) : next.tail = l := by
  have hdir := isDirectory_iff.mp hl
  unfold step at hstep
  split at hstep
  · obtain rfl := Except.ok.inj hstep
    exact absurd hdir hnext
  split at hstep
  · obtain rfl := Except.ok.inj hstep
    exact absurd (directory_above (List.tail_suffix l) hdir) hnext
  simp only at hstep
  split at hstep
  · cases hstep
  split at hstep
  · obtain rfl := Except.ok.inj hstep
    rfl
  · cases hstep

/-- Steps ask only whether something is there. -/
theorem step_congr {t' : FileTree}
    (h : ∀ m, (t'.node? m).isSome = (t.node? m).isSome) : t'.step l s = t.step l s := by
  simp only [step, h]

/-- A step gets as far wherever the same thing, or another one, is there. -/
theorem step_of_isSome {t' : FileTree} (hstep : t.step l s = .ok next)
    (h : (t'.node? next).isSome = true) : t'.step l s = .ok next := by
  unfold step at hstep ⊢
  split
  · rwa [if_pos ‹_›] at hstep
  next hsilent =>
  rw [if_neg hsilent] at hstep
  split
  · rwa [if_pos ‹_›] at hstep
  next hup =>
  rw [if_neg hup] at hstep
  simp only at hstep ⊢
  split at hstep
  · cases hstep
  next hfits =>
  rw [if_neg hfits]
  split at hstep
  · obtain rfl := Except.ok.inj hstep
    rw [if_pos h]
  · cases hstep

theorem walkWith_cons_of_link
    {follow : Location → List Segment → Except FileFault Location} {target : String}
    (hl : t.isDirectory l = true) (hstep : t.step l s = .ok next)
    (hnext : t.node? next = some (.link target)) :
    t.walkWith follow l (s :: rest)
      = follow (startOf l ⟨target⟩) (Path.segments ⟨target⟩ ++ rest) := by
  rw [walkWith, hl, hstep]
  simp [bind, Except.bind, hnext]

/-! ## The walk and its relation -/

theorem Walks.walk (h : Walks t n l segments r) {links : Nat} (hn : n ≤ links) :
    t.walk links l segments = r := by
  induction h generalizing links with
  | done l => cases links <;> rfl
  | blocked hl => cases links <;> exact walkWith_cons_of_not_directory hl
  | failed hl hstep => cases links <;> exact walkWith_cons_of_error hl hstep
  | step hl hstep hnext _ ih =>
    rw [← ih hn]
    cases links <;> exact walkWith_cons_of_no_link hl hstep hnext
  | link hl hstep hnext _ ih =>
    cases links with
    | zero => exact absurd hn (Nat.not_succ_le_zero _)
    | succ links =>
      rw [← ih (Nat.le_of_succ_le_succ hn)]
      exact walkWith_cons_of_link hl hstep hnext

/-- A walk gets to its end, or gives up. -/
theorem walk_cases (t : FileTree) (links : Nat) (l : Location) (segments : List Segment) :
    (∃ n ≤ links, Walks t n l segments (t.walk links l segments))
      ∨ t.walk links l segments = .error .tooManyLinks := by
  -- first over the links, since a link leads to any number of segments
  induction links generalizing l segments with
  | zero =>
    induction segments generalizing l with
    | nil => exact Or.inl ⟨0, Nat.le_refl 0, .done l⟩
    | cons s rest ih =>
      cases hl : t.isDirectory l with
      | false =>
        rw [FileTree.walk, walkWith_cons_of_not_directory hl]
        exact Or.inl ⟨0, Nat.le_refl 0, .blocked hl⟩
      | true =>
        cases hstep : t.step l s with
        | error f =>
          rw [FileTree.walk, walkWith_cons_of_error hl hstep]
          exact Or.inl ⟨0, Nat.le_refl 0, .failed hl hstep⟩
        | ok next =>
          by_cases hnext : ∃ target, t.node? next = some (.link target)
          · obtain ⟨target, hnext⟩ := hnext
            rw [FileTree.walk, walkWith_cons_of_link hl hstep hnext]
            exact Or.inr rfl
          · have hnext := not_exists.mp hnext
            rw [FileTree.walk, walkWith_cons_of_no_link hl hstep hnext]
            exact (ih next).imp_left fun ⟨n, hn, h⟩ => ⟨n, hn, .step hl hstep hnext h⟩
  | succ links ihLinks =>
    induction segments generalizing l with
    | nil => exact Or.inl ⟨0, Nat.zero_le _, .done l⟩
    | cons s rest ih =>
      cases hl : t.isDirectory l with
      | false =>
        rw [FileTree.walk, walkWith_cons_of_not_directory hl]
        exact Or.inl ⟨0, Nat.zero_le _, .blocked hl⟩
      | true =>
        cases hstep : t.step l s with
        | error f =>
          rw [FileTree.walk, walkWith_cons_of_error hl hstep]
          exact Or.inl ⟨0, Nat.zero_le _, .failed hl hstep⟩
        | ok next =>
          by_cases hnext : ∃ target, t.node? next = some (.link target)
          · obtain ⟨target, hnext⟩ := hnext
            rw [FileTree.walk, walkWith_cons_of_link hl hstep hnext]
            exact (ihLinks _ _).imp_left fun ⟨n, hn, h⟩ =>
              ⟨n + 1, Nat.succ_le_succ hn, .link hl hstep hnext h⟩
          · have hnext := not_exists.mp hnext
            rw [FileTree.walk, walkWith_cons_of_no_link hl hstep hnext]
            exact (ih next).imp_left fun ⟨n, hn, h⟩ => ⟨n, hn, .step hl hstep hnext h⟩

theorem walks_of_walk {links : Nat} (h : t.walk links l segments = .ok m) :
    ∃ n ≤ links, Walks t n l segments (.ok m) := by
  rcases t.walk_cases links l segments with ⟨n, hn, hwalk⟩ | hnot
  · exact ⟨n, hn, h ▸ hwalk⟩
  · rw [h] at hnot
    cases hnot

theorem Walks.det {n' : Nat} {r' : Except FileFault Location} (h : Walks t n l segments r)
    (h' : Walks t n' l segments r') : r = r' := by
  rw [← h.walk (Nat.le_max_left n n'), h'.walk (Nat.le_max_right n n')]

/-- A walk that takes a step begins in a directory. -/
theorem Walks.begins (h : Walks t n l (s :: rest) (.ok m)) : t.isDirectory l = true := by
  cases h with
  | step hl => exact hl
  | link hl => exact hl

/-- What a path leads to is there. -/
theorem Walks.node? (h : Walks t n l segments (.ok m)) (hne : segments ≠ []) :
    ∃ node, t.node? m = some node := by
  generalize hr : Except.ok m = r at h
  induction h with
  | done l => exact absurd rfl hne
  | blocked hl => cases hr
  | failed hl hstep => cases hr
  | @step n l next s rest r hl hstep hnext h ih =>
    cases rest with
    | nil =>
      cases h
      obtain rfl := Except.ok.inj hr
      exact node?_of_step hl hstep
    | cons s' rest => exact ih (List.cons_ne_nil s' rest) hr
  | link hl hstep hnext _ ih =>
    exact ih (List.append_ne_nil_of_left_ne_nil (List.splitOn_ne_nil _ _) _) hr

/-! ## Putting walks together -/

theorem Walks.append {n' : Nat} {xs ys : List Segment} (h : Walks t n l xs (.ok m))
    (h' : Walks t n' m ys r) : Walks t (n + n') l (xs ++ ys) r := by
  generalize hr : Except.ok m = r' at h
  induction h with
  | done l =>
    obtain rfl := Except.ok.inj hr
    rwa [Nat.zero_add]
  | blocked hl => cases hr
  | failed hl hstep => cases hr
  | step hl hstep hnext _ ih => exact .step hl hstep hnext (ih hr)
  | link hl hstep hnext _ ih =>
    have h := ih hr
    rw [List.append_assoc] at h
    rw [Nat.add_right_comm]
    exact .link hl hstep hnext h

theorem Walks.split {xs ys : List Segment} (h : Walks t n l (xs ++ ys) (.ok m)) :
    ∃ n₁ n₂ l', n = n₁ + n₂ ∧ Walks t n₁ l xs (.ok l') ∧ Walks t n₂ l' ys (.ok m) := by
  generalize hsegments : xs ++ ys = segments at h
  generalize hr : Except.ok m = r at h
  induction h generalizing xs with
  | done l =>
    obtain ⟨rfl, rfl⟩ := List.append_eq_nil_iff.mp hsegments
    exact ⟨0, 0, l, rfl, .done l, .done l⟩
  | blocked hl => cases hr
  | failed hl hstep => cases hr
  | @step n l next s rest r hl hstep hnext h ih =>
    cases xs with
    | nil =>
      rw [List.nil_append] at hsegments
      rw [hsegments]
      exact ⟨0, n, l, (Nat.zero_add n).symm, .done l, .step hl hstep hnext h⟩
    | cons x xs =>
      obtain ⟨rfl, hrest⟩ := List.cons.inj hsegments
      obtain ⟨n₁, n₂, l', hn, h₁, h₂⟩ := ih hrest hr
      exact ⟨n₁, n₂, l', hn, .step hl hstep hnext h₁, h₂⟩
  | @link n l next s rest r target hl hstep hnext h ih =>
    cases xs with
    | nil =>
      rw [List.nil_append] at hsegments
      rw [hsegments]
      exact ⟨0, n + 1, l, (Nat.zero_add _).symm, .done l, .link hl hstep hnext h⟩
    | cons x xs =>
      rw [List.cons_append] at hsegments
      obtain ⟨rfl, hrest⟩ := List.cons.inj hsegments
      obtain ⟨n₁, n₂, l', hn, h₁, h₂⟩ :=
        ih (by rw [List.append_assoc, hrest]) hr
      exact ⟨n₁ + 1, n₂, l', by rw [hn, Nat.add_right_comm], .link hl hstep hnext h₁, h₂⟩

/-! ## Silent segments -/

theorem walks_silent (hl : t.isDirectory l = true) {front : List Segment}
    (hfront : spoken front = []) (h : Walks t n l rest r) : Walks t n l (front ++ rest) r := by
  induction front with
  | nil => exact h
  | cons s front ih =>
    cases hs : s.isSilent with
    | false =>
      rw [spoken_cons_of_name hs] at hfront
      cases hfront
    | true =>
      rw [spoken_cons_of_silent hs] at hfront
      refine .step hl (step_of_silent hs) (fun target h => ?_) (ih hfront)
      rw [isDirectory_iff.mp hl] at h
      cases h

/-- The first name of a list of segments, and what stands around it. -/
theorem spoken_eq_cons {ys : List Segment} {name : String} {names : List String}
    (h : spoken ys = name :: names) :
    ∃ front back, ys = front ++ name.toList :: back ∧ spoken front = [] ∧ spoken back = names := by
  induction ys with
  | nil => cases h
  | cons s rest ih =>
    cases hs : s.isSilent with
    | true =>
      rw [spoken_cons_of_silent hs] at h
      obtain ⟨front, back, hrest, hfront, hback⟩ := ih h
      refine ⟨s :: front, back, by rw [hrest, List.cons_append], ?_, hback⟩
      rw [spoken_cons_of_silent hs, hfront]
    | false =>
      rw [spoken_cons_of_name hs] at h
      obtain ⟨rfl, hback⟩ := List.cons.inj h
      exact ⟨[], rest, by rw [String.toList_ofList, List.nil_append], rfl, hback⟩

/-- On the way to a directory only the names matter. -/
theorem Walks.respell {xs ys : List Segment} (h : Walks t n l xs (.ok m))
    (hm : t.isDirectory m = true) (hspoken : spoken ys = spoken xs) : Walks t n l ys (.ok m) := by
  generalize hr : Except.ok m = r at h
  induction h generalizing ys with
  | done l =>
    obtain rfl := Except.ok.inj hr
    have h := walks_silent hm hspoken (.done m)
    rwa [List.append_nil] at h
  | blocked hl => cases hr
  | failed hl hstep => cases hr
  | @step n l next s rest r hl hstep hnext _ ih =>
    cases hs : s.isSilent with
    | true =>
      rw [step_of_silent hs] at hstep
      obtain rfl := Except.ok.inj hstep
      rw [spoken_cons_of_silent hs] at hspoken
      exact ih hspoken hr
    | false =>
      rw [spoken_cons_of_name hs] at hspoken
      obtain ⟨front, back, rfl, hfront, hback⟩ := spoken_eq_cons hspoken
      rw [String.toList_ofList]
      exact walks_silent hl hfront (.step hl hstep hnext (ih hback hr))
  | @link n l next s rest r target hl hstep hnext _ ih =>
    cases hs : s.isSilent with
    | true =>
      rw [step_of_silent hs] at hstep
      obtain rfl := Except.ok.inj hstep
      rw [isDirectory_iff.mp hl] at hnext
      cases hnext
    | false =>
      rw [spoken_cons_of_name hs] at hspoken
      obtain ⟨front, back, rfl, hfront, hback⟩ := spoken_eq_cons hspoken
      rw [String.toList_ofList]
      refine walks_silent hl hfront (.link hl hstep hnext (ih ?_ hr))
      rw [spoken_append, spoken_append, hback]

/-! ## On another tree -/

/-- What gets through on a tree gets through on one that has more. -/
theorem Walks.extend {t' : FileTree} (hmore : ∀ m node, t.node? m = some node →
      t'.node? m = some node) (h : Walks t n l segments (.ok m)) :
    Walks t' n l segments (.ok m) := by
  have directory {l : Location} (hl : t.isDirectory l = true) : t'.isDirectory l = true :=
    isDirectory_iff.mpr (hmore l _ (isDirectory_iff.mp hl))
  generalize hr : Except.ok m = r at h
  induction h with
  | done l => exact .done l
  | blocked hl => cases hr
  | failed hl hstep => cases hr
  | step hl hstep hnext _ ih =>
    obtain ⟨node, hnode⟩ := node?_of_step hl hstep
    have hthere := hmore _ node hnode
    refine .step (directory hl) (step_of_isSome hstep (by rw [hthere]; rfl))
      (fun target htarget => ?_) (ih hr)
    rw [hthere] at htarget
    exact hnext target (hnode.trans htarget)
  | link hl hstep hnext _ ih =>
    have hthere := hmore _ _ hnext
    exact .link (directory hl) (step_of_isSome hstep (by rw [hthere]; rfl)) hthere (ih hr)

/-- At one name the tree `t'` has a file, where `t` has a file with the same
bytes or a link to one. -/
structure Refreshed (t : FileTree) (u : Location) (bytes : ByteArray) (t' : FileTree) : Prop where
  other : ∀ m, m ≠ u → t'.node? m = t.node? m
  new : ∃ mode, t'.node? u = some (.file bytes mode)
  old : (∃ mode, t.node? u = some (.file bytes mode))
    ∨ ∃ target n f mode, t.node? u = some (.link target)
      ∧ Walks t n (startOf u.tail ⟨target⟩) (Path.segments ⟨target⟩) (.ok f)
      ∧ t.node? f = some (.file bytes mode)

namespace Refreshed

variable {t' : FileTree} {u f : Location} {bytes : ByteArray} (h : t.Refreshed u bytes t')

include h

theorem isSome (m : Location) : (t'.node? m).isSome = (t.node? m).isSome := by
  by_cases hm : m = u
  · obtain ⟨mode, hnew⟩ := h.new
    rw [hm, hnew]
    rcases h.old with ⟨_, hold⟩ | ⟨_, _, _, _, hold, _⟩ <;> rw [hold] <;> rfl
  · rw [h.other m hm]

theorem isDirectory (m : Location) : t'.isDirectory m = t.isDirectory m := by
  by_cases hm : m = u
  · obtain ⟨mode, hnew⟩ := h.new
    rw [FileTree.isDirectory, FileTree.isDirectory, hm, hnew]
    rcases h.old with ⟨_, hold⟩ | ⟨_, _, _, _, hold, _⟩ <;> rw [hold] <;> rfl
  · rw [FileTree.isDirectory, FileTree.isDirectory, h.other m hm]

/-- A walk ends as before, or at the new file instead of one with its bytes. -/
theorem walks (hwalk : Walks t n l segments r) (hl : ∀ target, t.node? l ≠ some (.link target)) :
    ∃ n' ≤ n, (r ≠ .ok u ∧ Walks t' n' l segments r)
      ∨ ∃ f mode, r = .ok f ∧ t.node? f = some (.file bytes mode)
        ∧ Walks t' n' l segments (.ok u) := by
  have hfault {f : FileFault} : Except.error f ≠ Except.ok u := by simp
  induction hwalk with
  | done l =>
    refine ⟨0, Nat.le_refl 0, ?_⟩
    by_cases hu : l = u
    · subst hu
      right
      rcases h.old with ⟨mode, hold⟩ | ⟨target, _, _, _, hold, _⟩
      · exact ⟨l, mode, rfl, hold, .done l⟩
      · exact absurd hold (hl target)
    · exact Or.inl ⟨fun heq => hu (Except.ok.inj heq), .done l⟩
  | @blocked l s rest hdir =>
    rw [← obstacle_congr (h.isSome l)]
    exact ⟨0, Nat.le_refl 0, Or.inl ⟨hfault, .blocked ((h.isDirectory l).trans hdir)⟩⟩
  | failed hdir hstep =>
    exact ⟨0, Nat.le_refl 0, Or.inl ⟨hfault,
      .failed ((h.isDirectory _).trans hdir) ((step_congr h.isSome).trans hstep)⟩⟩
  | @step n l next s rest r hdir hstep hnext _ ih =>
    have hdir' := (h.isDirectory l).trans hdir
    have hstep' := (step_congr h.isSome).trans hstep
    have hnext' : ∀ target, t'.node? next ≠ some (.link target) := by
      by_cases hu : next = u
      · obtain ⟨mode, hnew⟩ := h.new
        rw [hu, hnew]
        exact nofun
      · rwa [h.other next hu]
    obtain ⟨n', hn', hends⟩ := ih hnext
    refine ⟨n', hn', hends.imp ?_ ?_⟩
    · rintro ⟨hne, hwalk⟩
      exact ⟨hne, .step hdir' hstep' hnext' hwalk⟩
    · rintro ⟨f, mode, hf, hfile, hwalk⟩
      exact ⟨f, mode, hf, hfile, .step hdir' hstep' hnext' hwalk⟩
  | @link n l next s rest r target hdir hstep hnext hwalk ih =>
    have hdir' := (h.isDirectory l).trans hdir
    have hstep' := (step_congr h.isSome).trans hstep
    by_cases hu : next = u
    · -- the link itself: behind it stands a file, and behind that nothing
      subst hu
      obtain ⟨mode', hnew⟩ := h.new
      have hnext' : ∀ target, t'.node? next ≠ some (.link target) := by
        rw [hnew]
        exact nofun
      obtain ⟨target', k, f, mode, hold, hlink, hfile⟩ := h.old.resolve_left fun ⟨_, hold⟩ => by
        rw [hnext] at hold
        cases hold
      rw [hnext] at hold
      cases hold
      rw [tail_of_step hdir hstep (by rw [hnext]; exact nofun)] at hlink
      refine ⟨0, Nat.zero_le _, ?_⟩
      cases rest with
      | nil =>
        rw [List.append_nil] at hwalk
        exact Or.inr ⟨f, mode, hwalk.det hlink, hfile, .step hdir' hstep' hnext' (.done next)⟩
      | cons s' rest' =>
        have hnot : t.isDirectory f = false := by
          rw [FileTree.isDirectory, hfile]
          rfl
        have hnot' : t'.isDirectory next = false := by
          rw [FileTree.isDirectory, hnew]
          rfl
        obtain rfl := hwalk.det (hlink.append (.blocked hnot))
        rw [obstacle_of_some hfile, ← obstacle_of_some hnew]
        exact Or.inl ⟨hfault, .step hdir' hstep' hnext' (.blocked hnot')⟩
    · have hnext' := (h.other next hu).trans hnext
      have hstart : ∀ target', t.node? (startOf l ⟨target⟩) ≠ some (.link target') := by
        intro target' hlink
        unfold startOf at hlink
        split at hlink
        · rw [node?_root] at hlink
          cases hlink
        · rw [isDirectory_iff.mp hdir] at hlink
          cases hlink
      obtain ⟨n', hn', hends⟩ := ih hstart
      refine ⟨n' + 1, Nat.succ_le_succ hn', hends.imp ?_ ?_⟩
      · rintro ⟨hne, hwalk⟩
        exact ⟨hne, .link hdir' hstep' hnext' hwalk⟩
      · rintro ⟨f, mode, hf, hfile, hwalk⟩
        exact ⟨f, mode, hf, hfile, .link hdir' hstep' hnext' hwalk⟩

end Refreshed

end FileTree

namespace Disk

open FileTree

variable {d : Disk} {t' : FileTree} {u : Location} {bytes : ByteArray} {p : Path}

theorem locate?_eq (htext : pathFault? p = none) :
    d.locate? p = d.tree.walk maxLinks (startOf d.here p) p.segments := by
  unfold locate?
  simp only [htext]

theorem read?_of_locate? {l : Location} (h : d.locate? p = .ok l) :
    d.read? p = match d.tree.node? l with
      | some (.file bytes _) => .ok bytes
      | some .directory => .error .isDirectory
      | some (.link _) => .error .notFound
      | none => .error .notFound := by
  unfold read? node?
  rw [h]
  simp only [bind, Except.bind]
  cases d.tree.node? l with
  | none => rfl
  | some node => cases node <;> rfl

theorem read?_of_locate?_error {f : FileFault} (h : d.locate? p = .error f) :
    d.read? p = .error f := by
  unfold read? node?
  rw [h]
  rfl

/-- Every path reads as before, unless there were too many links on it. -/
theorem read?_refreshed (h : d.tree.Refreshed u bytes t') (p : Path) :
    (d.withTree t').read? p = d.read? p ∨ d.read? p = .error .tooManyLinks := by
  cases htext : pathFault? p with
  | some f =>
    left
    have hfault {X : Disk} : X.locate? p = .error f := by
      unfold locate?
      simp only [htext]
    rw [read?_of_locate?_error hfault, read?_of_locate?_error hfault]
  | none =>
    have hX := locate?_eq (d := d) htext
    have hY := locate?_eq (d := d.withTree t') htext
    rcases d.tree.walk_cases maxLinks (startOf d.here p) p.segments with ⟨n, hn, hwalk⟩ | hmany
    · left
      rw [← hX] at hwalk
      by_cases hstart : ∃ target, d.tree.node? (startOf d.here p) = some (.link target)
      · -- from a link no path leads anywhere
        obtain ⟨target, hlink⟩ := hstart
        have hnot : d.tree.isDirectory (startOf d.here p) = false := by
          rw [FileTree.isDirectory, hlink]
          rfl
        obtain ⟨s, rest, hsegments⟩ := p.segments_eq_cons
        rw [hsegments] at hX hY
        rw [(Walks.blocked hnot).walk (Nat.zero_le _)] at hX
        have hnot' := (h.isDirectory _).trans hnot
        replace hY := hY.trans ((Walks.blocked hnot').walk (Nat.zero_le _))
        rw [obstacle_congr (h.isSome _)] at hY
        rw [read?_of_locate?_error hX, read?_of_locate?_error hY]
      · obtain ⟨n', hn', hends⟩ := h.walks hwalk (not_exists.mp hstart)
        rcases hends with ⟨hne, hwalk'⟩ | ⟨f, mode, hf, hfile, hwalk'⟩
        · have hsame : (d.withTree t').locate? p = d.locate? p :=
            hY.trans (hwalk'.walk (Nat.le_trans hn' hn))
          cases hlocate : d.locate? p with
          | error f =>
            rw [read?_of_locate?_error hlocate, read?_of_locate?_error (hsame.trans hlocate)]
          | ok l =>
            have hl : l ≠ u := fun heq => hne (heq ▸ hlocate)
            rw [read?_of_locate? hlocate, read?_of_locate? (hsame.trans hlocate)]
            rw [show (d.withTree t').tree = t' from rfl, h.other l hl]
        · obtain ⟨mode', hnew⟩ := h.new
          have hnew' : (d.withTree t').locate? p = .ok u :=
            hY.trans (hwalk'.walk (Nat.le_trans hn' hn))
          rw [read?_of_locate? hf, read?_of_locate? hnew', hfile]
          rw [show (d.withTree t').tree = t' from rfl, hnew]
    · right
      exact read?_of_locate?_error (hX.trans hmany)

end Disk

end Vendoring
