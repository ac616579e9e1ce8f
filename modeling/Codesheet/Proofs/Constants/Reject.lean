import Codesheet.Proofs.Constants.Trail
import Codesheet.Proofs.Grammar.Lines

/-! Builders that reject jumps. As many levels are open as the last line's level says,
so no fall fails, and each open position is the one of the nearest line of a smaller
level: what is built is the tree that the accepted lines declare. -/

namespace Codesheet.Builder

open Node Outline

variable {b : Builder}

/-- The lines of some constants that are accepted, each where it stands. -/
def kept (b : Builder) : List ConstantLine → List ConstantLine
  | [] => []
  | line :: lines =>
    match (add line b).2.result with
    | .ok _ => line :: kept (add line b).1 lines
    | .error _ => kept (add line b).1 lines

/-- The level of the last line, 0 without one. -/
def lastLevel (lines : List ConstantLine) : Nat := lines.getLast?.elim 0 (·.level)

/-! ### Levels -/

theorem refusal?_of_reject (hj : b.jumps = .reject) (hd : b.stack.length = b.level) (level : Nat) :
    b.refusal? level = if level ≤ b.level + 1 then none else some (.jump b.level level) := by
  by_cases hl : level ≤ b.level + 1
  · rw [refusal?, if_neg (by omega), if_neg (by omega), if_pos hl]
  · rw [refusal?, if_pos ⟨by omega, hj⟩, if_neg hl]

/-- Nothing is moved by a line that is rejected. -/
theorem add_of_rejected (hj : b.jumps = .reject) (hd : b.stack.length = b.level) {line : ConstantLine}
    (h : line.bitField? = none) (hl : b.level + 1 < line.level) :
    (add line b).2.result = .error (.indent 0 (.jump b.level line.level)) ∧ (add line b).1 = b := by
  have hc : b.refusal? line.level = some (.jump b.level line.level) := by
    rw [refusal?_of_reject hj hd, if_neg (by omega)]
  obtain ⟨hresult, -, -, hsame | ⟨hfall, -⟩⟩ := add_of_refusal h hc
  · exact ⟨hresult, hsame⟩
  · omega

/-- A line that is not rejected closes the positions inside its parent. -/
theorem Sound.add_of_accepted (hb : b.Sound) (hj : b.jumps = .reject) (hd : b.stack.length = b.level)
    {line : ConstantLine} (h : line.bitField? = none) (hl : line.level ≤ b.level + 1) :
    (add line b).2.result = .ok () ∧ Attached line b (add line b).1 ∧
      (add line b).1.parents = b.positions.drop (b.level + 1 - line.level) ∧
      (add line b).1.stack.length = (add line b).1.level := by
  have hc : b.refusal? line.level = none := by rw [refusal?_of_reject hj hd, if_pos hl]
  obtain ⟨hok, hattached⟩ := hb.add_of_not_refused h hc
  have hparents := hattached.parents.trans (parentsAt_eq_drop b line.level)
  refine ⟨hok, hattached, hparents, ?_⟩
  have hlength := congrArg List.length hparents
  simp only [parents, positions, List.length_cons, List.length_drop, hd] at hlength
  rw [hattached.level]
  omega

/-! ### Trees -/

/-- The builder has built what the lines declare, and stands where the nearest lines
of the open levels are. -/
structure Tracks (forest : Forest) (root : Node) (lines : List ConstantLine) (b : Builder) : Prop where
  sound : b.Sound
  jumps : b.jumps = .reject
  level : b.level = lastLevel lines
  depth : b.stack.length = b.level
  place : b.root < forest.roots.length
  built : b.forest = ⟨forest.roots.set b.root (grown root lines none)⟩
  leads : ∀ level ≤ b.level + 1, ∃ path, b.positions[b.level + 1 - level]? = some path ∧
    Leads root lines (nearest lines lines.length level) path

theorem grown_nil (root : Node) : grown root [] none = root := by
  show { root with children := overlay root.children [] } = root
  rw [overlay_nil]
  cases root
  rfl

theorem tracks_start (g : Grammar) (forest : Forest) (name : String) :
    ∃ root, (forest.ensureRoot name).roots[forest.slot name]? = some root ∧
      Tracks (forest.ensureRoot name) root [] (start g .reject forest name) := by
  have hslot := forest.slot_lt_ensureRoot name
  refine ⟨_, List.getElem?_eq_getElem hslot, sound_start g .reject forest name, rfl, rfl, rfl, hslot, ?_, ?_⟩
  · rw [grown_nil]
    show forest.ensureRoot name = ⟨(forest.ensureRoot name).roots.set (forest.slot name) _⟩
    rw [List.set_getElem_self]
  · intro level hl
    have hposition : ∀ i, i ≤ 1 → (start g .reject forest name).positions[i]? = some [] := by
      intro i hi
      obtain rfl | rfl : i = 0 ∨ i = 1 := by omega
      · rfl
      · rfl
    exact ⟨[], hposition _ (Nat.sub_le 1 level), .root⟩

theorem nearest_length_concat (lines : List ConstantLine) (line : ConstantLine) (level : Nat) :
    nearest (lines ++ [line]) (lines ++ [line]).length level =
      if line.level < level then some lines.length else nearest lines lines.length level := by
  rw [List.length_append, List.length_singleton, nearest_succ, levelOf_length,
    nearest_concat (Nat.le_refl _)]

/-- An accepted line is declared below the nearest line of a smaller level. -/
theorem Tracks.add {forest : Forest} {root : Node} {lines : List ConstantLine}
    (h : Tracks forest root lines b) {line : ConstantLine} (hn : line.bitField? = none)
    (hl : line.level ≤ b.level + 1) : Tracks forest root (lines ++ [line]) (add line b).1 := by
  obtain ⟨-, hattached, hparents, hdepth⟩ := h.sound.add_of_accepted h.jumps h.depth hn hl
  obtain ⟨path, hpath, hleads⟩ := h.leads line.level hl
  obtain ⟨-, hjumps, hroot⟩ := fixed_add line b
  obtain ⟨whole, parent, changed, hwhole, hparent, hchanged, hforest, hlast⟩ := hattached.edit
  have hwhole' : b.forest.roots[b.root]? = some (grown root lines none) := by
    rw [h.built]
    exact List.getElem?_set_self h.place
  obtain rfl := Option.some.inj (hwhole'.symm.trans hwhole)
  have hhead : (Builder.add line b).1.parent = path := by
    have hfirst := congrArg List.head? hparents
    rw [List.head?_drop, hpath] at hfirst
    exact Option.some.inj hfirst
  rw [hhead] at hparent hchanged hlast
  obtain rfl := Option.some.inj (hleads.at?.symm.trans hparent)
  have hedit := @Leads.edit root lines line _ path hleads (fun i hi => (nearest_eq_some hi).2.1)
    (·.insertChild (leaf line.name line.value)) grown_concat_of_nearest.symm
  obtain rfl := Option.some.inj (hedit.symm.trans hchanged)
  refine ⟨h.sound.sound_add line, hjumps.trans h.jumps, ?_, hdepth, ?_, ?_, ?_⟩
  · rw [hattached.level, lastLevel, List.getLast?_concat]
    rfl
  · rw [hroot]
    exact h.place
  · rw [hforest, hroot, h.built, List.set_set]
  · intro level hlevel
    rw [hattached.level] at hlevel ⊢
    rw [nearest_length_concat, positions, hparents]
    -- Up to the line's own level the positions stay; the one inside it is the new node's.
    by_cases hlt : line.level < level
    · rw [if_pos hlt, show line.level + 1 - level = 0 by omega]
      exact ⟨_, rfl, hlast ▸ hleads.concat_length⟩
    · obtain ⟨outer, houter, hleads'⟩ := h.leads level (by omega)
      rw [if_neg hlt, show line.level + 1 - level = line.level - level + 1 by omega,
        List.getElem?_cons_succ, List.getElem?_drop,
        show b.level + 1 - line.level + (line.level - level) = b.level + 1 - level by omega]
      refine ⟨outer, houter, hleads'.concat fun i hi => ?_⟩
      have := (nearest_eq_some hi).2.1
      omega

theorem kept_cons_of_ok {line : ConstantLine} (h : (add line b).2.result = .ok ()) (lines : List ConstantLine) :
    b.kept (line :: lines) = line :: (add line b).1.kept lines := by
  rw [kept, h]

theorem kept_cons_of_error {line : ConstantLine} {fault : Fault}
    (h : (add line b).2.result = .error fault) (lines : List ConstantLine) :
    b.kept (line :: lines) = (add line b).1.kept lines := by
  rw [kept, h]

theorem Tracks.result_add {forest : Forest} {root : Node} {lines : List ConstantLine}
    (h : Tracks forest root lines b) {line : ConstantLine} (hn : line.bitField? = none) :
    (Builder.add line b).2.result =
      if line.level ≤ lastLevel lines + 1 then .ok ()
      else .error (.indent 0 (.jump (lastLevel lines) line.level)) := by
  rw [← h.level]
  by_cases hl : line.level ≤ b.level + 1
  · rw [if_pos hl, (h.sound.add_of_accepted h.jumps h.depth hn hl).1]
  · rw [if_neg hl, (add_of_rejected h.jumps h.depth hn (Nat.lt_of_not_le hl)).1]

theorem Tracks.addEach {forest : Forest} {root : Node} {before : List ConstantLine}
    (h : Tracks forest root before b) {lines : List ConstantLine}
    (hn : ∀ line ∈ lines, line.bitField? = none) :
    Tracks forest root (before ++ b.kept lines) (b.addEach lines) := by
  induction lines generalizing b before with
  | nil => rwa [kept, List.append_nil]
  | cons line lines ih =>
    obtain ⟨hline, hrest⟩ := List.forall_mem_cons.1 hn
    have hcons : b.addEach (line :: lines) = (Builder.add line b).1.addEach lines := rfl
    rw [hcons]
    by_cases hl : line.level ≤ b.level + 1
    · have hok := (h.sound.add_of_accepted h.jumps h.depth hline hl).1
      rw [kept_cons_of_ok hok, List.append_cons]
      exact ih (h.add hline hl) hrest
    · obtain ⟨herror, hsame⟩ := add_of_rejected h.jumps h.depth hline (Nat.lt_of_not_le hl)
      rw [kept_cons_of_error herror, hsame]
      exact ih h hrest

/-! ### Depths -/

/-- The position of a level is as deep as the level, over lines that are not headers. -/
structure Aligned (b : Builder) : Prop where
  sound : b.Sound
  jumps : b.jumps = .reject
  depth : b.stack.length = b.level
  aligned : ∀ i path, b.positions[i]? = some path → path.length = b.level - i

theorem aligned_start (g : Grammar) (forest : Forest) (name : String) :
    (start g .reject forest name).Aligned := by
  refine ⟨sound_start g .reject forest name, rfl, rfl, fun i path hi => ?_⟩
  have hm : path ∈ [([] : List Nat), []] := List.mem_of_getElem? hi
  obtain rfl : path = [] := by simpa using hm
  exact (Nat.zero_sub i).symm

theorem Aligned.add (h : b.Aligned) {line : ConstantLine} (hl : 1 ≤ line.level) :
    (add line b).1.Aligned := by
  have hjumps := (fixed_add line b).2.1.trans h.jumps
  have hsound := h.sound.sound_add line
  cases hbit : line.bitField? with
  | some name =>
    obtain ⟨_, _, -, -, ha⟩ := annotate_of_sound h.sound ⟨name, line.value⟩
    refine ⟨hsound, hjumps, ?_, ?_⟩
    · rw [add_of_bitField hbit, ha]
      exact h.depth
    · rw [add_of_bitField hbit, ha]
      exact h.aligned
  | none =>
    by_cases hle : line.level ≤ b.level + 1
    · obtain ⟨-, hattached, hparents, hdepth⟩ := h.sound.add_of_accepted h.jumps h.depth hbit hle
      obtain ⟨_, _, _, -, -, -, -, hlast⟩ := hattached.edit
      refine ⟨hsound, hjumps, hdepth, fun i path hi => ?_⟩
      have hparent : ∀ i path, (Builder.add line b).1.parents[i]? = some path →
          path.length = line.level - 1 - i := by
        intro i path hi
        rw [hparents, List.getElem?_drop] at hi
        rw [h.aligned _ _ hi]
        omega
      rw [hattached.level]
      cases i with
      | zero =>
        obtain rfl := Option.some.inj hi
        rw [hlast, List.length_append, List.length_singleton, hparent 0 _ rfl]
        omega
      | succ i =>
        rw [hparent i path hi]
        omega
    · rw [(add_of_rejected h.jumps h.depth hbit (Nat.lt_of_not_le hle)).2]
      exact h

/-- A line of a body has a level below the root's. -/
theorem level_pos_of_body {g : Grammar} {line : Line} (hl : ¬ line.isHeader) {constant : ConstantLine}
    (h : g.constantLine line.text = .ok constant) : 1 ≤ constant.level := by
  have hspace : line.text.toList.head? = some ' ' := by simpa [Line.isHeader] using hl
  exact Grammar.level?_pos (Grammar.leading_pos hspace) (Grammar.constantLine_level h)

theorem Aligned.feed (h : b.Aligned) {line : Line} (hl : ¬ line.isHeader) : (feed line b).1.Aligned :=
  feed_induction h fun _ hc => h.add (level_pos_of_body hl hc)

theorem Aligned.feeds (h : b.Aligned) {lines : List Line} (hl : ∀ line ∈ lines, ¬ line.isHeader)
    {built : Builder} (hf : Feeds b lines built) : built.Aligned := by
  induction hf with
  | nil => exact h
  | cons accepted rest ih =>
    obtain ⟨hline, hrest⟩ := List.forall_mem_cons.1 hl
    exact ih (h.feed hline) hrest

theorem feeds_concat {lines : List Line} {line : Line} {built : Builder}
    (h : Feeds b (lines ++ [line]) built) :
    ∃ before, Feeds b lines before ∧ (feed line before).2.result = .ok () ∧
      built = (feed line before).1 := by
  induction lines generalizing b with
  | nil =>
    obtain _ | ⟨accepted, rest⟩ := h
    cases rest
    exact ⟨b, .nil b, accepted, rfl⟩
  | cons first lines ih =>
    obtain _ | ⟨accepted, rest⟩ := h
    obtain ⟨before, hbefore, hlast⟩ := ih rest
    exact ⟨before, .cons accepted hbefore, hlast⟩

theorem fixed_feeds {lines : List Line} {built : Builder} (h : Feeds b lines built) :
    built.grammar = b.grammar ∧ built.root = b.root := by
  induction h with
  | nil => exact ⟨rfl, rfl⟩
  | cons accepted rest ih =>
    obtain ⟨hg, -, hr⟩ := fixed_feed _ _
    exact ⟨ih.1.trans hg, ih.2.trans hr⟩

/-- The builder stands at the node that was attached. -/
theorem Attached.at?_last {line : ConstantLine} {built : Builder} (h : Attached line b built) :
    ∃ root, built.forest.roots[b.root]? = some root ∧
      root.at? built.last = some (leaf line.name line.value) := by
  obtain ⟨whole, parent, changed, hwhole, hparent, hchanged, hforest, hlast⟩ := h.edit
  refine ⟨changed, ?_, ?_⟩
  · rw [hforest]
    exact List.getElem?_set_self (List.getElem?_eq_some_iff.1 hwhole).1
  · rw [hlast, at?_append, at?_editAt? _ _ _ _ hchanged, hparent]
    exact at?_insertChild parent (leaf line.name line.value)

/-- In a body an accepted node is as deep as its level. -/
theorem Aligned.last_of_feeds (h : b.Aligned) {lines : List Line} {line : Line} {built : Builder}
    (hl : ∀ other ∈ lines ++ [line], ¬ other.isHeader) (hfeeds : Feeds b (lines ++ [line]) built)
    {constant : ConstantLine} (hconstant : b.grammar.constantLine line.text = .ok constant)
    (hnode : constant.bitField? = none) :
    built.last.length = constant.level ∧
      ∃ root, built.forest.roots[b.root]? = some root ∧
        root.at? built.last = some (leaf constant.name constant.value) := by
  obtain ⟨before, hbefore, hok, rfl⟩ := feeds_concat hfeeds
  obtain ⟨hgrammar, hroot⟩ := fixed_feeds hbefore
  rw [List.forall_mem_append] at hl
  have haligned := h.feeds hl.1 hbefore
  have hnext := haligned.feed (hl.2 line (List.mem_singleton_self line))
  rw [← hgrammar] at hconstant
  rw [feed_of_ok hconstant] at hok hnext ⊢
  have haccepted := Logged.result_atLine_eq_ok.1 hok
  have hattached := (haligned.sound.add_of_not_refused hnode
    ((haligned.sound.add_eq_ok_iff hnode).1 haccepted)).2
  constructor
  · rw [hnext.aligned 0 _ rfl, hattached.level, Nat.sub_zero]
  · have hat := hattached.at?_last
    rwa [hroot] at hat

/-- Where jumps are rejected, a node is refused exactly if its level exceeds that of the
line accepted last by more than one. The accepted lines declare the tree of the block:
below every parent stands one node for each name, the root's old children first. In a
body every accepted node is as deep as its level. -/
theorem rejecting_builds_outline (g : Grammar) (forest : Forest) (name : String) :
    let b := start g .reject forest name
    (∀ lines : List ConstantLine, (∀ line ∈ lines, line.bitField? = none) →
      (∀ line : ConstantLine, line.bitField? = none →
        (add line (b.addEach lines)).2.result =
          if line.level ≤ lastLevel (b.kept lines) + 1 then .ok ()
          else .error (.indent 0 (.jump (lastLevel (b.kept lines)) line.level))) ∧
      ∃ root, (forest.ensureRoot name).roots[forest.slot name]? = some root ∧
        (b.addEach lines).forest =
          ⟨(forest.ensureRoot name).roots.set (forest.slot name) (grown root (b.kept lines) none)⟩ ∧
        ((root.children.map (·.name)).Nodup →
          (grown root (b.kept lines) none).children =
            lastOfEach (root.children ++ kids (b.kept lines) none))) ∧
    ∀ (lines : List Line) (line : Line) (constant : ConstantLine) (built : Builder),
      (∀ other ∈ lines ++ [line], ¬ other.isHeader) → Feeds b (lines ++ [line]) built →
      g.constantLine line.text = .ok constant → constant.bitField? = none →
      built.last.length = constant.level ∧
        ∃ root, built.forest.roots[forest.slot name]? = some root ∧
          root.at? built.last = some (leaf constant.name constant.value) := by
  intro b
  refine ⟨fun lines hn => ?_, fun lines line constant built hl hfeeds hconstant hnode => ?_⟩
  · obtain ⟨root, hroot, htracks⟩ := tracks_start g forest name
    have hnow := htracks.addEach hn
    rw [List.nil_append] at hnow
    refine ⟨fun line hline => hnow.result_add hline, root, hroot, ?_, fun hnodup => ?_⟩
    · rw [hnow.built, (fixed_addEach lines b).2.2]
      rfl
    · exact overlay_eq_lastOfEach hnodup _
  · exact (aligned_start g forest name).last_of_feeds hl hfeeds hconstant hnode

/-- Levels 1, 2, 4, 1, of which the third is refused, and a name that is declared twice. -/
theorem rejecting_builds_redeclared :
    let lines : List ConstantLine := [⟨1, "a", 1⟩, ⟨2, "b", 2⟩, ⟨4, "c", 3⟩, ⟨1, "a", 4⟩]
    let accepted : List ConstantLine := [⟨1, "a", 1⟩, ⟨2, "b", 2⟩, ⟨1, "a", 4⟩]
    (add ⟨3, "d", 5⟩ ((start .standard .reject .empty "root").addEach lines)).2.result =
        .error (.indent 0 (.jump 1 3)) ∧
      ((start .standard .reject .empty "root").addEach lines).forest =
        ⟨[grown (leaf "root" 0) accepted none]⟩ ∧
      (grown (leaf "root" 0) accepted none).children = lastOfEach (kids accepted none) := by
  intro lines accepted
  have hkept : (start .standard .reject .empty "root").kept lines = accepted := by decide +kernel
  obtain ⟨hresult, root, hroot, hforest, hchildren⟩ :=
    (rejecting_builds_outline .standard .empty "root").1 lines (by decide +kernel)
  obtain rfl : leaf "root" 0 = root := Option.some.inj hroot
  rw [hkept] at hresult hforest hchildren
  exact ⟨hresult ⟨3, "d", 5⟩ (by decide +kernel), hforest, hchildren List.nodup_nil⟩

end Codesheet.Builder
