import Codesheet.Proofs.Constants.Twins
import Codesheet.Proofs.Program.Concatenation

/-! A block of constants that is cut in two. Where jumps are rejected, the second part may be opened again
as a block of its own if it starts with a node at level 1, also after blocks of other names: the same
lines are accepted, and they make the same tree. -/

namespace Codesheet

/-! ### Roots by name -/

namespace Forest

theorem root?_eq_getElem? (f : Forest) (name : String) : f.root? name = f.roots[f.slot name]? :=
  List.find?_eq_getElem?_findIdx

theorem slot_congr {f f' : Forest} (h : f'.labels = f.labels) (name : String) :
    f'.slot name = f.slot name := by
  have hlabels : ∀ f : Forest, f.labels.findIdx (·.1 = name) = f.slot name := fun f => List.findIdx_map ..
  rw [← hlabels, ← hlabels, h]

/-- A root that is added has the place that was kept for it. -/
theorem slot_ensureRoot (f : Forest) (name : String) : (f.ensureRoot name).slot name = f.slot name := by
  by_cases h : f.slot name < f.roots.length
  · rw [ensureRoot, if_pos h]
  · rw [ensureRoot, if_neg h, slot, List.findIdx_append, ← slot, if_neg h]
    have hlength : f.slot name = f.roots.length :=
      Nat.le_antisymm List.findIdx_le_length (Nat.le_of_not_lt h)
    simp [hlength, Node.leaf]

theorem root?_ensureRoot (f : Forest) (name : String) :
    (f.ensureRoot name).root? name = some ((f.root? name).getD (.leaf name 0)) := by
  by_cases h : f.slot name < f.roots.length
  · rw [ensureRoot, if_pos h, root?_eq_getElem?, List.getElem?_eq_getElem h]
    rfl
  · have hnone : f.root? name = none := by
      rw [root?_eq_getElem?, List.getElem?_eq_none (Nat.le_of_not_lt h)]
    rw [ensureRoot, if_neg h, root?, List.find?_append, ← root?, hnone]
    simp [Node.leaf]

theorem root?_ensureRoot_of_ne (f : Forest) {name other : String} (h : name ≠ other) :
    (f.ensureRoot name).root? other = f.root? other := by
  unfold ensureRoot
  split_ifs
  · rfl
  · rw [root?, List.find?_append, ← root?]
    simp [Node.leaf, h]

end Forest

namespace Builder

variable {b built : Builder} {lines : List Line} {name : String}

/-- A node at level 1 is in a body. -/
theorem not_isHeader_of_nodeLine? {g : Grammar} {line : Line} {constant : ConstantLine}
    (h : nodeLine? g line = some constant) (hlevel : constant.level = 1) : ¬ line.isHeader := by
  have hspaces := Grammar.level?_le (Grammar.constantLine_level (nodeLine?_eq_some.1 h).1)
  intro hheader
  have hnone : Grammar.leading line.text = 0 :=
    Grammar.leading_eq_zero (by simpa [Line.isHeader] using hheader)
  omega

/-- The tree of the builder is that of a name. -/
def Owns (name : String) (b : Builder) : Prop := b.forest.slot name = b.root

theorem Owns.root? (h : Owns name b) : b.forest.root? name = b.forest.roots[b.root]? := by
  rw [Forest.root?_eq_getElem?, h]

theorem Owns.exists_root? (h : Owns name b) (hb : b.Sound) : ∃ tree, b.forest.root? name = some tree := by
  obtain ⟨tree, htree, -⟩ := hb.denote
  exact ⟨tree, h.root?.trans htree⟩

theorem owns_start (g : Grammar) (jumps : JumpPolicy) (forest : Forest) (name : String) :
    Owns name (start g jumps forest name) := forest.slot_ensureRoot name

theorem tree_start (g : Grammar) (jumps : JumpPolicy) (forest : Forest) (name : String) :
    (start g jumps forest name).forest.roots[(start g jumps forest name).root]? =
      some ((forest.root? name).getD (.leaf name 0)) := by
  rw [← (owns_start g jumps forest name).root?]
  exact forest.root?_ensureRoot name

theorem Feeds.labels (h : Feeds b lines built) (hb : b.Sound) : built.forest.labels = b.forest.labels := by
  rw [h.eq_giveEach, hb.labels_giveEach]

theorem Owns.feeds (h : Owns name b) (hb : b.Sound) (hf : Feeds b lines built) : Owns name built := by
  rw [Owns, Forest.slot_congr (hf.labels hb), h, (fixed_feeds hf).2]

theorem Feeds.sound (h : Feeds b lines built) (hb : b.Sound) : built.Sound := by
  rw [h.eq_giveEach]
  exact hb.sound_giveEach _

/-- The tree of the builder has another name. -/
def Spares (name : String) (b : Builder) : Prop := ∀ label ∈ b.forest.labels[b.root]?, label.1 ≠ name

theorem spares_start {other : String} (h : name ≠ other) (g : Grammar) (jumps : JumpPolicy)
    (forest : Forest) : Spares other (start g jumps forest name) := by
  intro label hm
  rw [Forest.labels, List.getElem?_map, ← (owns_start g jumps forest name).root?] at hm
  obtain ⟨tree, htree, rfl⟩ := Option.map_eq_some_iff.1 hm
  have hname : tree.name = name := by simpa using List.find?_some htree
  show tree.name ≠ other
  rwa [hname]

theorem Sound.spares_give (hb : b.Sound) (h : Spares name b) (input : Input) : Spares name (give input b).1 := by
  rwa [Spares, (hb.edited_give input).labels, (hb.keeps_give input).root]

/-- A change in one tree is not seen under the name of another. -/
theorem Edited.root?_of_spares {forest : Forest} (h : Edited b forest) (hb : Spares name b) :
    forest.root? name = b.forest.root? name := by
  cases h with
  | same => rfl
  | changed htree hedit =>
    have hne := hb _ (by rw [Forest.labels, List.getElem?_map, htree]; rfl)
    exact find?_set_of_ne htree (congrArg Prod.fst (Node.label_editAt? hedit)) hne

theorem Feeds.root?_of_spares (h : Feeds b lines built) (hb : b.Sound) (hspares : Spares name b) :
    built.forest.root? name = b.forest.root? name := by
  induction h with
  | nil b => rfl
  | @cons b built line lines accepted rest ih =>
    have hedited : Edited b (feed line b).1.forest := hb.edited_give (.line line)
    rw [ih (hb.sound_feed line) (hb.spares_give hspares (.line line)), hedited.root?_of_spares hspares]

theorem Feeds.unique {built' : Builder} (h : Feeds b lines built) (h' : Feeds b lines built') :
    built' = built := by
  rw [h.eq_giveEach, h'.eq_giveEach]

end Builder

namespace Program

open Builder

variable {g : Grammar} {jumps : JumpPolicy} {forest forest' grown grown' : Forest} {blocks : List Block}
  {name : String}

/-! ### Blocks -/

/-- Blocks of other names leave the root of a name. -/
theorem Grows.root?_of_ne (h : Grows g jumps forest blocks grown) (hne : ∀ b ∈ blocks, b.header.name ≠ name) :
    grown.root? name = forest.root? name := by
  induction h with
  | nil forest => rfl
  | @cons forest grown b blocks built fed rest ih =>
    obtain ⟨hb, hrest⟩ := List.forall_mem_cons.1 hne
    rw [ih hrest, fed.root?_of_spares (sound_start g jumps forest b.header.name) (spares_start hb g jumps forest)]
    exact forest.root?_ensureRoot_of_ne hb

theorem Grows.exists_root? (h : Grows g jumps forest blocks grown)
    (hroot : ∃ tree, forest.root? name = some tree) : ∃ tree, grown.root? name = some tree := by
  induction h with
  | nil forest => exact hroot
  | @cons forest grown b blocks built fed rest ih =>
    apply ih
    have hb := sound_start g jumps forest b.header.name
    by_cases hname : b.header.name = name
    · rw [← hname]
      exact ((owns_start g jumps forest b.header.name).feeds hb fed).exists_root? (fed.sound hb)
    · rw [fed.root?_of_spares hb (spares_start hname g jumps forest)]
      rwa [← forest.root?_ensureRoot_of_ne hname] at hroot

/-- What blocks make of the root of a name depends on this root alone. -/
theorem Grows.root?_congr (h : Grows g jumps forest blocks grown) (h' : Grows g jumps forest' blocks grown')
    (hroot : forest'.root? name = forest.root? name) : grown'.root? name = grown.root? name := by
  induction h generalizing forest' with
  | nil forest =>
    cases h'
    exact hroot
  | @cons forest grown b blocks built fed rest ih =>
    obtain _ | ⟨fed', rest'⟩ := h'
    rename_i built'
    apply ih rest'
    have hb := sound_start g jumps forest b.header.name
    have hb' := sound_start g jumps forest' b.header.name
    -- A block of this name is fed to twins, and any other block leaves both roots as they are.
    by_cases hname : b.header.name = name
    · subst hname
      have htwins : Twins (start g jumps forest b.header.name) (start g jumps forest' b.header.name) :=
        ⟨rfl, rfl, rfl, rfl, rfl, by rw [tree_start, tree_start, hroot]⟩
      obtain ⟨other, hfed, hbuilt⟩ := fed.of_twins htwins hb hb'
      obtain rfl := fed'.unique hfed
      rw [((owns_start g jumps forest b.header.name).feeds hb fed).root?,
        ((owns_start g jumps forest' b.header.name).feeds hb' fed').root?, hbuilt.tree]
    · rw [fed.root?_of_spares hb (spares_start hname g jumps forest),
        fed'.root?_of_spares hb' (spares_start hname g jumps forest')]
      exact (forest'.root?_ensureRoot_of_ne hname).trans
        (hroot.trans (forest.root?_ensureRoot_of_ne hname).symm)

/-! ### Runs -/

namespace Stage

variable {stage next : Stage}

theorem Sound.sound_run (hs : stage.Sound) {lines : List Line} (h : run g jumps stage lines = .ok next) :
    next.Sound := by
  induction lines generalizing stage with
  | nil =>
    obtain rfl := Except.ok.inj h
    exact hs
  | cons line lines ih =>
    rw [run_cons] at h
    cases hstep : stage.step g jumps line with
    | error fault =>
      rw [hstep] at h
      cases h
    | ok mid =>
      rw [hstep] at h
      exact ih (hs.sound_step hstep) h

/-- Two texts with a line feed between them are read one after the other. -/
theorem Sound.run_join (hs : stage.Sound) {first second : String} :
    run g jumps stage (Line.ofText (first ++ "\n" ++ second)) = .ok next ↔
      ∃ mid, run g jumps stage (Line.ofText first) = .ok mid ∧
        run g jumps mid (Line.ofText second) = .ok next := by
  rw [Line.ofText_append, run_append]
  cases hfirst : run g jumps stage (Line.ofText first) with
  | error fault => simp [Except.bind]
  | ok mid =>
    have hrest : run g jumps mid ((Line.ofText second).map (Line.renumber (· + lineShift first))) =
        (run g jumps mid (Line.ofText second)).mapError (Fault.renumber (· + lineShift first)) :=
      (hs.sound_run hfirst).run_renumber _ _
    simp only [Except.bind, Except.ok.injEq, exists_eq_left']
    rw [← lineShift, hrest]
    cases run g jumps mid (Line.ofText second) <;> simp [Except.mapError]

/-- Whatever block is open before them, blocks grow the forest. -/
theorem run_blocks_eq_ok_iff {blocks : List Block} (h : ∀ b ∈ blocks, b.WellFormed) :
    (∃ next, run g jumps stage (blocks.flatMap Block.lines) = .ok next ∧ next.forest = grown) ↔
      ∃ q, Adds g jumps stage.forest blocks q ∧ q.constants = grown := by
  have hadd := fun p' => @addAll_eq_ok g jumps blocks h ⟨stage.forest, [], []⟩ p'
  rw [← map_eq_ok, run_blocks (p := ⟨stage.forest, [], []⟩) h rfl, map_eq_ok]
  constructor
  · rintro ⟨p', hp, rfl⟩
    obtain ⟨q, hadds, rfl⟩ := (hadd p').1 hp
    exact ⟨q, hadds, rfl⟩
  · rintro ⟨q, hadds, rfl⟩
    exact ⟨_, (hadd _).2 ⟨q, hadds, rfl⟩, rfl⟩

/-- The lines after those of an open block are blocks of their own. -/
theorem run_constants_eq_ok_iff {b : Builder} {lines : List Line} :
    (∃ next, run g jumps (constants b) lines = .ok next ∧ next.forest = grown) ↔
      ∃ built q, Feeds b (Block.cut lines).1 built ∧
        Adds g jumps built.forest (Block.cut lines).2 q ∧ q.constants = grown := by
  have hrun : run g jumps (constants b) lines =
      ((b.feedAll (Block.cut lines).1).2.result.map fun _ => constants (b.feedAll (Block.cut lines).1).1).bind
        (run g jumps · ((Block.cut lines).2.flatMap Block.lines)) := by
    rw [← run_constants fun line => Block.not_isHeader_of_mem_cut, ← run_append, Block.cut_flatten]
  have hblocks := fun stage => @run_blocks_eq_ok_iff g jumps grown stage (Block.cut lines).2
    fun b => Block.wellFormed_of_mem_cut
  rw [hrun]
  constructor
  · intro h
    cases hfeed : (b.feedAll (Block.cut lines).1).2.result with
    | error fault =>
      rw [hfeed] at h
      obtain ⟨next, hnext, -⟩ := h
      cases hnext
    | ok done =>
      rw [hfeed] at h
      obtain ⟨q, hadds⟩ := (hblocks _).1 h
      exact ⟨_, q, feedAll_iff_feeds.1 ⟨hfeed, rfl⟩, hadds⟩
  · rintro ⟨built, q, hfeeds, hadds⟩
    obtain ⟨hfeed, rfl⟩ := feedAll_iff_feeds.2 hfeeds
    rw [hfeed]
    exact (hblocks (constants _)).2 ⟨q, hadds⟩

/-- Lines that start with a node at level 1 are read on alike in two builders with the same tree. -/
theorem run_of_aligned {b b' : Builder} (hb : b.Aligned) (hb' : b'.Aligned) (hown : Owns name b)
    (hown' : Owns name b') (hgrammar : b'.grammar = b.grammar)
    (htree : b'.forest.roots[b'.root]? = b.forest.roots[b.root]?) {lines : List Line} {line : Line}
    {constant : ConstantLine} (hhead : lines.head? = some line)
    (hline : nodeLine? b.grammar line = some constant) (hlevel : constant.level = 1)
    (hrun : run g jumps (constants b) lines = .ok stage) :
    ∃ stage', run g jumps (constants b') lines = .ok stage' ∧
      ∃ tree, stage.forest.root? name = some tree ∧ stage'.forest.root? name = some tree := by
  obtain ⟨built, q, hfeeds, hadds, hforest⟩ := run_constants_eq_ok_iff.1 ⟨stage, hrun, rfl⟩
  obtain ⟨rest, rfl⟩ := List.head?_eq_some_iff.1 hhead
  have hbody : ¬ line.isHeader := not_isHeader_of_nodeLine? hline hlevel
  rw [Block.cut_indented hbody] at hfeeds hadds
  obtain ⟨built', hfeeds', htwins⟩ := hfeeds.of_aligned hb hb' hgrammar htree hline hlevel
  have hroot : built'.forest.root? name = built.forest.root? name := by
    rw [(hown.feeds hb.sound hfeeds).root?, (hown'.feeds hb'.sound hfeeds').root?, htwins.tree]
  obtain ⟨grown', hgrows⟩ := hadds.constants.exists_of_forest built'.forest
  have hexists : ∃ stage', run g jumps (constants b') (line :: rest) = .ok stage' ∧ stage'.forest = grown' := by
    rw [run_constants_eq_ok_iff, Block.cut_indented hbody]
    exact ⟨built', _, hfeeds', hadds.of_grows hgrows, rfl⟩
  obtain ⟨stage', hrun', rfl⟩ := hexists
  have htwin : stage'.forest.root? name = q.constants.root? name := hadds.constants.root?_congr hgrows hroot
  have hbuilt := (hown.feeds hb.sound hfeeds).exists_root? (hfeeds.sound hb.sound)
  obtain ⟨tree, htree⟩ := hadds.constants.exists_root? hbuilt
  exact ⟨stage', hrun', tree, hforest ▸ htree, htwin.trans htree⟩

/-- A text that ends within a block of constants leaves the builder of this block. -/
theorem exists_builder_of_run {lines : List Line} {last : Block}
    (hlast : (Block.cut lines).2.getLast? = some last) (hkind : last.header.kind = .constants)
    (hrun : run g .reject outside lines = .ok stage) :
    ∃ b, stage = constants b ∧ b.Aligned ∧ b.grammar = g ∧ Owns last.header.name b := by
  obtain ⟨blocks, hblocks⟩ := List.getLast?_eq_some_iff.1 hlast
  have hwell : last.WellFormed :=
    Block.wellFormed_of_mem_cut (hblocks ▸ List.mem_append_right blocks (List.mem_singleton_self last))
  have hlines : (Block.cut lines).1 ++ blocks.flatMap Block.lines ++ last.lines = lines := by
    have hflat := Block.cut_flatten lines
    rwa [hblocks, List.flatMap_append, List.flatMap_singleton, ← List.append_assoc] at hflat
  -- Its header starts a builder whatever was open before, and its body is fed to this builder.
  rw [← hlines, run_append] at hrun
  cases hbefore : run g .reject outside ((Block.cut lines).1 ++ blocks.flatMap Block.lines) with
  | error fault =>
    rw [hbefore] at hrun
    cases hrun
  | ok before =>
    have hopened : before.opened g .reject last.header =
        constants (start g .reject before.forest last.header.name) := by rw [opened, hkind]
    rw [hbefore, Except.bind, Block.lines, run_cons, step_header hwell.1, ← Block.header, Except.bind, hopened,
      run_constants hwell.2] at hrun
    obtain ⟨done, hfeed, rfl⟩ := map_eq_ok.1 hrun
    have hfeeds := feedAll_iff_feeds.1 ⟨hfeed, rfl⟩
    have haligned := aligned_start g before.forest last.header.name
    exact ⟨_, rfl, haligned.feeds hwell.2 hfeeds, (fixed_feeds hfeeds).1,
      (owns_start g .reject before.forest last.header.name).feeds haligned.sound hfeeds⟩

/-- A text that has no block of a name leaves its root, whatever block is open before it. -/
theorem run_of_read {text : String} {r : Program} (h : (read g jumps text).result = .ok r)
    (hname : name ∉ r.constants.roots.map (·.name)) (stage : Stage) :
    ∃ next, run g jumps stage (Line.ofText text) = .ok next ∧
      next.forest.root? name = stage.forest.root? name := by
  have hc := cut_of_read h
  have hadds := (read_eq_ok_iff g jumps hc).1 h
  obtain ⟨grown, hgrows⟩ := hadds.constants.exists_of_forest stage.forest
  have hexists : ∃ next, run g jumps stage (Line.ofText text) = .ok next ∧ next.forest = grown := by
    rw [← Block.lines_of_cut hc, run_blocks_eq_ok_iff fun b => Block.wellFormed_of_mem_cut]
    exact ⟨_, hadds.of_grows hgrows, rfl⟩
  obtain ⟨next, hrun, rfl⟩ := hexists
  refine ⟨next, hrun, hgrows.root?_of_ne fun b hb heq => hname ?_⟩
  exact heq ▸ name_mem_of_read h hb

/-- Texts that have no block of a name lead to a stage with its root, and are read up to there whatever
comes after them. -/
theorem Sound.exists_after {texts : List String}
    (htexts : ∀ text ∈ texts, ∃ r, (read g jumps text).result = .ok r ∧ name ∉ r.constants.roots.map (·.name))
    (hs : stage.Sound) :
    ∃ after, after.Sound ∧ after.forest.root? name = stage.forest.root? name ∧
      ∀ {rest : List String} {next : Stage}, rest ≠ [] →
        (run g jumps stage (Line.ofText ("\n".intercalate (texts ++ rest))) = .ok next ↔
          run g jumps after (Line.ofText ("\n".intercalate rest)) = .ok next) := by
  induction texts generalizing stage with
  | nil => exact ⟨stage, hs, rfl, fun _ => .rfl⟩
  | cons head texts ih =>
    obtain ⟨⟨r, hread, hname⟩, hrest⟩ := List.forall_mem_cons.1 htexts
    obtain ⟨mid, hmid, hroot⟩ := run_of_read hread hname stage
    obtain ⟨after, hafter, hkept, hiff⟩ := ih hrest (hs.sound_run hmid)
    refine ⟨after, hafter, hkept.trans hroot, fun hne => ?_⟩
    rw [List.cons_append, String.intercalate_cons_of_ne_nil (List.append_ne_nil_of_right_ne_nil texts hne),
      hs.run_join, hmid, ← hiff hne]
    simp

/-- The header of a name that is read after such texts opens a builder at the same tree. -/
theorem exists_reopened {b : Builder} (hb : b.Aligned) (hown : Owns name b)
    {between : List String}
    (hbetween : ∀ text ∈ between,
      ∃ r, (read g .reject text).result = .ok r ∧ name ∉ r.constants.roots.map (·.name))
    {opening : String} {head : Line} (hopening : Line.ofText opening = [head]) (hhead : head.isHeader)
    (hkind : (Header.ofLine head).kind = .constants) (hname : (Header.ofLine head).name = name) :
    ∃ b' : Builder, b'.Aligned ∧ b'.grammar = g ∧ Owns name b' ∧
      b'.forest.roots[b'.root]? = b.forest.roots[b.root]? ∧ ∀ (second : String) (next : Stage),
        run g .reject (constants b) (Line.ofText ("\n".intercalate (between ++ [opening, second]))) = .ok next ↔
          run g .reject (constants b') (Line.ofText second) = .ok next := by
  have hs : (constants b).Sound := hb.sound
  obtain ⟨after, hafter, hroot, hiff⟩ := hs.exists_after hbetween
  obtain ⟨tree, htree, -⟩ := hb.sound.denote
  refine ⟨start g .reject after.forest name, aligned_start g after.forest name, rfl,
    owns_start g .reject after.forest name, ?_, fun second next => ?_⟩
  · rw [tree_start, hroot]
    change some ((b.forest.root? name).getD _) = _
    rw [hown.root?, htree, Option.getD_some]
  · have hopened : after.opened g .reject (Header.ofLine head) =
        constants (start g .reject after.forest name) := by rw [opened, hkind, hname]
    have hrun : run g .reject after (Line.ofText opening) =
        .ok (constants (start g .reject after.forest name)) := by
      rw [hopening, run_cons, step_header hhead, hopened]
      rfl
    rw [hiff (List.cons_ne_nil opening [second]), String.intercalate_cons_cons, String.intercalate_singleton,
      hafter.run_join, hrun]
    simp

/-- A text is accepted only if a run over its lines ends, and then with the forest of the last stage. -/
theorem run_eq_ok_iff_read {text : String} :
    (∃ next, run g jumps outside (Line.ofText text) = .ok next ∧ next.forest = grown) ↔
      ∃ p, (Program.read g jumps text).result = .ok p ∧ p.constants = grown := by
  rw [← map_eq_ok, run_ofText, map_eq_ok]

/-- A text that is accepted if the last part of it is, in a builder of a name. -/
structure EndsIn (g : Grammar) (name : String) (b : Builder) (last text : String) : Prop where
  aligned : b.Aligned
  grammar : b.grammar = g
  owns : Owns name b
  run : ∀ next, Stage.run g .reject outside (Line.ofText text) = .ok next ↔
    Stage.run g .reject (constants b) (Line.ofText last) = .ok next

/-- Two texts end in the same way in builders with the same tree, if a node at level 1 is next. -/
theorem EndsIn.read {b b' : Builder} {last text text' : String} (h : EndsIn g name b last text)
    (h' : EndsIn g name b' last text') (htree : b'.forest.roots[b'.root]? = b.forest.roots[b.root]?)
    (hlast : ∃ line constant, (Line.ofText last).head? = some line ∧ nodeLine? g line = some constant ∧
      constant.level = 1) {p : Program} (hp : (Program.read g .reject text).result = .ok p) :
    ∃ p', (Program.read g .reject text').result = .ok p' ∧
      ∃ tree, p.constants.root? name = some tree ∧ p'.constants.root? name = some tree := by
  obtain ⟨line, constant, hhead, hline, hlevel⟩ := hlast
  obtain ⟨next, hrun, hforest⟩ := run_eq_ok_iff_read.2 ⟨p, hp, rfl⟩
  have hgrammar : b'.grammar = b.grammar := h'.grammar.trans h.grammar.symm
  obtain ⟨next', hrun', tree, hroot, hroot'⟩ := run_of_aligned h.aligned h'.aligned h.owns h'.owns
    hgrammar htree hhead (h.grammar ▸ hline) hlevel ((h.run next).1 hrun)
  obtain ⟨p', hp', hforest'⟩ := run_eq_ok_iff_read.1 ⟨next', (h'.run next').2 hrun', rfl⟩
  exact ⟨p', hp', tree, hforest ▸ hroot, hforest' ▸ hroot'⟩

end Stage

/-- Two results that are both programs, with the same tree under a name, or both faults. -/
structure AgreeOn (name : String) (result result' : Except Fault Program) : Prop where
  accepted : (∃ p, result = .ok p) ↔ ∃ p', result' = .ok p'
  root : ∀ p p', result = .ok p → result' = .ok p' →
    ∃ tree, p.constants.root? name = some tree ∧ p'.constants.root? name = some tree

theorem Stage.EndsIn.agreeOn {b b' : Builder} {last text text' : String} (h : EndsIn g name b last text)
    (h' : EndsIn g name b' last text') (htree : b'.forest.roots[b'.root]? = b.forest.roots[b.root]?)
    (hlast : ∃ line constant, (Line.ofText last).head? = some line ∧ nodeLine? g line = some constant ∧
      constant.level = 1) :
    AgreeOn name (Program.read g .reject text).result (Program.read g .reject text').result := by
  constructor
  · constructor
    · rintro ⟨p, hp⟩
      obtain ⟨p', hp', -⟩ := h.read h' htree hlast hp
      exact ⟨p', hp'⟩
    · rintro ⟨p', hp'⟩
      obtain ⟨p, hp, -⟩ := h'.read h htree.symm hlast hp'
      exact ⟨p, hp⟩
  · intro p p' hp hp'
    obtain ⟨other, hother, hroots⟩ := h.read h' htree hlast hp
    obtain rfl := Except.ok.inj (hp'.symm.trans hother)
    exact hroots

/-- Where jumps are rejected, a block of constants may be cut before a node at level 1. The second part
is opened again under the same name, next to the first or after texts that have no such block. Both texts
are accepted or neither is, and the root of that name has the same tree. -/
theorem parse_reopened (unit : Nat) (valid : 0 < unit) (name first opening second : String)
    (between : List String)
    (hfirst : ∃ last, (Block.cut (Line.ofText first)).2.getLast? = some last ∧
      last.header.kind = .constants ∧ last.header.name = name)
    (hbetween : ∀ text ∈ between, ∃ r, (parse ⟨unit, .reject⟩ text).result = .ok r ∧
      name ∉ r.constants.roots.map (·.name))
    (hopening : ∃ head, Line.ofText opening = [head] ∧ head.isHeader ∧
      (Header.ofLine head).kind = .constants ∧ (Header.ofLine head).name = name)
    (hsecond : ∃ line constant, (Line.ofText second).head? = some line ∧
      Builder.nodeLine? ⟨unit, valid⟩ line = some constant ∧ constant.level = 1) :
    AgreeOn name (parse ⟨unit, .reject⟩ ("\n".intercalate [first, second])).result
      (parse ⟨unit, .reject⟩ ("\n".intercalate ([first] ++ between ++ [opening, second]))).result := by
  have hparse : ∀ text, parse ⟨unit, .reject⟩ text = read ⟨unit, valid⟩ .reject text :=
    parse_of_valid valid
  simp only [hparse] at hbetween ⊢
  have houtside : Stage.outside.Sound := trivial
  have hjoin : ∀ rest next, rest ≠ [] →
      (Stage.run ⟨unit, valid⟩ .reject .outside (Line.ofText ("\n".intercalate (first :: rest))) = .ok next ↔
        ∃ mid, Stage.run ⟨unit, valid⟩ .reject .outside (Line.ofText first) = .ok mid ∧
          Stage.run ⟨unit, valid⟩ .reject mid (Line.ofText ("\n".intercalate rest)) = .ok next) := by
    intro rest next hne
    rw [String.intercalate_cons_of_ne_nil hne, houtside.run_join]
  obtain ⟨last, hlast, hkind, hname⟩ := hfirst
  obtain ⟨head, hhead, hheader, hopens, hopened⟩ := hopening
  -- If the first part is not accepted, nothing after it is read, so neither text is accepted.
  by_cases hread : ∃ mid, Stage.run ⟨unit, valid⟩ .reject .outside (Line.ofText first) = .ok mid
  · obtain ⟨mid, hrun⟩ := hread
    obtain ⟨b, rfl, hb, hgrammar, hown⟩ := Stage.exists_builder_of_run hlast hkind hrun
    rw [hname] at hown
    obtain ⟨b', hb', hgrammar', hown', htree, hiff⟩ :=
      Stage.exists_reopened hb hown hbetween hhead hheader hopens hopened
    have hwhole : Stage.EndsIn ⟨unit, valid⟩ name b second ("\n".intercalate [first, second]) := by
      refine ⟨hb, hgrammar, hown, fun next => ?_⟩
      rw [hjoin [second] next (List.cons_ne_nil second []), hrun, String.intercalate_singleton]
      simp
    have hparts : Stage.EndsIn ⟨unit, valid⟩ name b' second
        ("\n".intercalate ([first] ++ between ++ [opening, second])) := by
      refine ⟨hb', hgrammar', hown', fun next => ?_⟩
      rw [List.append_assoc, List.singleton_append, hjoin _ next (by simp), hrun, ← hiff]
      simp
    exact hwhole.agreeOn hparts htree hsecond
  · have hnone : ∀ rest p, rest ≠ [] →
        (read ⟨unit, valid⟩ .reject ("\n".intercalate (first :: rest))).result ≠ .ok p := by
      intro rest p hne hp
      obtain ⟨next, hnext, -⟩ := Stage.run_eq_ok_iff_read.2 ⟨p, hp, rfl⟩
      obtain ⟨mid, hmid, -⟩ := (hjoin rest next hne).1 hnext
      exact hread ⟨mid, hmid⟩
    have hwhole := fun p => hnone [second] p (List.cons_ne_nil second [])
    have hparts := fun p => hnone (between ++ [opening, second]) p (by simp)
    exact ⟨⟨fun ⟨p, hp⟩ => absurd hp (hwhole p), fun ⟨p, hp⟩ => absurd hp (hparts p)⟩,
      fun p _ hp _ => absurd hp (hwhole p)⟩

/-- The second part replaces a node of the first, which ends three levels deep. Between them are a table,
a block of constants and a block of code. -/
theorem parse_reopened_replaced_node :
    let first := "_r:\n  a: 1\n    b: 2\n      c: 3"
    let between := ["#t:\n  x:@s\n_q:\n  a: 4", "main:\n  NOP"]
    let second := "  a: 5\n  d: 6\n    .f: 7\n"
    ∃ p p', (parse ⟨2, .reject⟩ ("\n".intercalate [first, second])).result = .ok p ∧
      (parse ⟨2, .reject⟩ ("\n".intercalate ([first] ++ between ++ ["_r:", second]))).result = .ok p' ∧
      p.constants.root? "r" = some ⟨"r", 0, [.leaf "a" 5, ⟨"d", 6, [], [⟨"f", 7⟩]⟩], []⟩ ∧
      p'.constants.root? "r" = some ⟨"r", 0, [.leaf "a" 5, ⟨"d", 6, [], [⟨"f", 7⟩]⟩], []⟩ := by
  intro first between second
  have hp : (parse ⟨2, .reject⟩ ("\n".intercalate [first, second])).result = .ok
      ⟨⟨[⟨"r", 0, [.leaf "a" 5, ⟨"d", 6, [], [⟨"f", 7⟩]⟩], []⟩]⟩, [], []⟩ := by decide +kernel
  have hlines : Line.ofText first = [⟨1, "_r:"⟩, ⟨2, "  a: 1"⟩, ⟨3, "    b: 2"⟩, ⟨4, "      c: 3"⟩] := by
    decide +kernel
  have hlast : (Block.cut (Line.ofText first)).2.getLast? =
      some ⟨⟨1, "_r:"⟩, [⟨2, "  a: 1"⟩, ⟨3, "    b: 2"⟩, ⟨4, "      c: 3"⟩]⟩ := by
    rw [hlines, Block.cut_header (by decide +kernel)]
    rfl
  have htable : (parse ⟨2, .reject⟩ "#t:\n  x:@s\n_q:\n  a: 4").result = .ok
      ⟨⟨[⟨"q", 0, [.leaf "a" 4], []⟩]⟩, [⟨"x", ⟨.address "s", []⟩, 2⟩], []⟩ := by decide +kernel
  have hcode : (parse ⟨2, .reject⟩ "main:\n  NOP").result = .ok ⟨.empty, [], [⟨none, "NOP", [], 1, 2⟩]⟩ := by
    decide +kernel
  have hbetween : ∀ text ∈ between, ∃ r, (parse ⟨2, .reject⟩ text).result = .ok r ∧
      "r" ∉ r.constants.roots.map (·.name) :=
    List.forall_mem_cons.2 ⟨⟨_, htable, by decide⟩, List.forall_mem_singleton.2 ⟨_, hcode, by decide⟩⟩
  have hopening : Line.ofText "_r:" = [⟨1, "_r:"⟩] := by decide +kernel
  have hsecond : (Line.ofText second).head? = some ⟨1, "  a: 5"⟩ := by decide +kernel
  obtain ⟨haccepted, hroot⟩ := parse_reopened 2 (by decide) "r" first "_r:" second between
    ⟨_, hlast, by decide +kernel, by decide +kernel⟩ hbetween
    ⟨_, hopening, by decide +kernel, by decide +kernel, by decide +kernel⟩
    ⟨_, ⟨1, "a", 5⟩, hsecond, by decide +kernel, rfl⟩
  obtain ⟨p', hp'⟩ := haccepted.1 ⟨_, hp⟩
  obtain ⟨tree, htree, htree'⟩ := hroot _ p' hp hp'
  have hr : some (⟨"r", 0, [.leaf "a" 5, ⟨"d", 6, [], [⟨"f", 7⟩]⟩], []⟩ : Node) = some tree := htree
  exact ⟨_, p', hp, hp', hr ▸ htree, hr ▸ htree'⟩

end Program

end Codesheet
