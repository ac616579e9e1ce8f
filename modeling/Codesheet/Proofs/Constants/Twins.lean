import Codesheet.Proofs.Constants.Beside
import Codesheet.Proofs.Constants.Edits
import Codesheet.Proofs.Constants.Reject

/-! Builders that stand at the same place of the same tree, each in a forest of its own. They accept the
same lines and go on alike. Where jumps are rejected, a node at level 1 closes all positions but those of
the root, so after it every builder stands where a builder stands that has just opened its block. -/

namespace Codesheet.Builder

variable {b b' : Builder}

/-! ### The same tree in two forests -/

/-- Two builders at the same positions of the same tree. -/
structure Twins (b b' : Builder) : Prop where
  grammar : b'.grammar = b.grammar
  jumps : b'.jumps = b.jumps
  level : b'.level = b.level
  last : b'.last = b.last
  parents : b'.parents = b.parents
  tree : b'.forest.roots[b'.root]? = b.forest.roots[b.root]?

theorem Twins.sameLevels (h : Twins b b') : SameLevels b b' :=
  ⟨h.grammar, h.jumps, h.level, congrArg List.length h.parents⟩

theorem Twins.parentsAt (h : Twins b b') (level : Nat) : b'.parentsAt level = b.parentsAt level := by
  rw [parentsAt_eq_drop, parentsAt_eq_drop, positions, positions, h.level, h.last, h.parents]

/-- Nodes that are attached at the same place of the same tree leave twins. -/
theorem Attached.twins {line : ConstantLine} (h : Attached line b (add line b).1)
    (h' : Attached line b' (add line b').1) (hgrammar : b'.grammar = b.grammar) (hjumps : b'.jumps = b.jumps)
    (htree : b'.forest.roots[b'.root]? = b.forest.roots[b.root]?)
    (hparents : (add line b').1.parents = (add line b).1.parents) :
    Twins (add line b).1 (add line b').1 := by
  obtain ⟨root, parent, changed, hroot, hparent, hchanged, hforest, hlast⟩ := h.edit
  obtain ⟨root', parent', changed', hroot', hparent', hchanged', hforest', hlast'⟩ := h'.edit
  obtain ⟨hg, hj, hr⟩ := fixed_add line b
  obtain ⟨hg', hj', hr'⟩ := fixed_add line b'
  -- The same node is attached in the same place of the same tree, so the changed trees are the same.
  have houter : (add line b').1.parent = (add line b).1.parent := (List.cons.inj hparents).1
  obtain rfl : root = root' := Option.some.inj (hroot.symm.trans (htree.symm.trans hroot'))
  rw [houter] at hparent' hchanged' hlast'
  obtain rfl := Option.some.inj (hparent.symm.trans hparent')
  obtain rfl := Option.some.inj (hchanged.symm.trans hchanged')
  refine ⟨?_, ?_, ?_, ?_, hparents, ?_⟩
  · rw [hg, hg', hgrammar]
  · rw [hj, hj', hjumps]
  · rw [h.level, h'.level]
  · rw [hlast, hlast']
  · rw [hforest, hforest', hr, hr']
    exact (List.getElem?_set_self (List.getElem?_eq_some_iff.1 hroot').1).trans
      (List.getElem?_set_self (List.getElem?_eq_some_iff.1 hroot).1).symm

/-- Twins add a line alike. -/
theorem Twins.add (h : Twins b b') (hb : b.Sound) (hb' : b'.Sound) {line : ConstantLine}
    (accepted : (add line b).2.result = .ok ()) :
    (Builder.add line b').2.result = .ok () ∧ Twins (Builder.add line b).1 (Builder.add line b').1 := by
  refine ⟨(h.sameLevels.add hb hb' accepted).1, ?_⟩
  cases hbit : line.bitField? with
  | some name =>
    obtain ⟨root, changed, hroot, hchanged, ha⟩ := annotate_of_sound hb ⟨name, line.value⟩
    obtain ⟨root', changed', hroot', hchanged', ha'⟩ := annotate_of_sound hb' ⟨name, line.value⟩
    obtain rfl : root = root' := Option.some.inj (hroot.symm.trans (h.tree.symm.trans hroot'))
    rw [h.last] at hchanged'
    obtain rfl := Option.some.inj (hchanged.symm.trans hchanged')
    rw [add_of_bitField hbit, ha, ha']
    refine ⟨h.grammar, h.jumps, h.level, h.last, h.parents, ?_⟩
    exact (List.getElem?_set_self (List.getElem?_eq_some_iff.1 hroot').1).trans
      (List.getElem?_set_self (List.getElem?_eq_some_iff.1 hroot).1).symm
  | none =>
    have hc := (hb.add_eq_ok_iff hbit).1 accepted
    have hc' := (h.sameLevels.refusal? line.level).trans hc
    have hattached := (hb.add_of_not_refused hbit hc).2
    have hattached' := (hb'.add_of_not_refused hbit hc').2
    refine hattached.twins hattached' h.grammar h.jumps h.tree ?_
    rw [hattached.parents, hattached'.parents, h.parentsAt]

theorem Feeds.of_twins {lines : List Line} {built : Builder} (h : Feeds b lines built) (htwins : Twins b b')
    (hb : b.Sound) (hb' : b'.Sound) : ∃ built', Feeds b' lines built' ∧ Twins built built' :=
  h.related (fun htwins => htwins.grammar) (fun _ htwins hb hb' => htwins.add hb hb') htwins hb hb'

/-! ### Back at the root -/

/-- At level 1 no position is open but those of the root. -/
theorem Aligned.parents_eq (h : b.Aligned) (hlevel : b.level = 1) : b.parents = [[], []] := by
  have hlength : b.parents.length = 2 := by
    rw [parents, List.length_cons, h.depth, hlevel]
  have hroot : ∀ path ∈ b.parents, path = [] := by
    intro path hm
    obtain ⟨i, hi⟩ := List.getElem?_of_mem hm
    have hpath : path.length = b.level - (i + 1) := h.aligned (i + 1) path hi
    exact List.eq_nil_of_length_eq_zero (by omega)
  rw [List.eq_replicate_of_mem hroot, hlength]
  rfl

/-- From everywhere in a tree a node at level 1 leads to the same place. -/
theorem Aligned.twins_add (h : b.Aligned) (h' : b'.Aligned) (hgrammar : b'.grammar = b.grammar)
    (htree : b'.forest.roots[b'.root]? = b.forest.roots[b.root]?) {line : ConstantLine}
    (hnode : line.bitField? = none) (hlevel : line.level = 1) :
    (Builder.add line b').2.result = .ok () ∧ Twins (Builder.add line b).1 (Builder.add line b').1 := by
  have hnext : (Builder.add line b).1.Aligned := h.add (by omega)
  have hnext' : (Builder.add line b').1.Aligned := h'.add (by omega)
  obtain ⟨-, hattached, -, -⟩ := h.sound.add_of_accepted h.jumps h.depth hnode (by omega)
  obtain ⟨haccepted, hattached', -, -⟩ := h'.sound.add_of_accepted h'.jumps h'.depth hnode (by omega)
  refine ⟨haccepted, hattached.twins hattached' hgrammar (by rw [h.jumps, h'.jumps]) htree ?_⟩
  rw [hnext.parents_eq (hattached.level.trans hlevel), hnext'.parents_eq (hattached'.level.trans hlevel)]

/-- Lines that start with a node at level 1 are accepted from everywhere in a tree, or from nowhere, and
make the same of it. -/
theorem Feeds.of_aligned {line : Line} {lines : List Line} {built : Builder}
    (h : Feeds b (line :: lines) built) (hb : b.Aligned) (hb' : b'.Aligned)
    (hgrammar : b'.grammar = b.grammar) (htree : b'.forest.roots[b'.root]? = b.forest.roots[b.root]?)
    {constant : ConstantLine} (hline : nodeLine? b.grammar line = some constant)
    (hlevel : constant.level = 1) : ∃ built', Feeds b' (line :: lines) built' ∧ Twins built built' := by
  obtain ⟨hc, hnode⟩ := nodeLine?_eq_some.1 hline
  have hc' : b'.grammar.constantLine line.text = .ok constant := by rw [hgrammar, hc]
  obtain ⟨haccepted, htwins⟩ := hb.twins_add hb' hgrammar htree hnode hlevel
  obtain _ | ⟨-, hrest⟩ := h
  rw [feed_of_ok hc] at hrest
  obtain ⟨built', hrest', hbuilt⟩ :=
    hrest.of_twins htwins (hb.sound.sound_add constant) (hb'.sound.sound_add constant)
  refine ⟨built', .cons ?_ ?_, hbuilt⟩
  · rw [feed_of_ok hc', Logged.result_atLine_eq_ok, haccepted]
  · rwa [feed_of_ok hc']

end Codesheet.Builder
