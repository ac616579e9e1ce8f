import Codesheet.Proofs.Constants.Steps
import Mathlib.Data.List.Basic

/-! Blocks of constants beside other trees. A builder only works on the tree of its block, so more
roots in front of that tree are neither read nor changed. And whether a line is accepted does not
depend on any tree, but on the levels of the lines before it in the block. -/

namespace Codesheet.Builder

variable {b b' : Builder}

/-! ### More roots in front -/

/-- The builder with some roots in front of the others. -/
def beside (before : List Node) (b : Builder) : Builder :=
  { b with forest := ⟨before ++ b.forest.roots⟩, root := before.length + b.root }

variable (before : List Node)

theorem getElem?_beside :
    (b.beside before).forest.roots[(b.beside before).root]? = b.forest.roots[b.root]? := by
  show (before ++ b.forest.roots)[before.length + b.root]? = _
  rw [List.getElem?_append_right (Nat.le_add_right _ _), Nat.add_sub_cancel_left]

theorem set_beside (node : Node) :
    (b.beside before).forest.roots.set (b.beside before).root node =
      before ++ b.forest.roots.set b.root node := by
  show (before ++ b.forest.roots).set (before.length + b.root) node = _
  rw [List.set_append_right _ _ (Nat.le_add_right _ _), Nat.add_sub_cancel_left]

theorem nodeAt_beside (path : List Nat) : (b.beside before).nodeAt path = b.nodeAt path := by
  rw [nodeAt, getElem?_beside]
  rfl

theorem edited_beside (f : Node → Node) (path : List Nat) :
    (b.beside before).edited f path = (b.edited f path).map fun forest => ⟨before ++ forest.roots⟩ := by
  rw [edited, edited, getElem?_beside]
  cases b.forest.roots[b.root]? with
  | none => rfl
  | some root =>
    dsimp only
    cases root.editAt? f path with
    | none => rfl
    | some changed =>
      dsimp only
      rw [set_beside]
      rfl

theorem annotate_beside (field : BitField) : Commutes (beside before) (annotate field) b := by
  have hlast : (b.beside before).last = b.last := rfl
  rw [Commutes, annotate, annotate, hlast, edited_beside]
  cases b.edited (·.addBitField field) b.last <;> rfl

theorem attach_beside (node : Node) : Commutes (beside before) (attach node) b := by
  have hparent : (b.beside before).parent = b.parent := rfl
  rw [Commutes, attach, attach, hparent, nodeAt_beside, edited_beside]
  cases b.nodeAt b.parent <;> cases b.edited (·.insertChild node) b.parent <;> rfl

theorem moveTo_beside (level : Nat) : Commutes (beside before) (moveTo level) b :=
  moveTo_commutes (beside before) (fun _ => rfl) (fun _ => rfl) (fun _ => rfl) (fun _ _ => rfl)
    (fun _ _ => rfl) (fun _ _ _ => rfl) level

theorem add_beside (line : ConstantLine) : Commutes (beside before) (add line) b :=
  add_commutes (annotate_beside before) (moveTo_beside before) (fun node _ => attach_beside before node)
    line

theorem feed_beside (line : Line) : Commutes (beside before) (feed line) b := by
  have hgrammar : (b.beside before).grammar = b.grammar := rfl
  cases hc : b.grammar.constantLine line.text with
  | error fault =>
    rw [Commutes, feed_of_error hc, feed_of_error (hgrammar ▸ hc)]
  | ok constant =>
    rw [Commutes, feed_of_ok hc, feed_of_ok (hgrammar ▸ hc), add_beside]

theorem Feeds.beside {lines : List Line} {built : Builder} (h : Feeds b lines built) :
    Feeds (b.beside before) lines (built.beside before) := by
  induction h with
  | nil b => exact .nil _
  | @cons b built line lines accepted rest ih =>
    have hline := @feed_beside b before line
    refine .cons (by rw [hline, accepted]) ?_
    rw [hline]
    exact ih

variable {before} in
/-- A block whose name is new is built at the end, as if there were no other roots. -/
theorem start_beside {name : String} (h : name ∉ before.map (·.name)) (g : Grammar) (jumps : JumpPolicy)
    (roots : List Node) :
    start g jumps ⟨before ++ roots⟩ name = (start g jumps ⟨roots⟩ name).beside before := by
  have hnone : ¬ ∃ node ∈ before, node.name = name := by simpa using h
  have hslot : Forest.slot ⟨before ++ roots⟩ name = before.length + Forest.slot ⟨roots⟩ name := by
    rw [Forest.slot, Forest.slot, List.findIdx_append, if_neg (by simpa using hnone), Nat.add_comm]
  have hroots : Forest.ensureRoot ⟨before ++ roots⟩ name =
      ⟨before ++ (Forest.ensureRoot ⟨roots⟩ name).roots⟩ := by
    rw [Forest.ensureRoot, Forest.ensureRoot, hslot, List.length_append]
    simp only [Nat.add_lt_add_iff_left]
    split_ifs
    · rfl
    · rw [List.append_assoc]
  rw [start, start, beside, hslot, hroots]

/-! ### Other trees -/

/-- Two builders at the same level, with the same number of levels open. -/
structure SameLevels (b b' : Builder) : Prop where
  grammar : b'.grammar = b.grammar
  jumps : b'.jumps = b.jumps
  level : b'.level = b.level
  depth : b'.parents.length = b.parents.length

theorem sameLevels_start (g : Grammar) (jumps : JumpPolicy) (forest forest' : Forest) (name : String) :
    SameLevels (start g jumps forest name) (start g jumps forest' name) :=
  ⟨rfl, rfl, rfl, rfl⟩

theorem SameLevels.refusal? (h : SameLevels b b') (level : Nat) : b'.refusal? level = b.refusal? level := by
  have hstack : b'.stack.length = b.stack.length := Nat.succ.inj h.depth
  rw [Builder.refusal?, Builder.refusal?, h.level, h.jumps, hstack]

theorem SameLevels.parentsAt (h : SameLevels b b') (level : Nat) :
    (b'.parentsAt level).length = (b.parentsAt level).length := by
  rw [Builder.parentsAt, Builder.parentsAt, h.level]
  split_ifs
  · rw [positions, positions, List.length_cons, List.length_cons, h.depth]
  · rw [List.length_drop, List.length_drop, h.depth]

theorem SameLevels.add (h : SameLevels b b') (hb : b.Sound) (hb' : b'.Sound) {line : ConstantLine}
    (accepted : (add line b).2.result = .ok ()) :
    (Builder.add line b').2.result = .ok () ∧ SameLevels (Builder.add line b).1 (Builder.add line b').1 := by
  cases hbit : line.bitField? with
  | some name =>
    obtain ⟨_, _, -, -, ha⟩ := annotate_of_sound hb ⟨name, line.value⟩
    obtain ⟨_, _, -, -, ha'⟩ := annotate_of_sound hb' ⟨name, line.value⟩
    rw [add_of_bitField hbit, ha, ha']
    exact ⟨rfl, h.grammar, h.jumps, h.level, h.depth⟩
  | none =>
    have hc := (hb.add_eq_ok_iff hbit).1 accepted
    have hc' := (h.refusal? line.level).trans hc
    obtain ⟨-, hattached⟩ := hb.add_of_not_refused hbit hc
    obtain ⟨haccepted, hattached'⟩ := hb'.add_of_not_refused hbit hc'
    obtain ⟨hgrammar, hjumps, -⟩ := fixed_add line b
    obtain ⟨hgrammar', hjumps', -⟩ := fixed_add line b'
    refine ⟨haccepted, ?_, ?_, ?_, ?_⟩
    · rw [hgrammar, hgrammar', h.grammar]
    · rw [hjumps, hjumps', h.jumps]
    · rw [hattached.level, hattached'.level]
    · rw [hattached.parents, hattached'.parents, h.parentsAt]

/-- Lines that one builder accepts are accepted by every other one at its level. -/
theorem Feeds.of_sameLevels {lines : List Line} {built : Builder} (h : Feeds b lines built)
    (hlevels : SameLevels b b') (hb : b.Sound) (hb' : b'.Sound) : ∃ built', Feeds b' lines built' := by
  obtain ⟨built', hfeeds, -⟩ := h.related (fun hlevels => hlevels.grammar)
    (fun _ hlevels hb hb' => hlevels.add hb hb') hlevels hb hb'
  exact ⟨built', hfeeds⟩

end Codesheet.Builder
