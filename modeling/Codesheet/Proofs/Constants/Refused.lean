import Codesheet.Proofs.Constants.Collapse
import Codesheet.Proofs.Constants.Frame
import Codesheet.Proofs.Grammar.Derived

/-! Steps that fail. A line that is no constant and a rise that is rejected leave the builder as it was. A fall
that fails has closed all levels that it could: the forest stays, but not the place where the next lines go. -/

namespace Codesheet.Builder

variable {b left : Builder} {input : Input} {fault : Fault}

/-- The result of each of some inputs, with the forest behind it. -/
def answers (b : Builder) : List Input → List (Except Fault Unit × Forest)
  | [] => []
  | input :: inputs =>
    ((give input b).2.result, (give input b).1.forest) :: (give input b).1.answers inputs

/-! ### What a failed step leaves -/

/-- What a builder can be after a step with a fault. -/
inductive Leaves (b : Builder) : Fault → Builder → Prop where
  | same {fault : Fault} (h : ∀ line level, fault ≠ .indent line (.unopened level)) : Leaves b fault b
  | closed (line level : Nat) {last parent : List Nat}
    (outermost : [last, parent] = b.positions.drop b.stack.length) :
    Leaves b (.indent line (.unopened level)) { b with last, parent, stack := [] }

theorem Sound.leaves_add (hb : b.Sound) {line : ConstantLine} (h : (add line b).2.result = .error fault) :
    Leaves b fault (add line b).1 := by
  cases hbit : line.bitField? with
  | some name =>
    obtain ⟨_, _, -, -, ha⟩ := annotate_of_sound hb ⟨name, line.value⟩
    rw [add_of_bitField hbit, ha] at h
    cases h
  | none =>
    rcases add_node_cases hb hbit with ⟨_, -, ha⟩ | ⟨-, hok, -⟩
    · have hm := moves_moveTo line.level b
      rw [ha] at h ⊢
      generalize moveTo line.level b = r at h hm
      cases hm with
      | same hl => cases h
      | next hl => cases h
      | collapsed hl hj => cases h
      | rejected hl hj =>
        obtain rfl := Except.error.inj h
        exact .same nofun
      | fallen hl hs hd => cases h
      | unopened hl hs hd =>
        obtain rfl := Except.error.inj h
        exact .closed 0 line.level hd
    · rw [hok] at h
      cases h

theorem Leaves.atLine {cause : IndentCause} (h : Leaves b (.indent 0 cause) left) (number : Nat) :
    Leaves b (.indent number cause) left := by
  cases h with
  | same h =>
    refine .same fun line level heq => h 0 level ?_
    cases heq
    rfl
  | closed line level outermost => exact .closed number level outermost

theorem Sound.leaves_give (hb : b.Sound) (h : (give input b).2.result = .error fault) :
    Leaves b fault (give input b).1 := by
  cases input with
  | constant constant => exact hb.leaves_add h
  | line line =>
    rw [give] at h ⊢
    cases hc : b.grammar.constantLine line.text with
    | ok constant =>
      rw [feed_of_ok hc] at h ⊢
      obtain ⟨bare, hbare, rfl⟩ := Logged.result_atLine_eq_error.1 h
      obtain ⟨cause, rfl⟩ := add_eq_error hb hbare
      exact (hb.leaves_add hbare).atLine line.number
    | error bare =>
      rw [feed_of_error hc] at h ⊢
      obtain rfl := Except.error.inj h
      refine .same fun number level heq => ?_
      obtain rfl | ⟨column, expected, rfl⟩ := Grammar.constantLine_eq_error hc <;> cases heq

theorem Leaves.eq_iff (h : Leaves b fault left) :
    left = b ↔ b.stack = [] ∨ ∀ line level, fault ≠ .indent line (.unopened level) := by
  cases h with
  | same h => exact iff_of_true rfl (.inr h)
  | @closed line level last parent outermost =>
    refine ⟨fun heq => .inl (congrArg stack heq).symm, ?_⟩
    rintro (hstack | hnever)
    · rw [hstack] at outermost
      obtain ⟨rfl, hparent⟩ := List.cons.inj outermost
      obtain rfl := List.singleton_inj.1 (hparent.trans (congrArg (b.parent :: ·) hstack))
      cases b
      cases hstack
      rfl
    · exact absurd rfl (hnever line level)

/-! ### Where the next line goes -/

/-- Where levels are open above the parent, a node was added. -/
theorem Reachable.settled {forest : Forest} (h : Reachable forest b) : b.stack = [] ∨ b.last ≠ [] := by
  induction h with
  | first g jumps name => exact .inl rfl
  | block before g jumps name ih => exact .inl rfl
  | @step b before input ih =>
    have hb := before.sound
    cases hr : (give input b).2.result with
    | error fault =>
      have hleaves := hb.leaves_give hr
      generalize (give input b).1 = left at hleaves
      cases hleaves with
      | same h => exact ih
      | closed line level outermost => exact .inl rfl
    | ok done =>
      obtain ⟨_, -, hannotated⟩ | ⟨_, -, -, hattached⟩ := hb.give_cases hr
      · obtain ⟨hlast, hparents⟩ := List.cons.inj hannotated.positions
        rw [hlast, (List.cons.inj hparents).2]
        exact ih
      · obtain ⟨_, _, _, -, -, -, -, hlast⟩ := hattached.edit
        rw [hlast]
        exact .inr (List.append_ne_nil_of_right_ne_nil _ (List.cons_ne_nil _ _))

/-- A bit field tells two positions in one tree apart. -/
theorem Annotated.forest_ne {field : BitField} {b' built built' : Builder} (hb : b.Sound)
    (h : Annotated field b built) (h' : Annotated field b' built') (hforest : b'.forest = b.forest)
    (hroot : b'.root = b.root) (hlast : b'.last ≠ b.last) : built'.forest ≠ built.forest := by
  obtain ⟨tree, changed, htree, hedit, hbuilt⟩ := h.edit
  obtain ⟨tree', changed', htree', hedit', hbuilt'⟩ := h'.edit
  rw [hforest, hroot] at htree' hbuilt'
  obtain rfl := Option.some.inj (htree.symm.trans htree')
  have hi : b.root < b.forest.roots.length := (List.getElem?_eq_some_iff.1 htree).1
  intro heq
  rw [hbuilt, hbuilt'] at heq
  have hchanged := congrArg (fun f : Forest => f.roots[b.root]?) heq
  simp only [List.getElem?_set_self hi, Option.some.injEq] at hchanged
  subst hchanged
  -- the node added last has one more bit field in the one tree than in the other
  obtain ⟨tree', htree', hdenote⟩ := hb.denote
  obtain rfl := Option.some.inj (htree.symm.trans htree')
  obtain ⟨node, hnode⟩ := Option.isSome_iff_exists.1 (hdenote b.last List.mem_cons_self)
  have hat := Node.alone_of_bitField hedit b.last
  rw [Node.alone_of_bitField hedit' b.last, hnode] at hat
  have hfields := congrArg (Option.map (·.bitFields.length)) hat
  simp [Node.addBitField, if_neg (Ne.symm hlast)] at hfields

theorem Reachable.last_ne {forest : Forest} (h : Reachable forest b) (hleaves : Leaves b fault left)
    (hne : left ≠ b) : left.last ≠ b.last := by
  cases hleaves with
  | same => exact absurd rfl hne
  | @closed line level last parent outermost =>
    have hstack : b.stack ≠ [] := fun hstack => hne ((Leaves.closed line level outermost).eq_iff.2 (.inl hstack))
    have hlast : b.last ≠ [] := h.settled.resolve_left hstack
    obtain ⟨outer, stack, houter⟩ := List.exists_cons_of_ne_nil hstack
    have hm : last ∈ b.parents := by
      rw [houter, List.length_cons, positions, List.drop_succ_cons] at outermost
      exact List.mem_of_mem_drop (outermost ▸ List.mem_cons_self)
    intro heq
    have hnil := (inside_of_isChain h.sound.nested hm).2 heq
    exact hlast (heq ▸ hnil)

theorem Reachable.answers_ne {forest : Forest} (h : Reachable forest b) (hleaves : Leaves b fault left)
    (hleft : left.Sound) (hne : left ≠ b) : ∃ inputs, left.answers inputs ≠ b.answers inputs := by
  -- a bit field is accepted everywhere and shows where the builder stands
  let input : Input := .constant ⟨0, ".x", 0⟩
  have hfield : ∀ g, input.field? g = some ⟨"x", 0⟩ := fun _ => rfl
  have hannotated := (h.sound.give_field (hfield b.grammar)).2
  have hannotated' := (hleft.give_field (hfield left.grammar)).2
  have hkept : left.forest = b.forest ∧ left.root = b.root := by
    cases hleaves <;> exact ⟨rfl, rfl⟩
  refine ⟨[input], fun heq => ?_⟩
  refine hannotated.forest_ne h.sound hannotated' hkept.1 hkept.2 (h.last_ne hleaves hne) ?_
  exact congrArg Prod.snd (List.cons.inj heq).1

/-- A step that fails leaves the forest, the counts and the level. It leaves the builder as it was, unless it
is a fall past some open levels, which it has closed: then the builder stands at the outermost two of its
positions. The steps after it are those after no step at all if and only if the builder is as it was. -/
theorem disturbed_iff_closed {forest : Forest} (reachable : Reachable forest b)
    (failed : (give input b).2.result = .error fault) :
    let left := (give input b).1
    left = { b with last := left.last, parent := left.parent, stack := left.stack } ∧
      (left = b ↔ b.stack = [] ∨ ∀ line level, fault ≠ .indent line (.unopened level)) ∧
      (left ≠ b → left.stack = [] ∧ [left.last, left.parent] = b.positions.drop b.stack.length) ∧
      ((∀ inputs, left.answers inputs = b.answers inputs) ↔ left = b) := by
  intro left
  have hleaves : Leaves b fault left := reachable.sound.leaves_give failed
  have hleft : left.Sound := reachable.sound.sound_give input
  clear_value left
  refine ⟨?_, hleaves.eq_iff, fun hne => ?_, fun hsame => ?_, fun heq inputs => heq ▸ rfl⟩
  · cases hleaves <;> rfl
  · cases hleaves with
    | same => exact absurd rfl hne
    | closed line level outermost => exact ⟨rfl, outermost⟩
  · by_contra hne
    obtain ⟨inputs, hinputs⟩ := reachable.answers_ne hleaves hleft hne
    exact hinputs (hsame inputs)

/-- Levels 1 and 3, and then a fall to level 0. -/
theorem disturbed_by_fall :
    let b := (start .standard .collapse .empty "root").giveEach [.constant ⟨1, "a", 1⟩, .constant ⟨3, "b", 2⟩]
    let left := (give (.constant ⟨0, "c", 3⟩) b).1
    left.stack = [] ∧ [left.last, left.parent] = [[], []] ∧
      ∃ inputs, left.answers inputs ≠ b.answers inputs := by
  intro b left
  have hb : Reachable .empty b := .step (.step (.first .standard .collapse "root") _) _
  have failed : (give (.constant ⟨0, "c", 3⟩) b).2.result = .error (.indent 0 (.unopened 0)) := by decide +kernel
  have hstack : b.stack ≠ [] := by decide +kernel
  have houtermost : b.positions.drop b.stack.length = [[], []] := by decide +kernel
  obtain ⟨-, heq, hleft, hanswers⟩ := disturbed_iff_closed hb failed
  have hne : left ≠ b := fun h => (heq.1 h).elim hstack fun hnever => hnever 0 0 rfl
  exact ⟨(hleft hne).1, (hleft hne).2.trans houtermost, not_forall.1 (mt hanswers.1 hne)⟩

/-- After the failed fall a node of level 3 is put below the root, and without the fall beside the other
node of its level. -/
theorem not_undisturbed_by_fall :
    let b := (start .standard .collapse .empty "root").giveEach [.constant ⟨1, "a", 1⟩, .constant ⟨3, "b", 2⟩]
    let step := give (.constant ⟨0, "c", 3⟩) b
    let next := Input.constant ⟨3, "d", 4⟩
    step.2.result = .error (.indent 0 (.unopened 0)) ∧ step.1.positions ≠ b.positions ∧
      (give next step.1).1.last = [1] ∧ (give next b).1.last = [0, 1] ∧
      step.1.answers [next] ≠ b.answers [next] := by
  decide +kernel

end Codesheet.Builder
