import Codesheet.Proofs.Constants.Bare

/-! The node that a bit field is for. It is the node added last in the block, or the root, and what its line
measures does not matter. So every node that is left has the bit fields of the lines right behind its own. -/

namespace Codesheet

/-- A node that was added: its line, the place where it was put, and the bit fields of the lines behind it. -/
structure Mark where
  constant : ConstantLine
  place : List Nat
  fields : List BitField

def Mark.node (mark : Mark) : Node := ⟨mark.constant.name, mark.constant.value, [], mark.fields⟩

def Node.addBitFields (n : Node) (fields : List BitField) : Node := { n with bitFields := n.bitFields ++ fields }

theorem Node.addBitFields_nil (n : Node) : n.addBitFields [] = n := by
  cases n
  rw [addBitFields, List.append_nil]

theorem Node.bitField?_eq_some_iff {n : Node} {name : String} {field : BitField} :
    n.bitField? name = some field ↔ ∃ before after, n.bitFields = before ++ field :: after ∧
      field.name = name ∧ ∀ other ∈ before, other.name ≠ name := by
  rw [bitField?, List.find?_eq_some_iff_append]
  simp only [decide_eq_true_eq, Bool.not_eq_true', decide_eq_false_iff_not]
  constructor
  · rintro ⟨hname, before, after, hfields, hbefore⟩
    exact ⟨before, after, hfields, hname, hbefore⟩
  · rintro ⟨before, after, hfields, hname, hbefore⟩
    exact ⟨hname, before, after, hfields, hbefore⟩

namespace Builder

variable {b built : Builder} {g : Grammar} {input : Input} {inputs : List Input} {constant : ConstantLine}

/-! ### Bit fields by their places among the inputs -/

/-- The bit fields in front of the first node. -/
def leading (g : Grammar) : List Input → List BitField
  | [] => []
  | input :: inputs =>
    match input.field? g with
    | some field => field :: leading g inputs
    | none => []

/-- The nodes that inputs add, the first one first. -/
def marks (b : Builder) : List Input → List Mark
  | [] => []
  | input :: inputs =>
    let built := (give input b).1
    match input.node? b.grammar with
    | some constant => ⟨constant, built.last, leading b.grammar inputs⟩ :: built.marks inputs
    | none => built.marks inputs

/-- The last node that was put on the way to a place. -/
def lastOn (marks : List Mark) (place : List Nat) : Option Mark := marks.reverse.find? (·.place <+: place)

/-- The node at a place after some inputs, without its children. The last node that was put on the way to the
place decides; if there is none, then the old node is still there, and only the one added last before the
inputs has more bit fields. -/
def recorded (b : Builder) (tree : Node) (inputs : List Input) (place : List Nat) : Option Node :=
  match lastOn (b.marks inputs) place with
  | some mark => if place = mark.place then some mark.node else none
  | none => ((tree.at? place).map Node.alone).map fun node =>
      if place = b.last then node.addBitFields (leading b.grammar inputs) else node

theorem lastOn_cons (mark : Mark) (marks : List Mark) (place : List Nat) :
    lastOn (mark :: marks) place =
      match lastOn marks place with
      | some later => some later
      | none => if mark.place <+: place then some mark else none := by
  rw [lastOn, lastOn, List.reverse_cons, List.find?_append]
  cases marks.reverse.find? (·.place <+: place) with
  | some later => rfl
  | none => by_cases h : mark.place <+: place <;> simp [h]

theorem field?_of_node (h : input.node? b.grammar = some constant) : input.field? b.grammar = none := by
  rcases input_cases b input with ⟨_, -, hnode⟩ | ⟨_, -, hfield⟩ | ⟨hfield, -, -⟩
  · rw [hnode] at h
    cases h
  · exact hfield
  · exact hfield

theorem marks_cons_field {field : BitField} (h : input.field? b.grammar = some field) (inputs : List Input) :
    b.marks (input :: inputs) = (give input b).1.marks inputs := by
  cases hnode : input.node? b.grammar with
  | none => simp only [marks, hnode]
  | some constant =>
    rw [field?_of_node hnode] at h
    cases h

theorem marks_cons_node (h : input.node? b.grammar = some constant) (inputs : List Input) :
    b.marks (input :: inputs) =
      ⟨constant, (give input b).1.last, leading b.grammar inputs⟩ :: (give input b).1.marks inputs := by
  simp only [marks, h]

/-! ### Steps -/

theorem recorded_nil (b : Builder) (tree : Node) (place : List Nat) :
    b.recorded tree [] place = (tree.at? place).map Node.alone := by
  have hnone : lastOn (b.marks []) place = none := rfl
  rw [recorded, hnone]
  cases (tree.at? place).map Node.alone <;> simp [leading, Node.addBitFields_nil]

theorem recorded_of_field (hb : b.Sound) {field : BitField} (h : input.field? b.grammar = some field)
    {tree changed : Node} (hedit : Node.editAt? (·.addBitField field) b.last tree = some changed)
    (place : List Nat) :
    (give input b).1.recorded changed inputs place = b.recorded tree (input :: inputs) place := by
  have hlast : (give input b).1.last = b.last := (List.cons.inj (hb.give_field h).2.positions).1
  have hleading : leading b.grammar (input :: inputs) = field :: leading b.grammar inputs := by
    simp only [leading, h]
  rw [recorded, recorded, marks_cons_field h, hlast, grammar_give, hleading, Node.alone_of_bitField hedit]
  cases lastOn ((give input b).1.marks inputs) place with
  | some mark => rfl
  | none =>
    cases (tree.at? place).map Node.alone with
    | none => rfl
    | some node => by_cases hplace : place = b.last <;> simp [hplace, Node.addBitField, Node.addBitFields]

theorem recorded_of_node (h : input.node? b.grammar = some constant)
    {tree parent changed : Node} {outer : List Nat} (hparent : tree.at? outer = some parent)
    (hedit : Node.editAt? (·.insertChild (.leaf constant.name constant.value)) outer tree = some changed)
    (hlast : (give input b).1.last = outer ++ [parent.slot constant.name]) (place : List Nat) :
    (give input b).1.recorded changed inputs place = b.recorded tree (input :: inputs) place := by
  have hleading : leading b.grammar (input :: inputs) = [] := by
    simp only [leading, field?_of_node h]
  rw [recorded, recorded, marks_cons_node h, lastOn_cons, grammar_give, hleading,
    Node.alone_of_leaf hedit hparent, ← hlast]
  cases lastOn ((give input b).1.marks inputs) place with
  | some mark => rfl
  | none =>
    dsimp only
    by_cases hinside : (give input b).1.last <+: place
    · by_cases hplace : place = (give input b).1.last <;>
        simp [hinside, hplace, Mark.node, Node.leaf, Node.addBitFields]
    · have hne : place ≠ (give input b).1.last := fun heq => hinside (heq ▸ List.prefix_rfl)
      simp only [if_neg hinside, if_neg hne]
      cases (tree.at? place).map Node.alone <;> simp [Node.addBitFields_nil]

/-! ### Runs -/

theorem Accepts.recorded (h : Accepts b inputs built) (hb : b.Sound) {tree : Node}
    (htree : b.forest.roots[b.root]? = some tree) :
    ∃ tree', built.forest.roots = b.forest.roots.set b.root tree' ∧
      ∀ place, (tree'.at? place).map Node.alone = b.recorded tree inputs place := by
  induction h generalizing tree with
  | nil b =>
    obtain ⟨hi, htree⟩ := List.getElem?_eq_some_iff.1 htree
    refine ⟨tree, ?_, fun place => (b.recorded_nil tree place).symm⟩
    rw [← htree, List.set_getElem_self]
  | @cons b built input inputs accepted rest ih =>
    have hi : b.root < b.forest.roots.length := (List.getElem?_eq_some_iff.1 htree).1
    -- either step changes the tree of the block, and the run goes on from the changed one
    have hnext : ∀ changed, (give input b).1.root = b.root →
        (give input b).1.forest = ⟨b.forest.roots.set b.root changed⟩ →
        (∀ place, (give input b).1.recorded changed inputs place = b.recorded tree (input :: inputs) place) →
        ∃ tree', built.forest.roots = b.forest.roots.set b.root tree' ∧
          ∀ place, (tree'.at? place).map Node.alone = b.recorded tree (input :: inputs) place := by
      intro changed hroot hforest hrecorded
      have htree' : (give input b).1.forest.roots[(give input b).1.root]? = some changed := by
        rw [hforest, hroot]
        exact List.getElem?_set_self hi
      obtain ⟨tree', hbuilt, hplaces⟩ := ih (hb.sound_give input) htree'
      rw [hforest, hroot, List.set_set] at hbuilt
      exact ⟨tree', hbuilt, fun place => (hplaces place).trans (hrecorded place)⟩
    obtain ⟨field, hfield, hannotated⟩ | ⟨constant, hnode, hroot, hattached⟩ := hb.give_cases accepted
    · obtain ⟨-, hroot, tree', changed, htree', hedit, hforest⟩ := hannotated
      obtain rfl := Option.some.inj (htree.symm.trans htree')
      exact hnext changed hroot hforest (recorded_of_field hb hfield hedit)
    · obtain ⟨tree', parent, changed, htree', hparent, hedit, hforest, hlast⟩ := hattached.edit
      obtain rfl := Option.some.inj (htree.symm.trans htree')
      exact hnext changed hroot hforest (recorded_of_node hnode hparent hedit hlast)

/-! ### The node added last -/

theorem leading_concat_node (h : input.field? g = none) (inputs : List Input) :
    leading g (inputs ++ [input]) = leading g inputs := by
  induction inputs with
  | nil => simp [leading, h]
  | cons first inputs ih => rw [List.cons_append, leading, leading, ih]

theorem marks_concat_node (h : input.node? b.grammar = some constant) (inputs : List Input) :
    b.marks (inputs ++ [input]) =
      b.marks inputs ++ [⟨constant, (give input (b.giveEach inputs)).1.last, []⟩] := by
  induction inputs generalizing b with
  | nil => exact marks_cons_node h []
  | cons first inputs ih =>
    have hgrammar := grammar_give first b
    have hrest := @ih (give first b).1 (hgrammar ▸ h)
    rw [List.cons_append]
    cases hnode : first.node? b.grammar with
    | none =>
      simp only [marks, hnode]
      exact hrest
    | some other =>
      rw [marks_cons_node hnode, marks_cons_node hnode, leading_concat_node (field?_of_node h), hrest]
      rfl

/-- The builder stands at the node added last, or where it was. -/
theorem Accepts.last_eq (h : Accepts b inputs built) (hb : b.Sound) :
    built.last = ((b.marks inputs).getLast?.map (·.place)).getD b.last := by
  induction h with
  | nil b => rfl
  | @cons b built input inputs accepted rest ih =>
    have hlast := ih (hb.sound_give input)
    obtain ⟨field, hfield, hannotated⟩ | ⟨constant, hnode, -, -⟩ := hb.give_cases accepted
    · rw [marks_cons_field hfield, hlast, (List.cons.inj hannotated.positions).1]
    · rw [marks_cons_node hnode, hlast, List.getLast?_cons]
      cases ((give input b).1.marks inputs).getLast? <;> rfl

theorem giveEach_concat (inputs : List Input) (input : Input) (b : Builder) :
    b.giveEach (inputs ++ [input]) = (give input (b.giveEach inputs)).1 :=
  List.foldl_concat _ _ _ _

theorem Accepts.append {before after : List Input} (h : Accepts b (before ++ after) built) :
    Accepts b before (b.giveEach before) ∧ Accepts (b.giveEach before) after built := by
  induction before generalizing b with
  | nil => exact ⟨.nil b, h⟩
  | cons input before ih =>
    obtain _ | ⟨accepted, rest⟩ := h
    obtain ⟨hbefore, hafter⟩ := ih rest
    exact ⟨.cons accepted hbefore, hafter⟩

/-- A bit field is for the node added last, whatever the level of its line. -/
theorem Accepts.edited_of_field {before after : List Input} {field : BitField}
    (h : Accepts b (before ++ input :: after) built) (hb : b.Sound)
    (hfield : input.field? b.grammar = some field) :
    (b.giveEach before).edited (·.addBitField field)
        (((b.marks before).getLast?.map (·.place)).getD b.last) =
      .ok (b.giveEach (before ++ [input])).forest := by
  obtain ⟨hbefore, -⟩ := h.append
  rw [← fixed_giveEach before b] at hfield
  obtain ⟨-, -, tree, changed, htree, hedit, hforest⟩ := ((hb.sound_giveEach before).give_field hfield).2
  rw [← hbefore.last_eq hb, edited_eq_ok htree hedit, giveEach_concat, hforest]

/-- A node is put as a leaf at the place of its mark. -/
theorem Accepts.edited_of_node {before after : List Input} (h : Accepts b (before ++ input :: after) built)
    (hb : b.Sound) (hnode : input.node? b.grammar = some constant) :
    ∃ outer parent, (b.giveEach before).nodeAt outer = .ok parent ∧
      (b.giveEach before).edited (·.insertChild (.leaf constant.name constant.value)) outer =
        .ok (b.giveEach (before ++ [input])).forest ∧
      b.marks (before ++ [input]) =
        b.marks before ++ [⟨constant, outer ++ [parent.slot constant.name], []⟩] := by
  obtain ⟨-, _ | ⟨accepted, -⟩⟩ := h.append
  rw [marks_concat_node hnode]
  rw [← fixed_giveEach before b] at hnode
  obtain ⟨-, hattached⟩ := (hb.sound_giveEach before).give_node hnode accepted
  obtain ⟨tree, parent, changed, htree, hparent, hedit, hforest, hlast⟩ := hattached.edit
  refine ⟨_, parent, nodeAt_eq_ok htree hparent, ?_, by rw [hlast]⟩
  rw [edited_eq_ok htree hedit, giveEach_concat, hforest]

/-! ### Blocks -/

/-- In a block that is accepted, a bit field is added to the node added last, or to the root if there is none.
In the end every node of the tree has the bit fields of the lines behind its own, in their order, and the root
those in front of the first node. Without the lines of bit fields the others are accepted as well, and the
trees differ in nothing but bit fields. The bit field of a name is the earliest one. -/
theorem fields_of_block (g : Grammar) (jumps : JumpPolicy) (forest : Forest) (name : String) :
    let b := start g jumps forest name
    (∀ inputs built, Accepts b inputs built →
      (∀ before input after, inputs = before ++ input :: after →
        (∀ field, input.field? g = some field →
          (b.giveEach before).edited (·.addBitField field)
              (((b.marks before).getLast?.map (·.place)).getD []) =
            .ok (b.giveEach (before ++ [input])).forest) ∧
        ∀ constant, input.node? g = some constant →
          ∃ outer parent, (b.giveEach before).nodeAt outer = .ok parent ∧
            (b.giveEach before).edited (·.insertChild (.leaf constant.name constant.value)) outer =
              .ok (b.giveEach (before ++ [input])).forest ∧
            b.marks (before ++ [input]) =
              b.marks before ++ [⟨constant, outer ++ [parent.slot constant.name], []⟩]) ∧
      (∃ tree tree', b.forest.roots[b.root]? = some tree ∧
        built.forest.roots = b.forest.roots.set b.root tree' ∧
        ∀ place, (tree'.at? place).map Node.alone =
          match lastOn (b.marks inputs) place with
          | some mark => if place = mark.place then some mark.node else none
          | none => ((tree.at? place).map Node.alone).map fun node =>
              if place = [] then node.addBitFields (leading g inputs) else node) ∧
      ∃ built', Accepts b (withoutFields g inputs) built' ∧ built'.forest.bare = built.forest.bare) ∧
    ∀ (n : Node) (name : String) (field : BitField), n.bitField? name = some field ↔
      ∃ before after, n.bitFields = before ++ field :: after ∧ field.name = name ∧
        ∀ other ∈ before, other.name ≠ name := by
  intro b
  have hb : b.Sound := sound_start g jumps forest name
  refine ⟨fun inputs built accepted => ⟨?_, ?_, ?_⟩, fun n name field => Node.bitField?_eq_some_iff⟩
  · rintro before input after rfl
    exact ⟨fun field hfield => accepted.edited_of_field hb hfield,
      fun constant hnode => accepted.edited_of_node hb hnode⟩
  · obtain ⟨tree, htree, -⟩ := hb.denote
    obtain ⟨tree', hbuilt, hplaces⟩ := accepted.recorded hb htree
    exact ⟨tree, tree', htree, hbuilt, hplaces⟩
  · obtain ⟨built', haccepted, hbare⟩ := accepted.withoutFields rfl
    exact ⟨built', haccepted, congrArg (·.forest) hbare⟩

/-- A node with a bit field of a deeper level and a node below it, replaced by one with a bit field of
level 0. -/
theorem fields_of_replaced_node :
    let b := start .standard .collapse .empty "r"
    let inputs := [(⟨1, ".width", 32⟩ : ConstantLine), ⟨1, "a", 1⟩, ⟨5, ".mode", 3⟩, ⟨3, "b", 2⟩, ⟨1, "a", 9⟩,
      ⟨0, ".x", 1⟩].map Input.constant
    ∃ built tree', Accepts b inputs built ∧ built.forest.roots = [tree'] ∧
      (tree'.at? []).map Node.alone = some ⟨"r", 0, [], [⟨"width", 32⟩]⟩ ∧
      (tree'.at? [0]).map Node.alone = some ⟨"a", 9, [], [⟨"x", 1⟩]⟩ ∧
      (tree'.at? [0, 0]).map Node.alone = none := by
  intro b inputs
  have accepted : Accepts b inputs (b.giveEach inputs) :=
    .cons (by decide +kernel) (.cons (by decide +kernel) (.cons (by decide +kernel)
      (.cons (by decide +kernel) (.cons (by decide +kernel) (.cons (by decide +kernel) (.nil _))))))
  obtain ⟨-, ⟨tree, tree', htree, hbuilt, hplaces⟩, -⟩ :=
    (fields_of_block .standard .collapse .empty "r").1 inputs _ accepted
  obtain rfl : Node.leaf "r" 0 = tree := Option.some.inj htree
  refine ⟨_, tree', accepted, hbuilt, ?_, ?_, ?_⟩
  · exact (hplaces []).trans (by decide +kernel)
  · exact (hplaces [0]).trans (by decide +kernel)
  · exact (hplaces [0, 0]).trans (by decide +kernel)

end Builder

end Codesheet
