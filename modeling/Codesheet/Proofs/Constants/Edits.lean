import Codesheet.Proofs.Constants.Overlay
import Codesheet.Proofs.Constants.Scopes
import Codesheet.Proofs.Keys

/-! What a step does to the forest. It changes one node of the tree of its block, or nothing: a bit
field is added to the node added last, or a node without children is put below the current parent.
So all roots keep their names and their values. -/

namespace Codesheet

/-! ### Changes of a node -/

namespace Node

/-- The changes that steps make at a node. -/
inductive Change where
  | leaf (name : String) (value : UInt32)
  | bitField (field : BitField)

def Change.apply : Change → Node → Node
  | leaf name value, n => n.insertChild (.leaf name value)
  | bitField field, n => n.addBitField field

/-- The name and the value of a node. -/
def label (n : Node) : String × UInt32 := (n.name, n.value)

theorem label_apply (change : Change) (n : Node) : (change.apply n).label = n.label := by
  cases change <;> rfl

/-- What a node has from its own data and from what its children have stays under a change that leaves it. -/
theorem key_editAt? {β : Type} {key : Node → β} {f : Node → Node} (hf : ∀ n, key (f n) = key n)
    (hchildren : ∀ (n : Node) (children : List Node), children.map key = n.children.map key →
      key { n with children } = key n)
    {path : List Nat} {n m : Node} (h : editAt? f path n = some m) : key m = key n := by
  induction path generalizing n m with
  | nil =>
    obtain rfl := Option.some.inj h
    exact hf n
  | cons i path ih =>
    obtain ⟨child, changed, hchild, hchanged, rfl⟩ := exists_of_editAt?_cons h
    exact hchildren n _ (map_set_of_key hchild (ih hchanged))

theorem label_editAt? {change : Change} {path : List Nat} {n m : Node}
    (h : editAt? change.apply path n = some m) : m.label = n.label :=
  key_editAt? (label_apply change) (fun _ _ _ => rfl) h

/-- Among nodes with distinct names, one is put in the place of the one of its name. -/
theorem place_eq_set {node child : Node} {nodes : List Node} (h : (nodes.map (·.name)).Nodup) {i : Nat}
    (hc : nodes[i]? = some child) (hname : child.name = node.name) : place node nodes = nodes.set i node := by
  induction nodes generalizing i with
  | nil => simp at hc
  | cons first nodes ih =>
    rw [List.map_cons, List.nodup_cons] at h
    cases i with
    | zero =>
      obtain rfl := Option.some.inj hc
      rw [place, if_pos hname, List.set_cons_zero]
    | succ i =>
      have hm : child ∈ nodes := List.mem_of_getElem? hc
      have hne : first.name ≠ node.name := by
        intro heq
        apply h.1
        rw [heq, ← hname]
        exact List.mem_map_of_mem hm
      rw [place, if_neg hne, ih h.2 hc, List.set_cons_succ]

theorem find?_place (node : Node) (nodes : List Node) :
    (place node nodes).find? (·.name = node.name) = some node := by
  induction nodes with
  | nil => simp [place]
  | cons first nodes ih =>
    by_cases h : first.name = node.name
    · simp [place, h]
    · simpa [place, h] using ih

/-- A node with a child of some name and value that has no children and no bit fields. The child
is in the place of the one of its name, or else at the end. -/
structure Wrote (name : String) (value : UInt32) (old new : Node) : Prop where
  child : new.child? name = some (leaf name value)
  replaced : ∀ (i : Nat) child, old.children[i]? = some child → child.name = name →
    new.children = old.children.set i (leaf name value)
  added : (∀ child ∈ old.children, child.name ≠ name) →
    new.children = old.children ++ [leaf name value]

theorem wrote_insertChild {n : Node} (h : (n.children.map (·.name)).Nodup) (name : String)
    (value : UInt32) : Wrote name value n (n.insertChild (leaf name value)) := by
  refine ⟨find?_place (leaf name value) n.children, fun i child hc hname => ?_, fun hnone => ?_⟩
  · exact place_eq_set h hc hname
  · apply place_of_not_mem
    intro hm
    obtain ⟨child, hchild, hname⟩ := List.mem_map.1 hm
    exact hnone child hchild hname

end Node

/-- The names and the values of the roots. -/
def Forest.labels (f : Forest) : List (String × UInt32) := f.roots.map Node.label

open Node (Change editAt?)

namespace Builder

variable {b : Builder}

theorem nodeAt_eq_ok_iff {path : List Nat} {node : Node} :
    b.nodeAt path = .ok node ↔
      ∃ root, b.forest.roots[b.root]? = some root ∧ root.at? path = some node := by
  constructor
  · intro h
    unfold nodeAt at h
    split at h
    · cases h
    · next root hroot =>
      split at h
      · cases h
      · next other hother =>
        obtain rfl := Except.ok.inj h
        exact ⟨root, hroot, hother⟩
  · rintro ⟨root, hroot, hnode⟩
    exact nodeAt_eq_ok hroot hnode

/-! ### Steps -/

/-- The forest of a builder, unchanged or with one change of a node in the tree of its block. -/
inductive Edited (b : Builder) : Forest → Prop where
  | same : Edited b b.forest
  | changed {change : Change} {path : List Nat} {tree built : Node}
    (tree_eq : b.forest.roots[b.root]? = some tree) (edit : editAt? change.apply path tree = some built) :
    Edited b ⟨b.forest.roots.set b.root built⟩

theorem Sound.edited_add (hb : b.Sound) (line : ConstantLine) : Edited b (add line b).1.forest := by
  cases hbit : line.bitField? with
  | some name =>
    obtain ⟨tree, built, htree, hedit, ha⟩ := annotate_of_sound hb ⟨name, line.value⟩
    rw [add_of_bitField hbit, ha]
    have hchange : editAt? (Change.bitField ⟨name, line.value⟩).apply b.last tree = some built := hedit
    exact .changed htree hchange
  | none =>
    cases hc : b.refusal? line.level with
    | some cause =>
      rw [(add_of_refusal hbit hc).2.1]
      exact .same
    | none =>
      obtain ⟨tree, -, built, htree, -, hedit, hforest, -⟩ := (hb.add_of_not_refused hbit hc).2.edit
      rw [hforest]
      have hchange : editAt? (Change.leaf line.name line.value).apply _ tree = some built := hedit
      exact .changed htree hchange

theorem Sound.edited_give (hb : b.Sound) (input : Input) : Edited b (give input b).1.forest :=
  give_induction (P := fun built => Edited b built.forest) .same hb.edited_add input

theorem Edited.labels {forest : Forest} (h : Edited b forest) : forest.labels = b.forest.labels := by
  cases h with
  | same => rfl
  | changed htree hedit => exact map_set_of_key htree (Node.label_editAt? hedit)

/-! ### Nodes -/

/-- The constant of an input, if it is a node. -/
def Input.node? (g : Grammar) : Input → Option ConstantLine
  | .constant given => if given.bitField? = none then some given else none
  | .line source => nodeLine? g source

/-- An input that is a node is added as one. -/
theorem give_of_node {input : Input} {constant : ConstantLine}
    (h : input.node? b.grammar = some constant) :
    constant.bitField? = none ∧ (give input b).1 = (add constant b).1 ∧
      ((give input b).2.result = .ok () ↔ (add constant b).2.result = .ok ()) := by
  cases input with
  | constant other =>
    obtain ⟨hbit, heq⟩ := Option.ite_none_right_eq_some.1 h
    obtain rfl := Option.some.inj heq
    exact ⟨hbit, rfl, Iff.rfl⟩
  | line line =>
    obtain ⟨hc, hbit⟩ := nodeLine?_eq_some.1 h
    rw [give, feed_of_ok hc]
    exact ⟨hbit, rfl, Logged.result_atLine_eq_ok⟩

/-- A node that is accepted is put below the parent where the builder stands afterwards. -/
theorem Sound.puts_give (hb : b.Sound) {input : Input} {constant : ConstantLine}
    (h : input.node? b.grammar = some constant) (hok : (give input b).2.result = .ok ()) :
    ∃ parent place, b.nodeAt (give input b).1.parent = .ok parent ∧
      (give input b).1.nodeAt (give input b).1.parent =
        .ok (parent.insertChild (.leaf constant.name constant.value)) ∧
      (give input b).1.last = (give input b).1.parent ++ [place] ∧
      (give input b).1.nodeAt (give input b).1.last = .ok (.leaf constant.name constant.value) := by
  obtain ⟨hbit, hbuilt, hiff⟩ := give_of_node h
  have haccepted := (hb.add_eq_ok_iff hbit).1 (hiff.1 hok)
  have hattached := (hb.add_of_not_refused hbit haccepted).2
  obtain ⟨tree, parent, changed, htree, hparent, hedit, hforest, hlast⟩ := hattached.edit
  obtain ⟨whole, hwhole, hnode⟩ := hattached.at?_last
  have hroot := (fixed_add constant b).2.2
  have hi : b.root < b.forest.roots.length := (List.getElem?_eq_some_iff.1 htree).1
  have htree' : (add constant b).1.forest.roots[(add constant b).1.root]? = some changed := by
    rw [hforest, hroot]
    exact List.getElem?_set_self hi
  have hparent' := Node.at?_editAt? _ _ _ _ hedit
  rw [hparent, Option.map_some] at hparent'
  rw [← hroot] at hwhole
  rw [hbuilt]
  exact ⟨parent, _, nodeAt_eq_ok htree hparent, nodeAt_eq_ok htree' hparent', hlast,
    nodeAt_eq_ok hwhole hnode⟩

/-! ### Runs -/

/-- Takes inputs one after the other, also after one that fails. -/
def giveEach (b : Builder) (inputs : List Input) : Builder :=
  inputs.foldl (fun b input => (give input b).1) b

theorem Sound.sound_giveEach (hb : b.Sound) (inputs : List Input) : (b.giveEach inputs).Sound := by
  induction inputs generalizing b with
  | nil => exact hb
  | cons input inputs ih => exact ih (hb.sound_give input)

theorem grammar_give (input : Input) (b : Builder) : (give input b).1.grammar = b.grammar :=
  give_induction (P := fun built => built.grammar = b.grammar) rfl (fun constant => (fixed_add constant b).1)
    input

theorem fixed_giveEach (inputs : List Input) (b : Builder) :
    (b.giveEach inputs).grammar = b.grammar := by
  induction inputs generalizing b with
  | nil => rfl
  | cons input inputs ih =>
    exact (ih (give input b).1).trans (grammar_give input b)

theorem Sound.labels_giveEach (hb : b.Sound) (inputs : List Input) :
    (b.giveEach inputs).forest.labels = b.forest.labels := by
  induction inputs generalizing b with
  | nil => rfl
  | cons input inputs ih => exact (ih (hb.sound_give input)).trans (hb.edited_give input).labels

theorem Feeds.eq_giveEach {lines : List Line} {built : Builder} (h : Feeds b lines built) :
    built = b.giveEach (lines.map .line) := by
  induction h with
  | nil b => rfl
  | cons accepted rest ih => exact ih

end Builder

end Codesheet
