import Codesheet.Proofs.Constants.Annotated
import Codesheet.Proofs.Constants.Refused
import Codesheet.Proofs.Program.Reopened

/-! A step is one local edit. A node is put among the children of one parent, in the place of the first one of
its name or at the end, and a bit field is added to one node; all other nodes stay, with their data and the
order of their children, and so do all other roots. -/

namespace Codesheet

namespace Node

variable {n m parent child : Node} {path other : List Nat}

/-- What there is to see at a node: its own data, and the names of its children in order. -/
def surface (n : Node) : Node × List String := (n.alone, n.children.map (·.name))

/-- A node is put among others at a place, for the first one of its name or else at the end. -/
inductive Put (node : Node) : List Node → Nat → List Node → Prop where
  | replaced {before after : List Node} {old : Node} (first : ∀ other ∈ before, other.name ≠ node.name)
    (same : old.name = node.name) : Put node (before ++ old :: after) before.length (before ++ node :: after)
  | added {nodes : List Node} (new : ∀ other ∈ nodes, other.name ≠ node.name) :
    Put node nodes nodes.length (nodes ++ [node])

theorem Put.cons {node first : Node} {nodes nodes' : List Node} {i : Nat} (hname : first.name ≠ node.name)
    (h : Put node nodes i nodes') : Put node (first :: nodes) (i + 1) (first :: nodes') := by
  cases h with
  | @replaced before after old hfirst same =>
    exact @replaced node (first :: before) after old (List.forall_mem_cons.2 ⟨hname, hfirst⟩) same
  | added new => exact @added node (first :: nodes) (List.forall_mem_cons.2 ⟨hname, new⟩)

theorem put_place (node : Node) (nodes : List Node) :
    Put node nodes (nodes.findIdx (·.name = node.name)) (place node nodes) := by
  induction nodes with
  | nil => exact .added nofun
  | cons first nodes ih =>
    rw [place, List.findIdx_cons]
    by_cases hname : first.name = node.name
    · rw [if_pos hname, decide_eq_true hname]
      exact @Put.replaced node [] nodes first nofun hname
    · rw [if_neg hname, decide_eq_false hname]
      exact ih.cons hname

/-! ### Surfaces after an edit -/

theorem surface_of_elsewhere {f : Node → Node} (h : editAt? f path n = some m)
    (hname : ∀ n, (f n).name = n.name) (hp : ¬ path <+: other) :
    (m.at? other).map surface = (n.at? other).map surface :=
  key_of_elsewhere h hname (fun _ _ hsame => Prod.ext rfl hsame) hp

theorem surface_of_bitField {field : BitField} (h : editAt? (·.addBitField field) path n = some m)
    (hne : other ≠ path) : (m.at? other).map surface = (n.at? other).map surface := by
  by_cases hp : path <+: other
  · obtain ⟨rest, rfl⟩ := hp
    rw [at?_append_of_editAt? h, at?_append]
    cases rest with
    | nil => exact absurd (List.append_nil path) hne
    | cons i rest => simp [at?_cons, addBitField]
  · exact surface_of_elsewhere h (fun _ => rfl) hp

theorem surface_of_insertChild (h : editAt? (·.insertChild child) path n = some m)
    (hparent : n.at? path = some parent) (hne : other ≠ path)
    (hplace : ¬ path ++ [parent.slot child.name] <+: other) :
    (m.at? other).map surface = (n.at? other).map surface := by
  by_cases hp : path <+: other
  · obtain ⟨rest, rfl⟩ := hp
    rw [at?_append_of_editAt? h, at?_append, hparent, Option.bind_some, Option.bind_some]
    cases rest with
    | nil => exact absurd (List.append_nil path) hne
    | cons i rest =>
      have hi : i ≠ parent.slot child.name := by
        rintro rfl
        exact hplace ((List.prefix_append_right_inj path).2 (List.cons_prefix_cons.2 ⟨rfl, List.nil_prefix⟩))
      rw [at?_cons, at?_cons, insertChild, getElem?_place_of_ne hi]
  · exact surface_of_elsewhere h (fun _ => rfl) hp

end Node

theorem Forest.getElem?_ensureRoot {f : Forest} {name : String} {root : Node} (hname : root.name ≠ name)
    (r : Nat) : (f.ensureRoot name).roots[r]? = some root ↔ f.roots[r]? = some root := by
  rw [roots_ensureRoot]
  split_ifs
  · rfl
  · rw [List.getElem?_append]
    split_ifs with hr
    · rfl
    · refine iff_of_false (fun h => hname ?_) (by simp [Nat.le_of_not_lt hr])
      obtain rfl := List.mem_singleton.1 (List.mem_of_getElem? h)
      rfl

namespace Builder

variable {b built : Builder} {path : List Nat}

/-! ### One edit -/

/-- One node of the tree of the block is edited. The other roots are the same, and so is the surface of the tree
at the places that are kept. -/
structure OneEdit (path : List Nat) (old new : Node) (kept : List Nat → Prop) (b built : Builder) : Prop where
  root : built.root = b.root
  others : ∀ r, r ≠ b.root → built.forest.roots[r]? = b.forest.roots[r]?
  tree : ∃ tree changed, b.forest.roots[b.root]? = some tree ∧ built.forest.roots[b.root]? = some changed ∧
    tree.at? path = some old ∧ changed.at? path = some new ∧
    ∀ other, kept other → (changed.at? other).map Node.surface = (tree.at? other).map Node.surface

theorem oneEdit_of_editAt? {f : Node → Node} {tree changed old : Node} {kept : List Nat → Prop}
    (hroot : built.root = b.root) (htree : b.forest.roots[b.root]? = some tree)
    (hedit : Node.editAt? f path tree = some changed)
    (hforest : built.forest = ⟨b.forest.roots.set b.root changed⟩) (hold : tree.at? path = some old)
    (hkept : ∀ other, kept other → (changed.at? other).map Node.surface = (tree.at? other).map Node.surface) :
    OneEdit path old (f old) kept b built := by
  have hi : b.root < b.forest.roots.length := (List.getElem?_eq_some_iff.1 htree).1
  have hnew : changed.at? path = some (f old) := by rw [Node.at?_editAt? _ _ _ _ hedit, hold, Option.map_some]
  refine ⟨hroot, fun r hr => ?_, tree, changed, htree, ?_, hold, hnew, hkept⟩
  · rw [hforest, List.getElem?_set_ne (Ne.symm hr)]
  · rw [hforest, List.getElem?_set_self hi]

theorem Attached.oneEdit {constant : ConstantLine} (h : Attached constant b built) (hroot : built.root = b.root) :
    ∃ parent i children, Node.Put (.leaf constant.name constant.value) parent.children i children ∧
      built.last = built.parent ++ [i] ∧
      OneEdit built.parent parent { parent with children }
        (fun other => other ≠ built.parent ∧ ¬ built.last <+: other) b built := by
  obtain ⟨tree, parent, changed, htree, hparent, hedit, hforest, hlast⟩ := h.edit
  refine ⟨parent, _, _, Node.put_place _ parent.children, hlast, ?_⟩
  refine oneEdit_of_editAt? hroot htree hedit hforest hparent fun other hother => ?_
  exact Node.surface_of_insertChild hedit hparent hother.1 (hlast ▸ hother.2)

theorem Annotated.oneEdit {field : BitField} (h : Annotated field b built) (hb : b.Sound) :
    ∃ node, OneEdit b.last node (node.addBitField field) (· ≠ b.last) b built := by
  obtain ⟨tree, changed, htree, hedit, hforest⟩ := h.edit
  obtain ⟨tree', htree', hdenote⟩ := hb.denote
  obtain rfl := Option.some.inj (htree.symm.trans htree')
  obtain ⟨node, hnode⟩ := Option.isSome_iff_exists.1 (hdenote b.last List.mem_cons_self)
  exact ⟨node, oneEdit_of_editAt? h.root htree hedit hforest hnode fun other hne =>
    Node.surface_of_bitField hedit hne⟩

theorem Leaves.forest {fault : Fault} (h : Leaves b fault built) : built.forest = b.forest := by
  cases h <;> rfl

/-! ### Roots of other names -/

variable {root : Node}

theorem Edited.getElem?_of_spares {forest : Forest} (h : Edited b forest) (hspares : Spares root.name b) (r : Nat) :
    forest.roots[r]? = some root ↔ b.forest.roots[r]? = some root := by
  cases h with
  | same => rfl
  | @changed change path tree built htree hedit =>
    by_cases hr : r = b.root
    · have hi : b.root < b.forest.roots.length := (List.getElem?_eq_some_iff.1 htree).1
      have hne : tree.name ≠ root.name := hspares _ (by rw [Forest.labels, List.getElem?_map, htree]; rfl)
      have hname : built.name = tree.name := congrArg Prod.fst (Node.label_editAt? hedit)
      rw [hr, List.getElem?_set_self hi, htree]
      refine iff_of_false (fun h => ?_) fun h => ?_
      · exact hne (hname ▸ congrArg Node.name (Option.some.inj h))
      · exact hne (congrArg Node.name (Option.some.inj h))
    · rw [List.getElem?_set_ne (Ne.symm hr)]

theorem Sound.getElem?_giveEach (hb : b.Sound) (hspares : Spares root.name b) (inputs : List Input) (r : Nat) :
    (b.giveEach inputs).forest.roots[r]? = some root ↔ b.forest.roots[r]? = some root := by
  induction inputs generalizing b with
  | nil => rfl
  | cons input inputs ih =>
    have hnext := ih (hb.sound_give input) (hb.spares_give hspares input)
    exact hnext.trans ((hb.edited_give input).getElem?_of_spares hspares r)

/-! ### Steps -/

/-- A step that fails leaves the forest. A node that is accepted is put among the children of the parent where
the builder stands afterwards, and all that is not that parent, and not at the place of the node or below it,
stays. A bit field is added to the node added last, and all other nodes stay. So a block leaves every root of
another name, and its place among the roots. -/
theorem oneEdit_of_step {forest : Forest} (reachable : Reachable forest b) (input : Input) :
    let built := (give input b).1
    (∀ fault, (give input b).2.result = .error fault → built.forest = b.forest) ∧
    ((give input b).2.result = .ok () →
      (∃ constant, input.node? b.grammar = some constant ∧ input.field? b.grammar = none ∧
        ∃ parent i children, Node.Put (.leaf constant.name constant.value) parent.children i children ∧
          built.last = built.parent ++ [i] ∧
          OneEdit built.parent parent { parent with children }
            (fun other => other ≠ built.parent ∧ ¬ built.last <+: other) b built) ∨
      ∃ field, input.field? b.grammar = some field ∧ input.node? b.grammar = none ∧
        ∃ node, OneEdit b.last node (node.addBitField field) (· ≠ b.last) b built) ∧
    ∀ (g : Grammar) (jumps : JumpPolicy) (before : Forest) (name : String) (inputs : List Input) (r : Nat)
      (root : Node), root.name ≠ name →
        (((start g jumps before name).giveEach inputs).forest.roots[r]? = some root ↔
          before.roots[r]? = some root) := by
  intro built
  have hb : b.Sound := reachable.sound
  refine ⟨fun fault failed => ?_, fun accepted => ?_, fun g jumps before name inputs r root hname => ?_⟩
  · exact (hb.leaves_give failed).forest
  · rcases input_cases b input with ⟨field, hfield, hnode⟩ | ⟨constant, hnode, hfield⟩ | ⟨-, -, fault, hgive⟩
    · exact .inr ⟨field, hfield, hnode, (hb.give_field hfield).2.oneEdit hb⟩
    · obtain ⟨hroot, hattached⟩ := hb.give_node hnode accepted
      exact .inl ⟨constant, hnode, hfield, hattached.oneEdit hroot⟩
    · rw [hgive] at accepted
      cases accepted
  · have hspares := spares_start (Ne.symm hname) g jumps before
    rw [(sound_start g jumps before name).getElem?_giveEach hspares]
    exact Forest.getElem?_ensureRoot hname r

/-- After a jump that is rejected, a node with a child is replaced beside another one. -/
theorem oneEdit_of_replaced_node :
    let b := (start .standard .reject ⟨[.leaf "other" 7]⟩ "root").giveEach
      [.constant ⟨1, "a", 1⟩, .constant ⟨2, "b", 2⟩, .constant ⟨3, "c", 3⟩, .constant ⟨2, "d", 4⟩,
        .constant ⟨9, "e", 5⟩]
    let built := (give (.constant ⟨2, "b", 6⟩) b).1
    ∃ parent i children, Node.Put (.leaf "b" 6) parent.children i children ∧ [0, 0] = [0] ++ [i] ∧
      OneEdit [0] parent { parent with children } (fun other => other ≠ [0] ∧ ¬ [0, 0] <+: other) b built := by
  intro b built
  have reachable : Reachable ⟨[.leaf "other" 7]⟩ b :=
    .step (.step (.step (.step (.step (.first .standard .reject "root") _) _) _) _) _
  have hparent : built.parent = [0] := by decide +kernel
  have hlast : built.last = [0, 0] := by decide +kernel
  have accepted : (give (.constant ⟨2, "b", 6⟩) b).2.result = .ok () := by decide +kernel
  obtain ⟨-, hedit, -⟩ := oneEdit_of_step reachable (.constant ⟨2, "b", 6⟩)
  obtain ⟨constant, hnode, -, parent, i, children, hput, hplace, hone⟩ | ⟨_, hfield, -⟩ := hedit accepted
  · obtain rfl := Option.some.inj hnode
    rw [hparent, hlast] at hplace hone
    exact ⟨parent, i, children, hput, hplace, hone⟩
  · cases hfield

end Builder

end Codesheet
