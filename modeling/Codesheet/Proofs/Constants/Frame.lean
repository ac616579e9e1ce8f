import Codesheet.Proofs.Constants.Edits

/-! What the steps of a builder leave. A change at a path leaves the nodes that are not at the path or below
it, as far as they are not their children; so a bit field changes one node alone, and a leaf is in the way of
nothing but what stood in its place. -/

namespace Codesheet

/-! ### Nodes -/

namespace Node

variable {f : Node → Node} {path other : List Nat} {n m parent : Node} {name : String} {value : UInt32}

/-- The node without its children. -/
def alone (n : Node) : Node := { n with children := [] }

theorem getElem?_place_of_ne {node : Node} {nodes : List Node} {i : Nat}
    (h : i ≠ nodes.findIdx (·.name = node.name)) : (place node nodes)[i]? = nodes[i]? := by
  induction nodes generalizing i with
  | nil =>
    cases i with
    | zero => exact absurd rfl h
    | succ i => rfl
  | cons first nodes ih =>
    rw [place]
    rw [List.findIdx_cons] at h
    cases i with
    | zero =>
      split_ifs with hname
      · simp [hname] at h
      · rfl
    | succ i =>
      split_ifs with hname
      · rfl
      · exact ih fun heq => h (by simp [hname, heq])

/-! ### Edits seen from another path -/

/-- Away from an edit a node keeps what it has from its own data and from the names of its children. -/
theorem key_of_elsewhere {β : Type} {key : Node → β} (h : editAt? f path n = some m)
    (hname : ∀ n, (f n).name = n.name)
    (hkey : ∀ (n : Node) (children : List Node), children.map (·.name) = n.children.map (·.name) →
      key { n with children } = key n)
    (hp : ¬ path <+: other) : (m.at? other).map key = (n.at? other).map key := by
  induction path generalizing n m other with
  | nil => exact absurd List.nil_prefix hp
  | cons i path ih =>
    obtain ⟨child, changed, hchild, hchanged, rfl⟩ := exists_of_editAt?_cons h
    cases other with
    | nil =>
      have hsame : changed.name = child.name := key_editAt? hname (fun _ _ _ => rfl) hchanged
      exact congrArg some (hkey n _ (map_set_of_key hchild hsame))
    | cons j other =>
      rw [at?_cons, at?_cons]
      by_cases hij : i = j
      · subst hij
        have hi : i < n.children.length := (List.getElem?_eq_some_iff.1 hchild).1
        have hrest : ¬ path <+: other := fun hrest => hp (List.cons_prefix_cons.2 ⟨rfl, hrest⟩)
        rw [List.getElem?_set_self hi, hchild, Option.bind_some, Option.bind_some, ih hchanged hrest]
      · rw [List.getElem?_set_ne hij]

theorem alone_of_elsewhere (h : editAt? f path n = some m) (hname : ∀ n, (f n).name = n.name)
    (hp : ¬ path <+: other) : (m.at? other).map alone = (n.at? other).map alone :=
  key_of_elsewhere h hname (fun _ _ _ => rfl) hp

theorem at?_append_of_editAt? (h : editAt? f path n = some m) (rest : List Nat) :
    m.at? (path ++ rest) = (n.at? path).bind fun node => (f node).at? rest := by
  rw [at?_append, at?_editAt? f path n m h, Option.bind_map]
  rfl

/-- A bit field changes the node at its path and nothing else. -/
theorem alone_of_bitField {field : BitField} (h : editAt? (·.addBitField field) path n = some m)
    (other : List Nat) :
    (m.at? other).map alone =
      ((n.at? other).map alone).map fun node => if other = path then node.addBitField field else node := by
  -- at the path and below it the change itself is seen, and elsewhere a list of children at most
  by_cases hp : path <+: other
  · obtain ⟨rest, rfl⟩ := hp
    rw [at?_append_of_editAt? h, at?_append]
    cases rest with
    | nil => cases n.at? path <;> simp [at?, alone, addBitField]
    | cons i rest => cases n.at? path <;> simp [at?_cons, addBitField]
  · have hne : other ≠ path := fun heq => hp (heq ▸ List.prefix_rfl)
    simp only [alone_of_elsewhere h (fun _ => rfl) hp, if_neg hne, Option.map_id']

/-- A leaf is all that is left at its place and below it. -/
theorem alone_insertChild (n : Node) (name : String) (value : UInt32) (other : List Nat) :
    ((n.insertChild (leaf name value)).at? other).map alone =
      if [n.slot name] <+: other then if other = [n.slot name] then some (leaf name value) else none
      else (n.at? other).map alone := by
  cases other with
  | nil => simp [at?, alone, insertChild]
  | cons i other =>
    have hslot : n.slot name = n.children.findIdx (·.name = (leaf name value).name) := rfl
    simp only [at?_cons, List.cons_prefix_cons, List.nil_prefix, and_true, List.cons.injEq, insertChild]
    by_cases hi : i = n.slot name
    · rw [hi, hslot, getElem?_place]
      cases other <;> simp [at?, alone, leaf]
    · rw [if_neg (Ne.symm hi), getElem?_place_of_ne (hslot ▸ hi)]

theorem alone_of_leaf (h : editAt? (·.insertChild (leaf name value)) path n = some m)
    (hparent : n.at? path = some parent) (other : List Nat) :
    (m.at? other).map alone =
      if path ++ [parent.slot name] <+: other then
        if other = path ++ [parent.slot name] then some (leaf name value) else none
      else (n.at? other).map alone := by
  by_cases hp : path <+: other
  · obtain ⟨rest, rfl⟩ := hp
    simp only [at?_append_of_editAt? h, at?_append, hparent, Option.bind_some, alone_insertChild,
      List.prefix_append_right_inj, List.append_cancel_left_eq]
  · have hplace : ¬ path ++ [parent.slot name] <+: other :=
      fun hinside => hp ((List.prefix_append _ _).trans hinside)
    rw [alone_of_elsewhere h (fun _ => rfl) hp, if_neg hplace]

end Node

namespace Builder

variable {b built : Builder} {input : Input}

/-! ### Inputs -/

/-- The bit field of an input, if it is one. -/
def Input.field? (g : Grammar) : Input → Option BitField
  | .constant given => given.bitField?.map (⟨·, given.value⟩)
  | .line source =>
    match g.constantLine source.text with
    | .ok given => given.bitField?.map (⟨·, given.value⟩)
    | .error _ => none

theorem give_of_field {field : BitField} (h : input.field? b.grammar = some field) :
    (give input b).1 = (annotate field b).1 ∧
      ((give input b).2.result = .ok () ↔ (annotate field b).2.result = .ok ()) := by
  cases input with
  | constant given =>
    obtain ⟨name, hbit, rfl⟩ := Option.map_eq_some_iff.1 h
    rw [give, add_of_bitField hbit]
    exact ⟨rfl, Iff.rfl⟩
  | line source =>
    rw [Input.field?] at h
    split at h
    · next given hc =>
      obtain ⟨name, hbit, rfl⟩ := Option.map_eq_some_iff.1 h
      rw [give, feed_of_ok hc, add_of_bitField hbit]
      exact ⟨rfl, Logged.result_atLine_eq_ok⟩
    · cases h

/-- An input is a bit field, or a node, or a line that is no constant. -/
theorem input_cases (b : Builder) (input : Input) :
    (∃ field, input.field? b.grammar = some field ∧ input.node? b.grammar = none) ∨
      (∃ constant, input.node? b.grammar = some constant ∧ input.field? b.grammar = none) ∨
      input.field? b.grammar = none ∧ input.node? b.grammar = none ∧
        ∃ fault, give input b = (b, Logged.fail fault) := by
  have hconstant : ∀ given : ConstantLine,
      (∃ name, given.bitField? = some name) ∨ given.bitField? = none := by
    intro given
    cases given.bitField? <;> simp
  cases input with
  | constant given =>
    rcases hconstant given with ⟨name, hbit⟩ | hbit
    · exact .inl ⟨⟨name, given.value⟩, by simp [Input.field?, Input.node?, hbit]⟩
    · exact .inr (.inl ⟨given, by simp [Input.field?, Input.node?, hbit]⟩)
  | line source =>
    cases hc : b.grammar.constantLine source.text with
    | error fault =>
      exact .inr (.inr ⟨by simp [Input.field?, hc], by simp [Input.node?, nodeLine?, hc], _,
        feed_of_error hc⟩)
    | ok given =>
      rcases hconstant given with ⟨name, hbit⟩ | hbit
      · exact .inl ⟨⟨name, given.value⟩, by simp [Input.field?, Input.node?, nodeLine?, hc, hbit]⟩
      · exact .inr (.inl ⟨given, by simp [Input.field?, Input.node?, nodeLine?, hc, hbit]⟩)

/-! ### Steps -/

/-- A step that adds a bit field to the tree of the block, at the node added last. -/
structure Annotated (field : BitField) (b built : Builder) : Prop where
  positions : built.positions = b.positions
  root : built.root = b.root
  edit : ∃ tree changed, b.forest.roots[b.root]? = some tree ∧
    Node.editAt? (·.addBitField field) b.last tree = some changed ∧
    built.forest = ⟨b.forest.roots.set b.root changed⟩

theorem Sound.give_field (hb : b.Sound) {field : BitField} (h : input.field? b.grammar = some field) :
    (give input b).2.result = .ok () ∧ Annotated field b (give input b).1 := by
  obtain ⟨tree, changed, htree, hchanged, ha⟩ := annotate_of_sound hb field
  obtain ⟨hgive, hok⟩ := give_of_field h
  rw [hok, hgive, ha]
  exact ⟨rfl, rfl, rfl, tree, changed, htree, hchanged, rfl⟩

theorem Sound.give_node (hb : b.Sound) {constant : ConstantLine}
    (h : input.node? b.grammar = some constant) (hok : (give input b).2.result = .ok ()) :
    (give input b).1.root = b.root ∧ Attached constant b (give input b).1 := by
  obtain ⟨hbit, hgive, hiff⟩ := give_of_node h
  rw [hgive]
  exact ⟨(fixed_add constant b).2.2,
    (hb.add_of_not_refused hbit ((hb.add_eq_ok_iff hbit).1 (hiff.1 hok))).2⟩

/-- What an input that is accepted can do. -/
theorem Sound.give_cases (hb : b.Sound) (hok : (give input b).2.result = .ok ()) :
    (∃ field, input.field? b.grammar = some field ∧ Annotated field b (give input b).1) ∨
      ∃ constant, input.node? b.grammar = some constant ∧ (give input b).1.root = b.root ∧
        Attached constant b (give input b).1 := by
  rcases input_cases b input with ⟨field, hfield, -⟩ | ⟨constant, hnode, -⟩ | ⟨-, -, fault, hgive⟩
  · exact .inl ⟨field, hfield, (hb.give_field hfield).2⟩
  · exact .inr ⟨constant, hnode, hb.give_node hnode hok⟩
  · rw [hgive] at hok
    cases hok

/-- The builder accepts some inputs, one after the other, and ends up as another. -/
inductive Accepts : Builder → List Input → Builder → Prop where
  | nil (b : Builder) : Accepts b [] b
  | cons {b built : Builder} {input : Input} {inputs : List Input}
    (accepted : (give input b).2.result = .ok ()) (rest : Accepts (give input b).1 inputs built) :
    Accepts b (input :: inputs) built

end Builder

end Codesheet
