import Codesheet.Proofs.Constants.Frame

/-! Forests without their bit fields. A builder goes on in the same way without them, and an input that is a bit
field changes nothing else, so it can be left out of a run. -/

namespace Codesheet

/-! ### Nodes -/

namespace Node

mutual

/-- The tree without bit fields. -/
def bare : Node → Node
  | ⟨name, value, children, _⟩ => ⟨name, value, bareAll children, []⟩

def bareAll : List Node → List Node
  | [] => []
  | n :: ns => n.bare :: bareAll ns

end

theorem bareAll_eq (nodes : List Node) : bareAll nodes = nodes.map bare := by
  induction nodes with
  | nil => rfl
  | cons n nodes ih => rw [bareAll, ih, List.map_cons]

theorem bare_eq (n : Node) : n.bare = ⟨n.name, n.value, n.children.map bare, []⟩ := by
  cases n
  rw [bare, bareAll_eq]

@[simp] theorem name_bare (n : Node) : n.bare.name = n.name := by rw [bare_eq]

@[simp] theorem children_bare (n : Node) : n.bare.children = n.children.map bare := by rw [bare_eq]

theorem bare_leaf (name : String) (value : UInt32) : (leaf name value).bare = leaf name value := by
  rw [bare_eq]
  rfl

theorem bare_addBitField (n : Node) (field : BitField) : (n.addBitField field).bare = n.bare := by
  rw [bare_eq, bare_eq]
  rfl

theorem place_map_bare (name : String) (value : UInt32) (nodes : List Node) :
    place (leaf name value) (nodes.map bare) = (place (leaf name value) nodes).map bare := by
  induction nodes with
  | nil => rw [List.map_nil, place, List.map_singleton, bare_leaf]
  | cons n nodes ih =>
    rw [List.map_cons, place, place, name_bare, ih]
    split_ifs
    · rw [List.map_cons, bare_leaf]
    · rw [List.map_cons]

theorem insertChild_bare (name : String) (value : UInt32) (n : Node) :
    n.bare.insertChild (leaf name value) = (n.insertChild (leaf name value)).bare := by
  rw [bare_eq (n.insertChild _), insertChild, insertChild, children_bare, place_map_bare, bare_eq]

theorem slot_bare (n : Node) (name : String) : n.bare.slot name = n.slot name := by
  rw [slot, slot, children_bare, List.findIdx_map]
  congr 1
  funext child
  simp

theorem at?_bare (n : Node) (path : List Nat) : n.bare.at? path = (n.at? path).map bare := by
  induction path generalizing n with
  | nil => rfl
  | cons i path ih =>
    rw [at?_cons, at?_cons, children_bare, List.getElem?_map]
    cases n.children[i]? with
    | none => rfl
    | some child => exact ih child

theorem editAt?_bare {f : Node → Node} (hf : ∀ n : Node, f n.bare = (f n).bare) (path : List Nat) (n : Node) :
    editAt? f path n.bare = (editAt? f path n).map bare := by
  induction path generalizing n with
  | nil => rw [editAt?, editAt?, hf, Option.map_some]
  | cons i path ih =>
    rw [editAt?, editAt?, children_bare, List.getElem?_map]
    cases n.children[i]? with
    | none => rfl
    | some child =>
      simp only [Option.map_some, ih, Option.map_map]
      congr 1
      funext changed
      simp [bare_eq n, bare_eq { n with children := n.children.set i changed }, List.map_set]

theorem bare_of_bitField {field : BitField} {path : List Nat} {n m : Node}
    (h : editAt? (·.addBitField field) path n = some m) : m.bare = n.bare :=
  key_editAt? (fun n => bare_addBitField n field)
    (fun n children hchildren => by rw [bare_eq, bare_eq n, hchildren]) h

end Node

def Forest.bare (f : Forest) : Forest := ⟨f.roots.map Node.bare⟩

namespace Builder

variable {b b' built : Builder} {input : Input}

/-- The builder over the forest without bit fields. -/
def bare (b : Builder) : Builder := { b with forest := b.forest.bare, bitFields := 0 }

/-! ### Steps -/

theorem getElem?_bare : b.bare.forest.roots[b.bare.root]? = b.forest.roots[b.root]?.map Node.bare :=
  List.getElem?_map

theorem nodeAt_bare (path : List Nat) : b.bare.nodeAt path = (b.nodeAt path).map Node.bare := by
  rw [nodeAt, nodeAt, getElem?_bare]
  cases b.forest.roots[b.root]? with
  | none => rfl
  | some root =>
    simp only [Option.map_some, Node.at?_bare]
    cases root.at? path <;> rfl

theorem edited_bare {f : Node → Node} (hf : ∀ n : Node, f n.bare = (f n).bare) (path : List Nat) :
    b.bare.edited f path = (b.edited f path).map Forest.bare := by
  rw [edited, edited, getElem?_bare]
  cases b.forest.roots[b.root]? with
  | none => rfl
  | some root =>
    simp only [Option.map_some, Node.editAt?_bare hf]
    cases root.editAt? f path with
    | none => rfl
    | some changed =>
      show Except.ok (Forest.mk ((b.forest.roots.map Node.bare).set b.root changed.bare)) = _
      rw [← List.map_set]
      rfl

theorem attach_bare (name : String) (value : UInt32) (b : Builder) :
    Commutes bare (attach (.leaf name value)) b := by
  have hparent : b.bare.parent = b.parent := rfl
  rw [Commutes, attach, attach, hparent, nodeAt_bare, edited_bare (fun n => n.insertChild_bare name value)]
  cases b.nodeAt b.parent with
  | error fault => rfl
  | ok parent =>
    cases b.edited (·.insertChild (.leaf name value)) b.parent with
    | error fault => rfl
    | ok forest =>
      simp only [Except.map, Node.slot_bare]
      rfl

theorem moveTo_bare (level : Nat) (b : Builder) : Commutes bare (moveTo level) b :=
  moveTo_commutes bare (fun _ => rfl) (fun _ => rfl) (fun _ => rfl) (fun _ _ => rfl) (fun _ _ => rfl)
    (fun _ _ _ => rfl) level

/-- An input that is no bit field does the same without bit fields. -/
theorem give_bare (h : input.field? b.grammar = none) : Commutes bare (give input) b := by
  have hadd : ∀ given : ConstantLine, given.bitField? = none → Commutes bare (add given) b := by
    intro given hbit
    rw [add_of_node hbit]
    exact commutes_andThen (moveTo_bare _ b) (attach_bare _ _ _)
  have hgrammar : b.bare.grammar = b.grammar := rfl
  cases input with
  | constant given => exact hadd given (Option.map_eq_none_iff.1 h)
  | line source =>
    rw [Input.field?] at h
    cases hc : b.grammar.constantLine source.text with
    | error fault => rw [Commutes, give, feed_of_error hc, feed_of_error (hgrammar ▸ hc)]
    | ok given =>
      rw [hc] at h
      rw [Commutes, give, feed_of_ok hc, feed_of_ok (hgrammar ▸ hc), hadd given (Option.map_eq_none_iff.1 h)]

/-- A bit field changes nothing else. -/
theorem bare_give_of_field {field : BitField} (h : input.field? b.grammar = some field) :
    (give input b).1.bare = b.bare := by
  rw [(give_of_field h).1, annotate]
  cases hedit : b.edited (·.addBitField field) b.last with
  | error fault => rfl
  | ok forest =>
    have hforest : forest.bare = b.forest.bare := by
      unfold edited at hedit
      split at hedit
      · cases hedit
      · next root hroot =>
        split at hedit
        · cases hedit
        · next changed hchanged =>
          obtain rfl := Except.ok.inj hedit
          exact congrArg Forest.mk (map_set_of_key hroot (Node.bare_of_bitField hchanged))
    simp only [bare, hforest]

/-! ### Runs -/

/-- The inputs that are no bit fields. -/
def withoutFields (g : Grammar) (inputs : List Input) : List Input :=
  inputs.filter fun input => (input.field? g).isNone

theorem grammar_of_bare (h : b'.bare = b.bare) : b'.grammar = b.grammar := by
  have hgrammar : b'.bare.grammar = b.bare.grammar := by rw [h]
  exact hgrammar

/-- Without the inputs that are bit fields, the others have the same results. -/
theorem Accepts.withoutFields {inputs : List Input} (h : Accepts b inputs built) (hbare : b'.bare = b.bare) :
    ∃ built', Accepts b' (withoutFields b.grammar inputs) built' ∧ built'.bare = built.bare := by
  induction h generalizing b' with
  | nil b => exact ⟨b', .nil b', hbare⟩
  | @cons b built input inputs accepted rest ih =>
    have hgrammar := grammar_give input b
    rw [hgrammar] at ih
    cases hfield : input.field? b.grammar with
    | some field =>
      rw [Builder.withoutFields, List.filter_cons_of_neg (by simp [hfield])]
      exact ih (hbare.trans (bare_give_of_field hfield).symm)
    | none =>
      -- the builders differ in bit fields alone, so both do what the one without bit fields does
      have hstep := give_bare hfield
      have hfield' : input.field? b'.grammar = none := by rw [grammar_of_bare hbare, hfield]
      have hstep' := give_bare hfield'
      rw [Commutes, hbare, hstep, Prod.mk.injEq] at hstep'
      obtain ⟨built', hrest, hbuilt⟩ := ih hstep'.1.symm
      rw [Builder.withoutFields, List.filter_cons_of_pos (by simp [hfield])]
      exact ⟨built', .cons (by rw [← hstep'.2, accepted]) hrest, hbuilt⟩

end Builder

end Codesheet
