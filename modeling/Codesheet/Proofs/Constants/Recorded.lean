import Codesheet.Proofs.Constants.Steps
import Codesheet.Proofs.Grammar.Lines
import Codesheet.Proofs.Keys

/-! Positions that a builder remembers. No step, failed or not, renames a node on the way
to a position that stays, or puts a node in the place of one on the way to a parent. So a
position means the same node for as long as it is remembered. -/

namespace Codesheet

/-! ### Nodes before and after an edit -/

namespace Node

/-- The names on the way through the children at some places, the node's own first. -/
def names? (n : Node) : List Nat → Option (List String)
  | [] => some [n.name]
  | i :: path =>
    match n.children[i]? with
    | some child => (child.names? path).map (n.name :: ·)
    | none => none

/-- A path that leads somewhere in both nodes has the same names on the way. -/
def SameNames (n m : Node) : Prop :=
  ∀ path names names', n.names? path = some names → m.names? path = some names' → names = names'

/-- What stays of a node that no other node is put in the place of. -/
structure Continues (n m : Node) : Prop where
  name : m.name = n.name
  value : m.value = n.value
  children : n.children.map (·.name) <+: m.children.map (·.name)
  bitFields : n.bitFields <+: m.bitFields

theorem names?_cons (n : Node) (i : Nat) (path : List Nat) :
    n.names? (i :: path) = n.children[i]?.bind fun child => (child.names? path).map (n.name :: ·) := by
  cases h : n.children[i]? <;> simp [names?, h]

theorem isSome_names? (n : Node) (path : List Nat) : (n.names? path).isSome = (n.at? path).isSome := by
  induction path generalizing n with
  | nil => rfl
  | cons i path ih => cases h : n.children[i]? <;> simp [names?_cons, at?_cons, h, ih]

theorem SameNames.name {n m : Node} (h : SameNames n m) : n.name = m.name := by
  simpa using h [] _ _ rfl rfl

theorem SameNames.refl (n : Node) : SameNames n n :=
  fun _ _ _ h h' => Option.some.inj (h.symm.trans h')

/-- Where the children at each place have the same names, so have all paths through them. -/
theorem sameNames_of_children {n m : Node} (hn : n.name = m.name)
    (h : ∀ (i : Nat) child child', n.children[i]? = some child → m.children[i]? = some child' →
      SameNames child child') : SameNames n m := by
  rintro (_ | ⟨i, path⟩) names names' hnames hnames'
  · obtain rfl := Option.some.inj hnames
    obtain rfl := Option.some.inj hnames'
    rw [hn]
  · rw [names?_cons] at hnames hnames'
    obtain ⟨child, hc, hrest⟩ := Option.bind_eq_some_iff.1 hnames
    obtain ⟨child', hc', hrest'⟩ := Option.bind_eq_some_iff.1 hnames'
    obtain ⟨rest, hpath, rfl⟩ := Option.map_eq_some_iff.1 hrest
    obtain ⟨rest', hpath', rfl⟩ := Option.map_eq_some_iff.1 hrest'
    rw [hn, h i child child' hc hc' path rest rest' hpath hpath']

theorem Continues.refl (n : Node) : n.Continues n := ⟨rfl, rfl, List.prefix_rfl, List.prefix_rfl⟩

theorem Continues.trans {n m k : Node} (h : n.Continues m) (h' : m.Continues k) : n.Continues k :=
  ⟨h'.name.trans h.name, h'.value.trans h.value, h.children.trans h'.children,
    h.bitFields.trans h'.bitFields⟩

/-! ### The two changes of a node -/

/-- At a place there is the same child after another one was placed, unless it is that one
and has the same name. -/
theorem getElem?_place_of_some {node child child' : Node} {nodes : List Node} {i : Nat}
    (h : nodes[i]? = some child) (h' : (place node nodes)[i]? = some child') :
    child' = child ∨ child' = node ∧ child.name = node.name := by
  induction nodes generalizing i with
  | nil => simp at h
  | cons first nodes ih =>
    rw [place] at h'
    split_ifs at h' with hname
    · cases i with
      | zero =>
        obtain rfl := Option.some.inj h
        exact .inr ⟨(Option.some.inj h').symm, hname⟩
      | succ i => exact .inl (Option.some.inj (h'.symm.trans h))
    · cases i with
      | zero => exact .inl (Option.some.inj (h'.symm.trans h))
      | succ i => exact ih h h'

theorem names_prefix_place (node : Node) (nodes : List Node) :
    nodes.map (·.name) <+: (place node nodes).map (·.name) := by
  induction nodes with
  | nil => exact List.nil_prefix
  | cons first nodes ih =>
    rw [place]
    split_ifs with hname
    · have hnames : (first :: nodes).map (·.name) = (node :: nodes).map (·.name) := by
        rw [List.map_cons, List.map_cons, hname]
      exact hnames ▸ List.prefix_rfl
    · exact List.cons_prefix_cons.2 ⟨rfl, ih⟩

theorem sameNames_insertChild (n : Node) (name : String) (value : UInt32) :
    SameNames n (n.insertChild (leaf name value)) := by
  refine sameNames_of_children rfl fun i child child' hc hc' => ?_
  rcases getElem?_place_of_some hc hc' with rfl | ⟨rfl, hname⟩
  · exact .refl _
  · exact sameNames_of_children hname fun j _ _ _ hj => by simp [leaf] at hj

theorem continues_insertChild (n child : Node) : n.Continues (n.insertChild child) :=
  ⟨rfl, rfl, names_prefix_place child n.children, List.prefix_rfl⟩

theorem sameNames_addBitField (n : Node) (field : BitField) : SameNames n (n.addBitField field) :=
  sameNames_of_children rfl fun _ child _ hc hc' => by
    obtain rfl := Option.some.inj (hc.symm.trans hc')
    exact .refl child

theorem continues_addBitField (n : Node) (field : BitField) : n.Continues (n.addBitField field) :=
  ⟨rfl, rfl, List.prefix_rfl, List.prefix_append _ _⟩

/-! ### Edits at a path -/

theorem sameNames_editAt? {f : Node → Node} (hf : ∀ n, SameNames n (f n)) {path : List Nat}
    {n m : Node} (h : editAt? f path n = some m) : SameNames n m := by
  induction path generalizing n m with
  | nil =>
    obtain rfl := Option.some.inj h
    exact hf n
  | cons i path ih =>
    obtain ⟨child, changed, hchild, hchanged, rfl⟩ := exists_of_editAt?_cons h
    refine sameNames_of_children rfl fun j other other' ho ho' => ?_
    rw [List.getElem?_set] at ho'
    split_ifs at ho' with hij hlen
    · subst hij
      obtain rfl := Option.some.inj (hchild.symm.trans ho)
      obtain rfl := Option.some.inj ho'
      exact ih hchanged
    · obtain rfl := Option.some.inj (ho.symm.trans ho')
      exact .refl _

/-- Every node on the way to an edit stays, and so does the one that is edited. -/
theorem continues_editAt? {f : Node → Node} (hf : ∀ n : Node, n.Continues (f n)) {path outer : List Nat}
    {n m : Node} (h : editAt? f path n = some m) (hp : outer <+: path) :
    ∃ x y, n.at? outer = some x ∧ m.at? outer = some y ∧ x.Continues y := by
  induction path generalizing outer n m with
  | nil =>
    obtain rfl := List.prefix_nil.1 hp
    obtain rfl := Option.some.inj h
    exact ⟨n, f n, rfl, rfl, hf n⟩
  | cons i path ih =>
    obtain ⟨child, changed, hchild, hchanged, rfl⟩ := exists_of_editAt?_cons h
    have hi : i < n.children.length := (List.getElem?_eq_some_iff.1 hchild).1
    cases outer with
    | nil =>
      obtain ⟨_, _, hx, hy, hcontinues⟩ := ih hchanged List.nil_prefix
      obtain rfl := Option.some.inj hx
      obtain rfl := Option.some.inj hy
      have hsame : (n.children.set i changed).map (·.name) = n.children.map (·.name) :=
        map_set_of_key hchild hcontinues.name
      exact ⟨n, _, rfl, rfl, rfl, rfl, hsame ▸ List.prefix_rfl, List.prefix_rfl⟩
    | cons j outer =>
      obtain ⟨rfl, houter⟩ := List.cons_prefix_cons.1 hp
      obtain ⟨x, y, hx, hy, hcontinues⟩ := ih hchanged houter
      exact ⟨x, y, by simp [at?_cons, hchild, hx], by simp [at?_cons, hi, hy], hcontinues⟩

end Node

namespace Builder

open Node

variable {b c : Builder}

/-! ### Steps -/

/-- What a builder is given: a constant, or a line to be read as one. -/
inductive Input where
  | constant (constant : ConstantLine)
  | line (line : Line)

def give : Input → Step
  | .constant constant => add constant
  | .line line => feed line

/-- The states of the builders of a sequence of blocks over one forest, each after any
steps, failed ones among them. -/
inductive Reachable (forest : Forest) : Builder → Prop where
  | first (g : Grammar) (jumps : JumpPolicy) (name : String) :
    Reachable forest (start g jumps forest name)
  | block {b : Builder} (before : Reachable forest b) (g : Grammar) (jumps : JumpPolicy)
    (name : String) : Reachable forest (start g jumps b.forest name)
  | step {b : Builder} (before : Reachable forest b) (input : Input) :
    Reachable forest (give input b).1

/-- An input leaves the builder, or a constant is added. -/
theorem give_induction {P : Builder → Prop} (same : P b) (added : ∀ constant, P (add constant b).1)
    (input : Input) : P (give input b).1 := by
  cases input with
  | constant constant => exact added constant
  | line line => exact feed_induction same fun constant _ => added constant

theorem Sound.sound_give (h : b.Sound) (input : Input) : (give input b).1.Sound :=
  give_induction h h.sound_add input

theorem Reachable.sound {forest : Forest} (h : Reachable forest b) : b.Sound := by
  induction h with
  | first g jumps name => exact sound_start g jumps forest name
  | block before g jumps name ih => exact sound_start g jumps _ name
  | step before input ih => exact ih.sound_give input

/-- A builder that finds its positions never fails for one that leads nowhere. -/
theorem Sound.give_ne_internal (h : b.Sound) (input : Input) (cause : InternalCause) :
    (give input b).2.result ≠ .error (.internal cause) := by
  have hadd : ∀ constant, (add constant b).2.result ≠ .error (.internal cause) := by
    intro constant hfault
    obtain ⟨other, hother⟩ := add_eq_error h hfault
    cases hother
  cases input with
  | constant constant => exact hadd constant
  | line line =>
    intro hfault
    rw [give] at hfault
    cases hc : b.grammar.constantLine line.text with
    | ok constant =>
      rw [feed_of_ok hc] at hfault
      obtain ⟨bare, hbare, hline⟩ := Logged.result_atLine_eq_error.1 hfault
      obtain ⟨other, rfl⟩ := add_eq_error h hbare
      cases hline
    | error bare =>
      rw [feed_of_error hc] at hfault
      have hline := Except.error.inj hfault
      cases Grammar.constantLine_ofText hc <;> cases hline

/-! ### What a step keeps -/

/-- A step leaves the names on all ways of the tree, and every node on the way to a
parent. -/
structure Keeps (b built : Builder) : Prop where
  root : built.root = b.root
  trees : ∃ tree tree', b.forest.roots[b.root]? = some tree ∧ built.forest.roots[b.root]? = some tree' ∧
    SameNames tree tree' ∧ ∀ path ∈ built.parents, ∀ outer, outer <+: path →
      ∃ node node', tree.at? outer = some node ∧ tree'.at? outer = some node' ∧ node.Continues node'

theorem keeps_of_edit {built : Builder} {f : Node → Node} {path : List Nat} {tree changed : Node}
    (hnames : ∀ n, SameNames n (f n)) (hcontinues : ∀ n : Node, n.Continues (f n))
    (hroot : built.root = b.root) (htree : b.forest.roots[b.root]? = some tree)
    (hedit : editAt? f path tree = some changed)
    (hforest : built.forest = ⟨b.forest.roots.set b.root changed⟩)
    (hparents : ∀ other ∈ built.parents, other <+: path) : Keeps b built := by
  have hi : b.root < b.forest.roots.length := (List.getElem?_eq_some_iff.1 htree).1
  refine ⟨hroot, tree, changed, htree, by rw [hforest]; exact List.getElem?_set_self hi,
    sameNames_editAt? hnames hedit, fun other hm outer houter => ?_⟩
  exact continues_editAt? hcontinues hedit (houter.trans (hparents other hm))

theorem keeps_of_forest {built : Builder} (hb : built.Sound) (hroot : built.root = b.root)
    (hforest : built.forest = b.forest) : Keeps b built := by
  obtain ⟨tree, htree, hdenote⟩ := hb.denote
  rw [hforest, hroot] at htree
  refine ⟨hroot, tree, tree, htree, hforest ▸ htree, .refl tree, fun path hm outer houter => ?_⟩
  have hsome := isSome_at?_of_prefix (hdenote path (List.mem_cons_of_mem _ hm)) houter
  obtain ⟨node, hnode⟩ := Option.isSome_iff_exists.1 hsome
  exact ⟨node, node, hnode, hnode, .refl node⟩

theorem Keeps.nodeAt {built : Builder} (h : Keeps b built) {path outer : List Nat}
    (hm : path ∈ built.parents) (houter : outer <+: path) :
    ∃ node node', b.nodeAt outer = .ok node ∧ built.nodeAt outer = .ok node' ∧ node.Continues node' := by
  obtain ⟨hroot, tree, tree', htree, htree', -, hkept⟩ := h
  obtain ⟨node, node', hnode, hnode', hcontinues⟩ := hkept path hm outer houter
  exact ⟨node, node', nodeAt_eq_ok htree hnode, nodeAt_eq_ok (hroot ▸ htree') hnode', hcontinues⟩

theorem Sound.keeps_add (hb : b.Sound) (line : ConstantLine) : Keeps b (add line b).1 := by
  have hroot := (fixed_add line b).2.2
  have hsound := hb.sound_add line
  cases hbit : line.bitField? with
  | some name =>
    obtain ⟨tree, changed, htree, hedit, ha⟩ := annotate_of_sound hb ⟨name, line.value⟩
    rw [add_of_bitField hbit, ha]
    refine keeps_of_edit (sameNames_addBitField · _) (continues_addBitField · _) rfl htree hedit rfl ?_
    exact fun other hm => prefix_of_isChain hb.nested (List.mem_cons_of_mem _ hm)
  | none =>
    cases hc : b.refusal? line.level with
    | some cause => exact keeps_of_forest hsound hroot (add_of_refusal hbit hc).2.1
    | none =>
      obtain ⟨tree, _, changed, htree, -, hedit, hforest, -⟩ := (hb.add_of_not_refused hbit hc).2.edit
      refine keeps_of_edit (sameNames_insertChild · _ _) (continues_insertChild · _) hroot htree hedit hforest ?_
      exact fun other hm => prefix_of_isChain hsound.ready.nested hm

theorem Sound.keeps_give (hb : b.Sound) (input : Input) : Keeps b (give input b).1 :=
  give_induction (keeps_of_forest hb rfl rfl) hb.keeps_add input

/-! ### Runs -/

/-- The names on the way to a position, from the root of the block on. -/
def namesTo (b : Builder) (path : List Nat) : Option (List String) :=
  b.forest.roots[b.root]?.bind (·.names? path)

/-- A position of a builder that stays among some positions after every step up to
another builder. -/
inductive Remains (path : List Nat) (among : Builder → List (List Nat)) (b : Builder) : Builder → Prop where
  | here (taken : path ∈ b.positions) : Remains path among b b
  | step {c : Builder} (before : Remains path among b c) (input : Input)
    (stays : path ∈ among (give input c).1) : Remains path among b (give input c).1

variable {path : List Nat}

theorem Remains.sound {among : Builder → List (List Nat)} (h : Remains path among b c) (hb : b.Sound) :
    c.Sound := by
  induction h with
  | here taken => exact hb
  | step before input stays ih => exact ih.sound_give input

theorem Sound.exists_namesTo (hb : b.Sound) (h : path ∈ b.positions) :
    ∃ names, b.namesTo path = some names := by
  obtain ⟨tree, htree, hdenote⟩ := hb.denote
  have hsome := hdenote path h
  rw [← isSome_names?] at hsome
  obtain ⟨names, hnames⟩ := Option.isSome_iff_exists.1 hsome
  exact ⟨names, by rw [namesTo, htree]; exact hnames⟩

/-- A position has the names that it had when it was taken up. -/
theorem Remains.namesTo_eq (h : Remains path positions b c) (hb : b.Sound) :
    ∃ names, b.namesTo path = some names ∧ c.namesTo path = some names := by
  induction h with
  | here taken =>
    obtain ⟨names, hnames⟩ := hb.exists_namesTo taken
    exact ⟨names, hnames, hnames⟩
  | @step c before input stays ih =>
    obtain ⟨names, hnames, hc⟩ := ih
    have hsound := before.sound hb
    obtain ⟨hroot, tree, tree', htree, htree', hsame, -⟩ := hsound.keeps_give input
    obtain ⟨names', hnames'⟩ := (hsound.sound_give input).exists_namesTo stays
    refine ⟨names, hnames, ?_⟩
    rw [namesTo, htree, Option.bind_some] at hc
    rw [namesTo, hroot, htree', Option.bind_some] at hnames' ⊢
    rw [hnames', hsame path names names' hc hnames']

/-- No node on the way to a parent is replaced while the parent is remembered. -/
theorem Remains.continues (h : Remains path parents b c) (hb : b.Sound) {outer : List Nat}
    (houter : outer <+: path) :
    ∃ node node', b.nodeAt outer = .ok node ∧ c.nodeAt outer = .ok node' ∧ node.Continues node' := by
  induction h with
  | here taken =>
    obtain ⟨tree, htree, hdenote⟩ := hb.denote
    have hsome := isSome_at?_of_prefix (hdenote path taken) houter
    obtain ⟨node, hnode⟩ := Option.isSome_iff_exists.1 hsome
    exact ⟨node, node, nodeAt_eq_ok htree hnode, nodeAt_eq_ok htree hnode, .refl node⟩
  | @step c before input stays ih =>
    obtain ⟨node, middle, hnode, hmiddle, hfirst⟩ := ih
    obtain ⟨middle', last, hmiddle', hlast, hnext⟩ := ((before.sound hb).keeps_give input).nodeAt stays houter
    obtain rfl := Except.ok.inj (hmiddle.symm.trans hmiddle')
    exact ⟨node, last, hnode, hlast, hfirst.trans hnext⟩

/-- In every state the positions are inside each other, from the node added last to the
outermost parent, and all lead to nodes. The names on the way to a position are those of
when it was taken up, and no node on the way to a parent is replaced while the parent
stays. So no step ever fails for a position that leads nowhere. -/
theorem positions_of_reachable {forest : Forest} {b : Builder} (reachable : Reachable forest b) :
    (b.last :: b.parent :: b.stack).IsChain (fun inner outer => outer <+: inner) ∧
      (∀ path ∈ b.last :: b.parent :: b.stack, ∃ node, b.nodeAt path = .ok node) ∧
      (∀ path c, Remains path positions b c →
        ∃ names, b.namesTo path = some names ∧ c.namesTo path = some names) ∧
      (∀ path c, Remains path parents b c → ∀ outer, outer <+: path →
        ∃ node node', b.nodeAt outer = .ok node ∧ c.nodeAt outer = .ok node' ∧ node.Continues node') ∧
      ∀ input cause, (give input b).2.result ≠ .error (.internal cause) := by
  have hb := reachable.sound
  refine ⟨hb.nested.imp fun inner outer h => h.1, fun path hm => ?_, fun path c h => h.namesTo_eq hb,
    fun path c h outer houter => h.continues hb houter, hb.give_ne_internal⟩
  obtain ⟨tree, htree, hdenote⟩ := hb.denote
  obtain ⟨node, hnode⟩ := Option.isSome_iff_exists.1 (hdenote path hm)
  exact ⟨node, nodeAt_eq_ok htree hnode⟩

/-- Levels 1 and 3, and then either a fall that fails or one more node of level 3. -/
theorem positions_of_failed_fall :
    let b := (give (.constant ⟨3, "b", 2⟩) (give (.constant ⟨1, "a", 1⟩)
      (start .standard .collapse .empty "root")).1).1
    let failed := (give (.constant ⟨0, "c", 3⟩) b).1
    let c := (give (.constant ⟨3, "d", 4⟩) b).1
    b.positions = [[0, 0], [0], [], []] ∧
      (∃ names, b.namesTo [0] = some names ∧ c.namesTo [0] = some names) ∧
      (∃ node node', b.nodeAt [0] = .ok node ∧ c.nodeAt [0] = .ok node' ∧ node.Continues node') ∧
      (failed.last :: failed.parent :: failed.stack).IsChain (fun inner outer => outer <+: inner) ∧
      ∀ input cause, (give input failed).2.result ≠ .error (.internal cause) := by
  intro b failed c
  have hb : Reachable .empty b := .step (.step (.first .standard .collapse "root") _) _
  obtain ⟨-, -, hnames, hnodes, -⟩ := positions_of_reachable hb
  obtain ⟨hchain, -, -, -, hnever⟩ := positions_of_reachable (hb.step (.constant ⟨0, "c", 3⟩))
  have hstays : [0] ∈ c.parents := by decide +kernel
  have hpositions : [0] ∈ c.positions := by decide +kernel
  have htaken : [0] ∈ b.positions := by decide +kernel
  refine ⟨by decide +kernel, hnames [0] c (.step (.here htaken) _ hpositions), ?_, hchain, hnever⟩
  exact hnodes [0] c (.step (.here htaken) _ hstays) [0] List.prefix_rfl

end Builder

end Codesheet
