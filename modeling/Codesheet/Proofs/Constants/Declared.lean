import Codesheet.Proofs.Constants.Edits
import Codesheet.Proofs.Program.Names
import Mathlib.Algebra.GroupWithZero.Nat
import Mathlib.Data.List.Flatten

/-! The nodes of a forest and the node lines that it is made of, both by the names on the way from the root.
A node line adds its names if they are new there, and otherwise it can only take names away. So nothing is in
the forest that was not declared, and all that was declared is in it if no names were declared twice. -/

namespace Codesheet

/-! ### Lists that gain a member -/

/-- A list after a member was put in. One that is new has been added, and for one that is not new others may
be gone. -/
structure Gains {α : Type} (a : α) (old new : List α) : Prop where
  fresh : a ∉ old → new.Perm (a :: old)
  only : new ⊆ a :: old

namespace Gains

variable {α β : Type} {a : α} {old new : List α}

theorem map (h : Gains a old new) (f : α → β) : Gains (f a) (old.map f) (new.map f) := by
  refine ⟨fun hnew => ?_, List.map_subset f h.only⟩
  exact (h.fresh fun hm => hnew (List.mem_map_of_mem hm)).map f

theorem append (h : Gains a old new) (before after : List α) :
    Gains a (before ++ old ++ after) (before ++ new ++ after) := by
  constructor
  · intro hnew
    have hold : a ∉ old := fun hm => hnew (by simp [hm])
    exact (((h.fresh hold).append_left before).trans List.perm_middle).append_right after
  · intro b hb
    have := @h.only b
    simp only [List.mem_append, List.mem_cons] at hb this ⊢
    tauto

theorem flatMap_set {nodes : List β} {i : Nat} {x y : β} (hx : nodes[i]? = some x) {f : β → List α}
    (h : Gains a (f x) (f y)) : Gains a (nodes.flatMap f) ((nodes.set i y).flatMap f) := by
  obtain ⟨hi, rfl⟩ := List.getElem?_eq_some_iff.1 hx
  have hold : nodes = nodes.take i ++ nodes[i] :: nodes.drop (i + 1) := by simp
  have hset : nodes.set i y = nodes.take i ++ y :: nodes.drop (i + 1) :=
    List.set_eq_take_append_cons_drop.trans (if_pos hi)
  have hgain := h.append ((nodes.take i).flatMap f) ((nodes.drop (i + 1)).flatMap f)
  rw [hset]
  conv => arg 2; rw [hold]
  simpa only [List.flatMap_append, List.flatMap_cons, List.append_assoc] using hgain

end Gains

/-! ### Nodes -/

namespace Node

mutual

/-- The names on the way to each node of a tree, from the root's own name on. -/
def paths : Node → List (List String)
  | ⟨name, _, children, _⟩ => ([] :: pathsAll children).map (name :: ·)

def pathsAll : List Node → List (List String)
  | [] => []
  | n :: ns => n.paths ++ pathsAll ns

end

/-- The names on the way to each node below the root. -/
def descendants (n : Node) : List (List String) := (n.children.flatMap paths).map (n.name :: ·)

theorem pathsAll_eq (nodes : List Node) : pathsAll nodes = nodes.flatMap paths := by
  induction nodes with
  | nil => rfl
  | cons n nodes ih => rw [pathsAll, ih, List.flatMap_cons]

theorem paths_eq (n : Node) : n.paths = [n.name] :: n.descendants := by
  cases n
  rw [paths, pathsAll_eq]
  rfl

theorem head?_of_mem_paths {n : Node} {names : List String} (h : names ∈ n.paths) :
    names.head? = some n.name := by
  rw [paths_eq, List.mem_cons, descendants] at h
  rcases h with rfl | h
  · rfl
  · obtain ⟨_, -, rfl⟩ := List.mem_map.1 h
    rfl

/-- Trees with distinct names have no names on the way in common. -/
theorem disjoint_paths {n m : Node} (h : n.name ≠ m.name) : n.paths.Disjoint m.paths := by
  intro names hn hm
  exact h (Option.some.inj ((head?_of_mem_paths hn).symm.trans (head?_of_mem_paths hm)))

theorem nodup_flatMap_paths {nodes : List Node} (hnames : (nodes.map (·.name)).Nodup)
    (h : ∀ n ∈ nodes, n.paths.Nodup) : (nodes.flatMap paths).Nodup := by
  rw [List.nodup_flatMap]
  exact ⟨h, (List.pairwise_map.1 hnames).imp disjoint_paths⟩

theorem nodup_paths {n : Node} (h : n.Named List.Nodup) : n.paths.Nodup := by
  induction h with
  | @node n here kept ih =>
    have hchildren : ([] :: n.children.flatMap paths).Nodup := by
      refine List.nodup_cons.2 ⟨fun hm => ?_, nodup_flatMap_paths here ih⟩
      obtain ⟨child, -, hnil⟩ := List.mem_flatMap.1 hm
      cases head?_of_mem_paths hnil
    exact paths_eq n ▸ hchildren.map (List.cons_injective)

/-! ### Edits -/

theorem gains_place (name : String) (value : UInt32) (nodes : List Node) :
    Gains [name] (nodes.flatMap paths) ((place (leaf name value) nodes).flatMap paths) := by
  induction nodes with
  | nil => exact ⟨fun _ => .refl _, List.Subset.refl _⟩
  | cons first nodes ih =>
    rw [place]
    split_ifs with hname
    · -- the leaf takes the place of a tree that had its name on the way already
      have hhere : Gains [name] first.paths (leaf name value).paths := by
        have hm : [name] ∈ first.paths := by
          rw [paths_eq, hname]
          exact List.mem_cons_self
        refine ⟨fun hnew => absurd hm hnew, ?_⟩
        exact List.cons_subset_cons _ (List.nil_subset _)
      simpa using hhere.append [] (nodes.flatMap paths)
    · simpa using ih.append first.paths []

/-- A leaf that is put below a node adds the names on its way, if they are new in the tree. -/
theorem gains_editAt? {name : String} {value : UInt32} {path : List Nat} {tree parent changed : Node}
    (hparent : tree.at? path = some parent)
    (h : editAt? (·.insertChild (leaf name value)) path tree = some changed) :
    ∃ names, changed.names? (path ++ [parent.slot name]) = some names ∧
      Gains names tree.descendants changed.descendants := by
  induction path generalizing tree changed with
  | nil =>
    obtain rfl := Option.some.inj hparent
    obtain rfl := Option.some.inj h
    refine ⟨[tree.name, name], ?_, (gains_place name value tree.children).map (tree.name :: ·)⟩
    have hchild : (tree.insertChild (leaf name value)).children[tree.slot name]? = some (leaf name value) :=
      getElem?_place (leaf name value) tree.children
    rw [List.nil_append, names?_cons, hchild]
    rfl
  | cons i path ih =>
    obtain ⟨child, built, hchild, hbuilt, rfl⟩ := exists_of_editAt?_cons h
    have hi : i < tree.children.length := (List.getElem?_eq_some_iff.1 hchild).1
    rw [at?_cons, hchild, Option.bind_some] at hparent
    obtain ⟨names, hnames, hgains⟩ := ih hparent hbuilt
    refine ⟨tree.name :: names, ?_, ?_⟩
    · rw [List.cons_append, names?_cons, List.getElem?_set_self hi, Option.bind_some, hnames]
      rfl
    · have hpaths : Gains names child.paths built.paths := by
        have hedit : editAt? (Change.leaf name value).apply path child = some built := hbuilt
        have hname : built.name = child.name := congrArg Prod.fst (label_editAt? hedit)
        rw [paths_eq, paths_eq, hname]
        simpa using hgains.append [[child.name]] []
      exact (hpaths.flatMap_set hchild).map (tree.name :: ·)

theorem descendants_addBitField {field : BitField} {path : List Nat} {tree changed : Node}
    (h : editAt? (·.addBitField field) path tree = some changed) :
    changed.descendants = tree.descendants := by
  have hpaths : changed.paths = tree.paths := by
    refine key_editAt? (fun n => ?_) (fun n children hchildren => ?_) h
    · rw [paths_eq, paths_eq]
      rfl
    · rw [paths_eq, paths_eq, descendants, descendants, List.flatMap, List.flatMap, hchildren]
  rw [paths_eq, paths_eq] at hpaths
  exact (List.cons.inj hpaths).2

end Node

/-! ### Forests -/

namespace Forest

/-- The names on the way to each node below a root. -/
def descendants (f : Forest) : List (List String) := f.roots.flatMap Node.descendants

theorem nodup_descendants {f : Forest} (h : f.Named List.Nodup) : f.descendants.Nodup := by
  have hall : (f.roots.flatMap Node.paths).Nodup :=
    Node.nodup_flatMap_paths h.roots fun root hm => Node.nodup_paths (h.trees root hm)
  have hsub : f.descendants.Sublist (f.roots.flatMap Node.paths) := by
    refine List.Sublist.flatMap_right f.roots fun root _ => ?_
    rw [Node.paths_eq]
    exact List.sublist_cons_self _ _
  exact hall.sublist hsub

theorem descendants_ensureRoot (f : Forest) (name : String) :
    (f.ensureRoot name).descendants = f.descendants := by
  rw [descendants, roots_ensureRoot]
  split_ifs
  · rfl
  · rw [List.flatMap_append]
    exact List.append_nil _

end Forest

/-! ### Builders -/

namespace Builder

variable {b : Builder} {keys : List (List String)}

/-- The names on the way to the node, from the root of the block on. -/
def Addition.names? (a : Addition) : Option (List String) := a.built.namesTo a.built.last

/-- The names of the nodes that are added, in the order of their lines. -/
def declared (b : Builder) (lines : List Line) : List (List String) :=
  (b.additions lines).filterMap Addition.names?

theorem declared_of_none {line : Line} (h : nodeLine? b.grammar line = none) (lines : List Line) :
    b.declared (line :: lines) = (feed line b).1.declared lines := by
  rw [declared, additions_of_none h, declared]

theorem declared_of_some {line : Line} {constant : ConstantLine} (h : nodeLine? b.grammar line = some constant)
    {names : List String} (hnames : (feed line b).1.namesTo (feed line b).1.last = some names)
    (lines : List Line) : b.declared (line :: lines) = names :: (feed line b).1.declared lines := by
  have hfirst : Addition.names? ⟨constant, (feed line b).1⟩ = some names := hnames
  rw [declared, additions_of_some h, List.filterMap_cons_some hfirst, declared]

/-- The nodes of a forest are among those that were declared, and are all of them if none was declared
twice. -/
structure Covers (keys : List (List String)) (f : Forest) : Prop where
  only : f.descendants ⊆ keys
  all : keys.Nodup → f.descendants.Perm keys

theorem Covers.gain {f f' : Forest} {names : List String} (h : Covers keys f)
    (hgains : Gains names f.descendants f'.descendants) : Covers (keys ++ [names]) f' := by
  constructor
  · intro other hm
    have hother := hgains.only hm
    rw [List.mem_append, List.mem_singleton]
    exact (List.mem_cons.1 hother).symm.imp_left (@h.only other)
  · intro hnodup
    rw [← List.concat_eq_append, List.nodup_concat] at hnodup
    have hnew : names ∉ f.descendants := fun hm => hnodup.1 (h.only hm)
    exact (hgains.fresh hnew).trans
      (((h.all hnodup.2).cons names).trans (List.perm_append_singleton names keys).symm)

theorem Covers.of_descendants {f f' : Forest} (h : Covers keys f) (heq : f'.descendants = f.descendants) :
    Covers keys f' := by
  constructor
  · rw [heq]
    exact h.only
  · rw [heq]
    exact h.all

theorem covers_empty : Covers [] .empty := ⟨List.Subset.refl _, fun _ => .refl _⟩

/-! ### Steps -/

theorem Attached.gains {line : ConstantLine} {built : Builder} (h : Attached line b built)
    (hroot : built.root = b.root) :
    ∃ names, built.namesTo built.last = some names ∧
      Gains names b.forest.descendants built.forest.descendants := by
  obtain ⟨tree, parent, changed, htree, hparent, hedit, hforest, hlast⟩ := h.edit
  obtain ⟨names, hnames, hgains⟩ := Node.gains_editAt? hparent hedit
  have hi : b.root < b.forest.roots.length := (List.getElem?_eq_some_iff.1 htree).1
  refine ⟨names, ?_, ?_⟩
  · rw [namesTo, hforest, hroot, List.getElem?_set_self hi, Option.bind_some, hlast, hnames]
  · rw [hforest]
    exact hgains.flatMap_set htree

/-- A node line that is taken declares the names of its node. -/
theorem gains_feed (hb : b.Sound) {line : Line} {constant : ConstantLine}
    (hline : nodeLine? b.grammar line = some constant) (hok : (feed line b).2.result = .ok ()) :
    ∃ names, (feed line b).1.namesTo (feed line b).1.last = some names ∧
      Gains names b.forest.descendants (feed line b).1.forest.descendants := by
  obtain ⟨hc, hbit⟩ := nodeLine?_eq_some.1 hline
  rw [feed_of_ok hc] at hok ⊢
  have haccepted := (hb.add_eq_ok_iff hbit).1 (Logged.result_atLine_eq_ok.1 hok)
  exact (hb.add_of_not_refused hbit haccepted).2.gains (fixed_add constant b).2.2

theorem descendants_feed (hb : b.Sound) {line : Line} (hline : nodeLine? b.grammar line = none) :
    (feed line b).1.forest.descendants = b.forest.descendants := by
  refine feed_induction (P := fun built => built.forest.descendants = b.forest.descendants) rfl
    fun constant hc => ?_
  cases hbit : constant.bitField? with
  | none => simp [nodeLine?_eq_some.2 ⟨hc, hbit⟩] at hline
  | some name =>
    obtain ⟨tree, changed, htree, hedit, ha⟩ := annotate_of_sound hb ⟨name, constant.value⟩
    have hsame := Node.descendants_addBitField hedit
    rw [add_of_bitField hbit, ha, Forest.descendants, Forest.descendants, List.flatMap, List.flatMap,
      map_set_of_key htree hsame]

/-! ### Runs -/

def isNode (g : Grammar) (line : Line) : Bool := (nodeLine? g line).isSome

/-- Every node line of a block that is accepted declares one node, after those of the lines before it. -/
theorem Feeds.covers {lines : List Line} {built : Builder} (h : Feeds b lines built) (hb : b.Sound)
    (hcovers : Covers keys b.forest) :
    Covers (keys ++ b.declared lines) built.forest ∧
      (b.declared lines).length = lines.countP (isNode b.grammar) := by
  induction h generalizing keys with
  | nil b => exact ⟨by simpa [declared, additions] using hcovers, rfl⟩
  | @cons b built line lines accepted rest ih =>
    have hgrammar := (fixed_feed line b).1
    cases hline : nodeLine? b.grammar line with
    | none =>
      have hcount : ¬ isNode b.grammar line := by simp [isNode, hline]
      obtain ⟨hall, hlength⟩ := ih (hb.sound_feed line) (hcovers.of_descendants (descendants_feed hb hline))
      rw [hgrammar] at hlength
      rw [declared_of_none hline, List.countP_cons_of_neg hcount]
      exact ⟨hall, hlength⟩
    | some constant =>
      have hcount : isNode b.grammar line := by simp [isNode, hline]
      obtain ⟨names, hnames, hgains⟩ := gains_feed hb hline accepted
      obtain ⟨hall, hlength⟩ := ih (hb.sound_feed line) (hcovers.gain hgains)
      rw [hgrammar] at hlength
      rw [List.append_assoc, List.singleton_append] at hall
      rw [declared_of_some hline hnames, List.countP_cons_of_pos hcount, List.length_cons, hlength]
      exact ⟨hall, rfl⟩

end Builder

namespace Program

open Builder (Covers covers_empty)

variable {g : Grammar} {jumps : JumpPolicy}

/-- The names that are declared by blocks of constants, from a forest on. -/
def declared (g : Grammar) (jumps : JumpPolicy) : Forest → List Block → List (List String)
  | _, [] => []
  | forest, b :: blocks =>
    let opened := Builder.start g jumps forest b.header.name
    opened.declared b.body ++ declared g jumps (Builder.feedAll b.body opened).1.forest blocks

theorem Grows.covers {forest grown : Forest} {blocks : List Block} (h : Grows g jumps forest blocks grown)
    {keys : List (List String)} (hcovers : Covers keys forest) :
    Covers (keys ++ declared g jumps forest blocks) grown ∧
      (declared g jumps forest blocks).length =
        (blocks.map fun b => b.body.countP (Builder.isNode g)).sum := by
  induction h generalizing keys with
  | nil forest => exact ⟨by simpa [declared] using hcovers, rfl⟩
  | @cons forest grown b blocks built fed rest ih =>
    have hopened : Covers keys (Builder.start g jumps forest b.header.name).forest :=
      hcovers.of_descendants (forest.descendants_ensureRoot b.header.name)
    obtain ⟨hblock, hlength⟩ := fed.covers (Builder.sound_start g jumps forest b.header.name) hopened
    obtain ⟨hall, hrest⟩ := ih hblock
    have hgrammar : (Builder.start g jumps forest b.header.name).grammar = g := rfl
    rw [hgrammar] at hlength
    rw [declared, (Builder.feedAll_iff_feeds.2 fed).2]
    refine ⟨?_, ?_⟩
    · rwa [← List.append_assoc]
    · rw [List.length_append, hlength, hrest, List.map_cons, List.sum_cons]

end Program

end Codesheet
