import Codesheet.Proofs.Constants.Steps
import Codesheet.Proofs.Keys
import Codesheet.Proofs.Program.Nesting

/-! Names in the forest of constants. Whatever steps a builder takes, the roots have distinct
names, and so have the children of every node. A parsed text gives no node below the roots a
name with a dot. -/

namespace Codesheet

/-! ### Nodes -/

namespace Node

variable {P : List String → Prop}

/-- The names of the children have a property, at a node and at all nodes below it. -/
inductive Named (P : List String → Prop) : Node → Prop where
  | node {n : Node} (here : P (n.children.map (·.name)))
    (kept : ∀ child ∈ n.children, Named P child) : Named P n

theorem Named.here {n : Node} (h : Named P n) : P (n.children.map (·.name)) := by
  cases h
  assumption

theorem Named.child {n child : Node} (h : Named P n) (hm : child ∈ n.children) : Named P child := by
  cases h
  rename_i hkept
  exact hkept child hm

/-- One more name may be added at the end of names that do not have it. -/
def Admits (P : List String → Prop) (name : String) : Prop :=
  ∀ names, P names → name ∉ names → P (names ++ [name])

theorem names_place (node : Node) (nodes : List Node) :
    (place node nodes).map (·.name) =
      nodes.map (·.name) ++ if node.name ∈ nodes.map (·.name) then [] else [node.name] := by
  induction nodes with
  | nil => simp [place]
  | cons first nodes ih =>
    rw [place]
    by_cases h : first.name = node.name
    · simp [h]
    · simp [h, Ne.symm h, ih]

theorem mem_place {node other : Node} {nodes : List Node} (h : other ∈ place node nodes) :
    other = node ∨ other ∈ nodes := by
  induction nodes with
  | nil => exact .inl (List.mem_singleton.1 h)
  | cons first nodes ih =>
    rw [place] at h
    split_ifs at h
    · rcases List.mem_cons.1 h with rfl | h
      · exact .inl rfl
      · exact .inr (List.mem_cons_of_mem _ h)
    · rcases List.mem_cons.1 h with rfl | h
      · exact .inr List.mem_cons_self
      · exact (ih h).imp_right (List.mem_cons_of_mem _)

theorem named_leaf (hnil : P []) (name : String) (value : UInt32) : Named P (leaf name value) :=
  .node hnil nofun

theorem Named.insertChild {n child : Node} (h : Named P n) (hchild : Named P child)
    (hadmits : Admits P child.name) : Named P (n.insertChild child) := by
  refine .node ?_ fun other hm => ?_
  · have hnames := names_place child n.children
    show P ((place child n.children).map (·.name))
    rw [hnames]
    split_ifs with hm
    · simpa using h.here
    · exact hadmits _ h.here hm
  · rcases mem_place hm with rfl | hm
    · exact hchild
    · exact h.child hm

theorem Named.addBitField {n : Node} (h : Named P n) (field : BitField) :
    Named P (n.addBitField field) :=
  .node h.here fun _ hm => h.child hm

theorem Named.editAt? {f : Node → Node} (hf : ∀ n, Named P n → Named P (f n))
    (hname : ∀ n, (f n).name = n.name) {path : List Nat} {n m : Node} (h : Named P n)
    (he : editAt? f path n = some m) : Named P m ∧ m.name = n.name := by
  induction path generalizing n m with
  | nil =>
    obtain rfl := Option.some.inj he
    exact ⟨hf n h, hname n⟩
  | cons i path ih =>
    obtain ⟨child, changed, hc, hchanged, rfl⟩ := Node.exists_of_editAt?_cons he
    obtain ⟨hnamed, hsame⟩ := ih (h.child (List.mem_of_getElem? hc)) hchanged
    have hnames : P ((n.children.set i changed).map (·.name)) := by
      rw [map_set_of_key hc hsame]
      exact h.here
    refine ⟨.node hnames fun other hm => ?_, rfl⟩
    rcases List.mem_or_eq_of_mem_set hm with hm | rfl
    · exact h.child hm
    · exact hnamed

end Node

open Node (Admits)

/-! ### Forests -/

namespace Forest

variable {P : List String → Prop} {f : Forest}

theorem slot_lt_iff {name : String} : f.slot name < f.roots.length ↔ name ∈ f.roots.map (·.name) := by
  rw [slot, List.findIdx_lt_length]
  simp

theorem roots_ensureRoot (f : Forest) (name : String) :
    (f.ensureRoot name).roots =
      if name ∈ f.roots.map (·.name) then f.roots else f.roots ++ [.leaf name 0] := by
  rw [ensureRoot, apply_ite roots]
  simp only [slot_lt_iff]

/-- The roots have distinct names, and the names of children have a property everywhere. -/
structure Named (P : List String → Prop) (f : Forest) : Prop where
  roots : (f.roots.map (·.name)).Nodup
  trees : ∀ root ∈ f.roots, root.Named P

theorem named_empty : Named P .empty := ⟨List.nodup_nil, nofun⟩

theorem Named.ensureRoot (h : f.Named P) (hnil : P []) (name : String) :
    (f.ensureRoot name).Named P := by
  unfold Forest.ensureRoot
  split_ifs with hslot
  · exact h
  · rw [slot_lt_iff] at hslot
    constructor
    · rw [List.map_append, List.map_singleton, ← List.concat_eq_append, List.nodup_concat]
      exact ⟨hslot, h.roots⟩
    · intro root hm
      rcases List.mem_append.1 hm with hm | hm
      · exact h.trees root hm
      · obtain rfl := List.mem_singleton.1 hm
        exact Node.named_leaf hnil name 0

theorem Named.set (h : f.Named P) {i : Nat} {root changed : Node} (hi : f.roots[i]? = some root)
    (hnamed : changed.Named P) (hname : changed.name = root.name) :
    Named P ⟨f.roots.set i changed⟩ := by
  have hnames : ((f.roots.set i changed).map (·.name)).Nodup := by
    rw [map_set_of_key hi hname]
    exact h.roots
  refine ⟨hnames, fun other hm => ?_⟩
  rcases List.mem_or_eq_of_mem_set hm with hm | rfl
  · exact h.trees other hm
  · exact hnamed

end Forest

/-! ### Builders -/

namespace Builder

variable {P : List String → Prop} {b : Builder}

theorem named_edited {f : Node → Node} {path : List Nat} {forest : Forest} (h : b.forest.Named P)
    (hf : ∀ n, n.Named P → (f n).Named P) (hname : ∀ n, (f n).name = n.name)
    (he : b.edited f path = .ok forest) : forest.Named P := by
  unfold edited at he
  split at he
  · cases he
  · next root hroot =>
    split at he
    · cases he
    · next changed hchanged =>
      obtain rfl := Except.ok.inj he
      have hold := h.trees root (List.mem_of_getElem? hroot)
      obtain ⟨hnamed, hsame⟩ := hold.editAt? hf hname hchanged
      exact h.set hroot hnamed hsame

theorem named_annotate (h : b.forest.Named P) (field : BitField) :
    (annotate field b).1.forest.Named P := by
  unfold annotate
  split
  · next forest he => exact named_edited h (fun n hn => hn.addBitField field) (fun _ => rfl) he
  · exact h

theorem named_attach (h : b.forest.Named P) (hnil : P []) {name : String} (hadmits : Admits P name)
    (value : UInt32) : (attach (.leaf name value) b).1.forest.Named P := by
  unfold attach
  split
  · next he =>
    have hinsert : ∀ n : Node, n.Named P → (n.insertChild (.leaf name value)).Named P :=
      fun n hn => hn.insertChild (Node.named_leaf hnil name value) hadmits
    exact named_edited h hinsert (fun _ => rfl) he
  · exact h
  · exact h

theorem forest_moveTo (level : Nat) : (moveTo level b).1.forest = b.forest := by
  have hm := moves_moveTo level b
  generalize moveTo level b = r at hm
  cases hm <;> rfl

/-- Whether it fails or not, a step keeps the names of a forest as they have to be. -/
theorem named_add (h : b.forest.Named P) (hnil : P []) {line : ConstantLine}
    (hadmits : line.bitField? = none → Admits P line.name) : (add line b).1.forest.Named P := by
  cases hbit : line.bitField? with
  | some name =>
    rw [add_of_bitField hbit]
    exact named_annotate h _
  | none =>
    have hmoved : (moveTo line.level b).1.forest.Named P := by rwa [forest_moveTo]
    rw [add_of_node hbit]
    cases hm : (moveTo line.level b).2.result with
    | error fault => rwa [andThen_of_error hm]
    | ok done =>
      rw [andThen_of_ok hm]
      exact named_attach hmoved hnil (hadmits hbit) line.value

/-- Names may be whatever a grammar accepts as the name of a node. -/
def AdmitsAll (P : List String → Prop) (g : Grammar) : Prop :=
  ∀ text line, g.constantLine text = .ok line → line.bitField? = none → Admits P line.name

theorem named_feed (h : b.forest.Named P) (hnil : P []) (hadmits : AdmitsAll P b.grammar)
    (line : Line) : (feed line b).1.forest.Named P := by
  refine feed_induction (P := fun built => built.forest.Named P) h fun constant hc => ?_
  exact named_add h hnil (hadmits line.text constant hc)

theorem named_feeds {built : Builder} {lines : List Line} (hfed : Feeds b lines built)
    (h : b.forest.Named P) (hnil : P []) (hadmits : AdmitsAll P b.grammar) : built.forest.Named P := by
  induction hfed with
  | nil b => exact h
  | @cons b built line lines accepted rest ih =>
    refine ih (named_feed h hnil hadmits line) ?_
    rwa [(fixed_feed line b).1]

end Builder

/-! ### Programs -/

namespace Program

variable {P : List String → Prop} {g : Grammar} {jumps : JumpPolicy}

theorem Grows.named {forest grown : Forest} {blocks : List Block}
    (hgrow : Grows g jumps forest blocks grown) (h : forest.Named P) (hnil : P [])
    (hadmits : Builder.AdmitsAll P g) : grown.Named P := by
  induction hgrow with
  | nil forest => exact h
  | cons fed rest ih => exact ih (Builder.named_feeds fed (h.ensureRoot hnil _) hnil hadmits)

/-- Distinct names without dots. -/
structure Plain (names : List String) : Prop where
  distinct : names.Nodup
  undotted : ∀ name ∈ names, '.' ∉ name.toList

theorem plain_nil : Plain [] := ⟨List.nodup_nil, nofun⟩

theorem admitsAll_plain (g : Grammar) : Builder.AdmitsAll Plain g := by
  intro text line hline hbit names h hnot
  constructor
  · rw [← List.concat_eq_append, List.nodup_concat]
    exact ⟨hnot, h.distinct⟩
  · intro name hm hdot
    rcases List.mem_append.1 hm with hm | hm
    · exact h.undotted name hm hdot
    · obtain rfl := List.mem_singleton.1 hm
      exact absurd (Grammar.constantLine_name hline hbit '.' hdot) (by decide)

/-- The forest of a parsed text has distinct names, below its roots without dots. -/
theorem named_of_parse {options : ParseOptions} {text : String} {p : Program}
    (h : (parse options text).result = .ok p) : p.constants.Named Plain := by
  obtain ⟨valid, hread⟩ := exists_read_of_parse h
  have hadds := (read_eq_ok_iff _ _ (cut_of_read hread)).1 hread
  exact hadds.constants.named Forest.named_empty plain_nil (admitsAll_plain _)

end Program

end Codesheet
