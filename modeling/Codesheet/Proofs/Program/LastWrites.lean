import Codesheet.Proofs.Constants.Edits
import Codesheet.Proofs.Program.Names

/-! Forests made by blocks, one after the other, whatever each of them is given. Their roots have
the names of the blocks in the order in which these first come, and no name comes twice among the
children of a node, so a node that is written again takes the place of the one before it. -/

namespace Codesheet

theorem Node.Named.at? {P : List String → Prop} {n m : Node} {path : List Nat} (h : n.Named P)
    (hm : n.at? path = some m) : m.Named P := by
  induction path generalizing n with
  | nil =>
    obtain rfl := Option.some.inj hm
    exact h
  | cons i path ih =>
    rw [at?_cons] at hm
    obtain ⟨child, hchild, hm⟩ := Option.bind_eq_some_iff.1 hm
    exact ih (h.child (List.mem_of_getElem? hchild)) hm

theorem Forest.names_of_labels {f : Forest} {names : List String} (h : f.labels = names.map (·, 0)) :
    f.roots.map (·.name) = names := by
  have hfst := congrArg (List.map Prod.fst) h
  simpa [labels, Function.comp_def, Node.label] using hfst

namespace Builder

open Node (Wrote)

/-- The forests that blocks of some names can make from an empty one. Each block is given some
inputs, and failed ones may be among them. -/
inductive Made : List String → Forest → Prop where
  | empty : Made [] .empty
  | block {names : List String} {forest : Forest} (before : Made names forest) (g : Grammar)
    (jumps : JumpPolicy) (name : String) (inputs : List Input) :
    Made (names ++ [name]) ((start g jumps forest name).giveEach inputs).forest

/-- The roots are those of the names, in the order in which these first come, with value 0, and no
two roots and no two children of a node have the same name. -/
structure Declares (names : List String) (forest : Forest) : Prop where
  roots : forest.roots.map (·.name) = names.eraseDups
  zero : ∀ root ∈ forest.roots, root.value = 0
  distinct : (forest.roots.map (·.name)).Nodup
  children : ∀ root ∈ forest.roots, ∀ path node, root.at? path = some node →
    (node.children.map (·.name)).Nodup

variable {names : List String} {forest : Forest}

/-- Any name may be added to distinct names that do not have it. -/
theorem admits_nodup (name : String) : Node.Admits List.Nodup name := by
  intro names h hnot
  rw [← List.concat_eq_append, List.nodup_concat]
  exact ⟨hnot, h⟩

theorem named_giveEach {b : Builder} (h : b.forest.Named List.Nodup) (inputs : List Input) :
    (b.giveEach inputs).forest.Named List.Nodup := by
  induction inputs generalizing b with
  | nil => exact h
  | cons input inputs ih =>
    apply ih
    cases input with
    | constant constant => exact named_add h List.nodup_nil fun _ => admits_nodup constant.name
    | line line => exact named_feed h List.nodup_nil (fun _ constant _ _ => admits_nodup constant.name) line

theorem Made.named (h : Made names forest) : forest.Named List.Nodup := by
  induction h with
  | empty => exact Forest.named_empty
  | block before g jumps name inputs ih =>
    exact named_giveEach (ih.ensureRoot List.nodup_nil name) inputs

/-- No input adds a root, and the value of a root stays. -/
theorem Made.labels (h : Made names forest) : forest.labels = names.eraseDups.map (·, 0) := by
  induction h with
  | empty => rfl
  | @block names forest before g jumps name inputs ih =>
    have hnames := Forest.names_of_labels ih
    rw [(sound_start g jumps forest name).labels_giveEach inputs, Node.eraseDups_concat, List.map_append, ← ih]
    show (forest.ensureRoot name).roots.map Node.label = _
    rw [Forest.roots_ensureRoot, hnames]
    simp only [List.mem_eraseDups]
    by_cases hm : name ∈ names
    · simp [hm, Forest.labels]
    · simp [hm, Forest.labels, Node.label, Node.leaf]

theorem Made.declares (h : Made names forest) : Declares names forest := by
  have hlabels := h.labels
  have hnamed := h.named
  refine ⟨Forest.names_of_labels hlabels, fun root hroot => ?_, hnamed.roots,
    fun root hroot path node hnode => ?_⟩
  · have hm : root.label ∈ forest.labels := List.mem_map_of_mem hroot
    rw [hlabels] at hm
    obtain ⟨name, -, hname⟩ := List.mem_map.1 hm
    exact (congrArg Prod.snd hname).symm
  · exact ((hnamed.trees root hroot).at? hnode).here

end Builder

namespace Program

open Builder

variable {g : Grammar} {jumps : JumpPolicy}

theorem Grows.made {forest grown : Forest} {blocks : List Block} (h : Grows g jumps forest blocks grown)
    {names : List String} (hmade : Made names forest) :
    Made (names ++ blocks.map (·.header.name)) grown := by
  induction h generalizing names with
  | nil forest => simpa using hmade
  | @cons forest grown b blocks built fed rest ih =>
    have hblock := hmade.block g jumps b.header.name (b.body.map .line)
    rw [← fed.eq_giveEach] at hblock
    simpa using ih hblock

/-- The names of the blocks of constants of a text. -/
def rootNames (text : String) : List String :=
  (ofKind .constants (Block.cut (Line.ofText text)).2).map (·.header.name)

theorem made_of_read {text : String} {p : Program} (h : (read g jumps text).result = .ok p) :
    Made (rootNames text) p.constants := by
  have hadds := (read_eq_ok_iff g jumps (cut_of_read h)).1 h
  simpa [rootNames] using hadds.constants.made .empty

theorem name_mem_of_read {text : String} {p : Program} (h : (read g jumps text).result = .ok p) {b : Block}
    (hb : b ∈ ofKind .constants (Block.cut (Line.ofText text)).2) :
    b.header.name ∈ p.constants.roots.map (·.name) := by
  rw [(made_of_read h).declares.roots, List.mem_eraseDups]
  exact List.mem_map_of_mem hb

/-- A parsed text gives a forest made by its blocks of constants. In a forest made by blocks, before
and after each input that a block is given, the roots are those of the blocks in the order in which
their names first come, a block adds its root with value 0 if there is none, and names are
distinct among the roots and among the children of every node. A node that is accepted is then a child
without children and bit fields, in the place of the child of its name, or else at the end. -/
theorem declares_of_blocks :
    (∀ (options : ParseOptions) (text : String) (p : Program), (parse options text).result = .ok p →
      Made (rootNames text) p.constants) ∧
    ∀ (names : List String) (forest : Forest), Made names forest →
      Declares names forest ∧
      ∀ (g : Grammar) (jumps : JumpPolicy) (name : String) (inputs : List Input),
        let opened := start g jumps forest name
        let b := opened.giveEach inputs
        opened.forest.roots =
          (if name ∈ names then forest.roots else forest.roots ++ [.leaf name 0]) ∧
        Declares (names ++ [name]) b.forest ∧
        ∀ (input : Input) (line : ConstantLine), input.node? g = some line →
          (give input b).2.result = .ok () →
          ∃ old new place, b.nodeAt (give input b).1.parent = .ok old ∧
            (give input b).1.nodeAt (give input b).1.parent = .ok new ∧
            (give input b).1.last = (give input b).1.parent ++ [place] ∧
            (give input b).1.nodeAt (give input b).1.last = .ok (.leaf line.name line.value) ∧
            Node.Wrote line.name line.value old new := by
  refine ⟨fun options text p h => ?_, fun names forest hmade => ⟨hmade.declares, ?_⟩⟩
  · obtain ⟨valid, hread⟩ := exists_read_of_parse h
    exact made_of_read hread
  · intro g jumps name inputs opened b
    have hb : Made (names ++ [name]) b.forest := hmade.block g jumps name inputs
    have hsound : b.Sound := (sound_start g jumps forest name).sound_giveEach inputs
    refine ⟨?_, hb.declares, fun input line hline hok => ?_⟩
    · show (forest.ensureRoot name).roots = _
      rw [Forest.roots_ensureRoot, hmade.declares.roots]
      simp only [List.mem_eraseDups]
    · have hgrammar : b.grammar = g := fixed_giveEach inputs opened
      rw [← hgrammar] at hline
      obtain ⟨parent, place, hparent, hwritten, hlast, hleaf⟩ := hsound.puts_give hline hok
      obtain ⟨root, hroot, hat⟩ := nodeAt_eq_ok_iff.1 hparent
      have hnodup := hb.declares.children root (List.mem_of_getElem? hroot) _ _ hat
      exact ⟨parent, _, place, hparent, hwritten, hlast, hleaf,
        Node.wrote_insertChild hnodup line.name line.value⟩

/-- A root that is opened twice, and is opened again for a node, a fall that fails and a node that
takes the place of the one of its name. -/
theorem declares_of_reopened_root :
    let text := "_r:\n  a: 1\n    b: 2\n_s:\n_r:\n  a: 3\n"
    let forest : Forest := ⟨[⟨"r", 0, [.leaf "a" 3], []⟩, .leaf "s" 0]⟩
    let b := (start .standard .collapse forest "r").giveEach
      [.constant ⟨3, "c", 1⟩, .constant ⟨0, "d", 1⟩]
    let input := Input.constant ⟨3, "a", 7⟩
    (parse {} text).result = .ok ⟨forest, [], []⟩ ∧ Declares ["r", "s", "r"] forest ∧
      (give (.constant ⟨0, "d", 1⟩) b).2.result = .error (.indent 0 (.unopened 0)) ∧
      (give input b).1.parent = [] ∧
      ∃ old new, b.nodeAt [] = .ok old ∧ (give input b).1.nodeAt [] = .ok new ∧
        Node.Wrote "a" 7 old new := by
  intro text forest b input
  have hparse : (parse {} text).result = .ok ⟨forest, [], []⟩ := by decide +kernel
  have hnames : rootNames text = ["r", "s", "r"] := by decide +kernel
  have hmade := declares_of_blocks.1 {} text _ hparse
  rw [hnames] at hmade
  obtain ⟨hdeclares, hblocks⟩ := declares_of_blocks.2 _ _ hmade
  obtain ⟨-, -, hwrites⟩ := hblocks .standard .collapse "r" [.constant ⟨3, "c", 1⟩, .constant ⟨0, "d", 1⟩]
  have hnode : input.node? .standard = some ⟨3, "a", 7⟩ := by decide +kernel
  have haccepted : (give input b).2.result = .ok () := by decide +kernel
  have hparent : (give input b).1.parent = [] := by decide +kernel
  obtain ⟨old, new, -, hold, hnew, -, -, hwrote⟩ := hwrites input ⟨3, "a", 7⟩ hnode haccepted
  rw [hparent] at hold hnew
  exact ⟨hparse, hdeclares, by decide +kernel, hparent, old, new, hold, hnew, hwrote⟩

end Program

end Codesheet
