import Codesheet.Proofs.Constants.Beside
import Codesheet.Proofs.Program.LastWrites
import Codesheet.Proofs.Program.Renumbered

/-! Two texts one after the other. The lines of the second one start with a header, so its blocks
stay as they are. They add to the program what they make up on their own, and build their trees after
the roots of the first text. -/

namespace Codesheet.Program

variable {g : Grammar} {jumps : JumpPolicy} {forest grown : Forest} {blocks blocks' : List Block}

/-! ### Forests -/

theorem Grows.append {grown' : Forest} (h : Grows g jumps forest blocks grown)
    (h' : Grows g jumps grown blocks' grown') : Grows g jumps forest (blocks ++ blocks') grown' := by
  induction h with
  | nil forest => exact h'
  | cons fed rest ih => exact .cons fed (ih h')

/-- Blocks that grow some forest grow every other one too. -/
theorem Grows.exists_of_forest (h : Grows g jumps forest blocks grown) (other : Forest) :
    ∃ grown', Grows g jumps other blocks grown' := by
  induction h generalizing other with
  | nil forest => exact ⟨other, .nil other⟩
  | @cons forest grown b blocks built fed rest ih =>
    obtain ⟨built', hfed⟩ := fed.of_sameLevels (Builder.sameLevels_start g jumps forest other b.header.name)
      (Builder.sound_start g jumps forest b.header.name) (Builder.sound_start g jumps other b.header.name)
    obtain ⟨grown', hrest⟩ := ih built'.forest
    exact ⟨grown', .cons hfed hrest⟩

/-- Blocks with new names grow the same trees after other roots. -/
theorem Grows.beside (h : Grows g jumps forest blocks grown) {before : List Node}
    (hnew : ∀ b ∈ blocks, b.header.name ∉ before.map (·.name)) :
    Grows g jumps ⟨before ++ forest.roots⟩ blocks ⟨before ++ grown.roots⟩ := by
  induction h with
  | nil forest => exact .nil _
  | @cons forest grown b blocks built fed rest ih =>
    obtain ⟨hname, hnew⟩ := List.forall_mem_cons.1 hnew
    have hfed := fed.beside before
    rw [← Builder.start_beside hname g jumps forest.roots] at hfed
    exact .cons hfed (ih hnew)

/-! ### Programs -/

theorem ofKind_append (kind : Kind) (blocks blocks' : List Block) :
    ofKind kind (blocks ++ blocks') = ofKind kind blocks ++ ofKind kind blocks' :=
  List.filter_append blocks blocks'

theorem linesOf_append (kind : Kind) (blocks blocks' : List Block) :
    linesOf kind (blocks ++ blocks') = linesOf kind blocks ++ linesOf kind blocks' := by
  rw [linesOf, ofKind_append, List.flatMap_append, linesOf, linesOf]

theorem Adds.append {p q : Program} (h : Adds g jumps forest blocks p)
    (h' : Adds g jumps p.constants blocks' q) : Adds g jumps forest (blocks ++ blocks') (p.extend q) := by
  constructor
  · rw [ofKind_append]
    exact h.constants.append h'.constants
  · rw [linesOf_append, forall₂_append_left_iff]
    exact ⟨p.table, q.table, h.table, h'.table, rfl⟩
  · rw [linesOf_append, List.forall_mem_append]
    exact ⟨h.code, h'.code⟩
  · rw [ofKind_append, List.flatMap_append, forall₂_append_left_iff]
    exact ⟨p.instructions, q.instructions, h.instructions, h'.instructions, rfl⟩

/-- What a text adds does not depend on the forest that its blocks of constants grow. -/
theorem Adds.of_grows {q : Program} (h : Adds g jumps forest blocks q) {forest' grown' : Forest}
    (hgrows : Grows g jumps forest' (ofKind .constants blocks) grown') :
    Adds g jumps forest' blocks { q with constants := grown' } :=
  ⟨hgrows, h.table, h.code, h.instructions⟩

/-- How many lines a text puts before those of a text after it. -/
def lineShift (text : String) : Nat := text.toList.count '\n' + 1

/-- The blocks of two texts with a line feed between them. -/
theorem cut_ofText_append {second : String} (h : (Block.cut (Line.ofText second)).1 = []) (first : String) :
    Block.cut (Line.ofText (first ++ "\n" ++ second)) =
      ((Block.cut (Line.ofText first)).1, (Block.cut (Line.ofText first)).2 ++
        (Block.cut (Line.ofText second)).2.map (Block.renumber (· + lineShift first))) := by
  have hcut := Block.cut_renumber (· + lineShift first) (Line.ofText second)
  rw [Line.ofText_append, Block.cut_append_of_header]
  · rw [← lineShift, hcut]
  · rw [← lineShift, hcut, h]
    rfl

/-- Whatever the blocks of the second text make of the forest, the rest of the program is the same. -/
theorem read_append {first second : String} {p q : Program} (hp : (read g jumps first).result = .ok p)
    (hq : (read g jumps second).result = .ok q)
    (hgrows : Grows g jumps p.constants (ofKind .constants (Block.cut (Line.ofText second)).2) grown) :
    (read g jumps (first ++ "\n" ++ second)).result =
      .ok (p.extend { q.renumber (· + lineShift first) with constants := grown }) := by
  have hcp := cut_of_read hp
  have hcq := cut_of_read hq
  have haddp := (read_eq_ok_iff g jumps hcp).1 hp
  have haddq := (read_eq_ok_iff g jumps hcq).1 hq
  have hcut := cut_ofText_append hcq first
  have hc : (Block.cut (Line.ofText (first ++ "\n" ++ second))).1 = [] := by rw [hcut, hcp]
  rw [read_eq_ok_iff g jumps hc, hcut]
  exact haddp.append ((haddq.of_grows hgrows).renumber (· + lineShift first))

/-- The blocks of a text build its trees after roots with other names. -/
theorem grows_of_disjoint {text : String} {q : Program} (h : (read g jumps text).result = .ok q)
    (hdisjoint : ∀ name ∈ forest.roots.map (·.name), name ∉ q.constants.roots.map (·.name)) :
    Grows g jumps forest (ofKind .constants (Block.cut (Line.ofText text)).2)
      ⟨forest.roots ++ q.constants.roots⟩ := by
  have hadds := (read_eq_ok_iff g jumps (cut_of_read h)).1 h
  have hbeside := hadds.constants.beside fun b hb hname => hdisjoint _ hname (name_mem_of_read h hb)
  have hempty : forest.roots ++ Forest.empty.roots = forest.roots := List.append_nil _
  rwa [hempty] at hbeside

/-- Two programs one after the other are a program. Its entries and instructions are those of the
first one and then those of the second one, whose lines come later. If no root is in both, so
are its roots. -/
theorem parse_append (options : ParseOptions) (first second : String) (p q : Program)
    (hp : (parse options first).result = .ok p) (hq : (parse options second).result = .ok q) :
    ∃ r, (parse options (first ++ "\n" ++ second)).result = .ok r ∧
      r.table = p.table ++ q.table.map (Entry.renumber (· + lineShift first)) ∧
      r.instructions = p.instructions ++ q.instructions.map (Instruction.renumber (· + lineShift first)) ∧
      ((∀ name ∈ p.constants.roots.map (·.name), name ∉ q.constants.roots.map (·.name)) →
        r.constants.roots = p.constants.roots ++ q.constants.roots) := by
  obtain ⟨valid, hp⟩ := exists_read_of_parse hp
  rw [parse_of_valid valid] at hq
  rw [parse_of_valid valid]
  by_cases hdisjoint : ∀ name ∈ p.constants.roots.map (·.name), name ∉ q.constants.roots.map (·.name)
  · exact ⟨_, read_append hp hq (grows_of_disjoint hq hdisjoint), rfl, rfl, fun _ => rfl⟩
  · have hadds := (read_eq_ok_iff _ _ (cut_of_read hq)).1 hq
    obtain ⟨grown, hgrows⟩ := hadds.constants.exists_of_forest p.constants
    exact ⟨_, read_append hp hq hgrows, rfl, rfl, fun h => absurd h hdisjoint⟩

/-- The first text ends within a block of constants, with no line feed after it, and the second one
has a root of its own. -/
theorem parse_append_two_roots :
    let first := "main:\n  s:\n_r:\n  a: 1"
    let second := "_q:\n  b: 2\n#t:\n  x:@s\nmain:\n  NOP\n"
    ∃ p q r, (parse {} first).result = .ok p ∧ (parse {} second).result = .ok q ∧
      (parse {} (first ++ "\n" ++ second)).result = .ok r ∧
      r = ⟨⟨[⟨"r", 0, [.leaf "a" 1], []⟩, ⟨"q", 0, [.leaf "b" 2], []⟩]⟩,
        [⟨"x", ⟨.address "s", []⟩, 8⟩], [⟨none, "NOP", [], 1, 10⟩]⟩ := by
  intro first second
  have hp : (parse {} first).result = .ok ⟨⟨[⟨"r", 0, [.leaf "a" 1], []⟩]⟩, [], []⟩ := by decide +kernel
  have hq : (parse {} second).result = .ok ⟨⟨[⟨"q", 0, [.leaf "b" 2], []⟩]⟩,
      [⟨"x", ⟨.address "s", []⟩, 4⟩], [⟨none, "NOP", [], 1, 6⟩]⟩ := by decide +kernel
  obtain ⟨⟨⟨roots⟩, table, instructions⟩, hr, htable, hinstructions, hroots⟩ :=
    parse_append {} first second _ _ hp hq
  have hshift : lineShift first = 4 := by decide +kernel
  rw [hshift] at htable hinstructions
  refine ⟨_, _, _, hp, hq, hr, ?_⟩
  obtain rfl : roots = _ := hroots (by decide)
  obtain rfl : table = _ := htable
  obtain rfl : instructions = _ := hinstructions
  rfl

end Codesheet.Program
