import Codesheet.Proofs.Program.Reference

/-! Reading a text is reading the partition of its cleaned lines into blocks. The
source with its line of push-back never shows: a parse depends on the list of lines
alone, and succeeds exactly if every line is accepted in its own block. -/

namespace Codesheet.Program

variable (g : Grammar) (jumps : JumpPolicy)

/-- From a source whose next line is a header the blocks of its lines are added. -/
theorem addBlocks_of_header {n : Nat} {s : Source} (hs : s.Sound) (hn : s.remaining.length < n)
    (hc : (Block.cut s.remaining).1 = []) (p : Program) :
    addBlocks g jumps n s p = addAll g jumps p (Block.cut s.remaining).2 := by
  induction n generalizing s p with
  | zero => omega
  | succ n ih =>
    cases hr : s.remaining with
    | nil =>
      obtain ⟨s', hnext, -⟩ := Source.nextHeader_of_remaining_nil hs hr
      rw [addBlocks, hnext]
      exact pure_bind none _
    | cons line lines =>
      have hl : line.isHeader := Block.cut_fst_eq_nil_iff.1 hc line (by simp [hr])
      obtain ⟨s', hnext, hs', hlines⟩ := Source.nextHeader_of_isHeader hs hr hl
      obtain ⟨s'', hrest, hs'', hblocks⟩ := Body.rest_start hs'
      rw [hlines] at hrest hblocks
      have hcut : Block.cut s''.remaining = ([], (Block.cut lines).2) := by
        rw [hblocks]
        exact Block.cut_flatMap fun b => Block.wellFormed_of_mem_cut
      -- A block takes its header at least, so the smaller bound is enough for the rest.
      have hlen : s''.remaining.length < n := by
        have hflat := congrArg List.length (Block.cut_flatten lines)
        rw [List.length_append] at hflat
        rw [hr, List.length_cons] at hn
        rw [hblocks]
        omega
      have htail : ∀ p, addBlocks g jumps n s'' p = addAll g jumps p (Block.cut lines).2 := by
        intro p
        rw [ih hs'' hlen (by rw [hcut]) p, hcut]
      have hreport : (⟨[.blockHeader (.ofLine line)], .ok (some (.ofLine line))⟩ : Logged (Option Header)) =
          Logged.report (.blockHeader (.ofLine line)) >>= fun _ => pure (some (.ofLine line)) := rfl
      rw [addBlocks, hnext, Block.cut_header hl, addAll_cons, bind_assoc]
      simp only [hreport, bind_assoc, pure_bind, hrest, htail]
      rfl

theorem addBlocks_of_indented {n : Nat} {s : Source} (hs : s.Sound) {line : Line}
    {lines : List Line} (hr : s.remaining = line :: lines) (hl : ¬ line.isHeader) (p : Program) :
    addBlocks g jumps (n + 1) s p = Logged.fail (.notHeader line.number line.text) := by
  obtain ⟨s', hnext, -⟩ := Source.nextHeader_of_not_isHeader hs hr hl
  rw [addBlocks, hnext]
  rfl

theorem read_of_header {text : String} (hc : (Block.cut (Line.ofText text)).1 = []) :
    read g jumps text = addAll g jumps .empty (Block.cut (Line.ofText text)).2 >>= fun p => do
      Logged.report (.parsed p.constants.roots.length p.table.length p.instructions.length)
      return p := by
  have hs := Source.sound_ofText text
  have hn := Nat.lt_succ_of_le (Source.ofText text).length_remaining_le
  rw [← Source.remaining_ofText] at hc ⊢
  rw [← addBlocks_of_header g jumps hs hn hc]
  rfl

/-- A text whose first line is indented is refused there, before anything is reported. -/
theorem read_eq_fail {text : String} {line : Line} (h : (Line.ofText text).head? = some line)
    (hl : ¬ line.isHeader) :
    read g jumps text = Logged.fail (.notHeader line.number line.text) := by
  obtain ⟨lines, hlines⟩ := List.head?_eq_some_iff.1 h
  rw [← Source.remaining_ofText] at hlines
  have hadd := @addBlocks_of_indented g jumps (Source.ofText text).bound _
    (Source.sound_ofText text) _ _ hlines hl .empty
  rw [read, hadd]
  rfl

theorem read_of_indented {text : String} {line : Line} (h : (Line.ofText text).head? = some line)
    (hl : ¬ line.isHeader) :
    (read g jumps text).result = .error (.notHeader line.number line.text) := by
  rw [read_eq_fail g jumps h hl]
  rfl

theorem parse_of_valid {options : ParseOptions} (valid : 0 < options.indentUnit) (text : String) :
    parse options text = read ⟨options.indentUnit, valid⟩ options.indentJumps text := by
  rw [parse, ParseOptions.grammar, Grammar.ofUnit?, dif_pos valid]
  exact pure_bind _ _

/-- Only with valid options is a text parsed. -/
theorem exists_read_of_parse {options : ParseOptions} {text : String} {p : Program}
    (h : (parse options text).result = .ok p) :
    ∃ valid : 0 < options.indentUnit,
      (read ⟨options.indentUnit, valid⟩ options.indentJumps text).result = .ok p := by
  by_cases valid : 0 < options.indentUnit
  · rw [parse_of_valid valid] at h
    exact ⟨valid, h⟩
  · rw [parse, ParseOptions.grammar, Grammar.ofUnit?, dif_neg valid] at h
    cases h

theorem read_eq_ok_iff {text : String} (hc : (Block.cut (Line.ofText text)).1 = []) {p : Program} :
    (read g jumps text).result = .ok p ↔
      Adds g jumps .empty (Block.cut (Line.ofText text)).2 p := by
  rw [read_of_header g jumps hc, Logged.result_bind_eq_ok]
  simp only [addAll_eq_ok fun b => Block.wellFormed_of_mem_cut]
  constructor
  · rintro ⟨_, ⟨q, hq, rfl⟩, hp⟩
    obtain rfl : q = p := Except.ok.inj hp
    exact hq
  · intro hp
    exact ⟨p, ⟨p, hp, rfl⟩, rfl⟩

theorem forall₂_exists_iff {α β : Type} {R : α → β → Prop} {as : List α} :
    (∃ bs, List.Forall₂ R as bs) ↔ ∀ a ∈ as, ∃ b, R a b := by
  induction as with
  | nil => simp
  | cons a as ih =>
    simp only [List.forall₂_cons_left_iff, List.forall_mem_cons, ← ih]
    constructor
    · rintro ⟨_, b, bs, hb, hbs, rfl⟩
      exact ⟨⟨b, hb⟩, bs, hbs⟩
    · rintro ⟨⟨b, hb⟩, bs, hbs⟩
      exact ⟨_, b, bs, hb, hbs, rfl⟩

/-- A line that is no label stands for an instruction if it is accepted. -/
theorem exists_instructionOf {g : Grammar} {b : Block} (hb : b.WellFormed)
    {place : Option Line × Line} (hp : place ∈ unlabelled g none b.body)
    (ha : ∀ line ∈ b.body, AcceptsCode g line) : ∃ instruction, InstructionOf g place instruction := by
  obtain ⟨hm, hnone⟩ := List.mem_filter.1 hp
  have hline : place.2 ∈ b.body := by
    rw [← map_snd_withBefore none b.body]
    exact List.mem_map_of_mem hm
  rcases ha place.2 hline with ⟨label, h⟩ | ⟨shape, h⟩
  · simp [labelName?_of_label h] at hnone
  · exact ⟨_, (instructionOf_iff h (one_le_level (hb.2 place.2 hline) h)).2 rfl⟩

/-- Where every line is accepted there is a program. -/
theorem exists_adds {blocks : List Block} (h : ∀ b ∈ blocks, b.WellFormed) :
    (∃ p, Adds g jumps .empty blocks p) ↔ Accepts g jumps blocks := by
  constructor
  · rintro ⟨p, hgrow, htable, hcode, -⟩
    refine ⟨⟨p.constants, hgrow⟩, fun line hm => ?_, hcode⟩
    obtain ⟨entry, -, level, hshape⟩ := forall₂_exists_iff.1 ⟨p.table, htable⟩ line hm
    exact ⟨_, hshape⟩
  · rintro ⟨⟨forest, hgrow⟩, htable, hcode⟩
    have hentry : ∀ line ∈ linesOf .table blocks, ∃ entry, EntryOf g line entry := by
      intro line hm
      obtain ⟨shape, hshape⟩ := htable line hm
      exact ⟨⟨shape.name, shape.series, line.number⟩, rfl, shape.level, hshape⟩
    have hinstruction : ∀ place ∈ (ofKind .code blocks).flatMap fun b => unlabelled g none b.body,
        ∃ instruction, InstructionOf g place instruction := by
      intro place hm
      obtain ⟨b, hb, hplace⟩ := List.mem_flatMap.1 hm
      exact exists_instructionOf (h b (List.mem_of_mem_filter hb)) hplace fun line hl =>
        hcode line (List.mem_flatMap.2 ⟨b, hb, hl⟩)
    obtain ⟨entries, hentries⟩ := forall₂_exists_iff.2 hentry
    obtain ⟨instructions, hinstructions⟩ := forall₂_exists_iff.2 hinstruction
    exact ⟨⟨forest, entries, instructions⟩, hgrow, hentries, hcode, hinstructions⟩

/-- A text is read as the blocks that its cleaned lines are cut into. If the first of
these lines is indented, it is refused. Otherwise the text is a program exactly if
every body line is accepted in its own block, and then the program stands for these
lines. -/
theorem parse_eq_partition (options : ParseOptions) (valid : 0 < options.indentUnit)
    (text : String) :
    let g : Grammar := ⟨options.indentUnit, valid⟩
    let lines := Line.ofText text
    let result := (parse options text).result
    (∀ line, lines.head? = some line → ¬ line.isHeader →
      result = .error (.notHeader line.number line.text)) ∧
    ((∀ line, lines.head? = some line → line.isHeader) →
      ∃ blocks, blocks.flatMap Block.lines = lines ∧ (∀ b ∈ blocks, b.WellFormed) ∧
        ((∃ p, result = .ok p) ↔ Accepts g options.indentJumps blocks) ∧
        ∀ p, result = .ok p → ReadsAs g options.indentJumps blocks p) := by
  intro g lines result
  have hresult : result = (read g options.indentJumps text).result := by
    rw [← parse_of_valid valid]
  constructor
  · intro line h hl
    rw [hresult]
    exact read_of_indented g _ h hl
  · intro h
    have hc : (Block.cut lines).1 = [] := Block.cut_fst_eq_nil_iff.2 h
    refine ⟨(Block.cut lines).2, Block.lines_of_cut hc, fun b => Block.wellFormed_of_mem_cut, ?_, ?_⟩
    · simp only [hresult, read_eq_ok_iff g _ hc]
      exact exists_adds g _ fun b => Block.wellFormed_of_mem_cut
    · intro p hp
      rw [hresult, read_eq_ok_iff g _ hc] at hp
      exact ⟨hp.constants, hp.table, hp.instructions⟩

theorem parse_eq_partition_three_blocks :
    let text := "_io:\n  a: 1\n\n#t:\n  r:@s\nmain:\n  s:\n  NOP\n"
    ∃ blocks p, (parse ⟨2, .collapse⟩ text).result = .ok p ∧
      blocks.flatMap Block.lines = Line.ofText text ∧
      ReadsAs ⟨2, by decide⟩ .collapse blocks p ∧
      p = ⟨⟨[⟨"io", 0, [.leaf "a" 1], []⟩]⟩, [⟨"r", ⟨.address "s", []⟩, 5⟩],
        [⟨some "s", "NOP", [], 1, 8⟩]⟩ := by
  intro text
  obtain ⟨blocks, hlines, -, -, hread⟩ :=
    (parse_eq_partition ⟨2, .collapse⟩ (by decide) text).2 (by decide +kernel)
  have hp : (parse ⟨2, .collapse⟩ text).result =
      .ok ⟨⟨[⟨"io", 0, [.leaf "a" 1], []⟩]⟩, [⟨"r", ⟨.address "s", []⟩, 5⟩],
        [⟨some "s", "NOP", [], 1, 8⟩]⟩ := by decide +kernel
  exact ⟨blocks, _, hp, hlines, hread _ hp, rfl⟩

end Codesheet.Program
