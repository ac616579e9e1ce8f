import Codesheet.Program.Parse
import Codesheet.Proofs.Block.Cut
import Codesheet.Proofs.Constants.Steps
import Codesheet.Proofs.Grammar.Lines
import Codesheet.Proofs.Keys

/-! Programs read off a list of blocks, with no source behind it: every line of a
table is an entry, every line of code is a label or an instruction, and the blocks
of constants grow one forest. Adding the blocks one by one gives the same program. -/

namespace Codesheet.Program

variable {g : Grammar} {jumps : JumpPolicy}

/-! ### Lines of blocks -/

def ofKind (kind : Kind) (blocks : List Block) : List Block := blocks.filter (·.header.kind = kind)

/-- The body lines of all blocks of a kind. -/
def linesOf (kind : Kind) (blocks : List Block) : List Line := (ofKind kind blocks).flatMap Block.body

/-- The name of a label, if a line is one. -/
def labelName? (g : Grammar) (line : Line) : Option String :=
  (g.labelLine? line.text).toOption.join.map (·.name)

/-- Lines, each with the line before it. -/
def withBefore (before : Option Line) : List Line → List (Option Line × Line)
  | [] => []
  | line :: lines => (before, line) :: withBefore (some line) lines

theorem map_snd_withBefore (before : Option Line) (lines : List Line) :
    (withBefore before lines).map Prod.snd = lines := by
  induction lines generalizing before with
  | nil => rfl
  | cons line lines ih => rw [withBefore, List.map_cons, ih]

/-- The lines of a body that are no labels, each with the line before it. -/
def unlabelled (g : Grammar) (before : Option Line) (body : List Line) : List (Option Line × Line) :=
  (withBefore before body).filter fun place => (labelName? g place.2).isNone

theorem unlabelled_sublist (before : Option Line) (body : List Line) :
    ((unlabelled g before body).map Prod.snd).Sublist body := by
  conv_rhs => rw [← map_snd_withBefore before body]
  exact List.filter_sublist.map Prod.snd

theorem unlabelled_sublist_linesOf (blocks : List Block) :
    (((ofKind .code blocks).flatMap fun b => unlabelled g none b.body).map Prod.snd).Sublist
      (linesOf .code blocks) := by
  rw [linesOf]
  induction ofKind .code blocks with
  | nil => exact List.Sublist.refl []
  | cons b blocks ih =>
    rw [List.flatMap_cons, List.flatMap_cons, List.map_append]
    exact (unlabelled_sublist none b.body).append ih

/-! ### What lines stand for -/

/-- A code line is a label, or else an instruction. -/
def AcceptsCode (g : Grammar) (line : Line) : Prop :=
  (∃ label, g.labelLine? line.text = .ok (some label)) ∨
    ∃ shape, g.instructionLine line.text = .ok shape

def EntryOf (g : Grammar) (line : Line) (entry : Entry) : Prop :=
  entry.line = line.number ∧
    ∃ level, g.entryLine line.text = .ok ⟨level, entry.name, entry.series⟩

/-- An instruction carries the label on the line before it, if that line is one. -/
def InstructionOf (g : Grammar) (place : Option Line × Line) (instruction : Instruction) : Prop :=
  instruction.line = place.2.number ∧ instruction.tag = place.1.bind (labelName? g) ∧
    1 ≤ instruction.level ∧
    g.instructionLine place.2.text =
      .ok ⟨instruction.level, instruction.func, instruction.args⟩

/-- Every block of constants is accepted by a builder of its own, which starts from
the forest that the block before it has left. -/
inductive Grows (g : Grammar) (jumps : JumpPolicy) : Forest → List Block → Forest → Prop where
  | nil (forest : Forest) : Grows g jumps forest [] forest
  | cons {forest grown : Forest} {b : Block} {blocks : List Block} {built : Builder}
    (fed : Builder.Feeds (.start g jumps forest b.header.name) b.body built)
    (rest : Grows g jumps built.forest blocks grown) : Grows g jumps forest (b :: blocks) grown

/-- Every line of every block is accepted where it stands. -/
structure Accepts (g : Grammar) (jumps : JumpPolicy) (blocks : List Block) : Prop where
  constants : ∃ forest, Grows g jumps .empty (ofKind .constants blocks) forest
  table : ∀ line ∈ linesOf .table blocks, ∃ shape, g.entryLine line.text = .ok shape
  code : ∀ line ∈ linesOf .code blocks, AcceptsCode g line

/-- The entries stand for the table lines and the instructions for the code lines
that are no labels, one for one and in order. -/
structure ReadsAs (g : Grammar) (jumps : JumpPolicy) (blocks : List Block) (p : Program) : Prop where
  constants : Grows g jumps .empty (ofKind .constants blocks) p.constants
  table : List.Forall₂ (EntryOf g) (linesOf .table blocks) p.table
  instructions : List.Forall₂ (InstructionOf g)
    ((ofKind .code blocks).flatMap fun b => unlabelled g none b.body) p.instructions

/-! ### Tables -/

theorem entry_eq_ok {line : Line} {e : Entry} : entry g line = .ok e ↔ EntryOf g line e := by
  unfold entry EntryOf
  cases g.entryLine line.text with
  | error fault => simp
  | ok shape =>
    cases e
    simp only [Except.ok.injEq, Entry.mk.injEq]
    constructor
    · rintro ⟨rfl, rfl, rfl⟩
      exact ⟨rfl, shape.level, rfl⟩
    · rintro ⟨rfl, level, rfl⟩
      exact ⟨rfl, rfl, rfl⟩

theorem mapM_entry_eq_ok {lines : List Line} {entries : List Entry} :
    lines.mapM (entry g) = .ok entries ↔ List.Forall₂ (EntryOf g) lines entries := by
  rw [mapM_eq_ok]
  simp only [entry_eq_ok]

/-! ### Code -/

theorem labelName?_of_label {line : Line} {label : LabelLine}
    (h : g.labelLine? line.text = .ok (some label)) : labelName? g line = some label.name := by
  simp [labelName?, h, Except.toOption]

theorem labelName?_of_none {line : Line} (h : g.labelLine? line.text = .ok none) :
    labelName? g line = none := by
  simp [labelName?, h, Except.toOption]

theorem one_le_level {line : Line} (hl : ¬ line.isHeader) {shape : InstructionLine}
    (h : g.instructionLine line.text = .ok shape) : 1 ≤ shape.level := by
  have hspace : line.text.toList.head? = some ' ' := by simpa [Line.isHeader] using hl
  exact Grammar.level?_pos (Grammar.leading_pos hspace) (Grammar.instructionLine_eq_ok h).1

theorem code_of_label {line : Line} {label : LabelLine}
    (h : g.labelLine? line.text = .ok (some label)) (waiting : Option Label) (lines : List Line) :
    code g waiting (line :: lines) =
      replaced waiting >>= fun _ => code g (some ⟨label.name, line.number⟩) lines := by
  rw [code, h]
  exact pure_bind (some label) _

theorem code_of_instruction {line : Line} {shape : InstructionLine}
    (h : g.instructionLine line.text = .ok shape) (waiting : Option Label) (lines : List Line) :
    code g waiting (line :: lines) = code g none lines >>= fun more =>
      pure (⟨waiting.map (·.name), shape.func, shape.args, shape.level, line.number⟩ :: more) := by
  rw [code, Grammar.labelLine?_of_instructionLine h, h]
  exact (pure_bind none _).trans (pure_bind shape _)

/-- A line that is neither a label nor an instruction ends the run. -/
theorem code_of_fault {line : Line} (h : ¬ AcceptsCode g line) (waiting : Option Label)
    (lines : List Line) :
    ∃ bare, code g waiting (line :: lines) = Logged.fail (bare.atLine line.number) ∧
      (g.labelLine? line.text = .error bare ∨ g.instructionLine line.text = .error bare) := by
  rw [code]
  cases hlabel : g.labelLine? line.text with
  | error bare => exact ⟨bare, rfl, .inl rfl⟩
  | ok found =>
    cases found with
    | some label => exact absurd (.inl ⟨label, hlabel⟩) h
    | none =>
      cases hshape : g.instructionLine line.text with
      | error bare => exact ⟨bare, rfl, .inr rfl⟩
      | ok shape => exact absurd (.inr ⟨shape, hshape⟩) h

@[simp] theorem result_replaced (waiting : Option Label) : (replaced waiting).result = .ok () := by
  cases waiting <;> rfl

@[simp] theorem result_unused (waiting : Option Label) : (unused waiting).result = .ok () := by
  cases waiting <;> rfl

theorem instructionOf_iff {line : Line} {shape : InstructionLine}
    (h : g.instructionLine line.text = .ok shape) (hl : 1 ≤ shape.level) {before : Option Line}
    {instruction : Instruction} :
    InstructionOf g (before, line) instruction ↔
      instruction =
        ⟨before.bind (labelName? g), shape.func, shape.args, shape.level, line.number⟩ := by
  constructor
  · rintro ⟨hline, htag, -, hshape⟩
    obtain rfl := Except.ok.inj (h.symm.trans hshape)
    cases instruction
    simp_all
  · rintro rfl
    exact ⟨rfl, rfl, hl, h⟩

/-- The label that waits is the one on the line before, if that line is a label. -/
theorem code_eq_ok {lines : List Line} (hl : ∀ line ∈ lines, ¬ line.isHeader) {waiting : Option Label}
    {before : Option Line} (hw : waiting.map (·.name) = before.bind (labelName? g))
    {instructions : List Instruction} :
    (code g waiting lines).result = .ok instructions ↔
      (∀ line ∈ lines, AcceptsCode g line) ∧
        List.Forall₂ (InstructionOf g) (unlabelled g before lines) instructions := by
  induction lines generalizing waiting before instructions with
  | nil =>
    have hend : (code g waiting []).result = .ok [] :=
      Logged.result_bind_eq_ok.2 ⟨(), result_unused waiting, rfl⟩
    simp [hend, unlabelled, withBefore, eq_comm]
  | cons line lines ih =>
    have hrest : ∀ line ∈ lines, ¬ line.isHeader := fun other hm => hl other (List.mem_cons_of_mem _ hm)
    by_cases ha : AcceptsCode g line
    · rw [List.forall_mem_cons, and_iff_right ha]
      rcases ha with ⟨label, h⟩ | ⟨shape, h⟩
      · have hname := labelName?_of_label h
        have hu : unlabelled g before (line :: lines) = unlabelled g (some line) lines := by
          simp [unlabelled, withBefore, hname]
        have hnext : (some (⟨label.name, line.number⟩ : Label)).map (·.name) =
            (some line).bind (labelName? g) := hname.symm
        rw [code_of_label h, hu, ← ih hrest hnext]
        simp [Logged.result_bind_eq_ok]
      · have hname := labelName?_of_none (Grammar.labelLine?_of_instructionLine h)
        have hu : unlabelled g before (line :: lines) =
            (before, line) :: unlabelled g (some line) lines := by
          simp [unlabelled, withBefore, hname]
        have hlevel := one_le_level (hl line List.mem_cons_self) h
        have hnext : (none : Option Label).map (·.name) = (some line).bind (labelName? g) := hname.symm
        rw [code_of_instruction h, hu, Logged.result_bind_eq_ok, List.forall₂_cons_left_iff]
        simp only [ih hrest hnext, instructionOf_iff h hlevel, hw]
        constructor
        · rintro ⟨more, ⟨haccept, hmore⟩, hpure⟩
          exact ⟨haccept, _, more, rfl, hmore, (Except.ok.inj hpure).symm⟩
        · rintro ⟨haccept, first, more, rfl, hmore, rfl⟩
          exact ⟨more, ⟨haccept, hmore⟩, rfl⟩
    · obtain ⟨bare, hc, -⟩ := code_of_fault ha waiting lines
      simp [hc, ha]

/-! ### Blocks -/

/-- The program after some blocks, one by one. -/
def addAll (g : Grammar) (jumps : JumpPolicy) (p : Program) (blocks : List Block) : Logged Program :=
  blocks.foldlM (fun p b => do
    Logged.report (.blockHeader b.header)
    addBlock g jumps p b.header b.body) p

theorem addAll_cons (g : Grammar) (jumps : JumpPolicy) (p : Program) (b : Block) (blocks : List Block) :
    addAll g jumps p (b :: blocks) =
      (Logged.report (.blockHeader b.header) >>= fun _ => addBlock g jumps p b.header b.body) >>=
        fun p => addAll g jumps p blocks := by
  rw [addAll, List.foldlM_cons]
  rfl

/-- The forest that blocks grow from another one, and the entries and instructions
that they add. -/
structure Adds (g : Grammar) (jumps : JumpPolicy) (forest : Forest) (blocks : List Block)
    (q : Program) : Prop where
  constants : Grows g jumps forest (ofKind .constants blocks) q.constants
  table : List.Forall₂ (EntryOf g) (linesOf .table blocks) q.table
  code : ∀ line ∈ linesOf .code blocks, AcceptsCode g line
  instructions : List.Forall₂ (InstructionOf g)
    ((ofKind .code blocks).flatMap fun b => unlabelled g none b.body) q.instructions

/-- A program with the forest of another one, and its entries and instructions after
its own. -/
def extend (p q : Program) : Program :=
  ⟨q.constants, p.table ++ q.table, p.instructions ++ q.instructions⟩

theorem ofKind_cons (kind : Kind) (b : Block) (blocks : List Block) :
    ofKind kind (b :: blocks) =
      if b.header.kind = kind then b :: ofKind kind blocks else ofKind kind blocks := by
  by_cases h : b.header.kind = kind <;> simp [ofKind, h]

theorem linesOf_sublist (kind : Kind) (blocks : List Block) :
    (linesOf kind blocks).Sublist (blocks.flatMap Block.lines) := by
  induction blocks with
  | nil => exact List.Sublist.refl []
  | cons b blocks ih =>
    have hbody : b.body.Sublist b.lines := List.sublist_cons_self _ _
    rw [linesOf, ofKind_cons, List.flatMap_cons]
    split_ifs
    · exact hbody.append ih
    · exact ih.trans (List.sublist_append_right _ _)

/-- If no line comes before the first header, the lines of the blocks are lines of the text. -/
theorem linesOf_sublist_ofText (kind : Kind) {text : String}
    (h : (Block.cut (Line.ofText text)).1 = []) :
    (linesOf kind (Block.cut (Line.ofText text)).2).Sublist (Line.ofText text) := by
  have hlines := linesOf_sublist kind (Block.cut (Line.ofText text)).2
  rwa [Block.lines_of_cut h] at hlines

theorem addBlock_constants {b : Block} (hk : b.header.kind = .constants) {p p' : Program} :
    (addBlock g jumps p b.header b.body).result = .ok p' ↔
      ∃ built, Builder.Feeds (.start g jumps p.constants b.header.name) b.body built ∧
        p' = { p with constants := built.forest } := by
  simp only [addBlock, hk, Logged.result_bind_eq_ok, Logged.result_report]
  constructor
  · rintro ⟨_, hfed, _, -, hp⟩
    exact ⟨_, Builder.feedAll_iff_feeds.1 ⟨hfed, rfl⟩, (Except.ok.inj hp).symm⟩
  · rintro ⟨built, hfed, rfl⟩
    obtain ⟨hok, rfl⟩ := Builder.feedAll_iff_feeds.2 hfed
    exact ⟨(), hok, (), trivial, rfl⟩

theorem addBlock_table {b : Block} (hk : b.header.kind = .table) {p p' : Program} :
    (addBlock g jumps p b.header b.body).result = .ok p' ↔
      ∃ entries, List.Forall₂ (EntryOf g) b.body entries ∧
        p' = { p with table := p.table ++ entries } := by
  simp only [addBlock, hk, Logged.result_bind_eq_ok, Logged.result_report, Logged.result_ofExcept,
    mapM_entry_eq_ok]
  constructor
  · rintro ⟨entries, hentries, _, -, hp⟩
    exact ⟨entries, hentries, (Except.ok.inj hp).symm⟩
  · rintro ⟨entries, hentries, rfl⟩
    exact ⟨entries, hentries, (), trivial, rfl⟩

theorem addBlock_code {b : Block} (hk : b.header.kind = .code) (hb : b.WellFormed) {p p' : Program} :
    (addBlock g jumps p b.header b.body).result = .ok p' ↔
      ∃ instructions, (∀ line ∈ b.body, AcceptsCode g line) ∧
        List.Forall₂ (InstructionOf g) (unlabelled g none b.body) instructions ∧
        p' = { p with instructions := p.instructions ++ instructions } := by
  have hnone : (none : Option Label).map (·.name) = (none : Option Line).bind (labelName? g) := rfl
  simp only [addBlock, hk, Logged.result_bind_eq_ok, Logged.result_report, code_eq_ok hb.2 hnone]
  constructor
  · rintro ⟨instructions, ⟨haccept, hread⟩, _, -, hp⟩
    exact ⟨instructions, haccept, hread, (Except.ok.inj hp).symm⟩
  · rintro ⟨instructions, haccept, hread, rfl⟩
    exact ⟨instructions, ⟨haccept, hread⟩, (), trivial, rfl⟩

theorem adds_cons_constants {b : Block} (hk : b.header.kind = .constants) {forest : Forest}
    {blocks : List Block} {q : Program} :
    Adds g jumps forest (b :: blocks) q ↔
      ∃ built, Builder.Feeds (.start g jumps forest b.header.name) b.body built ∧
        Adds g jumps built.forest blocks q := by
  have hc : ofKind .constants (b :: blocks) = b :: ofKind .constants blocks := by
    rw [ofKind_cons, if_pos hk]
  have ht : ofKind .table (b :: blocks) = ofKind .table blocks := by rw [ofKind_cons, hk]; rfl
  have hi : ofKind .code (b :: blocks) = ofKind .code blocks := by rw [ofKind_cons, hk]; rfl
  constructor
  · rintro ⟨hgrow, htable, hcode, hinstructions⟩
    rw [hc] at hgrow
    rw [linesOf, ht] at htable
    rw [linesOf, hi] at hcode
    rw [hi] at hinstructions
    cases hgrow with
    | cons fed rest => exact ⟨_, fed, rest, htable, hcode, hinstructions⟩
  · rintro ⟨built, fed, rest, htable, hcode, hinstructions⟩
    refine ⟨?_, ?_, ?_, ?_⟩
    · rw [hc]
      exact .cons fed rest
    · rwa [linesOf, ht]
    · rwa [linesOf, hi]
    · rwa [hi]

theorem adds_cons_table {b : Block} (hk : b.header.kind = .table) {forest : Forest}
    {blocks : List Block} {q : Program} :
    Adds g jumps forest (b :: blocks) q ↔
      ∃ entries q', List.Forall₂ (EntryOf g) b.body entries ∧ Adds g jumps forest blocks q' ∧
        q = { q' with table := entries ++ q'.table } := by
  have hc : ofKind .constants (b :: blocks) = ofKind .constants blocks := by rw [ofKind_cons, hk]; rfl
  have ht : linesOf .table (b :: blocks) = b.body ++ linesOf .table blocks := by
    rw [linesOf, ofKind_cons, if_pos hk, List.flatMap_cons, linesOf]
  have hi : ofKind .code (b :: blocks) = ofKind .code blocks := by rw [ofKind_cons, hk]; rfl
  constructor
  · rintro ⟨hgrow, htable, hcode, hinstructions⟩
    rw [hc] at hgrow
    rw [ht, forall₂_append_left_iff] at htable
    rw [linesOf, hi] at hcode
    rw [hi] at hinstructions
    obtain ⟨entries, more, hentries, hmore, heq⟩ := htable
    exact ⟨entries, { q with table := more }, hentries, ⟨hgrow, hmore, hcode, hinstructions⟩, by rw [← heq]⟩
  · rintro ⟨entries, q', hentries, ⟨hgrow, htable, hcode, hinstructions⟩, rfl⟩
    refine ⟨?_, ?_, ?_, ?_⟩
    · rwa [hc]
    · rw [ht, forall₂_append_left_iff]
      exact ⟨entries, q'.table, hentries, htable, rfl⟩
    · rwa [linesOf, hi]
    · rwa [hi]

theorem adds_cons_code {b : Block} (hk : b.header.kind = .code) {forest : Forest}
    {blocks : List Block} {q : Program} :
    Adds g jumps forest (b :: blocks) q ↔
      ∃ instructions q', (∀ line ∈ b.body, AcceptsCode g line) ∧
        List.Forall₂ (InstructionOf g) (unlabelled g none b.body) instructions ∧
        Adds g jumps forest blocks q' ∧
        q = { q' with instructions := instructions ++ q'.instructions } := by
  have hc : ofKind .constants (b :: blocks) = ofKind .constants blocks := by rw [ofKind_cons, hk]; rfl
  have ht : ofKind .table (b :: blocks) = ofKind .table blocks := by rw [ofKind_cons, hk]; rfl
  have hi : ofKind .code (b :: blocks) = b :: ofKind .code blocks := by rw [ofKind_cons, if_pos hk]
  constructor
  · rintro ⟨hgrow, htable, hcode, hinstructions⟩
    rw [hc] at hgrow
    rw [linesOf, ht] at htable
    rw [linesOf, hi, List.flatMap_cons, List.forall_mem_append] at hcode
    rw [hi, List.flatMap_cons, forall₂_append_left_iff] at hinstructions
    obtain ⟨instructions, more, hread, hmore, heq⟩ := hinstructions
    exact ⟨instructions, { q with instructions := more }, hcode.1, hread,
      ⟨hgrow, htable, hcode.2, hmore⟩, by rw [← heq]⟩
  · rintro ⟨instructions, q', haccept, hread, ⟨hgrow, htable, hcode, hinstructions⟩, rfl⟩
    refine ⟨?_, ?_, ?_, ?_⟩
    · rwa [hc]
    · rwa [linesOf, ht]
    · rw [linesOf, hi, List.flatMap_cons, List.forall_mem_append]
      exact ⟨haccept, hcode⟩
    · rw [hi, List.flatMap_cons, forall₂_append_left_iff]
      exact ⟨instructions, q'.instructions, hread, hinstructions, rfl⟩

/-- What a block adds comes before what the blocks after it add. -/
theorem adds_cons {b : Block} (hb : b.WellFormed) {blocks : List Block} {p p' : Program} :
    (∃ p₁, (addBlock g jumps p b.header b.body).result = .ok p₁ ∧
        ∃ q, Adds g jumps p₁.constants blocks q ∧ p' = p₁.extend q) ↔
      ∃ q, Adds g jumps p.constants (b :: blocks) q ∧ p' = p.extend q := by
  cases hk : b.header.kind with
  | constants =>
    simp only [addBlock_constants hk, adds_cons_constants hk]
    constructor
    · rintro ⟨_, ⟨built, hfed, rfl⟩, q, hq, rfl⟩
      exact ⟨q, ⟨built, hfed, hq⟩, rfl⟩
    · rintro ⟨q, ⟨built, hfed, hq⟩, rfl⟩
      exact ⟨_, ⟨built, hfed, rfl⟩, q, hq, rfl⟩
  | table =>
    simp only [addBlock_table hk, adds_cons_table hk]
    constructor
    · rintro ⟨_, ⟨entries, hentries, rfl⟩, q, hq, rfl⟩
      exact ⟨_, ⟨entries, q, hentries, hq, rfl⟩, by simp [extend]⟩
    · rintro ⟨_, ⟨entries, q, hentries, hq, rfl⟩, rfl⟩
      exact ⟨_, ⟨entries, hentries, rfl⟩, q, hq, by simp [extend]⟩
  | code =>
    simp only [addBlock_code hk hb, adds_cons_code hk]
    constructor
    · rintro ⟨_, ⟨instructions, haccept, hread, rfl⟩, q, hq, rfl⟩
      exact ⟨_, ⟨instructions, q, haccept, hread, hq, rfl⟩, by simp [extend]⟩
    · rintro ⟨_, ⟨instructions, q, haccept, hread, hq, rfl⟩, rfl⟩
      exact ⟨_, ⟨instructions, haccept, hread, rfl⟩, q, hq, by simp [extend]⟩

theorem adds_nil {p p' : Program} :
    (∃ q, Adds g jumps p.constants [] q ∧ p' = p.extend q) ↔ p' = p := by
  constructor
  · rintro ⟨⟨constants, table, instructions⟩, ⟨hgrow, htable, -, hinstructions⟩, rfl⟩
    cases hgrow
    cases htable
    cases hinstructions
    simp [extend]
  · rintro rfl
    exact ⟨⟨p'.constants, [], []⟩, ⟨.nil _, .nil, nofun, .nil⟩, by simp [extend]⟩

/-- The blocks of each kind add their part, whatever stands between them. -/
theorem addAll_eq_ok {blocks : List Block} (h : ∀ b ∈ blocks, b.WellFormed) {p p' : Program} :
    (addAll g jumps p blocks).result = .ok p' ↔
      ∃ q, Adds g jumps p.constants blocks q ∧ p' = p.extend q := by
  induction blocks generalizing p with
  | nil =>
    have hnil : (addAll g jumps p []).result = .ok p := rfl
    rw [hnil, adds_nil, Except.ok.injEq, eq_comm]
  | cons b blocks ih =>
    obtain ⟨hb, hrest⟩ := List.forall_mem_cons.1 h
    rw [← adds_cons hb, addAll_cons, Logged.result_bind_eq_ok]
    simp only [Logged.result_bind_eq_ok, Logged.result_report, ← ih hrest]
    constructor
    · rintro ⟨p₁, ⟨_, -, hadd⟩, hp⟩
      exact ⟨p₁, hadd, hp⟩
    · rintro ⟨p₁, hadd, hp⟩
      exact ⟨p₁, ⟨(), trivial, hadd⟩, hp⟩

end Codesheet.Program
