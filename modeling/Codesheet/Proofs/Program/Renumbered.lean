import Codesheet.Proofs.Line.Layout
import Codesheet.Proofs.Program.FirstFault
import Codesheet.Proofs.Program.Nesting

/-! Texts with the same lines under other numbers. What is read from a line does not depend on its
number, which is only handed on: to the entry, to the instruction or to the fault of the line. So a
change of the layout of a text changes the numbers in what is read from it, and nothing else. -/

namespace Codesheet

/-! ### Other numbers -/

def Fault.renumber (f : Nat → Nat) : Fault → Fault
  | indent line cause => indent (f line) cause
  | grammar line column expected text => grammar (f line) column expected text
  | notHeader line text => notHeader (f line) text
  | fault => fault

def Entry.renumber (f : Nat → Nat) (e : Entry) : Entry := { e with line := f e.line }

def Instruction.renumber (f : Nat → Nat) (i : Instruction) : Instruction := { i with line := f i.line }

def Program.renumber (f : Nat → Nat) (p : Program) : Program :=
  ⟨p.constants, p.table.map (Entry.renumber f), p.instructions.map (Instruction.renumber f)⟩

def Block.renumber (f : Nat → Nat) (b : Block) : Block :=
  ⟨b.head.renumber f, b.body.map (Line.renumber f)⟩

variable {g : Grammar} {jumps : JumpPolicy} {f : Nat → Nat}

/-- A fault without a line yet gets the new number of its line. -/
theorem Fault.OfText.renumber_atLine {fault : Fault} (h : fault.OfText) (f : Nat → Nat) (number : Nat) :
    (fault.atLine number).renumber f = fault.atLine (f number) := by
  cases h <;> rfl

theorem Block.cut_renumber (f : Nat → Nat) (lines : List Line) :
    cut (lines.map (Line.renumber f)) =
      ((cut lines).1.map (Line.renumber f), (cut lines).2.map (Block.renumber f)) :=
  cut_map (f := Line.renumber f) (fun _ => rfl) lines

namespace Builder

variable {b : Builder}

theorem Sound.feed_renumber (hb : b.Sound) (f : Nat → Nat) (line : Line) :
    (feed (line.renumber f) b).1 = (feed line b).1 ∧
      (feed (line.renumber f) b).2.result = (feed line b).2.result.mapError (Fault.renumber f) := by
  have htext : (line.renumber f).text = line.text := rfl
  cases hc : b.grammar.constantLine line.text with
  | error fault =>
    rw [feed_of_error hc, feed_of_error (htext ▸ hc)]
    refine ⟨rfl, ?_⟩
    show _ = Except.error _
    rw [(Grammar.constantLine_ofText hc).renumber_atLine]
    rfl
  | ok constant =>
    rw [feed_of_ok hc, feed_of_ok (htext ▸ hc)]
    refine ⟨rfl, ?_⟩
    cases hadd : (add constant b).2.result with
    | ok done => rw [Logged.result_atLine_of_ok hadd, Logged.result_atLine_of_ok hadd]; rfl
    | error bare =>
      obtain ⟨cause, rfl⟩ := add_eq_error hb hadd
      rw [Logged.result_atLine_of_error hadd, Logged.result_atLine_of_error hadd]
      rfl

theorem Feeds.renumber {lines : List Line} {built : Builder} (h : Feeds b lines built) (hb : b.Sound)
    (f : Nat → Nat) : Feeds b (lines.map (Line.renumber f)) built := by
  induction h with
  | nil b => exact .nil b
  | @cons b built line lines accepted rest ih =>
    obtain ⟨hbuilt, hresult⟩ := hb.feed_renumber f line
    rw [accepted] at hresult
    rw [List.map_cons]
    refine .cons hresult ?_
    rw [hbuilt]
    exact ih (hb.sound_feed line)

end Builder

namespace Program

/-! ### Faults -/

theorem entry_renumber (f : Nat → Nat) (line : Line) :
    entry g (line.renumber f) = ((entry g line).map (Entry.renumber f)).mapError (Fault.renumber f) := by
  have htext : (line.renumber f).text = line.text := rfl
  rw [entry, entry, htext]
  cases he : g.entryLine line.text with
  | ok shape => rfl
  | error bare =>
    show Except.error _ = Except.error _
    rw [(Grammar.entryLine_ofText he).renumber_atLine]
    rfl

namespace Stage

theorem codeLine_renumber (f : Nat → Nat) (line : Line) :
    codeLine g (line.renumber f) = (codeLine g line).mapError (Fault.renumber f) := by
  have htext : (line.renumber f).text = line.text := rfl
  rw [codeLine, codeLine, htext]
  cases hlabel : g.labelLine? line.text with
  | error bare =>
    show Except.error _ = Except.error _
    rw [(Grammar.labelLine?_ofText hlabel).renumber_atLine]
    rfl
  | ok found =>
    cases found with
    | some label => rfl
    | none =>
      cases hshape : g.instructionLine line.text with
      | ok shape => rfl
      | error bare =>
        show Except.error _ = Except.error _
        rw [(Grammar.instructionLine_ofText hshape).renumber_atLine]
        rfl

/-- No stage remembers a number, so a line under another one has the same effect. -/
theorem Sound.step_renumber {stage : Stage} (hs : stage.Sound) (f : Nat → Nat) (line : Line) :
    stage.step g jumps (line.renumber f) = (stage.step g jumps line).mapError (Fault.renumber f) := by
  by_cases hl : line.isHeader
  · have hl' : (line.renumber f).isHeader := hl
    rw [step_header hl, step_header hl']
    rfl
  · have hl' : ¬ (line.renumber f).isHeader := hl
    rw [step_body hl, step_body hl']
    cases stage with
    | outside => rfl
    | constants b =>
      obtain ⟨hbuilt, hresult⟩ := Builder.Sound.feed_renumber hs f line
      rw [body, body, hbuilt, hresult]
      cases (b.feed line).2.result <;> rfl
    | table forest =>
      rw [body, body, entry_renumber]
      cases entry g line <;> rfl
    | code forest =>
      rw [body, body, codeLine_renumber]
      cases codeLine g line <;> rfl

theorem Sound.run_renumber {stage : Stage} (hs : stage.Sound) (f : Nat → Nat) (lines : List Line) :
    run g jumps stage (lines.map (Line.renumber f)) = (run g jumps stage lines).mapError (Fault.renumber f) := by
  induction lines generalizing stage with
  | nil => rfl
  | cons line lines ih =>
    rw [List.map_cons, run_cons, run_cons, hs.step_renumber]
    cases hstep : stage.step g jumps line with
    | error fault => rfl
    | ok next => exact ih (hs.sound_step hstep)

end Stage

/-! ### Programs -/

theorem ofKind_renumber (f : Nat → Nat) (kind : Kind) (blocks : List Block) :
    ofKind kind (blocks.map (Block.renumber f)) = (ofKind kind blocks).map (Block.renumber f) := by
  rw [ofKind, ofKind, List.filter_map]
  rfl

theorem linesOf_renumber (f : Nat → Nat) (kind : Kind) (blocks : List Block) :
    linesOf kind (blocks.map (Block.renumber f)) = (linesOf kind blocks).map (Line.renumber f) := by
  rw [linesOf, linesOf, ofKind_renumber, List.flatMap_map, List.map_flatMap]
  rfl

theorem withBefore_renumber (f : Nat → Nat) (before : Option Line) (lines : List Line) :
    withBefore (before.map (Line.renumber f)) (lines.map (Line.renumber f)) =
      (withBefore before lines).map (Prod.map (Option.map (Line.renumber f)) (Line.renumber f)) := by
  induction lines generalizing before with
  | nil => rfl
  | cons line lines ih =>
    rw [List.map_cons, withBefore, withBefore, List.map_cons]
    exact congrArg _ (ih (some line))

theorem unlabelled_renumber (f : Nat → Nat) (body : List Line) :
    unlabelled g none (body.map (Line.renumber f)) =
      (unlabelled g none body).map (Prod.map (Option.map (Line.renumber f)) (Line.renumber f)) := by
  have hbefore := withBefore_renumber f none body
  rw [Option.map_none] at hbefore
  rw [unlabelled, unlabelled, hbefore, List.filter_map]
  rfl

theorem EntryOf.renumber {line : Line} {e : Entry} (h : EntryOf g line e) (f : Nat → Nat) :
    EntryOf g (line.renumber f) (e.renumber f) :=
  ⟨congrArg f h.1, h.2⟩

theorem InstructionOf.renumber {place : Option Line × Line} {i : Instruction} (h : InstructionOf g place i)
    (f : Nat → Nat) :
    InstructionOf g (Prod.map (Option.map (Line.renumber f)) (Line.renumber f) place) (i.renumber f) := by
  obtain ⟨before, line⟩ := place
  obtain ⟨hline, htag, hlevel, hshape⟩ := h
  refine ⟨congrArg f hline, ?_, hlevel, hshape⟩
  cases before <;> exact htag

theorem Grows.renumber {forest grown : Forest} {blocks : List Block} (h : Grows g jumps forest blocks grown)
    (f : Nat → Nat) : Grows g jumps forest (blocks.map (Block.renumber f)) grown := by
  induction h with
  | nil forest => exact .nil forest
  | @cons forest grown b blocks built fed rest ih =>
    have hb := Builder.sound_start g jumps forest b.header.name
    exact .cons (fed.renumber hb f) ih

theorem Adds.renumber {forest : Forest} {blocks : List Block} {q : Program}
    (h : Adds g jumps forest blocks q) (f : Nat → Nat) :
    Adds g jumps forest (blocks.map (Block.renumber f)) (q.renumber f) := by
  constructor
  · rw [ofKind_renumber]
    exact h.constants.renumber f
  · rw [linesOf_renumber, Program.renumber, List.forall₂_map_left_iff, List.forall₂_map_right_iff]
    exact h.table.imp fun line e he => he.renumber f
  · intro line hm
    rw [linesOf_renumber] at hm
    obtain ⟨other, hother, rfl⟩ := List.mem_map.1 hm
    exact h.code other hother
  · have hplaces : ((ofKind .code (blocks.map (Block.renumber f))).flatMap fun b => unlabelled g none b.body) =
        ((ofKind .code blocks).flatMap fun b => unlabelled g none b.body).map
          (Prod.map (Option.map (Line.renumber f)) (Line.renumber f)) := by
      rw [ofKind_renumber, List.flatMap_map, List.map_flatMap]
      congr 1
      funext b
      exact unlabelled_renumber f b.body
    rw [hplaces, Program.renumber, List.forall₂_map_left_iff, List.forall₂_map_right_iff]
    exact h.instructions.imp fun place i hi => hi.renumber f

/-- A text with the lines of another one under other numbers. -/
theorem read_renumber {text text' : String} (h : Line.ofText text' = (Line.ofText text).map (Line.renumber f)) :
    (read g jumps text').result =
      ((read g jumps text).result.map (Program.renumber f)).mapError (Fault.renumber f) := by
  cases hread : (read g jumps text).result with
  | error fault =>
    have hs : Stage.outside.Sound := trivial
    rw [read_eq_error_iff] at hread
    show _ = Except.error _
    rw [read_eq_error_iff, h, hs.run_renumber, hread]
    rfl
  | ok p =>
    have hc := cut_of_read hread
    have hadds := (read_eq_ok_iff g jumps hc).1 hread
    have hc' : (Block.cut (Line.ofText text')).1 = [] := by rw [h, Block.cut_renumber, hc]; rfl
    show _ = Except.ok _
    rw [read_eq_ok_iff g jumps hc', h, Block.cut_renumber]
    exact hadds.renumber f

/-- A text whose layout was changed gives the program of the text before, with the new numbers of
the lines, or its fault, with the new number of its line. -/
theorem parse_of_relaid (options : ParseOptions) (valid : 0 < options.indentUnit) (f : Nat → Nat)
    (text text' : String) (relaid : Relaid f text.toList text'.toList) :
    (parse options text').result =
      ((parse options text).result.map (Program.renumber f)).mapError (Fault.renumber f) := by
  rw [parse_of_valid valid, parse_of_valid valid]
  exact read_renumber (ofText_of_relaid relaid)

/-- A comment between a label and its instruction, after a blank that is no space. -/
theorem parse_of_relaid_label :
    let text := "main:\n  s:\n  NOP\n"
    let text' := "main:\n  s:\n\u3000' note\r\n  NOP\n"
    (parse {} text).result = .ok ⟨.empty, [], [⟨some "s", "NOP", [], 1, 3⟩]⟩ ∧
      (parse {} text').result = .ok ⟨.empty, [], [⟨some "s", "NOP", [], 1, 4⟩]⟩ := by
  intro text text'
  have hskipped : Text.Skipped "\u3000' note\r".toList :=
    ⟨by decide, .inr ⟨['\u3000'], " note\r".toList, by decide, List.forall_mem_singleton.2 rfl⟩⟩
  have htext : text.toList = "main:\n  s:\n".toList ++ "  NOP\n".toList := by decide +kernel
  have htext' : text'.toList =
      "main:\n  s:\n".toList ++ ("\u3000' note\r".toList ++ '\n' :: "  NOP\n".toList) := by
    decide +kernel
  have relaid : Relaid _ ("main:\n  s:\n".toList ++ "  NOP\n".toList)
      ("main:\n  s:\n".toList ++ ("\u3000' note\r".toList ++ '\n' :: "  NOP\n".toList)) :=
    .insert (.inr (by decide)) hskipped
  rw [← htext, ← htext'] at relaid
  have hparse : (parse {} text).result = .ok ⟨.empty, [], [⟨some "s", "NOP", [], 1, 3⟩]⟩ := by
    decide +kernel
  refine ⟨hparse, ?_⟩
  rw [parse_of_relaid {} (by decide) _ text text' relaid, hparse]
  rfl

end Program

end Codesheet
