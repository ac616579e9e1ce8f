import Codesheet.Proofs.Program.Partition

/-! A reader that takes one line after the other and only remembers which block is
open and the forest. It stops at the same fault as reading block by block. -/

namespace Codesheet.Program

theorem map_eq_ok {α β : Type} {x : Except Fault α} {f : α → β} {b : β} :
    x.map f = .ok b ↔ ∃ a, x = .ok a ∧ f a = b := by
  cases x <;> simp [Except.map]

theorem map_eq_error {α β : Type} {x : Except Fault α} {f : α → β} {fault : Fault} :
    x.map f = .error fault ↔ x = .error fault := by
  cases x <;> simp [Except.map]

variable (g : Grammar) (jumps : JumpPolicy)

/-- The block that is open between two lines. -/
inductive Stage where
  | outside
  | constants (b : Builder)
  | table (forest : Forest)
  | code (forest : Forest)

namespace Stage

def forest : Stage → Forest
  | outside => .empty
  | constants b => b.forest
  | table forest => forest
  | code forest => forest

def opened (stage : Stage) (header : Header) : Stage :=
  match header.kind with
  | .constants => constants (.start g jumps stage.forest header.name)
  | .table => table stage.forest
  | .code => code stage.forest

/-- A label or an instruction. -/
def codeLine (line : Line) : Except Fault Unit :=
  match g.labelLine? line.text with
  | .ok (some _) => .ok ()
  | .ok none => ((g.instructionLine line.text).map fun _ => ()).mapError (·.atLine line.number)
  | .error fault => .error (fault.atLine line.number)

/-- A body line in the open block. -/
def body (stage : Stage) (line : Line) : Except Fault Stage :=
  match stage with
  | outside => .error (.notHeader line.number line.text)
  | constants b => (b.feed line).2.result.map fun _ => constants (b.feed line).1
  | table forest => (entry g line).map fun _ => table forest
  | code forest => (codeLine g line).map fun _ => code forest

def step (stage : Stage) (line : Line) : Except Fault Stage :=
  if line.isHeader then .ok (stage.opened g jumps (.ofLine line)) else stage.body g line

/-- Takes lines up to the first fault. -/
def run (stage : Stage) (lines : List Line) : Except Fault Stage := lines.foldlM (step g jumps) stage

theorem run_cons (stage : Stage) (line : Line) (lines : List Line) :
    run g jumps stage (line :: lines) = (stage.step g jumps line).bind (run g jumps · lines) := by
  rw [run, List.foldlM_cons]
  rfl

theorem run_append (stage : Stage) (lines more : List Line) :
    run g jumps stage (lines ++ more) = (run g jumps stage lines).bind (run g jumps · more) := by
  rw [run, List.foldlM_append]
  rfl

/-! ### Bodies -/

variable {g jumps}

theorem step_header {line : Line} (h : line.isHeader) (stage : Stage) :
    stage.step g jumps line = .ok (stage.opened g jumps (.ofLine line)) := if_pos h

theorem step_body {line : Line} (h : ¬ line.isHeader) (stage : Stage) :
    stage.step g jumps line = stage.body g line := if_neg h

theorem run_constants {lines : List Line} (h : ∀ line ∈ lines, ¬ line.isHeader) (b : Builder) :
    run g jumps (constants b) lines =
      (b.feedAll lines).2.result.map fun _ => constants (b.feedAll lines).1 := by
  induction lines generalizing b with
  | nil => rfl
  | cons line lines ih =>
    obtain ⟨hline, hrest⟩ := List.forall_mem_cons.1 h
    rw [run_cons, step_body hline, body, Builder.feedAll]
    cases hf : (b.feed line).2.result with
    | error fault =>
      rw [Builder.andThen_of_error hf, hf]
      rfl
    | ok _ =>
      rw [Builder.andThen_of_ok hf]
      exact ih hrest _

theorem run_table {lines : List Line} (h : ∀ line ∈ lines, ¬ line.isHeader) (forest : Forest) :
    run g jumps (table forest) lines = (lines.mapM (entry g)).map fun _ => table forest := by
  induction lines with
  | nil => rfl
  | cons line lines ih =>
    obtain ⟨hline, hrest⟩ := List.forall_mem_cons.1 h
    rw [run_cons, step_body hline, body, List.mapM_cons]
    cases he : entry g line with
    | error fault => rfl
    | ok e =>
      have hrun : (Except.map (fun _ => table forest) (.ok e)).bind (run g jumps · lines) =
          run g jumps (table forest) lines := rfl
      rw [hrun, ih hrest]
      cases lines.mapM (entry g) <;> rfl

theorem run_code {lines : List Line} (h : ∀ line ∈ lines, ¬ line.isHeader) (forest : Forest)
    (waiting : Option Label) :
    run g jumps (code forest) lines =
      (Program.code g waiting lines).result.map fun _ => code forest := by
  induction lines generalizing waiting with
  | nil => cases waiting <;> rfl
  | cons line lines ih =>
    obtain ⟨hline, hrest⟩ := List.forall_mem_cons.1 h
    have hnext : ∀ waiting, (Except.map (fun _ => code forest) (.ok ())).bind (run g jumps · lines) =
        (Program.code g waiting lines).result.map fun _ => code forest := ih hrest
    rw [run_cons, step_body hline, body, codeLine]
    cases hlabel : g.labelLine? line.text with
    | error bare =>
      rw [Program.code, hlabel]
      rfl
    | ok found =>
      cases found with
      | some label =>
        rw [code_of_label hlabel, Logged.result_bind, result_replaced]
        exact hnext _
      | none =>
        cases hshape : g.instructionLine line.text with
        | error bare =>
          rw [Program.code, hlabel, hshape]
          rfl
        | ok shape =>
          rw [code_of_instruction hshape, Logged.result_bind]
          refine (hnext none).trans ?_
          cases (Program.code g none lines).result <;> rfl

/-! ### Blocks -/

/-- A block ends with the forest that adding it to a program gives, or at the same
fault. -/
theorem run_block {b : Block} (hb : b.WellFormed) {stage : Stage} {p : Program}
    (hp : stage.forest = p.constants) :
    (run g jumps stage b.lines).map forest =
      (addBlock g jumps p b.header b.body).result.map (·.constants) := by
  rw [Block.lines, run_cons, step_header hb.1, Except.bind, opened]
  unfold addBlock Block.header
  cases (Header.ofLine b.head).kind with
  | constants =>
    simp only [run_constants hb.2, hp, Logged.result_bind, Logged.result_report]
    cases (Builder.feedAll b.body (.start g jumps p.constants (Header.ofLine b.head).name)).2.result <;>
      rfl
  | table =>
    simp only [run_table hb.2, hp, Logged.result_bind, Logged.result_report, Logged.result_ofExcept]
    cases b.body.mapM (entry g) <;> rfl
  | code =>
    simp only [run_code hb.2 _ none, hp, Logged.result_bind, Logged.result_report]
    cases (Program.code g none b.body).result <;> rfl

theorem run_blocks {blocks : List Block} (h : ∀ b ∈ blocks, b.WellFormed) {stage : Stage}
    {p : Program} (hp : stage.forest = p.constants) :
    (run g jumps stage (blocks.flatMap Block.lines)).map forest =
      (addAll g jumps p blocks).result.map (·.constants) := by
  induction blocks generalizing stage p with
  | nil => exact congrArg Except.ok hp
  | cons b blocks ih =>
    obtain ⟨hb, hrest⟩ := List.forall_mem_cons.1 h
    have hblock := @run_block g jumps _ hb _ _ hp
    have hadd : (addAll g jumps p (b :: blocks)).result =
        (addBlock g jumps p b.header b.body).result.bind fun p => (addAll g jumps p blocks).result := by
      rw [addAll_cons, Logged.result_bind, Logged.result_bind]
      rfl
    rw [List.flatMap_cons, run_append, hadd]
    cases ha : (addBlock g jumps p b.header b.body).result with
    | error fault =>
      rw [ha] at hblock
      rw [map_eq_error.1 hblock]
      rfl
    | ok p' =>
      rw [ha] at hblock
      obtain ⟨stage', hrun, hforest⟩ := map_eq_ok.1 hblock
      rw [hrun]
      exact ih hrest hforest

/-- Reading a text line by line gives the forest of the program, or the same fault. -/
theorem run_ofText (text : String) :
    (run g jumps outside (Line.ofText text)).map forest =
      (read g jumps text).result.map (·.constants) := by
  by_cases hc : (Block.cut (Line.ofText text)).1 = []
  · have hempty : outside.forest = Program.empty.constants := rfl
    have hblocks := @run_blocks g jumps (Block.cut (Line.ofText text)).2
      (fun b => Block.wellFormed_of_mem_cut) _ _ hempty
    rw [Block.lines_of_cut hc] at hblocks
    rw [hblocks, read_of_header g jumps hc, Logged.result_bind]
    cases (addAll g jumps .empty (Block.cut (Line.ofText text)).2).result <;> rfl
  · rw [Block.cut_fst_eq_nil_iff] at hc
    push Not at hc
    obtain ⟨line, hline, hl⟩ := hc
    obtain ⟨lines, hlines⟩ := List.head?_eq_some_iff.1 hline
    rw [read_of_indented g jumps hline (by simpa using hl), hlines, run_cons,
      step_body (by simpa using hl)]
    rfl

end Stage

end Codesheet.Program
