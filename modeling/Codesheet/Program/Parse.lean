import Codesheet.Constants.Builder
import Codesheet.Program.Basic

/-! Programs read from source texts, block by block, up to the first fault. -/

namespace Codesheet

namespace Program

/-! ### Tables -/

def entry (g : Grammar) (line : Line) : Except Fault Entry :=
  match g.entryLine line.text with
  | .ok shape => .ok ⟨shape.name, shape.series, line.number⟩
  | .error fault => .error (fault.atLine line.number)

/-! ### Code -/

/-- A label that waits for its instruction. -/
structure Label where
  name : String
  line : Nat
  deriving DecidableEq

/-- Labels that no instruction will carry. -/
def replaced : Option Label → Logged Unit
  | some label => Logged.report (.tagReplaced label.name label.line)
  | none => pure ()

def unused : Option Label → Logged Unit
  | some label => Logged.report (.tagUnused label.name label.line)
  | none => pure ()

/-- The instructions of some lines, the first of which carries the waiting label
unless another label comes before it. -/
def code (g : Grammar) : Option Label → List Line → Logged (List Instruction)
  | waiting, [] => do
    unused waiting
    return []
  | waiting, line :: lines => do
    match ← (Logged.ofExcept (g.labelLine? line.text)).atLine line.number with
    | some label =>
      replaced waiting
      code g (some ⟨label.name, line.number⟩) lines
    | none =>
      let shape ← (Logged.ofExcept (g.instructionLine line.text)).atLine line.number
      let more ← code g none lines
      return ⟨waiting.map (·.name), shape.func, shape.args, shape.level, line.number⟩ :: more

/-! ### Blocks -/

def addBlock (g : Grammar) (jumps : JumpPolicy) (p : Program) (header : Header)
    (body : List Line) : Logged Program :=
  match header.kind with
  | .constants => do
    let (b, done) := Builder.feedAll body (.start g jumps p.constants header.name)
    done
    Logged.report (.constantsDone header.name b.nodes b.bitFields)
    return { p with constants := b.forest }
  | .table => do
    let entries ← Logged.ofExcept (body.mapM (entry g))
    Logged.report (.tableDone header.name entries.length)
    return { p with table := p.table ++ entries }
  | .code => do
    let instructions ← code g none body
    Logged.report (.codeDone header.name instructions.length)
    return { p with instructions := p.instructions ++ instructions }

/-- At most `n` further blocks. -/
def addBlocks (g : Grammar) (jumps : JumpPolicy) : Nat → Source → Program → Logged Program
  | 0, _, p => pure p
  | n + 1, s, p => do
    let (s, header) := s.nextHeader
    match ← header with
    | none => return p
    | some header =>
      let (body, s) := (Body.start s).rest
      addBlocks g jumps n s (← addBlock g jumps p header body)

/-- Reads a whole text. Every block takes a line at least, so the lines bound the
number of blocks. -/
def read (g : Grammar) (jumps : JumpPolicy) (text : String) : Logged Program := do
  let s := Source.ofText text
  let p ← addBlocks g jumps (s.bound + 1) s .empty
  Logged.report (.parsed p.constants.roots.length p.table.length p.instructions.length)
  return p

/-- The options are checked before anything is read. -/
def parse (options : ParseOptions) (text : String) : Logged Program := do
  let g ← Logged.ofExcept options.grammar
  read g options.indentJumps text

end Program

end Codesheet
