import Codesheet.Scan.Series

/-! The shapes of body lines. Every recogniser takes a whole line; a fault carries
no line number. -/

namespace Codesheet

/-- A constant, or a bit field if its name starts with a dot. -/
structure ConstantLine where
  level : Nat
  name : String
  value : UInt32
  deriving DecidableEq

/-- The name of a bit field without its dot. -/
def ConstantLine.bitField? (line : ConstantLine) : Option String :=
  match line.name.toList with
  | '.' :: name => some (String.ofList name)
  | _ => none

structure EntryLine where
  level : Nat
  name : String
  series : Series
  deriving DecidableEq

structure InstructionLine where
  level : Nat
  func : String
  args : List Series
  deriving DecidableEq

structure LabelLine where
  level : Nat
  name : String
  deriving DecidableEq

/-- The shapes of lines for some number of spaces per level. -/
structure Grammar where
  unit : Nat
  unit_pos : 0 < unit
  deriving DecidableEq

namespace Grammar

def ofUnit? (unit : Nat) : Except Fault Grammar :=
  if h : 0 < unit then .ok ⟨unit, h⟩ else .error (.options .zeroIndentUnit)

def standard : Grammar := ⟨2, by decide⟩

def level? (g : Grammar) (spaces : Nat) : Except Fault Nat :=
  if spaces % g.unit = 0 then .ok (spaces / g.unit)
  else .error (.indent 0 (.partialUnit spaces g.unit))

/-- Scans a text from its start. -/
def read {α : Type} (scan : Scan α) (text : String) : Except Fault α :=
  match scan.run (.start text) with
  | .ok a _ => .ok a
  | .error fault _ => .error fault

/-! ### Scanners -/

/-- The level of a line from its leading spaces. -/
def indent (g : Grammar) : Scan Nat := do
  let spaces ← Scan.spaces
  match g.level? spaces with
  | .ok level => return level
  | .error fault => throw fault

/-- A name, a dot with a name, or a dot with a star for all bits. -/
def constantName : Scan String := do
  if ← Scan.matchChar '.' then
    if ← Scan.matchChar '*' then return ".*"
    else return "." ++ (← Scan.orFail Scan.name? .bitFieldName)
  else Scan.orFail Scan.name? .constantName

/-- At most `n` further arguments and the closing parenthesis. -/
def moreArguments : Nat → List Series → Scan (List Series)
  | 0, _ => Scan.fail .argumentEnd
  | n + 1, args => do
    let args := args ++ [← Scan.series]
    if ← Scan.matchChar ',' then moreArguments n args
    else if ← Scan.matchChar ')' then return args
    else Scan.fail .argumentEnd

/-- Nothing, or one argument or more in parentheses. -/
def arguments : Scan (List Series) := do
  if ← Scan.matchChar '(' then moreArguments ((← get).rest.length + 1) [] else return []

/-! ### Recognisers -/

def constantLine (g : Grammar) : String → Except Fault ConstantLine := read do
  let level ← g.indent
  let name ← constantName
  Scan.blanks
  Scan.expectChar ':'
  Scan.blanks
  let value ← Scan.number
  Scan.blanks
  Scan.expectEnd
  return ⟨level, name, value⟩

def entryLine (g : Grammar) : String → Except Fault EntryLine := read do
  let level ← g.indent
  let name ← Scan.orFail Scan.name? .entryName
  Scan.expectChar ':'
  let series ← Scan.series
  Scan.expectEnd
  return ⟨level, name, series⟩

def instructionLine (g : Grammar) : String → Except Fault InstructionLine := read do
  let level ← g.indent
  let func ← Scan.orFail Scan.letters? .instructionName
  let args ← arguments
  Scan.blanks
  Scan.expectEnd
  return ⟨level, func, args⟩

/-- The leading spaces and the name of a label, if a line has no more than these
and a colon. -/
def label? : Scan (Option (Nat × String)) := do
  let spaces ← Scan.spaces
  match ← Scan.name? with
  | none => return none
  | some name =>
    unless ← Scan.matchChar ':' do return none
    Scan.blanks
    return if (← get).isAtEnd then some (spaces, name) else none

/-- The indent counts only in a line that has the shape of a label. -/
def labelLine? (g : Grammar) (text : String) : Except Fault (Option LabelLine) := do
  match ← read label? text with
  | none => return none
  | some (spaces, name) => return some ⟨← g.level? spaces, name⟩

end Grammar

/-- A text that is one series. -/
def Series.ofText? : String → Except Fault Series := Grammar.read do
  let series ← Scan.series
  Scan.expectEnd
  return series

end Codesheet
