import Codesheet.Block.Segment
import Codesheet.Constants.Forest
import Codesheet.Options

/-! One block of constants built into a forest. The level of a line decides where
its node goes; positions are paths of places from the root of the block. -/

namespace Codesheet

structure Builder where
  grammar : Grammar
  jumps : JumpPolicy
  forest : Forest
  /-- The place of the root of the block. -/
  root : Nat
  /-- Where the next node of the same level goes. -/
  parent : List Nat
  /-- The node added last. -/
  last : List Nat
  /-- The level of that node's line. -/
  level : Nat
  /-- The parents of the open levels above, the innermost first. -/
  stack : List (List Nat)
  nodes : Nat
  bitFields : Nat

namespace Builder

/-- Extends the root of a name, which is added if there is none. -/
def start (grammar : Grammar) (jumps : JumpPolicy) (forest : Forest) (name : String) : Builder :=
  ⟨grammar, jumps, forest.ensureRoot name, forest.slot name, [], [], 0, [], 0, 0⟩

/-- A step with what it reports. A step that fails may have moved the builder. -/
abbrev Step := Builder → Builder × Logged Unit

/-- The second step is taken if the first one does not fail. -/
def Step.andThen (first second : Step) : Step := fun b =>
  let (b, done) := first b
  match done.result with
  | .ok () =>
    let (b, more) := second b
    (b, ⟨done.events ++ more.events, more.result⟩)
  | .error _ => (b, done)

/-! ### Edits -/

def nodeAt (b : Builder) (path : List Nat) : Except Fault Node :=
  match b.forest.roots[b.root]? with
  | none => .error (.internal .missingRoot)
  | some root =>
    match root.at? path with
    | none => .error (.internal (.stalePath path))
    | some node => .ok node

/-- The forest with the node at a path of the block's root changed. -/
def edited (b : Builder) (f : Node → Node) (path : List Nat) : Except Fault Forest :=
  match b.forest.roots[b.root]? with
  | none => .error (.internal .missingRoot)
  | some root =>
    match root.editAt? f path with
    | none => .error (.internal (.stalePath path))
    | some root => .ok ⟨b.forest.roots.set b.root root⟩

/-- Adds a bit field to the node added last. -/
def annotate (field : BitField) : Step := fun b =>
  let event := Event.bitField field.name field.size
  match b.edited (·.addBitField field) b.last with
  | .ok forest => ({ b with forest, bitFields := b.bitFields + 1 }, Logged.report event)
  | .error fault => (b, ⟨[event], .error fault⟩)

/-- Adds a node below the current parent. -/
def attach (node : Node) : Step := fun b =>
  let event := Event.constant node.name node.value (b.parent.length + 1)
  match b.nodeAt b.parent, b.edited (·.insertChild node) b.parent with
  | .ok parent, .ok forest =>
    ({ b with forest, last := b.parent ++ [parent.slot node.name], nodes := b.nodes + 1 },
      Logged.report event)
  | .error fault, _ => (b, ⟨[event], .error fault⟩)
  | _, .error fault => (b, ⟨[event], .error fault⟩)

/-! ### Levels -/

/-- Goes below the node added last. -/
def descend (b : Builder) (level : Nat) : Builder :=
  { b with stack := b.parent :: b.stack, parent := b.last, level }

/-- Closes some levels, one by one, as long as there are any. -/
def close : Nat → Builder → Builder × Bool
  | 0, b => (b, true)
  | n + 1, b =>
    match b.stack with
    | [] => (b, false)
    | outer :: stack => close n { b with last := b.parent, parent := outer, stack }

/-- Goes to the parent of a line of some level. A fall closes as many levels as it
measures; a rise opens one. -/
def moveTo (level : Nat) : Step := fun b =>
  if b.level < level then
    if level ≤ b.level + 1 then (b.descend level, pure ())
    else
      match b.jumps with
      | .reject => (b, Logged.fail (.indent 0 (.jump b.level level)))
      | .collapse => (b.descend level, Logged.report (.indentJump b.level level))
  else if level < b.level then
    match close (b.level - level) b with
    | (b, true) => ({ b with level }, pure ())
    | (b, false) => (b, Logged.fail (.indent 0 (.unopened level)))
  else (b, pure ())

/-! ### Lines -/

/-- Adds a line's bit field, whatever its level, or its node. -/
def add (line : ConstantLine) : Step :=
  match line.bitField? with
  | some name => annotate ⟨name, line.value⟩
  | none => (moveTo line.level).andThen (attach (.leaf line.name line.value))

def feed (line : Line) : Step := fun b =>
  match b.grammar.constantLine line.text with
  | .ok constant =>
    let (b, done) := b.add constant
    (b, done.atLine line.number)
  | .error fault => (b, Logged.fail (fault.atLine line.number))

/-- Feeds lines up to the first fault. -/
def feedAll : List Line → Step
  | [] => fun b => (b, pure ())
  | line :: lines => (feed line).andThen (feedAll lines)

end Builder

end Codesheet
