import Codesheet.Fault

/-! A position in a line, and scanners that move it. A scanner that fails leaves
the position where it stopped. -/

namespace Codesheet

structure Cursor where
  /-- The characters read, the latest first. -/
  before : List Char
  rest : List Char

namespace Cursor

def start (text : String) : Cursor := ⟨[], text.toList⟩

/-- The whole line. -/
def text (c : Cursor) : String := String.ofList (c.before.reverse ++ c.rest)

/-- Columns count characters from 1. -/
def column (c : Cursor) : Nat := c.before.length + 1

def peek? (c : Cursor) : Option Char := c.rest.head?

def isAtEnd (c : Cursor) : Bool := c.rest.isEmpty

/-- Moves over `n` characters, or to the end. -/
def skip (c : Cursor) (n : Nat) : Cursor :=
  ⟨(c.rest.take n).reverse ++ c.before, c.rest.drop n⟩

/-- Moves over the longest run of characters with a property. -/
def skipWhile (c : Cursor) (p : Char → Bool) : Cursor :=
  ⟨(c.rest.takeWhile p).reverse ++ c.before, c.rest.dropWhile p⟩

def fault (c : Cursor) (expected : Expected) : Fault := .grammar 0 c.column expected c.text

@[simp] theorem text_start (text : String) : (start text).text = text := by
  simp [start, Cursor.text]

@[simp] theorem text_skip (c : Cursor) (n : Nat) : (c.skip n).text = c.text := by
  simp [skip, text]

@[simp] theorem text_skipWhile (c : Cursor) (p : Char → Bool) : (c.skipWhile p).text = c.text := by
  simp [skipWhile, text]

end Cursor

abbrev Scan := EStateM Fault Cursor

namespace Scan

variable {α β : Type}

@[simp] theorem pure_apply (a : α) (c : Cursor) : (pure a : Scan α) c = .ok a c := rfl

theorem bind_apply (scan : Scan α) (next : α → Scan β) (c : Cursor) :
    (scan >>= next) c =
      match scan c with
      | .ok a c => next a c
      | .error fault c => .error fault c := by
  change EStateM.bind scan next c = _
  unfold EStateM.bind
  cases scan c <;> rfl

@[simp] theorem get_apply (c : Cursor) : (get : Scan Cursor) c = .ok c c := rfl

@[simp] theorem modify_apply (f : Cursor → Cursor) (c : Cursor) :
    (modify f : Scan PUnit) c = .ok ⟨⟩ (f c) := rfl

@[simp] theorem throw_apply (fault : Fault) (c : Cursor) :
    (throw fault : Scan α) c = .error fault c := rfl

/-! ### Characters -/

def fail (expected : Expected) : Scan α := fun c => .error (c.fault expected) c

/-- Moves over a character if it is next, and says whether it was. -/
def matchChar (expected : Char) : Scan Bool := fun c =>
  if c.peek? = some expected then .ok true (c.skip 1) else .ok false c

def expectChar (expected : Char) : Scan Unit := do
  unless ← matchChar expected do fail (.character expected)

def expectEnd : Scan Unit := do
  unless (← get).isAtEnd do fail .lineEnd

/-- Takes the longest run of characters with a property. -/
def takeWhile (p : Char → Bool) : Scan (List Char) := fun c =>
  .ok (c.rest.takeWhile p) (c.skipWhile p)

/-- Blanks inside a line are spaces alone. -/
def blanks : Scan Unit := fun c => .ok () (c.skipWhile (· = ' '))

/-- Moves over spaces and counts them. -/
def spaces : Scan Nat := do return (← takeWhile (· = ' ')).length

/-! ### Names -/

def isNameStart (c : Char) : Bool := c.isAlpha || c = '_'

def isNameChar (c : Char) : Bool := c.isAlphanum || c = '_'

/-- A run of characters that has to start in its own way, or nothing. -/
def run? (start : Char → Bool) (p : Char → Bool) : Scan (Option String) := do
  if (← get).peek?.any start then return some (String.ofList (← takeWhile p)) else return none

/-- An ASCII letter or underscore, then letters, digits and underscores. -/
def name? : Scan (Option String) := run? isNameStart isNameChar

/-- One ASCII letter or more. -/
def letters? : Scan (Option String) := run? Char.isAlpha Char.isAlpha

/-- A part of a line that has to be there. -/
def orFail (scan : Scan (Option α)) (expected : Expected) : Scan α := do
  match ← scan with
  | some a => return a
  | none => fail expected

end Scan

end Codesheet
