import Codesheet.Constants.Forest
import Codesheet.Series.Basic

/-! Programs: constants, a table of named series, and instructions. -/

namespace Codesheet

structure Entry where
  name : String
  series : Series
  line : Nat
  deriving DecidableEq

structure Instruction where
  tag : Option String
  func : String
  args : List Series
  level : Nat
  line : Nat
  deriving DecidableEq

/-- Entries and instructions stand in the order of their lines. -/
structure Program where
  constants : Forest
  table : List Entry
  instructions : List Instruction
  deriving DecidableEq

/-- Puts a text into an ascending list without repeating it. -/
def insertText (text : String) : List String → List String
  | [] => [text]
  | first :: texts =>
    if text = first then first :: texts
    else if text < first then text :: first :: texts
    else first :: insertText text texts

namespace Program

def empty : Program := ⟨.empty, [], []⟩

/-- The names an address may stand for, those of the table and the tags, in
ascending order. -/
def symbols (p : Program) : List String :=
  (p.table.map (·.name) ++ p.instructions.filterMap (·.tag)).foldr insertText []

end Program

theorem mem_insertText {text other : String} {texts : List String} :
    other ∈ insertText text texts ↔ other = text ∨ other ∈ texts := by
  induction texts with
  | nil => simp [insertText]
  | cons first texts ih =>
    unfold insertText
    split
    · next h => simp [h]
    · split
      · simp
      · simp only [List.mem_cons, ih]
        exact or_left_comm

/-- The symbols are the names of entries and the tags of instructions. -/
theorem Program.mem_symbols {p : Program} {name : String} :
    name ∈ p.symbols ↔ (∃ e ∈ p.table, e.name = name) ∨ ∃ i ∈ p.instructions, i.tag = some name := by
  have h : ∀ texts : List String, name ∈ texts.foldr insertText [] ↔ name ∈ texts := by
    intro texts
    induction texts with
    | nil => rfl
    | cons text texts ih => simp [mem_insertText, ih]
  rw [symbols, h]
  simp

end Codesheet
