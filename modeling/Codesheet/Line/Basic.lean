import Codesheet.Text.Blank
import Codesheet.Text.Split

/-! Numbered source lines without blanks at the end. -/

namespace Codesheet

structure Line where
  number : Nat
  text : String
  deriving DecidableEq

namespace Line

/-- A header starts in the first column. -/
def isHeader (line : Line) : Bool := line.text.toList.head? != some ' '

def leadingSpaces (line : Line) : Nat := (line.text.toList.takeWhile (· = ' ')).length

/-- A comment's first character that is not blank. -/
def commentMark : Char := '\x27'

/-- A raw line with its blanks at the end removed, unless nothing else is left
or it is a comment. -/
def clean? (number : Nat) (raw : List Char) : Option Line :=
  let text := Text.trimEnd raw
  match Text.trimStart text with
  | [] => none
  | c :: _ => if c = commentMark then none else some ⟨number, String.ofList text⟩

/-- The first cleaned line from some raw lines on, with the number of the raw
line read last and the raw lines after it. -/
def seek (number : Nat) : List (List Char) → Option Line × Nat × List (List Char)
  | [] => (none, number, [])
  | raw :: rest =>
    match clean? (number + 1) raw with
    | some line => (some line, number + 1, rest)
    | none => seek (number + 1) rest

end Line

end Codesheet
