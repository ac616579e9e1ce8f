import Codesheet.Event
import Codesheet.Line.Source

/-! Blocks cut from a source: a header, then a body that ends before the next
header. Lines of a body that nobody reads stay in the source and are faults where
the next header is expected. -/

namespace Codesheet

/-- Reads the header that has to be next, if any line is left. -/
def Source.nextHeader (s : Source) : Source × Logged (Option Header) :=
  match s.next with
  | (none, s) => (s, Pure.pure none)
  | (some line, s) =>
    if line.isHeader then
      let header := Header.ofLine line
      (s, ⟨[.blockHeader header], .ok (some header)⟩)
    else (s, Logged.fail (.notHeader line.number line.text))

/-- A block's body as it is read. -/
structure Body where
  source : Source
  finished : Bool

namespace Body

def start (s : Source) : Body := ⟨s, false⟩

/-- The next line of the body. A header goes back to the source and ends it. -/
def next (b : Body) : Option Line × Body :=
  if b.finished then (none, b)
  else
    match b.source.next with
    | (none, s) => (none, ⟨s, true⟩)
    | (some line, s) => if line.isHeader then (none, ⟨s.putBack, true⟩) else (some line, ⟨s, false⟩)

/-- At most `n` further lines. -/
def takeUpTo : Nat → Body → List Line × Body
  | 0, b => ([], b)
  | n + 1, b =>
    match b.next with
    | (none, b) => ([], b)
    | (some line, b) =>
      let (lines, b) := takeUpTo n b
      (line :: lines, b)

/-- All further lines, and the source after them. -/
def rest (b : Body) : List Line × Source :=
  let (lines, b) := takeUpTo (b.source.bound + 1) b
  (lines, b.source)

end Body

end Codesheet
