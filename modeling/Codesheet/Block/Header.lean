import Codesheet.Line.Basic

/-! Block headers: a sigil for the kind of the block, its name, and a colon that
may be missing. -/

namespace Codesheet

inductive Kind where
  | constants | table | code
  deriving DecidableEq

namespace Kind

def ofSigil (c : Char) : Kind :=
  if c = '_' then constants else if c = '#' then table else code

/-- Code blocks have no sigil. -/
def sigil? : Kind → Option Char
  | constants => some '_'
  | table => some '#'
  | code => none

def name : Kind → String
  | constants => "Constants"
  | table => "Table"
  | code => "Code"

end Kind

structure Header where
  kind : Kind
  name : String
  line : Nat
  deriving DecidableEq

namespace Header

/-- The kind that a header text starts with, and the text after its sigil. -/
def splitSigil : List Char → Kind × List Char
  | [] => (.code, [])
  | c :: rest =>
    match (Kind.ofSigil c).sigil? with
    | some _ => (Kind.ofSigil c, rest)
    | none => (.code, c :: rest)

/-- One colon at the end is no part of a name. -/
def withoutColon (cs : List Char) : List Char :=
  if cs.getLast? = some ':' then cs.dropLast else cs

def ofLine (line : Line) : Header :=
  let (kind, name) := splitSigil line.text.toList
  ⟨kind, String.ofList (Text.trimEnd (withoutColon name)), line.number⟩

end Header

end Codesheet
