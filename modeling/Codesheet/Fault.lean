import Codesheet.Series.Basic

/-! What can go wrong between a source text and the value of a reference, as
causes; the wording is in `Fault.message` alone. -/

namespace Codesheet

/-- What a scanner looked for where it stopped. -/
inductive Expected where
  | character (c : Char)
  | lineEnd
  | hexDigits
  | fittingNumeral (radix : Text.Radix)
  | number
  | segment
  | addressName
  | reference
  | referenceAfter (sign : Sign)
  | bitFieldName
  | constantName
  | entryName
  | instructionName
  | argumentEnd
  | other (text : String)
  deriving DecidableEq

def quoted (c : Char) : String := "'" ++ c.toString ++ "'"

def Expected.text : Expected → String
  | character c => quoted c
  | lineEnd => "end of line"
  | hexDigits => "hex digits after '0x'"
  | fittingNumeral .decimal => "a decimal value that fits in 32 bits"
  | fittingNumeral .hexadecimal => "a hex value that fits in 32 bits"
  | number => "a number"
  | segment => "an identifier after '.'"
  | addressName => "an identifier after '@'"
  | reference => "a reference"
  | referenceAfter sign => "a reference after " ++ quoted sign.symbol
  | bitFieldName => "a bit-field name or '*' after '.'"
  | constantName => "a constant name"
  | entryName => "an entry name"
  | instructionName => "an instruction name"
  | argumentEnd => "',' or ')'"
  | other text => text

/-- Why leading spaces give no nesting level, or a level has no place in its
block. -/
inductive IndentCause where
  | partialUnit (spaces unit : Nat)
  | jump (before level : Nat)
  | unopened (level : Nat)
  deriving DecidableEq

def IndentCause.message : IndentCause → String
  | partialUnit spaces unit => s!"{spaces} leading spaces is not a multiple of {unit}"
  | jump before level => s!"indent jumps from level {before} to {level}"
  | unopened level => s!"indent level {level} closes more levels than are open"

/-- Breaches of invariants that hold of every builder and every scanned series. -/
inductive InternalCause where
  | series (cause : SeriesFault)
  | missingRoot
  | stalePath (path : List Nat)
  deriving DecidableEq

def InternalCause.message : InternalCause → String
  | series cause => cause.message
  | missingRoot => "constants root disappeared"
  | stalePath path => "stale constant path [" ++ ", ".intercalate (path.map toString) ++ "]"

/-- The two kinds of options that are read from a text. -/
inductive OptionsKind where
  | parse | lookup
  deriving DecidableEq

inductive OptionsCause where
  | zeroIndentUnit
  | unreadable (kind : OptionsKind)
  deriving DecidableEq

/-- The wording that the reader of documents has for an unreadable text, with the place of the
fault, is left out: one text behind the colon stands for all of it. -/
def OptionsCause.message : OptionsCause → String
  | zeroIndentUnit => "indent_unit must be at least 1"
  | unreadable .parse => "parse options: not the text of parse options"
  | unreadable .lookup => "resolve options: not the text of resolve options"

/-- A fault of a source line carries the line's number, 0 while it is unknown. -/
inductive Fault where
  | indent (line : Nat) (cause : IndentCause)
  | grammar (line column : Nat) (expected : Expected) (text : String)
  | notHeader (line : Nat) (text : String)
  | unknownOperator (symbol : Char)
  | internal (cause : InternalCause)
  | notFound (reference : String)
  | ambiguous (reference : String) (roots : List String)
  | options (cause : OptionsCause)
  deriving DecidableEq

namespace Fault

def line? : Fault → Option Nat
  | indent line _ => some line
  | grammar line _ _ _ => some line
  | notHeader line _ => some line
  | _ => none

/-- A known line number stays. -/
def atLine (number : Nat) : Fault → Fault
  | indent 0 cause => indent number cause
  | grammar 0 column expected text => grammar number column expected text
  | notHeader 0 text => notHeader number text
  | fault => fault

def message : Fault → String
  | indent line cause => s!"Indent error at line {line}: " ++ cause.message
  | grammar line column expected text =>
    s!"Grammar error at line {line}, column {column}: expected " ++ expected.text ++ " in `" ++ text
      ++ "`"
  | notHeader line text => s!"Line {line}: expected a block header, found `" ++ text ++ "`"
  | unknownOperator symbol => "Unexpected arithmetic operator " ++ quoted symbol
  | internal cause => "Unexpected internal error: " ++ cause.message
  | notFound reference => "Reference not found: " ++ reference
  | ambiguous reference roots =>
    "Ambiguous reference: " ++ reference ++ " (found under roots " ++ ", ".intercalate roots ++ ")"
  | options cause => "Invalid options: " ++ cause.message

end Fault

end Codesheet
