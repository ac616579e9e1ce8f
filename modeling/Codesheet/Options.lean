import Codesheet.Grammar.Basic

/-! Options of parsing and of looking names up. -/

namespace Codesheet

/-- What to do with a constant more than one level below the one before it. -/
inductive JumpPolicy where
  | collapse | reject
  deriving DecidableEq

/-- Where the first segment of a path may be found. -/
inductive RootLookup where
  | requireUnique | firstMatch
  deriving DecidableEq

/-- What a name that is not found stands for. -/
inductive UnresolvedPolicy where
  | error | zero
  deriving DecidableEq

structure ParseOptions where
  /-- Spaces per level. -/
  indentUnit : Nat := 2
  indentJumps : JumpPolicy := .collapse
  deriving DecidableEq

structure LookupOptions where
  rootLookup : RootLookup := .requireUnique
  unresolved : UnresolvedPolicy := .error
  /-- Whether addresses have to be known symbols. -/
  checkAddresses : Bool := false
  deriving DecidableEq

def ParseOptions.grammar (o : ParseOptions) : Except Fault Grammar := Grammar.ofUnit? o.indentUnit

/-- The first root wins, and unknown names are zero. -/
def LookupOptions.lenient : LookupOptions := ⟨.firstMatch, .zero, false⟩

end Codesheet
