import Codesheet.Lookup.Scope

/-! Series evaluated to a number and the addresses that stay to be linked. -/

namespace Codesheet

structure Link where
  name : String
  /-- Whether the address is subtracted. -/
  negative : Bool
  deriving DecidableEq

structure Evaluation where
  /-- The sum of literals and constants modulo 2 ^ 32. -/
  value : UInt32
  links : List Link
  deriving DecidableEq

namespace Evaluation

def zero : Evaluation := ⟨0, []⟩

def isResolved (e : Evaluation) : Bool := e.links.isEmpty

/-- Adds an amount, or takes it away under a minus. -/
def add (e : Evaluation) (sign : Option Sign) (amount : UInt32) : Evaluation :=
  { e with value := if sign = some .minus then e.value - amount else e.value + amount }

def link (e : Evaluation) (sign : Option Sign) (name : String) : Evaluation :=
  { e with links := e.links ++ [⟨name, sign = some .minus⟩] }

end Evaluation

namespace Scope

/-- Whether an address becomes a link. -/
def knowsAddress (s : Scope) (name : String) : Logged Bool :=
  match s.symbols, s.options.checkAddresses with
  | some symbols, true =>
    if symbols.contains name then pure true
    else
      match s.options.unresolved with
      | .zero => do
        Logged.report (.unknownAddressZero name)
        return false
      | .error => Logged.fail (.notFound ("@" ++ name))
  | _, _ => pure true

def addTerm (s : Scope) (e : Evaluation) (term : Term) : Logged Evaluation := do
  match term.target with
  | .literal value => return e.add term.sign value
  | .path path => return e.add term.sign (← s.valueOf path)
  | .address name => return if ← s.knowsAddress name then e.link term.sign name else e

def evaluate (s : Scope) (series : Series) : Logged Evaluation :=
  series.terms.foldlM s.addTerm .zero

end Scope

end Codesheet
