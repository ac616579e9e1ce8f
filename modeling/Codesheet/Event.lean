import Codesheet.Block.Header
import Codesheet.Fault
import Codesheet.Json.Basic

/-! What a run reports on its way, and runs that report it. A run that fails keeps
the events from before its fault. -/

namespace Codesheet

inductive Severity where
  | trace | debug | warn
  deriving DecidableEq

def Severity.name : Severity → String
  | trace => "TRACE"
  | debug => "DEBUG"
  | warn => "WARN"

inductive Event where
  | blockHeader (header : Header)
  | bitField (name : String) (size : UInt32)
  | indentJump (before level : Nat)
  | constant (name : String) (value : UInt32) (depth : Nat)
  | constantsDone (block : String) (nodes bitFields : Nat)
  | tableDone (block : String) (entries : Nat)
  | tagReplaced (tag : String) (line : Nat)
  | tagUnused (tag : String) (line : Nat)
  | codeDone (block : String) (instructions : Nat)
  | parsed (roots table instructions : Nat)
  | firstRootTaken (reference root : String) (candidates : Nat)
  | unresolvedZero (reference : String)
  | unknownAddressZero (name : String)
  deriving DecidableEq

namespace Event

def severity : Event → Severity
  | bitField .. | constant .. => .trace
  | blockHeader .. | constantsDone .. | tableDone .. | codeDone .. | parsed .. => .debug
  | indentJump .. | tagReplaced .. | tagUnused .. | firstRootTaken .. | unresolvedZero ..
  | unknownAddressZero .. => .warn

def message : Event → String
  | blockHeader .. => "block header"
  | bitField .. => "bit field"
  | indentJump .. => "indent jump treated as one level"
  | constant .. => "constant"
  | constantsDone .. => "constants block done"
  | tableDone .. => "table block done"
  | tagReplaced .. => "tag replaced by a later tag before any instruction"
  | tagUnused .. => "tag at end of code block labels nothing"
  | codeDone .. => "code block done"
  | parsed .. => "parsed program"
  | firstRootTaken .. => "ambiguous reference resolved by first root"
  | unresolvedZero .. => "unresolved reference read as 0"
  | unknownAddressZero .. => "unknown address read as 0"

def fields : Event → List (String × Json)
  | blockHeader header =>
    [("kind", .string header.kind.name), ("name", .string header.name), ("line", .number header.line)]
  | bitField name size => [("field", .string name), ("size", .number size.toNat)]
  | indentJump before level => [("from", .number before), ("to", .number level)]
  | constant name value depth =>
    [("name", .string name), ("value", .number value.toNat), ("depth", .number depth)]
  | constantsDone block nodes bitFields =>
    [("block", .string block), ("nodes", .number nodes), ("bit_fields", .number bitFields)]
  | tableDone block entries => [("block", .string block), ("entries", .number entries)]
  | tagReplaced tag line => [("tag", .string tag), ("line", .number line)]
  | tagUnused tag line => [("tag", .string tag), ("line", .number line)]
  | codeDone block instructions =>
    [("block", .string block), ("instructions", .number instructions)]
  | parsed roots table instructions =>
    [("roots", .number roots), ("table", .number table), ("instructions", .number instructions)]
  | firstRootTaken reference root candidates =>
    [("reference", .string reference), ("root", .string root), ("candidates", .number candidates)]
  | unresolvedZero reference => [("reference", .string reference)]
  | unknownAddressZero name => [("address", .string name)]

end Event

/-! ### Logged runs -/

instance decidableEqExcept {ε α : Type} [DecidableEq ε] [DecidableEq α] : DecidableEq (Except ε α)
  | .ok a, .ok b => decidable_of_iff (a = b) (by simp)
  | .error a, .error b => decidable_of_iff (a = b) (by simp)
  | .ok _, .error _ => isFalse nofun
  | .error _, .ok _ => isFalse nofun

@[ext]
structure Logged (α : Type) where
  events : List Event
  result : Except Fault α
  deriving DecidableEq

namespace Logged

variable {α β : Type}

def pure (a : α) : Logged α := ⟨[], .ok a⟩

def bind (x : Logged α) (f : α → Logged β) : Logged β :=
  match x.result with
  | .ok a => ⟨x.events ++ (f a).events, (f a).result⟩
  | .error fault => ⟨x.events, .error fault⟩

instance : Monad Logged where
  pure := Logged.pure
  bind := Logged.bind

def fail (fault : Fault) : Logged α := ⟨[], .error fault⟩

def report (event : Event) : Logged Unit := ⟨[event], .ok ()⟩

/-- A run without events. -/
def ofExcept (result : Except Fault α) : Logged α := ⟨[], result⟩

/-- Faults without a line yet get this one. -/
def atLine (number : Nat) (x : Logged α) : Logged α :=
  ⟨x.events, x.result.mapError (Fault.atLine number)⟩

@[simp] theorem events_pure (a : α) : (Pure.pure a : Logged α).events = [] := rfl

@[simp] theorem result_pure (a : α) : (Pure.pure a : Logged α).result = .ok a := rfl

theorem bind_ok {x : Logged α} {a : α} (h : x.result = .ok a) (f : α → Logged β) :
    x >>= f = ⟨x.events ++ (f a).events, (f a).result⟩ := by
  change Logged.bind x f = _
  rw [Logged.bind, h]

theorem bind_error {x : Logged α} {fault : Fault} (h : x.result = .error fault)
    (f : α → Logged β) : x >>= f = ⟨x.events, .error fault⟩ := by
  change Logged.bind x f = _
  rw [Logged.bind, h]

theorem result_bind (x : Logged α) (f : α → Logged β) :
    (x >>= f).result = x.result.bind fun a => (f a).result := by
  cases h : x.result with
  | ok a => rw [bind_ok h, Except.bind]
  | error fault => rw [bind_error h, Except.bind]

theorem result_bind_eq_ok {x : Logged α} {f : α → Logged β} {b : β} :
    (x >>= f).result = .ok b ↔ ∃ a, x.result = .ok a ∧ (f a).result = .ok b := by
  cases h : x.result with
  | ok a => simp [bind_ok h]
  | error fault => simp [bind_error h]

@[simp] theorem result_fail (fault : Fault) : (fail fault : Logged α).result = .error fault := rfl

@[simp] theorem result_report (event : Event) : (report event).result = .ok () := rfl

@[simp] theorem result_ofExcept (result : Except Fault α) : (ofExcept result).result = result := rfl

theorem result_atLine_of_ok {x : Logged α} {a : α} (h : x.result = .ok a) (number : Nat) :
    (x.atLine number).result = .ok a := by
  rw [atLine, h]
  rfl

theorem result_atLine_of_error {x : Logged α} {bare : Fault} (h : x.result = .error bare)
    (number : Nat) : (x.atLine number).result = .error (bare.atLine number) := by
  rw [atLine, h]
  rfl

theorem result_atLine_eq_ok {x : Logged α} {number : Nat} {a : α} :
    (x.atLine number).result = .ok a ↔ x.result = .ok a := by
  cases h : x.result with
  | ok b => rw [result_atLine_of_ok h]
  | error bare => simp [result_atLine_of_error h]

theorem result_atLine_eq_error {x : Logged α} {number : Nat} {fault : Fault} :
    (x.atLine number).result = .error fault ↔
      ∃ bare, x.result = .error bare ∧ bare.atLine number = fault := by
  cases h : x.result with
  | ok b => simp [result_atLine_of_ok h]
  | error bare => simp [result_atLine_of_error h]

instance : LawfulMonad Logged :=
  .mk' Logged
    (fun x => by
      change Logged.bind x Logged.pure = x
      rcases x with ⟨events, fault | a⟩ <;> simp [Logged.bind, Logged.pure])
    (fun a f => by
      change Logged.bind (Logged.pure a) f = f a
      simp [Logged.bind, Logged.pure])
    (fun x f g => by
      change Logged.bind (Logged.bind x f) g = Logged.bind x fun a => Logged.bind (f a) g
      rcases x with ⟨events, fault | a⟩
      · rfl
      · rcases h : f a with ⟨more, fault | b⟩ <;> simp [Logged.bind, h])

end Logged

end Codesheet
