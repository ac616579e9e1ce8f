import Codesheet.Interchange.Encode
import Codesheet.Json.Decoder

/-! Lines, programs, evaluations and options read from JSON texts. Fields come in
any order, and members that are no fields are skipped. -/

namespace Codesheet

open Json Json.Decoder Json.Members

/-- Texts of data are refused for their form, or for a list that is no series. -/
abbrev DataDecoder := Decoder SeriesFault

def Line.decoder : DataDecoder Line :=
  record ["number", "text"] .complete fun ms =>
    Line.mk <$> ms.field "number" count <*> ms.field "text" string

def Kind.decoder : DataDecoder Kind :=
  named ([.constants, .table, .code].map fun kind : Kind => (kind.name, kind))

def Link.decoder : DataDecoder Link :=
  record ["name", "negative"] .complete fun ms =>
    Link.mk <$> ms.field "name" string <*> ms.field "negative" bool

def Evaluation.decoder : DataDecoder Evaluation :=
  record ["value", "links"] .complete fun ms =>
    Evaluation.mk <$> ms.field "value" word <*> ms.field "links" (list Link.decoder)

/-! ### Series -/

def Target.decoder : DataDecoder Target :=
  tagged fun
    | "Address" => some fun levels read => (string levels read).map .address
    | "ConstPath" => some fun levels read => (string levels read).map .path
    | "Literal" => some fun levels read => (word levels read).map .literal
    | _ => none

def Term.decoder : DataDecoder Term :=
  record ["target", "op"] .complete fun ms =>
    (fun target sign => Term.mk sign target) <$> ms.field "target" Target.decoder <*>
      ms.field "op" (named Term.signs)

def Series.decoder : DataDecoder Series := meaning (list Term.decoder) Series.ofTerms?

/-! ### Constants -/

def BitField.decoder : DataDecoder BitField :=
  record ["name", "size"] .complete fun ms =>
    BitField.mk <$> ms.field "name" string <*> ms.field "size" word

/-- A node takes two levels, its own and that of its children. -/
def Node.decoder : DataDecoder Node
  | levels + 2, read =>
    record ["name", "value", "children", "bit_fields"] .complete (fun ms =>
      Node.mk <$> ms.field "name" string <*> ms.field "value" word <*>
        ms.field "children" (list fun _ => Node.decoder levels) <*>
        ms.field "bit_fields" (list BitField.decoder)) (levels + 2) read
  | _, _ => .error .malformed

def Forest.decoder : DataDecoder Forest :=
  record ["roots"] .complete fun ms => Forest.mk <$> ms.field "roots" (list Node.decoder)

/-! ### Programs -/

def Entry.decoder : DataDecoder Entry :=
  record ["name", "value", "line"] .complete fun ms =>
    Entry.mk <$> ms.field "name" string <*> ms.field "value" Series.decoder <*>
      ms.field "line" count

/-- An instruction without a tag may leave the field out. -/
def Instruction.decoder : DataDecoder Instruction :=
  record ["tag", "func", "args", "indent", "line"] .complete fun ms =>
    Instruction.mk <$> ms.fieldOr "tag" (some none) (optional string) <*> ms.field "func" string <*>
      ms.field "args" (list Series.decoder) <*> ms.field "indent" count <*> ms.field "line" count

def Program.decoder : DataDecoder Program :=
  record ["constants", "table", "instructions"] .complete fun ms =>
    Program.mk <$> ms.field "constants" Forest.decoder <*> ms.field "table" (list Entry.decoder) <*>
      ms.field "instructions" (list Instruction.decoder)

def Program.ofText? (text : String) : Except (Flaw SeriesFault) Program :=
  Program.decoder.text text

/-! ### Options -/

def JumpPolicy.decoder : DataDecoder JumpPolicy :=
  named ([.collapse, .reject].map fun policy : JumpPolicy => (policy.name, policy))

def RootLookup.decoder : DataDecoder RootLookup :=
  named ([.requireUnique, .firstMatch].map fun lookup : RootLookup => (lookup.name, lookup))

def UnresolvedPolicy.decoder : DataDecoder UnresolvedPolicy :=
  named ([.error, .zero].map fun policy : UnresolvedPolicy => (policy.name, policy))

/-- Fields that are left out have their default values. -/
def ParseOptions.decoder : DataDecoder ParseOptions :=
  record ["indent_unit", "indent_jumps"] .leading fun ms =>
    ParseOptions.mk <$> ms.fieldOr "indent_unit" (some ({} : ParseOptions).indentUnit) count <*>
      ms.fieldOr "indent_jumps" (some ({} : ParseOptions).indentJumps) JumpPolicy.decoder

def LookupOptions.decoder : DataDecoder LookupOptions :=
  record ["root_lookup", "unresolved", "check_addresses"] .leading fun ms =>
    LookupOptions.mk <$>
      ms.fieldOr "root_lookup" (some ({} : LookupOptions).rootLookup) RootLookup.decoder <*>
      ms.fieldOr "unresolved" (some ({} : LookupOptions).unresolved) UnresolvedPolicy.decoder <*>
      ms.fieldOr "check_addresses" (some ({} : LookupOptions).checkAddresses) bool

/-- Options that read well still need an indent unit. -/
def ParseOptions.ofText? (text : String) : Except Fault ParseOptions :=
  match ParseOptions.decoder.text text with
  | .error _ => .error (.options (.unreadable .parse))
  | .ok options => options.grammar.map fun _ => options

def LookupOptions.ofText? (text : String) : Except Fault LookupOptions :=
  match LookupOptions.decoder.text text with
  | .error _ => .error (.options (.unreadable .lookup))
  | .ok options => .ok options

end Codesheet
