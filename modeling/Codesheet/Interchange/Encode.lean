import Codesheet.Lookup.Evaluation

/-! The JSON documents of lines, programs, evaluations and options, fields in a
fixed order. -/

namespace Codesheet

def Line.toJson (line : Line) : Json :=
  .object [("number", .number line.number), ("text", .string line.text)]

def Kind.toJson (kind : Kind) : Json := .string kind.name

def Link.toJson (link : Link) : Json :=
  .object [("name", .string link.name), ("negative", .bool link.negative)]

def Evaluation.toJson (e : Evaluation) : Json :=
  .object [("value", .number e.value.toNat), ("links", .array (e.links.map Link.toJson))]

/-! ### Series -/

def Target.toJson : Target → Json
  | address name => .object [("Address", .string name)]
  | path text => .object [("ConstPath", .string text)]
  | literal value => .object [("Literal", .number value.toNat)]

/-- The names of the signs of terms, that of no sign first. -/
def Term.signs : List (String × Option Sign) :=
  [("None", none), ("Add", some .plus), ("Subtract", some .minus)]

def Term.signName : Option Sign → String
  | none => "None"
  | some .plus => "Add"
  | some .minus => "Subtract"

def Term.toJson (term : Term) : Json :=
  .object [("target", term.target.toJson), ("op", .string (signName term.sign))]

/-- A series is the bare list of its terms. -/
def Series.toJson (s : Series) : Json := .array (s.terms.map Term.toJson)

/-! ### Constants -/

def BitField.toJson (field : BitField) : Json :=
  .object [("name", .string field.name), ("size", .number field.size.toNat)]

mutual

def Node.toJson : Node → Json
  | ⟨name, value, children, bitFields⟩ =>
    .object [("name", .string name), ("value", .number value.toNat),
      ("children", .array (Node.allToJson children)),
      ("bit_fields", .array (bitFields.map BitField.toJson))]

def Node.allToJson : List Node → List Json
  | [] => []
  | node :: nodes => node.toJson :: Node.allToJson nodes

end

theorem Node.allToJson_eq_map (nodes : List Node) : Node.allToJson nodes = nodes.map Node.toJson := by
  induction nodes with
  | nil => rfl
  | cons node nodes ih => simp [Node.allToJson, ih]

def Forest.toJson (f : Forest) : Json := .object [("roots", .array (f.roots.map Node.toJson))]

/-! ### Programs -/

def Entry.toJson (e : Entry) : Json :=
  .object [("name", .string e.name), ("value", e.series.toJson), ("line", .number e.line)]

def Instruction.toJson (i : Instruction) : Json :=
  .object [("tag", i.tag.elim .null .string), ("func", .string i.func),
    ("args", .array (i.args.map Series.toJson)), ("indent", .number i.level),
    ("line", .number i.line)]

def Program.toJson (p : Program) : Json :=
  .object [("constants", p.constants.toJson), ("table", .array (p.table.map Entry.toJson)),
    ("instructions", .array (p.instructions.map Instruction.toJson))]

/-- The text of a program, one value on a line. -/
def Program.toText (p : Program) : String := p.toJson.pretty

/-! ### Options -/

def JumpPolicy.name : JumpPolicy → String
  | collapse => "collapse"
  | reject => "reject"

def RootLookup.name : RootLookup → String
  | requireUnique => "require_unique"
  | firstMatch => "first_match"

def UnresolvedPolicy.name : UnresolvedPolicy → String
  | error => "error"
  | zero => "zero"

def ParseOptions.toJson (o : ParseOptions) : Json :=
  .object [("indent_unit", .number o.indentUnit), ("indent_jumps", .string o.indentJumps.name)]

def LookupOptions.toJson (o : LookupOptions) : Json :=
  .object [("root_lookup", .string o.rootLookup.name), ("unresolved", .string o.unresolved.name),
    ("check_addresses", .bool o.checkAddresses)]

end Codesheet
