import Codesheet.Json.Reading

/-! Decoders of JSON texts. Of all faults in a text the first one is reported, so
a record notes where each of its fields went wrong. -/

namespace Codesheet.Json

/-- Why a text is refused: for its form, or for what a decoded value means. -/
inductive Flaw (ε : Type) where
  | malformed
  | meaning (cause : ε)
  deriving DecidableEq

/-- Decodes a document that may open arrays and objects to a limited depth. -/
abbrev Decoder (ε α : Type) := Nat → Reading → Except (Flaw ε) α

namespace Decoder

variable {ε α β : Type}

/-! ### Plain values -/

def bool : Decoder ε Bool
  | _, .bool b => .ok b
  | _, _ => .error .malformed

def naturalBelow (bound : Nat) : Decoder ε Nat
  | _, .number (some n) => if n < bound then .ok n else .error .malformed
  | _, _ => .error .malformed

def word : Decoder ε UInt32 := fun levels read => (naturalBelow UInt32.size levels read).map UInt32.ofNat

def count : Decoder ε Nat := naturalBelow UInt64.size

def string : Decoder ε String
  | _, .string (some text) => .ok text
  | _, _ => .error .malformed

def optional (d : Decoder ε α) : Decoder ε (Option α)
  | _, .null => .ok none
  | levels, read => (d levels read).map some

def list (d : Decoder ε α) : Decoder ε (List α)
  | levels + 1, .array items => items.mapM (d levels)
  | _, _ => .error .malformed

/-- A decoded value that has to mean something. -/
def meaning (d : Decoder ε α) (f : α → Except ε β) : Decoder ε β := fun levels read => do
  match f (← d levels read) with
  | .ok b => .ok b
  | .error cause => .error (.meaning cause)

/-! ### Alternatives -/

/-- An alternative that is an object with one member, whose key names it. -/
def tagged (alternative : String → Option (Decoder ε α)) : Decoder ε α
  | levels + 1, .object [(some key, read)] =>
    match alternative key with
    | some d => d levels read
    | none => .error .malformed
  | _, _ => .error .malformed

def null (a : α) : Decoder ε α
  | _, .null => .ok a
  | _, _ => .error .malformed

/-- One of some named values, written as its name, or as an object that maps its
name to null. -/
def named (values : List (String × α)) : Decoder ε α
  | _, .string (some name) =>
    match values.lookup name with
    | some a => .ok a
    | none => .error .malformed
  | levels, read => tagged (fun name => (values.lookup name).map null) levels read

end Decoder

/-! ### Records -/

/-- A part of a record, or a fault with the place of the member at fault. -/
inductive Part (ε α : Type) where
  | value (a : α)
  | fault (place : Nat) (flaw : Flaw ε)

namespace Part

variable {ε α β : Type}

/-- Of two faults the one at the earlier place counts. -/
def ap (f : Part ε (α → β)) (x : Part ε α) : Part ε β :=
  match f, x with
  | value f, value a => value (f a)
  | value _, fault place flaw => fault place flaw
  | fault place flaw, value _ => fault place flaw
  | fault i flaw, fault j other => if i ≤ j then fault i flaw else fault j other

instance : Applicative (Part ε) where
  pure := value
  seq f x := ap f (x ())

def result : Part ε α → Except (Flaw ε) α
  | value a => .ok a
  | fault _ flaw => .error flaw

end Part

/-- The members of a record with the depth that their values may have. -/
structure Members where
  levels : Nat
  list : List (Option String × Reading)

namespace Members

variable {ε α : Type}

/-- The values of the members with some key, with their places. -/
def find (ms : Members) (key : String) : List (Nat × Reading) :=
  ms.list.zipIdx.filterMap fun ((k, read), place) =>
    if k = some key then some (place, read) else none

/-- A field, which may stand in for a missing one. A second one of its name is a
fault. -/
def fieldOr (key : String) (missing : Option α) (d : Decoder ε α) (ms : Members) : Part ε α :=
  match ms.find key with
  | [] =>
    match missing with
    | some a => .value a
    | none => .fault ms.list.length .malformed
  | (place, read) :: more =>
    match d ms.levels read, more with
    | .error flaw, _ => .fault place flaw
    | .ok _, (second, _) :: _ => .fault second .malformed
    | .ok a, [] => .value a

def field (key : String) (d : Decoder ε α) (ms : Members) : Part ε α := ms.fieldOr key none d

/-- Members that are no fields are skipped if they are whole and their keys are
texts. -/
def others (keys : List String) (ms : Members) : Part ε Unit :=
  match ms.list.findIdx? fun (key, read) =>
      match key with
      | none => true
      | some key => !(keys.contains key || read.isWhole) with
  | some place => .fault place .malformed
  | none => .value ()

end Members

/-- Which lists of values stand for a record: those with a value for each key, or
all that are not longer. -/
inductive Listing where
  | complete | leading
  deriving DecidableEq

/-- The members of a record given by its values in the order of its keys. A value
too many is a member without a key, and so is the first one that a complete list
lacks. -/
def Members.ofList (levels : Nat) (keys : List String) (listing : Listing)
    (items : List Reading) : Members :=
  let lacking := listing = .complete ∧ items.length < keys.length
  ⟨levels, List.zip (keys.map some) items ++ (items.drop keys.length).map (none, ·) ++
    if lacking then [(none, .broken)] else []⟩

/-- A record whose fields, each under one of the keys, `fields` puts together. -/
def Decoder.record {ε α : Type} (keys : List String) (listing : Listing)
    (fields : Members → Part ε α) : Decoder ε α
  | levels + 1, .object members => gather ⟨levels, members⟩
  | levels + 1, .array items => gather (.ofList levels keys listing items)
  | _, _ => .error .malformed
where
  gather (ms : Members) : Except (Flaw ε) α := ((fun _ a => a) <$> ms.others keys <*> fields ms).result

/-- A whole text, with nothing but white space around the document. -/
def Decoder.text {ε α : Type} (d : Decoder ε α) (text : String) : Except (Flaw ε) α := do
  let (read, more) := Reading.ofText text
  let a ← d 127 read
  if more.isEmpty then .ok a else .error .malformed

end Codesheet.Json
