import Codesheet.Json.Token

/-! What a JSON text holds as far as it is well formed. A document that breaks
off is kept up to the break, so that faults in what it holds can be told from the
break and the earlier of the two reported. -/

namespace Codesheet.Json

inductive Reading where
  | null
  | bool (b : Bool)
  | number (n : Option Nat)
  | string (text : Option String)
  | array (items : List Reading)
  | object (members : List (Option String × Reading))
  /-- The place where the text breaks off. -/
  | broken

/-- An array or object whose end has not been read, with what it holds so far,
the latest first. -/
inductive Frame where
  | array (items : List Reading)
  /-- The value of `key` is being read. -/
  | object (members : List (Option String × Reading)) (key : Option String)

namespace Reading

def ofArray (items : List Reading) : Reading := .array items.reverse

def ofObject (members : List (Option String × Reading)) : Reading := .object members.reverse

/-- The document when the text breaks off after a value inside open frames. -/
def cut : List Frame → Reading → Reading
  | [], value => value
  | .array items :: frames, value => cut frames (ofArray (.broken :: value :: items))
  | .object members key :: frames, value =>
    cut frames (ofObject ((none, .broken) :: (key, value) :: members))

mutual

/-- Reads a value inside some frames, and then the rest of the document. -/
def value (frames : List Frame) : List Token → Reading × List Token
  | .null :: ts => after frames .null ts
  | .bool b :: ts => after frames (.bool b) ts
  | .number n :: ts => after frames (.number n) ts
  | .string text :: ts => after frames (.string text) ts
  | .openArray :: .closeArray :: ts => after frames (.array []) ts
  | .openArray :: ts => value (.array [] :: frames) ts
  | .openObject :: .closeObject :: ts => after frames (.object []) ts
  | .openObject :: .string key :: .colon :: ts => value (.object [] key :: frames) ts
  | _ => (cut frames .broken, [])

/-- Goes on after a value inside some frames. -/
def after : List Frame → Reading → List Token → Reading × List Token
  | [], read, ts => (read, ts)
  | .array items :: frames, read, .comma :: ts => value (.array (read :: items) :: frames) ts
  | .array items :: frames, read, .closeArray :: ts => after frames (ofArray (read :: items)) ts
  | .object members key :: frames, read, .comma :: .string next :: .colon :: ts =>
    value (.object ((key, read) :: members) next :: frames) ts
  | .object members key :: frames, read, .closeObject :: ts =>
    after frames (ofObject ((key, read) :: members)) ts
  | frames, read, _ => (cut frames read, [])

end

/-- The document at the start of a text, and the tokens after it. -/
def ofText (text : String) : Reading × List Token := value [] (tokens text.toList)

mutual

/-- Whether a document is whole. -/
def isWhole : Reading → Bool
  | .null => true
  | .bool _ => true
  | .number _ => true
  | .string _ => true
  | .array items => areWhole items
  | .object members => areWholeMembers members
  | .broken => false

def areWhole : List Reading → Bool
  | [] => true
  | item :: items => item.isWhole && areWhole items

def areWholeMembers : List (Option String × Reading) → Bool
  | [] => true
  | (_, value) :: members => value.isWhole && areWholeMembers members

end

end Reading

end Codesheet.Json
