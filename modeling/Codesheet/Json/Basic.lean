import Codesheet.Text.Numeral

/-! JSON documents over natural numbers, and their written forms: on one line, or
with one value on a line. -/

namespace Codesheet

inductive Json where
  | null
  | bool (b : Bool)
  | number (n : Nat)
  | string (text : String)
  | array (items : List Json)
  | object (members : List (String × Json))

namespace Json

/-! ### Strings -/

/-- A character inside quotes: only quotes, backslashes and controls are escaped,
and five of the controls have a letter. -/
def escape (c : Char) : List Char :=
  match c with
  | '"' => ['\\', '"']
  | '\\' => ['\\', '\\']
  | '\x08' => ['\\', 'b']
  | '\x0c' => ['\\', 'f']
  | '\n' => ['\\', 'n']
  | '\r' => ['\\', 'r']
  | '\t' => ['\\', 't']
  | c =>
    if c.toNat < 0x20 then
      ['\\', 'u', '0', '0', Nat.digitChar (c.toNat / 16), Nat.digitChar (c.toNat % 16)]
    else [c]

/-- A quoted string in front of a text. -/
def putString (text : String) (rest : List Char) : List Char :=
  '"' :: (text.toList.flatMap escape ++ '"' :: rest)

/-! ### Documents -/

/-- The white space that a written form adds. -/
structure Style where
  /-- Before a value or a closing bracket at some depth. -/
  gap : Nat → List Char
  afterColon : List Char

def Style.compact : Style := ⟨fun _ => [], []⟩

def Style.pretty : Style := ⟨fun depth => '\n' :: List.replicate (2 * depth) ' ', [' ']⟩

mutual

/-- A document at some depth in front of a text. -/
def put (style : Style) (depth : Nat) : Json → List Char → List Char
  | .null, rest => 'n' :: 'u' :: 'l' :: 'l' :: rest
  | .bool true, rest => 't' :: 'r' :: 'u' :: 'e' :: rest
  | .bool false, rest => 'f' :: 'a' :: 'l' :: 's' :: 'e' :: rest
  | .number n, rest => Text.decimal n ++ rest
  | .string text, rest => putString text rest
  | .array [], rest => '[' :: ']' :: rest
  | .array (item :: items), rest =>
    '[' :: (style.gap (depth + 1) ++ put style (depth + 1) item (putItems style depth items rest))
  | .object [], rest => '{' :: '}' :: rest
  | .object ((key, value) :: members), rest =>
    '{' :: (style.gap (depth + 1) ++ putString key (':' :: (style.afterColon ++
      put style (depth + 1) value (putMembers style depth members rest))))

/-- The items after the first one and the closing bracket in front of a text. -/
def putItems (style : Style) (depth : Nat) : List Json → List Char → List Char
  | [], rest => style.gap depth ++ ']' :: rest
  | item :: items, rest =>
    ',' :: (style.gap (depth + 1) ++ put style (depth + 1) item (putItems style depth items rest))

/-- The members after the first one and the closing bracket in front of a text. -/
def putMembers (style : Style) (depth : Nat) : List (String × Json) → List Char → List Char
  | [], rest => style.gap depth ++ '}' :: rest
  | (key, value) :: members, rest =>
    ',' :: (style.gap (depth + 1) ++ putString key (':' :: (style.afterColon ++
      put style (depth + 1) value (putMembers style depth members rest))))

end

def compact (j : Json) : String := String.ofList (j.put .compact 0 [])

def pretty (j : Json) : String := String.ofList (j.put .pretty 0 [])

end Json

end Codesheet
