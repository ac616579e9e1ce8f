import Codesheet.Json.Basic

/-! The tokens of a JSON text. Reading is strict, and stops at the first
characters that form no token. -/

namespace Codesheet.Json

inductive Token where
  | openArray | closeArray | openObject | closeObject | comma | colon | null
  | bool (b : Bool)
  /-- A number with its value if it is written as a plain natural. -/
  | number (n : Option Nat)
  /-- A string with its text if its escapes denote one. -/
  | string (text : Option String)
  /-- No token: the text breaks off. -/
  | broken
  deriving DecidableEq

/-! ### Strings -/

/-- A character of a string, or a UTF-16 unit given in hexadecimal. -/
inductive Piece where
  | char (c : Char)
  | unit (n : Nat)
  deriving DecidableEq

/-- The character that a letter stands for after a backslash. -/
def Piece.ofLetter? : Char → Option Char
  | '"' => some '"'
  | '\\' => some '\\'
  | '/' => some '/'
  | 'b' => some '\x08'
  | 'f' => some '\x0c'
  | 'n' => some '\n'
  | 'r' => some '\r'
  | 't' => some '\t'
  | _ => none

def Piece.ofDigits? (digits : List Char) : Option Piece :=
  if digits.all Text.Radix.hexadecimal.isDigit then some (unit (Text.Radix.hexadecimal.value digits))
  else none

/-- The pieces up to the closing quote, and what follows it. -/
def pieces : List Char → Option (List Piece × List Char)
  | [] => none
  | '"' :: rest => some ([], rest)
  | '\\' :: 'u' :: a :: b :: c :: d :: rest =>
    match Piece.ofDigits? [a, b, c, d], pieces rest with
    | some piece, some (more, rest) => some (piece :: more, rest)
    | _, _ => none
  | '\\' :: letter :: rest =>
    match Piece.ofLetter? letter, pieces rest with
    | some c, some (more, rest) => some (.char c :: more, rest)
    | _, _ => none
  | c :: rest =>
    if c.toNat < 0x20 ∨ c = '\\' then none
    else (pieces rest).map fun (more, rest) => (.char c :: more, rest)

def isHighSurrogate (n : Nat) : Bool := 0xD800 ≤ n && n < 0xDC00

def isLowSurrogate (n : Nat) : Bool := 0xDC00 ≤ n && n < 0xE000

/-- The text of some pieces. A high surrogate counts only with a low one right
after it, and a low one only there. -/
def textOf? : List Piece → Option (List Char)
  | [] => some []
  | .char c :: more => (textOf? more).map (c :: ·)
  | .unit high :: .unit low :: more =>
    if isHighSurrogate high then
      if isLowSurrogate low then
        (textOf? more).map (Char.ofNat (0x10000 + (high - 0xD800) * 0x400 + (low - 0xDC00)) :: ·)
      else none
    else if isLowSurrogate high then none
    else (textOf? (.unit low :: more)).map (Char.ofNat high :: ·)
  | .unit n :: more =>
    if isHighSurrogate n || isLowSurrogate n then none else (textOf? more).map (Char.ofNat n :: ·)

/-! ### Numbers -/

/-- One digit or more, and what follows them. -/
def digits? (cs : List Char) : Option (List Char × List Char) :=
  match cs.takeWhile Char.isDigit with
  | [] => none
  | digits => some (digits, cs.dropWhile Char.isDigit)

/-- An integer part has no leading zero. -/
def whole? (cs : List Char) : Option (List Char × List Char) :=
  match digits? cs with
  | some ('0' :: _ :: _, _) => none
  | found => found

/-- What follows a fraction, and whether there is one. -/
def fraction? : List Char → Option (Bool × List Char)
  | '.' :: rest => (digits? rest).map fun (_, rest) => (true, rest)
  | rest => some (false, rest)

def withoutSign : List Char → List Char
  | '+' :: rest => rest
  | '-' :: rest => rest
  | rest => rest

/-- What follows an exponent, and whether there is one. -/
def exponent? : List Char → Option (Bool × List Char)
  | c :: rest =>
    if c = 'e' ∨ c = 'E' then (digits? (withoutSign rest)).map fun (_, rest) => (true, rest)
    else some (false, c :: rest)
  | [] => some (false, [])

def number? (cs : List Char) : Option (Option Nat × List Char) := do
  let (negative, cs) := match cs with
    | '-' :: rest => (true, rest)
    | _ => (false, cs)
  let (digits, rest) ← whole? cs
  let (fractional, rest) ← fraction? rest
  let (scaled, rest) ← exponent? rest
  let plain := !(negative || fractional || scaled)
  pure (if plain then some (Text.Radix.decimal.value digits) else none, rest)

/-! ### Tokens -/

def isSpace (c : Char) : Bool := c = ' ' || c = '\t' || c = '\n' || c = '\r'

/-- The token that a text starts with, and what follows it. -/
def Token.read? : List Char → Option (Token × List Char)
  | '[' :: rest => some (.openArray, rest)
  | ']' :: rest => some (.closeArray, rest)
  | '{' :: rest => some (.openObject, rest)
  | '}' :: rest => some (.closeObject, rest)
  | ',' :: rest => some (.comma, rest)
  | ':' :: rest => some (.colon, rest)
  | 'n' :: 'u' :: 'l' :: 'l' :: rest => some (.null, rest)
  | 't' :: 'r' :: 'u' :: 'e' :: rest => some (.bool true, rest)
  | 'f' :: 'a' :: 'l' :: 's' :: 'e' :: rest => some (.bool false, rest)
  | '"' :: rest => (pieces rest).map fun (ps, rest) => (.string ((textOf? ps).map String.ofList), rest)
  | cs => (number? cs).map fun (n, rest) => (.number n, rest)

/-- At most `n` tokens. -/
def tokensUpTo : Nat → List Char → List Token
  | 0, _ => []
  | n + 1, cs =>
    match cs.dropWhile isSpace with
    | [] => []
    | cs =>
      match Token.read? cs with
      | some (token, rest) => token :: tokensUpTo n rest
      | none => [.broken]

/-- No token is empty, so a text has no more tokens than characters. -/
def tokens (text : List Char) : List Token := tokensUpTo text.length text

end Codesheet.Json
