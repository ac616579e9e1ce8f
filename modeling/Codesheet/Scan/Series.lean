import Codesheet.Scan.Cursor

/-! Scanners of numerals, dotted paths and arithmetic series. -/

namespace Codesheet.Scan

/-! ### Numerals -/

/-- A numeral in a radix. One without digits is a fault after its marker, one of
2 ^ 32 or more a fault at its first character. -/
def numeral (radix : Text.Radix) : Scan UInt32 := do
  let start ← get
  modify (·.skip radix.markerLength)
  let digits ← takeWhile radix.isDigit
  if digits.isEmpty then fail .hexDigits
  let value := radix.value digits
  if value < UInt32.size then return UInt32.ofNat value
  else throw (start.fault (.fittingNumeral radix))

theorem numeral_apply (radix : Text.Radix) (c : Cursor) :
    numeral radix c =
      let start := c.skip radix.markerLength
      let digits := start.rest.takeWhile radix.isDigit
      let stop := start.skipWhile radix.isDigit
      if digits.isEmpty then .error (stop.fault .hexDigits) stop
      else if radix.value digits < UInt32.size then .ok (UInt32.ofNat (radix.value digits)) stop
      else .error (c.fault (.fittingNumeral radix)) stop := by
  simp only [numeral, bind_apply, get_apply, modify_apply, takeWhile]
  split
  · rfl
  · split <;> rfl

def number? : Scan (Option UInt32) := do
  match Text.Radix.ofText (← get).rest with
  | some radix => return some (← numeral radix)
  | none => return none

def number : Scan UInt32 := orFail number? .number

/-! ### References -/

/-- At most `n` further segments of a path. -/
def segments : Nat → String → Scan String
  | 0, path => pure path
  | n + 1, path => do
    if ← matchChar '.' then
      let segment ← orFail name? .segment
      segments n (path ++ "." ++ segment)
    else return path

/-- Names joined by dots. -/
def path? : Scan (Option String) := do
  match ← name? with
  | some first => return some (← segments (← get).rest.length first)
  | none => return none

def target (expected : Expected) : Scan Target := do
  if ← matchChar '@' then
    return .address (← orFail name? .addressName)
  match ← number? with
  | some value => return .literal value
  | none => return .path (← orFail path? expected)

/-! ### Series -/

/-- At most `n` further terms of a series. -/
def moreTerms : Nat → Series → Scan Series
  | 0, series => pure series
  | n + 1, series => do
    match (← get).peek?.bind Sign.ofSymbol? with
    | none => return series
    | some sign =>
      modify (·.skip 1)
      blanks
      let term ← target (.referenceAfter sign)
      blanks
      moreTerms n (series.push sign term)

/-- Targets joined by signs, with blanks around each. Every further term takes a
character, so the rest of the line bounds their number. -/
def series : Scan Series := do
  blanks
  let head ← target .reference
  blanks
  moreTerms (← get).rest.length (.single head)

end Codesheet.Scan
