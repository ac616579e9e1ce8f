/-! Unsigned numerals, decimal and hexadecimal, with ASCII digits. -/

namespace Codesheet.Text

inductive Radix where
  | decimal | hexadecimal
  deriving DecidableEq

namespace Radix

def base : Radix → Nat
  | decimal => 10
  | hexadecimal => 16

/-- The number of characters in front of the digits. -/
def markerLength : Radix → Nat
  | decimal => 0
  | hexadecimal => 2

def isDigit : Radix → Char → Bool
  | decimal, c => c.isDigit
  | hexadecimal, c => c.isDigit || ('a' ≤ c && c ≤ 'f') || ('A' ≤ c && c ≤ 'F')

/-- The radix of the numeral that a text starts with. -/
def ofText : List Char → Option Radix
  | '0' :: 'x' :: _ => some hexadecimal
  | '0' :: 'X' :: _ => some hexadecimal
  | c :: _ => if c.isDigit then some decimal else none
  | [] => none

end Radix

/-- The value of a digit in either letter case. -/
def digitValue (c : Char) : Nat :=
  if c.isDigit then c.toNat - 48 else if 'a' ≤ c then c.toNat - 87 else c.toNat - 55

namespace Radix

/-- The value of a run of digits, the most significant first. -/
def value (radix : Radix) (digits : List Char) : Nat :=
  digits.foldl (fun n d => radix.base * n + digitValue d) 0

theorem value_concat (radix : Radix) (digits : List Char) (d : Char) :
    radix.value (digits ++ [d]) = radix.base * radix.value digits + digitValue d := by
  simp [value]

end Radix

/-- A number in decimal without leading zeros. -/
def decimal (n : Nat) : List Char := Nat.toDigits 10 n

theorem digitValue_of_isDigit {c : Char} (h : c.isDigit) : digitValue c = c.toNat - '0'.toNat := by
  simp [digitValue, h]

theorem value_decimal (n : Nat) : Radix.decimal.value (decimal n) = n := by
  have hd : ∀ ds : List Char, (∀ d ∈ ds, d.isDigit) → ∀ k,
      ds.foldl (fun n d => 10 * n + digitValue d) k = Nat.ofDigitChars 10 ds k := by
    intro ds
    induction ds with
    | nil => intro _ k; rfl
    | cons d ds ih =>
      intro h k
      simp only [List.foldl_cons, Nat.ofDigitChars_cons,
        digitValue_of_isDigit (h d List.mem_cons_self)]
      exact ih (fun e he => h e (List.mem_cons_of_mem _ he)) _
  exact (hd _ (fun d hd => Nat.isDigit_of_mem_toDigits (by decide) (by decide) hd) 0).trans
    (Nat.ofDigitChars_toDigits (by decide) (by decide))

end Codesheet.Text
