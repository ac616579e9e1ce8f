import Codesheet.Grammar.Basic

/-! The grammar of body lines. Words are derived together with what they stand for, and nothing here looks
at a position: a word may be cut into its parts in any way, and no part has to be the longest one. -/

namespace Codesheet.LineGrammar

/-- Words of a language, one after the other, with the list of what they stand for. -/
inductive Many {α : Type} (L : List Char → α → Prop) : List Char → List α → Prop where
  | nil : Many L [] []
  | cons {word words : List Char} {a : α} {as : List α} (first : L word a) (more : Many L words as) :
    Many L (word ++ words) (a :: as)

def blanks (n : Nat) : List Char := List.replicate n ' '

/-! ### Names and numbers -/

def IsLetter (c : Char) : Prop := ('A' ≤ c ∧ c ≤ 'Z') ∨ ('a' ≤ c ∧ c ≤ 'z')

/-- A digit of a base in either letter case, with its value. -/
def IsDigit (base : Nat) (c : Char) (n : Nat) : Prop :=
  n < base ∧ (c = n.digitChar ∨ c = n.digitChar.toUpper)

/-- A letter or underscore, then letters, decimal digits and underscores. -/
inductive IsName : List Char → Prop where
  | intro {c : Char} {cs : List Char} (start : IsLetter c ∨ c = '_')
    (more : ∀ d ∈ cs, IsLetter d ∨ (∃ n, IsDigit 10 d n) ∨ d = '_') : IsName (c :: cs)

/-- One letter or more. -/
def IsLetters (word : List Char) : Prop := word ≠ [] ∧ ∀ c ∈ word, IsLetter c

/-- Digits of a base, the most significant first, with their value. -/
inductive IsNumeral (base : Nat) : List Char → Nat → Prop where
  | digit {c : Char} {n : Nat} (h : IsDigit base c n) : IsNumeral base [c] n
  | concat {digits : List Char} {c : Char} {m n : Nat} (front : IsNumeral base digits m)
    (last : IsDigit base c n) : IsNumeral base (digits ++ [c]) (base * m + n)

/-- A decimal numeral, or a marked hexadecimal one, of any length and with a value below 2 ^ 32. -/
inductive IsNumber : List Char → UInt32 → Prop where
  | decimal {digits : List Char} {value : UInt32} (h : IsNumeral 10 digits value.toNat) :
    IsNumber digits value
  | hexadecimal {mark : Char} {digits : List Char} {value : UInt32} (hm : mark = 'x' ∨ mark = 'X')
    (h : IsNumeral 16 digits value.toNat) : IsNumber ('0' :: mark :: digits) value

/-- A numeral of any size in a base, as a number is written. -/
inductive IsUnbounded : Nat → List Char → Nat → Prop where
  | decimal {digits : List Char} {n : Nat} (h : IsNumeral 10 digits n) : IsUnbounded 10 digits n
  | hexadecimal {mark : Char} {digits : List Char} {n : Nat} (hm : mark = 'x' ∨ mark = 'X')
    (h : IsNumeral 16 digits n) : IsUnbounded 16 ('0' :: mark :: digits) n

/-- A numeral of any size stands at a place of a text: no character of a name is right in front of it, and
no digit of its base is right behind it. -/
inductive NumeralAt (text : List Char) (place value : Nat) : Prop where
  | intro {before word after : List Char} {base : Nat} (htext : text = before ++ word ++ after)
    (hplace : before.length = place) (hword : IsUnbounded base word value)
    (hbefore : ∀ c ∈ before.getLast?, ¬ (IsLetter c ∨ (∃ n, IsDigit 10 c n) ∨ c = '_'))
    (hafter : ∀ c ∈ after.head?, ∀ n, ¬ IsDigit base c n)

/-! ### Series -/

/-- A dot and a name, which is the segment. -/
def IsSegment (word name : List Char) : Prop := word = '.' :: name ∧ IsName name

/-- Names joined by dots. -/
def IsPath (word : List Char) : Prop :=
  ∃ name rest segments, word = name ++ rest ∧ IsName name ∧ Many IsSegment rest segments

/-- An address is known without its mark, a path as it is written, a number by its value. -/
inductive IsTarget : List Char → Target → Prop where
  | address {name : List Char} (h : IsName name) : IsTarget ('@' :: name) (.address (String.ofList name))
  | path {word : List Char} (h : IsPath word) : IsTarget word (.path (String.ofList word))
  | literal {word : List Char} {value : UInt32} (h : IsNumber word value) : IsTarget word (.literal value)

/-- A sign and a target, with blanks around the target. -/
inductive IsSigned : List Char → Term → Prop where
  | intro (sign : Sign) (i : Nat) {word : List Char} {target : Target} (h : IsTarget word target)
    (j : Nat) : IsSigned (sign.symbol :: (blanks i ++ word ++ blanks j)) ⟨some sign, target⟩

/-- A target with blanks around it and without a sign, then any number of signed ones. -/
inductive IsSeries : List Char → List Term → Prop where
  | intro (i : Nat) {word : List Char} {target : Target} (h : IsTarget word target) (j : Nat)
    {rest : List Char} {terms : List Term} (more : Many IsSigned rest terms) :
    IsSeries (blanks i ++ word ++ blanks j ++ rest) (⟨none, target⟩ :: terms)

/-! ### Lines -/

/-- An indent of some levels and a body, for which the level is known. -/
inductive IsLine {α : Type} (unit : Nat) (Body : Nat → List Char → α → Prop) : List Char → α → Prop where
  | intro {k : Nat} (hk : unit ∣ k) {body : List Char} {a : α} (h : Body (k / unit) body a) :
    IsLine unit Body (blanks k ++ body) a

/-- A name, a dot with a name, or a dot with a star. -/
inductive IsConstantName : List Char → Prop where
  | node {name : List Char} (h : IsName name) : IsConstantName name
  | bitField {name : List Char} (h : IsName name) : IsConstantName ('.' :: name)
  | allBits : IsConstantName ['.', '*']

/-- A name, a colon and a number, with blanks in between and at the end. -/
inductive IsConstant (level : Nat) : List Char → ConstantLine → Prop where
  | intro {name : List Char} (hn : IsConstantName name) (h i : Nat) {number : List Char} {value : UInt32}
    (hv : IsNumber number value) (j : Nat) :
    IsConstant level (name ++ blanks h ++ [':'] ++ blanks i ++ number ++ blanks j)
      ⟨level, String.ofList name, value⟩

/-- A comma and a series. -/
def IsFurther (word : List Char) (s : Series) : Prop :=
  ∃ series, word = ',' :: series ∧ IsSeries series s.terms

/-- Nothing, or one series or more in parentheses. -/
inductive IsArguments : List Char → List Series → Prop where
  | absent : IsArguments [] []
  | present {word : List Char} {s : Series} (h : IsSeries word s.terms) {rest : List Char}
    {args : List Series} (more : Many IsFurther rest args) :
    IsArguments ('(' :: (word ++ rest ++ [')'])) (s :: args)

/-- Letters with their arguments, and blanks at the end. -/
inductive IsInstruction (level : Nat) : List Char → InstructionLine → Prop where
  | intro {func : List Char} (hf : IsLetters func) {word : List Char} {args : List Series}
    (ha : IsArguments word args) (j : Nat) :
    IsInstruction level (func ++ word ++ blanks j) ⟨level, String.ofList func, args⟩

/-- A name and a colon, and blanks at the end. -/
inductive IsLabel (level : Nat) : List Char → LabelLine → Prop where
  | intro {name : List Char} (hn : IsName name) (j : Nat) :
    IsLabel level (name ++ ':' :: blanks j) ⟨level, String.ofList name⟩

/-- A name, a colon directly behind it, and a series. -/
inductive IsEntry (level : Nat) : List Char → EntryLine → Prop where
  | intro {name : List Char} (hn : IsName name) {word : List Char} {s : Series}
    (hs : IsSeries word s.terms) : IsEntry level (name ++ ':' :: word) ⟨level, String.ofList name, s⟩

def IsConstantLine (unit : Nat) : List Char → ConstantLine → Prop := IsLine unit IsConstant

def IsInstructionLine (unit : Nat) : List Char → InstructionLine → Prop := IsLine unit IsInstruction

def IsLabelLine (unit : Nat) : List Char → LabelLine → Prop := IsLine unit IsLabel

def IsEntryLine (unit : Nat) : List Char → EntryLine → Prop := IsLine unit IsEntry

end Codesheet.LineGrammar
