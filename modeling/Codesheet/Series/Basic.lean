import Codesheet.Text.Numeral

/-! Arithmetic series: a head target, then targets each with a sign. The type
admits no empty series, no sign on the head and no later term without one. -/

namespace Codesheet

/-- What a term stands for: an address by its name, a constant by its dotted
path, or a literal. -/
inductive Target where
  | address (name : String)
  | path (text : String)
  | literal (value : UInt32)
  deriving DecidableEq

inductive Sign where
  | plus | minus
  deriving DecidableEq

def Sign.symbol : Sign → Char
  | plus => '+'
  | minus => '-'

def Sign.ofSymbol? (c : Char) : Option Sign :=
  if c = '+' then some .plus else if c = '-' then some .minus else none

theorem Sign.ofSymbol?_eq_some_iff {c : Char} {s : Sign} :
    Sign.ofSymbol? c = some s ↔ c = s.symbol := by
  cases s <;> simp only [ofSymbol?, symbol] <;> grind

/-- A target with the sign that joins it to the terms before it. -/
structure Term where
  sign : Option Sign
  target : Target
  deriving DecidableEq

structure Series where
  head : Target
  tail : List (Sign × Target)
  deriving DecidableEq

/-- Why a list of terms is no series, or a term cannot join one. -/
inductive SeriesFault where
  | empty
  | signedHead (head : Term)
  | unsigned (target : Target)
  deriving DecidableEq

namespace Series

def terms (s : Series) : List Term :=
  ⟨none, s.head⟩ :: s.tail.map fun (sign, target) => ⟨some sign, target⟩

def single (head : Target) : Series := ⟨head, []⟩

def push (s : Series) (sign : Sign) (target : Target) : Series :=
  { s with tail := s.tail ++ [(sign, target)] }

/-- A step with what it answers. A step that fails may have changed the series. -/
abbrev Step := Series → Series × Except SeriesFault Unit

/-- Only a term with a sign can join a series. -/
def join (term : Term) : Step := fun s =>
  match term.sign with
  | some sign => (s.push sign term.target, .ok ())
  | none => (s, .error (.unsigned term.target))

/-- The series that a term has joined. -/
def push? (s : Series) (term : Term) : Except SeriesFault Series :=
  (join term s).2.map fun () => (join term s).1

def ofTerms? : List Term → Except SeriesFault Series
  | [] => .error .empty
  | head :: rest =>
    match head.sign with
    | some _ => .error (.signedHead head)
    | none => rest.foldlM push? (single head.target)

theorem terms_push (s : Series) (sign : Sign) (target : Target) :
    (s.push sign target).terms = s.terms ++ [⟨some sign, target⟩] := by
  simp [terms, push]

theorem foldlM_push? (s : Series) (tail : List (Sign × Target)) :
    (tail.map fun (sign, target) => (⟨some sign, target⟩ : Term)).foldlM push? s =
      .ok { s with tail := s.tail ++ tail } := by
  induction tail generalizing s with
  | nil => simp [pure, Except.pure]
  | cons term tail ih =>
    rw [List.map_cons, List.foldlM_cons]
    change (tail.map _).foldlM push? (s.push term.1 term.2) = _
    rw [ih]
    simp [push]

theorem ofTerms?_terms (s : Series) : ofTerms? s.terms = .ok s := by
  simp [ofTerms?, terms, foldlM_push?, single]

end Series

/-! ### Written form -/

def Target.text : Target → String
  | address name => "@" ++ name
  | path text => text
  | literal value => String.ofList (Text.decimal value.toNat)

def Term.text (t : Term) : String :=
  match t.sign with
  | some sign => String.ofList [sign.symbol, ' '] ++ t.target.text
  | none => t.target.text

/-- The terms with a space between any two. -/
def Series.text (s : Series) : String := " ".intercalate (s.terms.map Term.text)

def SeriesFault.message : SeriesFault → String
  | empty => "empty arithmetic series"
  | signedHead head => "series head `" ++ head.text ++ "` carries an operator"
  | unsigned target => "series term `" ++ target.text ++ "` has no combining operator"

end Codesheet
