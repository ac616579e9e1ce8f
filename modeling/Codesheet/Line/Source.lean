import Codesheet.Line.Basic

/-! A source of cleaned lines that can take its last line back. -/

namespace Codesheet

structure Source where
  /-- The raw lines not read yet. -/
  pending : List (List Char)
  /-- How many raw lines have been read. -/
  number : Nat
  last : Option Line
  /-- Whether `last` is to be delivered once more. -/
  held : Bool

namespace Source

def ofText (text : String) : Source := ⟨Text.lines text.toList, 0, none, false⟩

def next (s : Source) : Option Line × Source :=
  if s.held then (s.last, { s with held := false })
  else
    let (found, number, pending) := Line.seek s.number s.pending
    (found, ⟨pending, number, found.or s.last, false⟩)

/-- Takes the last line back, if any was delivered; a second call before the
next line changes nothing. -/
def putBack (s : Source) : Source := if s.last.isSome then { s with held := true } else s

/-- A bound on the lines to come. -/
def bound (s : Source) : Nat := s.pending.length + s.held.toNat

theorem length_seek {number : Nat} {raws : List (List Char)} {line : Line}
    (h : (Line.seek number raws).1 = some line) :
    (Line.seek number raws).2.2.length < raws.length := by
  induction raws generalizing number with
  | nil => simp [Line.seek] at h
  | cons raw raws ih =>
    unfold Line.seek at h ⊢
    split
    · simp
    · next hn =>
      rw [hn] at h
      exact Nat.lt_succ_of_lt (ih h)

/-- A line that is delivered is no longer to come. -/
theorem bound_next {s later : Source} {line : Line} (h : s.next = (some line, later)) :
    later.bound < s.bound := by
  unfold next at h
  split at h
  · next hr =>
    obtain ⟨-, rfl⟩ := Prod.mk.inj h
    simp [bound, hr]
  · next hr =>
    obtain ⟨hline, rfl⟩ := Prod.mk.inj h
    simpa [bound, hr] using length_seek hline

/-- All lines to come. -/
def rest (s : Source) : List Line × Source :=
  match h : s.next with
  | (none, ended) => ([], ended)
  | (some line, later) =>
    have : later.bound < s.bound := bound_next h
    let (lines, ended) := later.rest
    (line :: lines, ended)
termination_by s.bound

end Source

end Codesheet
