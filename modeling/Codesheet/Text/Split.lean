/-! Texts cut into pieces: at every occurrence of a separator, into lines, and
into the segments of a dotted path. -/

namespace Codesheet.Text

/-- Puts a character in front of the first piece. -/
def extend (c : Char) : List (List Char) → List (List Char)
  | [] => [[c]]
  | piece :: pieces => (c :: piece) :: pieces

/-- The pieces between separators: one more than there are separators. -/
def split (sep : Char) (cs : List Char) : List (List Char) :=
  cs.foldr (fun c pieces => if c = sep then [] :: pieces else extend c pieces) [[]]

theorem split_nil (sep : Char) : split sep [] = [[]] := rfl

theorem split_cons (sep c : Char) (cs : List Char) :
    split sep (c :: cs) = if c = sep then [] :: split sep cs else extend c (split sep cs) := rfl

theorem split_ne_nil (sep : Char) (cs : List Char) : split sep cs ≠ [] := by
  induction cs with
  | nil => simp [split_nil]
  | cons c cs ih =>
    rw [split_cons]
    split
    · simp
    · cases h : split sep cs <;> simp [extend]

theorem length_split (sep : Char) (cs : List Char) :
    (split sep cs).length = cs.count sep + 1 := by
  induction cs with
  | nil => rfl
  | cons c cs ih =>
    rw [split_cons]
    by_cases h : c = sep
    · simp [h, ih]
    · cases hs : split sep cs with
      | nil => exact absurd hs (split_ne_nil sep cs)
      | cons p ps => rw [hs] at ih; simpa [h, extend] using ih

/-- Cutting undoes joining at a separator between texts. -/
theorem split_append_cons (sep : Char) (as bs : List Char) :
    split sep (as ++ sep :: bs) = split sep as ++ split sep bs := by
  induction as with
  | nil => simp [split_cons, split_nil]
  | cons a as ih =>
    by_cases h : a = sep
    · simp [split_cons, h, ih]
    · cases hs : split sep as with
      | nil => exact absurd hs (split_ne_nil sep as)
      | cons p ps => simp [split_cons, h, ih, hs, extend]

/-- A line without the carriage return before its line feed. -/
def withoutReturn (line : List Char) : List Char :=
  if line.getLast? = some '\r' then line.dropLast else line

/-- A line feed ends a line; what follows the last one is a line if it is not
empty. -/
def ended : List (List Char) → List (List Char)
  | [] => []
  | [last] => if last.isEmpty then [] else [last]
  | line :: lines => withoutReturn line :: ended lines

def lines (cs : List Char) : List (List Char) := ended (split '\n' cs)

/-- The segments of a dotted path, of which there is at least one. -/
def segments (path : String) : List String :=
  (split '.' path.toList).map String.ofList

theorem segments_ne_nil (path : String) : segments path ≠ [] := by
  simp [segments, split_ne_nil]

end Codesheet.Text
