/-! White space as the Unicode property White_Space, and its removal from the
ends of a text. -/

namespace Codesheet.Text

/-- The code points with the property White_Space, as closed intervals. -/
def blankRanges : List (Nat × Nat) :=
  [(0x09, 0x0D), (0x20, 0x20), (0x85, 0x85), (0xA0, 0xA0), (0x1680, 0x1680), (0x2000, 0x200A),
    (0x2028, 0x2029), (0x202F, 0x202F), (0x205F, 0x205F), (0x3000, 0x3000)]

def isBlank (c : Char) : Bool :=
  blankRanges.any fun (low, high) => low ≤ c.toNat && c.toNat ≤ high

def trimStart (cs : List Char) : List Char := cs.dropWhile isBlank

def trimEnd (cs : List Char) : List Char :=
  cs.foldr (fun c kept => if kept.isEmpty && isBlank c then [] else c :: kept) []

theorem trimEnd_cons (c : Char) (cs : List Char) :
    trimEnd (c :: cs) = if (trimEnd cs).isEmpty && isBlank c then [] else c :: trimEnd cs := rfl

theorem trimEnd_eq_nil_iff (cs : List Char) : trimEnd cs = [] ↔ ∀ c ∈ cs, isBlank c := by
  induction cs with
  | nil => simp [trimEnd]
  | cons c cs ih => simp [trimEnd_cons, ih, and_comm]

/-- Blanks at the end never matter. -/
theorem trimEnd_append_blank (cs bs : List Char) (h : ∀ c ∈ bs, isBlank c) :
    trimEnd (cs ++ bs) = trimEnd cs := by
  induction cs with
  | nil => exact (trimEnd_eq_nil_iff bs).2 h
  | cons c cs ih => simp [trimEnd_cons, ih]

end Codesheet.Text
