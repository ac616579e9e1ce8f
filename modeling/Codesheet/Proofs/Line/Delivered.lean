import Codesheet.Proofs.Line.Cleaned

/-! A source as a place in the list of its lines. Calls that read and calls that take a line back give the
same answers, in any order, as a cursor that knows how many lines it has delivered and whether the last
of them is to come once more. -/

namespace Codesheet

/-! ### Raw lines -/

namespace Text

/-- The lines of a text. A line feed ends a line and takes one carriage return in front of it along, and
what follows the last line feed is a line if it is not empty. -/
inductive IsLines : List Char → List (List Char) → Prop where
  | nil : IsLines [] []
  | last {line : List Char} (unbroken : '\n' ∉ line) (nonempty : line ≠ []) : IsLines line [line]
  | ended {line rest : List Char} {lines : List (List Char)} (unbroken : '\n' ∉ line)
    (bare : line.getLast? ≠ some '\r') (more : IsLines rest lines) :
    IsLines (line ++ '\n' :: rest) (line :: lines)
  | returned {line rest : List Char} {lines : List (List Char)} (unbroken : '\n' ∉ line)
    (more : IsLines rest lines) : IsLines (line ++ '\r' :: '\n' :: rest) (line :: lines)

theorem lines_of_isLines {cs : List Char} {raws : List (List Char)} (h : IsLines cs raws) :
    lines cs = raws := by
  induction h with
  | nil => rfl
  | last unbroken nonempty => rw [lines_of_not_mem unbroken, if_neg (by simpa using nonempty)]
  | ended unbroken bare more ih => rw [lines_append_cons unbroken, withoutReturn, if_neg bare, ih]
  | @returned line rest lines unbroken more ih =>
    have hunbroken : '\n' ∉ line ++ ['\r'] := by simpa using unbroken
    have hreturn := lines_append_cons hunbroken rest
    rw [List.append_assoc, List.singleton_append] at hreturn
    rw [hreturn, withoutReturn, if_pos List.getLast?_concat, List.dropLast_concat, ih]

theorem isLines_lines (cs : List Char) : IsLines cs (lines cs) := by
  induction hn : cs.length using Nat.strongRecOn generalizing cs with
  | ind n ih =>
    by_cases h : '\n' ∈ cs
    · obtain ⟨line, rest, rfl, unbroken⟩ := List.eq_append_cons_of_mem h
      rw [List.length_append, List.length_cons] at hn
      have more := ih rest.length (by omega) rest rfl
      rw [lines_append_cons unbroken]
      by_cases hreturn : line.getLast? = some '\r'
      · obtain ⟨before, rfl⟩ := List.getLast?_eq_some_iff.1 hreturn
        rw [withoutReturn, if_pos hreturn, List.dropLast_concat, List.append_assoc, List.singleton_append]
        exact .returned (fun hm => unbroken (List.mem_append_left _ hm)) more
      · rw [withoutReturn, if_neg hreturn]
        exact .ended unbroken hreturn more
    · rw [lines_of_not_mem h]
      cases cs with
      | nil => exact .nil
      | cons c cs => exact .last h (List.cons_ne_nil c cs)

end Text

/-! ### Calls -/

/-- What is asked of a source: its next line, or to take the last one back. -/
inductive Call where
  | next | putBack

/-- The lines that the calls for a next line give, of anything that has states and answers to calls. -/
def Call.answers {σ : Type} (next : σ → Option Line × σ) (putBack : σ → σ) : List Call → σ → List (Option Line)
  | [], _ => []
  | .next :: calls, s => (next s).1 :: answers next putBack calls (next s).2
  | .putBack :: calls, s => answers next putBack calls (putBack s)

/-- Where related states give the same line, and stay related under every call, all answers are the same. -/
theorem Call.answers_eq_of_related {σ τ : Type} {next : σ → Option Line × σ} {putBack : σ → σ}
    {next' : τ → Option Line × τ} {putBack' : τ → τ} {R : σ → τ → Prop}
    (hnext : ∀ s t, R s t → (next s).1 = (next' t).1 ∧ R (next s).2 (next' t).2)
    (hputBack : ∀ s t, R s t → R (putBack s) (putBack' t)) (calls : List Call) {s : σ} {t : τ} (h : R s t) :
    answers next putBack calls s = answers next' putBack' calls t := by
  induction calls generalizing s t with
  | nil => rfl
  | cons call calls ih =>
    cases call with
    | next =>
      obtain ⟨hline, hrelated⟩ := hnext s t h
      rw [answers, answers, hline, ih hrelated]
    | putBack => exact ih (hputBack s t h)

/-- A place in a list of lines: how many of them have been delivered, and whether the last of these is to
be delivered once more. -/
structure LineCursor where
  delivered : Nat
  again : Bool

namespace LineCursor

def start : LineCursor := ⟨0, false⟩

def next (lines : List Line) (c : LineCursor) : Option Line × LineCursor :=
  if c.again then (lines[c.delivered - 1]?, { c with again := false })
  else if c.delivered < lines.length then (lines[c.delivered]?, { c with delivered := c.delivered + 1 })
  else (none, c)

def putBack (c : LineCursor) : LineCursor := if 0 < c.delivered then { c with again := true } else c

end LineCursor

/-! ### Sources -/

namespace Source

/-- The source has delivered as many of the lines as the cursor. -/
structure At (lines : List Line) (s : Source) (c : LineCursor) : Prop where
  ahead : Line.cleaned s.number s.pending = lines.drop c.delivered
  last : s.last = (lines.take c.delivered).getLast?
  held : s.held = c.again
  bound : c.delivered ≤ lines.length
  again : c.again → 0 < c.delivered

variable {lines : List Line} {s : Source} {c : LineCursor}

theorem at_ofText (text : String) : At (Line.ofText text) (ofText text) .start :=
  ⟨rfl, rfl, rfl, Nat.zero_le _, nofun⟩

theorem last_eq_getElem? {n : Nat} (hpos : 0 < n) (hn : n ≤ lines.length) :
    (lines.take n).getLast? = lines[n - 1]? := by
  rw [List.getLast?_eq_getElem?, List.length_take_of_le hn, List.getElem?_take_of_lt (by omega)]

theorem At.next (h : At lines s c) :
    s.next.1 = (c.next lines).1 ∧ At lines s.next.2 (c.next lines).2 := by
  cases hagain : c.again with
  | true =>
    have hheld : s.held := h.held.trans hagain
    have hlast := h.last.trans (last_eq_getElem? (h.again hagain) h.bound)
    rw [Source.next, if_pos hheld, LineCursor.next, if_pos hagain]
    exact ⟨hlast, h.ahead, h.last, rfl, h.bound, fun hnever => absurd hnever Bool.false_ne_true⟩
  | false =>
    have hheld : ¬ s.held := by simp [h.held, hagain]
    have hcursor : ¬ c.again := by simp [hagain]
    rw [Source.next, if_neg hheld, LineCursor.next, if_neg hcursor]
    by_cases hlt : c.delivered < lines.length
    · have hdrop := List.drop_eq_getElem_cons hlt
      obtain ⟨number, rest, hseek, hrest⟩ := Line.seek_eq_of_cleaned_cons (h.ahead.trans hdrop)
      have hfirst : lines[c.delivered]? = some lines[c.delivered] := List.getElem?_eq_getElem hlt
      rw [hseek, if_pos hlt]
      refine ⟨hfirst.symm, hrest, ?_, hagain.symm, hlt, fun _ => Nat.succ_pos _⟩
      exact hfirst.symm.trans (last_eq_getElem? (Nat.succ_pos _) hlt).symm
    · have hnil : lines.drop c.delivered = [] := List.drop_eq_nil_of_le (Nat.le_of_not_lt hlt)
      rw [Line.seek_eq_of_cleaned_nil (h.ahead.trans hnil), if_neg hlt]
      exact ⟨rfl, hnil.symm, h.last, hagain.symm, h.bound, h.again⟩

theorem At.putBack (h : At lines s c) : At lines s.putBack c.putBack := by
  by_cases hpos : 0 < c.delivered
  · have hlt : c.delivered - 1 < lines.length := by
      have := h.bound
      omega
    have hlast : s.last.isSome := by
      rw [h.last, last_eq_getElem? hpos h.bound, List.getElem?_eq_getElem hlt]
      rfl
    rw [Source.putBack, if_pos hlast, LineCursor.putBack, if_pos hpos]
    exact ⟨h.ahead, h.last, rfl, h.bound, fun _ => hpos⟩
  · have hzero : c.delivered = 0 := by omega
    have hlast : ¬ s.last.isSome := by
      rw [h.last, hzero]
      exact Bool.false_ne_true
    rwa [Source.putBack, if_neg hlast, LineCursor.putBack, if_neg hpos]

/-- A text has its lines in one way. Of these a source delivers those that are neither blank nor comments,
without the blanks at their ends and numbered among all lines, and it answers to any calls as a cursor over
their list does. -/
theorem answers_of_text (text : String) :
    ∃ raws, (∀ other, Text.IsLines text.toList other ↔ other = raws) ∧ ∀ calls,
      Call.answers Source.next Source.putBack calls (ofText text) =
        Call.answers (LineCursor.next (Line.cleaned 0 raws)) LineCursor.putBack calls .start := by
  refine ⟨Text.lines text.toList, fun other => ⟨?_, ?_⟩, fun calls => ?_⟩
  · exact fun h => (Text.lines_of_isLines h).symm
  · rintro rfl
    exact Text.isLines_lines text.toList
  · exact Call.answers_eq_of_related (fun s c => At.next) (fun s c => At.putBack) calls (at_ofText text)

/-- Nothing to take back at first, a line taken back twice, and one taken back at the end. -/
example : Call.answers Source.next Source.putBack [.putBack, .next, .putBack, .putBack, .next, .next, .putBack, .next]
    (ofText "\n a \r\n' b\n") = [some ⟨2, " a"⟩, some ⟨2, " a"⟩, none, some ⟨2, " a"⟩] := by
  decide +kernel

end Source

end Codesheet
