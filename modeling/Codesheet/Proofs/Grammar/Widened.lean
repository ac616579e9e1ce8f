import Codesheet.Proofs.Line.Widened

/-! Recognisers with wider indents. Past the leading spaces a scanner meets the same characters, only
in later columns, so it does the same and stops where it stopped before. The spaces themselves are
as many levels as before, or the same part of a unit. -/

namespace Codesheet

variable {k : Nat}

/-! ### Faults -/

def IndentCause.widen (k : Nat) : IndentCause → IndentCause
  | partialUnit spaces unit => partialUnit (k * spaces) (k * unit)
  | cause => cause

/-- The text of a line with its leading spaces multiplied. -/
def widenText (k : Nat) (text : String) : String := String.ofList (Text.widen k text.toList)

/-- The fault at the same place of the line with its leading spaces multiplied. Only a header's line
has none, so every fault of a grammar is behind them. -/
def Fault.widen (k : Nat) : Fault → Fault
  | indent line cause => indent line (cause.widen k)
  | grammar line column expected text =>
    grammar line (column + (k - 1) * Grammar.leading text) expected (widenText k text)
  | notHeader line text => notHeader line (widenText k text)
  | fault => fault

theorem Fault.widen_atLine (k number : Nat) (fault : Fault) :
    (fault.atLine number).widen k = (fault.widen k).atLine number := by
  cases fault with
  | indent line => cases line <;> rfl
  | grammar line => cases line <;> rfl
  | notHeader line => cases line <;> rfl
  | _ => rfl

/-- Faults of the same kind at the same line, for the same reason but at other places of the line. -/
inductive Fault.Alike : Fault → Fault → Prop where
  | partialUnit (line spaces unit spaces' unit' : Nat) :
    Alike (.indent line (.partialUnit spaces unit)) (.indent line (.partialUnit spaces' unit'))
  | grammar (line column column' : Nat) (expected : Expected) (text text' : String) :
    Alike (.grammar line column expected text) (.grammar line column' expected text')
  | notHeader (line : Nat) (text text' : String) : Alike (.notHeader line text) (.notHeader line text')
  | same (fault : Fault) : Alike fault fault

theorem Fault.alike_widen (k : Nat) (fault : Fault) : fault.Alike (fault.widen k) := by
  cases fault with
  | indent line cause =>
    cases cause with
    | partialUnit spaces unit => exact .partialUnit line spaces unit _ _
    | _ => exact .same _
  | grammar line column expected text => exact .grammar line column _ expected text _
  | notHeader line text => exact .notHeader line text _
  | _ => exact .same _

/-! ### Positions behind the leading spaces -/

/-- The same position in a line and in the line with its leading spaces multiplied. -/
structure Cursor.Wide (k : Nat) (c c' : Cursor) : Prop where
  rest : c'.rest = c.rest
  text : c'.text = widenText k c.text
  column : c'.column = c.column + (k - 1) * Grammar.leading c.text

namespace Cursor.Wide

variable {c c' : Cursor}

theorem fault (h : Wide k c c') (expected : Expected) : c'.fault expected = (c.fault expected).widen k := by
  rw [Cursor.fault, h.column, h.text]
  rfl

theorem skip (h : Wide k c c') (n : Nat) : Wide k (c.skip n) (c'.skip n) := by
  have hcolumn := h.column
  unfold Cursor.column at hcolumn
  refine ⟨?_, ?_, ?_⟩
  · rw [Cursor.skip, Cursor.skip, h.rest]
  · rw [Cursor.text_skip, Cursor.text_skip, h.text]
  · rw [Cursor.text_skip]
    simp only [Cursor.skip, Cursor.column, h.rest, List.length_append]
    omega

theorem skipWhile (h : Wide k c c') (p : Char → Bool) : Wide k (c.skipWhile p) (c'.skipWhile p) := by
  have hcolumn := h.column
  unfold Cursor.column at hcolumn
  refine ⟨?_, ?_, ?_⟩
  · rw [Cursor.skipWhile, Cursor.skipWhile, h.rest]
  · rw [Cursor.text_skipWhile, Cursor.text_skipWhile, h.text]
  · rw [Cursor.text_skipWhile]
    simp only [Cursor.skipWhile, Cursor.column, h.rest, List.length_append]
    omega

theorem peek? (h : Wide k c c') : c'.peek? = c.peek? := congrArg List.head? h.rest

end Cursor.Wide

/-- The positions behind the leading spaces are the same. -/
theorem Cursor.wide_start (hk : 0 < k) (text : String) :
    Wide k ((start text).skipWhile (· = ' ')) ((start (widenText k text)).skipWhile (· = ' ')) := by
  obtain ⟨spaces, body, hbody, htext⟩ := Text.exists_indented text.toList
  have hwide : (widenText k text).toList = List.replicate (k * spaces) ' ' ++ body := by
    rw [widenText, String.toList_ofList, htext, Text.widen_indented k spaces hbody]
  refine ⟨?_, ?_, ?_⟩
  · simp only [skipWhile, start]
    rw [htext, hwide, Text.dropWhile_indented _ hbody, Text.dropWhile_indented _ hbody]
  · rw [text_skipWhile, text_skipWhile, text_start, text_start]
  · rw [text_skipWhile, text_start]
    simp only [column, skipWhile, start, Grammar.leading]
    rw [htext, hwide, Text.takeWhile_indented _ hbody, Text.takeWhile_indented _ hbody]
    simp only [List.length_append, List.length_reverse, List.length_replicate, List.length_nil]
    rw [Nat.sub_mul, Nat.one_mul]
    have := Nat.le_mul_of_pos_left spaces hk
    omega

namespace Scan

variable {α β : Type}

/-- What a scanner does at the two positions: the same, up to the columns and the text in its fault. -/
inductive Alike (k : Nat) : EStateM.Result Fault Cursor α → EStateM.Result Fault Cursor α → Prop where
  | ok (a : α) {c c' : Cursor} (wide : c.Wide k c') : Alike k (.ok a c) (.ok a c')
  | error (fault : Fault) (c c' : Cursor) : Alike k (.error fault c) (.error (fault.widen k) c')

/-- A scanner that does not look back at the spaces of its line. -/
def Onward (k : Nat) (scan : Scan α) : Prop := ∀ c c', c.Wide k c' → Alike k (scan c) (scan c')

theorem onward_pure (a : α) : Onward k (pure a) := fun _ _ h => .ok a h

theorem onward_bind {scan : Scan α} {next : α → Scan β} (hs : Onward k scan)
    (hn : ∀ a, Onward k (next a)) : Onward k (scan >>= next) := by
  intro c c' h
  have hfirst := hs c c' h
  rw [bind_apply, bind_apply]
  generalize scan c = result at hfirst ⊢
  generalize scan c' = result' at hfirst ⊢
  cases hfirst with
  | ok a wide => exact hn a _ _ wide
  | error fault c c' => exact .error fault c c'

theorem onward_fail (expected : Expected) : Onward k (fail expected : Scan α) := by
  intro c c' h
  rw [fail, fail, h.fault]
  exact .error _ c c'

/-- A scanner may look at what is left of its line. -/
theorem onward_get {next : Cursor → Scan β}
    (hrest : ∀ before before' rest, next ⟨before', rest⟩ = next ⟨before, rest⟩)
    (hn : ∀ c, Onward k (next c)) : Onward k (get >>= next) := by
  rintro ⟨before, rest⟩ ⟨before', rest'⟩ h
  obtain rfl : rest' = rest := h.rest
  rw [bind_of_ok (get_apply _), bind_of_ok (get_apply _), hrest before before' rest']
  exact hn _ _ _ h

theorem onward_skip (n : Nat) : Onward k (modify (·.skip n)) := fun _ _ h => .ok _ (h.skip n)

theorem onward_matchChar (expected : Char) : Onward k (matchChar expected) := by
  intro c c' h
  rw [matchChar, matchChar, h.peek?]
  split_ifs
  · exact .ok true (h.skip 1)
  · exact .ok false h

theorem onward_takeWhile (p : Char → Bool) : Onward k (takeWhile p) := by
  intro c c' h
  rw [takeWhile, takeWhile, h.rest]
  exact .ok _ (h.skipWhile p)

theorem onward_blanks : Onward k blanks := fun _ _ h => .ok () (h.skipWhile _)

theorem onward_expectChar (expected : Char) : Onward k (expectChar expected) := by
  refine onward_bind (onward_matchChar expected) fun found => ?_
  cases found
  · exact onward_fail _
  · exact onward_pure _

theorem onward_expectEnd : Onward k expectEnd := by
  refine onward_get (fun _ _ _ => rfl) fun c => ?_
  cases h : c.isAtEnd
  · simpa [h] using onward_fail _
  · simpa [h] using onward_pure _

theorem onward_run? (start p : Char → Bool) : Onward k (run? start p) := by
  refine onward_get (fun _ _ _ => rfl) fun c => ?_
  by_cases h : c.peek?.any start
  · simpa [h] using onward_bind (onward_takeWhile p) fun cs => onward_pure (some (String.ofList cs))
  · simpa [h] using onward_pure none

theorem onward_orFail {scan : Scan (Option α)} (h : Onward k scan) (expected : Expected) :
    Onward k (orFail scan expected) := by
  refine onward_bind h fun found => ?_
  cases found
  · exact onward_fail _
  · exact onward_pure _

theorem onward_numeral (radix : Text.Radix) : Onward k (numeral radix) := by
  intro c c' h
  have hstart := h.skip radix.markerLength
  have hstop := hstart.skipWhile radix.isDigit
  rw [numeral_apply, numeral_apply]
  dsimp only
  rw [hstart.rest, hstop.fault, h.fault]
  split_ifs
  · exact .error _ _ _
  · exact .ok _ hstop
  · exact .error _ _ _

theorem onward_number? : Onward k number? := by
  refine onward_get (fun _ _ _ => rfl) fun c => ?_
  cases Text.Radix.ofText c.rest with
  | none => exact onward_pure _
  | some radix => exact onward_bind (onward_numeral radix) fun _ => onward_pure _

theorem onward_segments (n : Nat) (path : String) : Onward k (segments n path) := by
  induction n generalizing path with
  | zero => exact onward_pure path
  | succ n ih =>
    refine onward_bind (onward_matchChar '.') fun found => ?_
    cases found
    · exact onward_pure path
    · exact onward_bind (onward_orFail (onward_run? _ _) _) fun _ => ih _

theorem onward_path? : Onward k path? := by
  refine onward_bind (onward_run? _ _) fun first => ?_
  cases first with
  | none => exact onward_pure none
  | some first =>
    exact onward_get (fun _ _ _ => rfl) fun _ =>
      onward_bind (onward_segments _ _) fun _ => onward_pure _

theorem onward_target (expected : Expected) : Onward k (target expected) := by
  refine onward_bind (onward_matchChar '@') fun found => ?_
  cases found
  · refine onward_bind onward_number? fun value => ?_
    cases value
    · exact onward_bind (onward_orFail onward_path? _) fun _ => onward_pure _
    · exact onward_pure _
  · exact onward_bind (onward_orFail (onward_run? _ _) _) fun _ => onward_pure _

theorem onward_moreTerms (n : Nat) (series : Series) : Onward k (moreTerms n series) := by
  induction n generalizing series with
  | zero => exact onward_pure series
  | succ n ih =>
    refine onward_get (fun _ _ _ => rfl) fun c => ?_
    cases c.peek?.bind Sign.ofSymbol? with
    | none => exact onward_pure series
    | some sign =>
      exact onward_bind (onward_skip 1) fun _ => onward_bind onward_blanks fun _ =>
        onward_bind (onward_target _) fun _ => onward_bind onward_blanks fun _ => ih _

theorem onward_series : Onward k series :=
  onward_bind onward_blanks fun _ => onward_bind (onward_target _) fun _ =>
    onward_bind onward_blanks fun _ =>
      onward_get (fun _ _ _ => rfl) fun _ => onward_moreTerms _ _

end Scan

namespace Grammar

open Scan

variable {g : Grammar}

theorem onward_constantName : Onward k constantName := by
  refine onward_bind (onward_matchChar '.') fun dotted => ?_
  cases dotted
  · exact onward_orFail (onward_run? _ _) _
  · refine onward_bind (onward_matchChar '*') fun star => ?_
    cases star
    · exact onward_bind (onward_orFail (onward_run? _ _) _) fun _ => onward_pure _
    · exact onward_pure _

theorem onward_moreArguments (n : Nat) (args : List Series) : Onward k (moreArguments n args) := by
  induction n generalizing args with
  | zero => exact onward_fail _
  | succ n ih =>
    refine onward_bind onward_series fun series => onward_bind (onward_matchChar ',') fun comma => ?_
    cases comma
    · refine onward_bind (onward_matchChar ')') fun closed => ?_
      cases closed
      · exact onward_fail _
      · exact onward_pure _
    · exact ih _

theorem onward_arguments : Onward k arguments := by
  refine onward_bind (onward_matchChar '(') fun opened => ?_
  cases opened
  · exact onward_pure []
  · exact onward_get (fun _ _ _ => rfl) fun _ => onward_moreArguments _ _

/-! ### Levels -/

/-- The grammar with a multiple of the unit. -/
def scaled (g : Grammar) (hk : 0 < k) : Grammar := ⟨k * g.unit, Nat.mul_pos hk g.unit_pos⟩

/-- A level does not depend on the width of its unit. -/
theorem level?_scaled (hk : 0 < k) (spaces : Nat) :
    (g.scaled hk).level? (k * spaces) = (g.level? spaces).mapError (Fault.widen k) := by
  have hunit : (g.scaled hk).unit = k * g.unit := rfl
  have hmod : k * spaces % (k * g.unit) = 0 ↔ spaces % g.unit = 0 := by
    rw [Nat.mul_mod_mul_left, Nat.mul_eq_zero, or_iff_right hk.ne']
  rw [level?, level?, hunit, Nat.mul_div_mul_left _ _ hk]
  by_cases h : spaces % g.unit = 0
  · rw [if_pos (hmod.2 h), if_pos h]
    rfl
  · rw [if_neg (mt hmod.1 h), if_neg h]
    rfl

theorem leading_widenText (k : Nat) (text : String) :
    leading (widenText k text) = k * leading text := by
  obtain ⟨spaces, body, hbody, htext⟩ := Text.exists_indented text.toList
  rw [leading, leading, widenText, String.toList_ofList, htext, Text.widen_indented k spaces hbody,
    Text.takeWhile_indented _ hbody, Text.takeWhile_indented _ hbody, List.length_replicate,
    List.length_replicate]

/-! ### Recognisers -/

theorem read_scaled {α : Type} {next : Nat → Scan α} (hn : ∀ level, Onward k (next level)) (hk : 0 < k)
    (text : String) :
    read ((g.scaled hk).indent >>= next) (widenText k text) =
      (read (g.indent >>= next) text).mapError (Fault.widen k) := by
  have hspaces : ∀ text : String, ((Cursor.start text).rest.takeWhile (· = ' ')).length = leading text :=
    fun _ => rfl
  rw [read, read, EStateM.run, EStateM.run, bind_apply, bind_apply, indent_apply, indent_apply, hspaces,
    hspaces, leading_widenText, level?_scaled]
  cases g.level? (leading text) with
  | error fault => rfl
  | ok level =>
    have hwide := hn level _ _ (Cursor.wide_start hk text)
    dsimp only [Except.mapError]
    generalize next level ((Cursor.start text).skipWhile (· = ' ')) = result at hwide ⊢
    generalize next level ((Cursor.start (widenText k text)).skipWhile (· = ' ')) = result' at hwide ⊢
    cases hwide <;> rfl

theorem constantLine_scaled (hk : 0 < k) (text : String) :
    (g.scaled hk).constantLine (widenText k text) =
      (g.constantLine text).mapError (Fault.widen k) :=
  read_scaled (fun _ => onward_bind onward_constantName fun _ => onward_bind onward_blanks fun _ =>
    onward_bind (onward_expectChar ':') fun _ => onward_bind onward_blanks fun _ =>
    onward_bind (onward_orFail onward_number? _) fun _ => onward_bind onward_blanks fun _ =>
    onward_bind onward_expectEnd fun _ => onward_pure _) hk text

theorem entryLine_scaled (hk : 0 < k) (text : String) :
    (g.scaled hk).entryLine (widenText k text) = (g.entryLine text).mapError (Fault.widen k) :=
  read_scaled (fun _ => onward_bind (onward_orFail (onward_run? _ _) _) fun _ =>
    onward_bind (onward_expectChar ':') fun _ => onward_bind onward_series fun _ =>
    onward_bind onward_expectEnd fun _ => onward_pure _) hk text

theorem instructionLine_scaled (hk : 0 < k) (text : String) :
    (g.scaled hk).instructionLine (widenText k text) =
      (g.instructionLine text).mapError (Fault.widen k) :=
  read_scaled (fun _ => onward_bind (onward_orFail (onward_run? _ _) _) fun _ =>
    onward_bind onward_arguments fun _ => onward_bind onward_blanks fun _ =>
    onward_bind onward_expectEnd fun _ => onward_pure _) hk text

theorem labelLine?_scaled (hk : 0 < k) (text : String) :
    (g.scaled hk).labelLine? (widenText k text) = (g.labelLine? text).mapError (Fault.widen k) := by
  obtain ⟨spaces, body, hbody, htext⟩ := Text.exists_indented text.toList
  rw [labelLine?, labelLine?, read_label?, read_label?, leading_widenText, widenText, String.toList_ofList,
    htext, Text.widen_indented k spaces hbody, Text.dropWhile_indented _ hbody,
    Text.dropWhile_indented _ hbody]
  cases labelName? body with
  | none => rfl
  | some name =>
    simp only [Option.map_some, bind, Except.bind, level?_scaled]
    cases g.level? (leading text) <;> rfl

end Grammar

end Codesheet
