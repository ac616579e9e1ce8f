import Codesheet.Proofs.Program.Stage

/-! The fault of a text that is no program. It is found at one line; all lines before
it are accepted and no line after it is read, so it only depends on the text up to
that line. -/

namespace Codesheet

/-- A fault that a source line can have, with the number of that line. -/
inductive Fault.OfLine (number : Nat) : Fault → Prop where
  | indent (cause : IndentCause) : OfLine number (.indent number cause)
  | grammar (column : Nat) (expected : Expected) (text : String) :
    OfLine number (.grammar number column expected text)
  | notHeader (text : String) : OfLine number (.notHeader number text)

theorem Fault.OfText.ofLine {fault : Fault} (h : fault.OfText) (number : Nat) :
    (fault.atLine number).OfLine number := by
  cases h with
  | indent cause => exact .indent cause
  | grammar column expected text => exact .grammar column expected text

theorem Fault.OfLine.line? {number : Nat} {fault : Fault} (h : fault.OfLine number) :
    fault.line? = some number := by
  cases h <;> rfl

theorem Builder.feed_eq_error {b : Builder} (hb : b.Sound) {line : Line} {fault : Fault}
    (h : (b.feed line).2.result = .error fault) : fault.OfLine line.number := by
  cases hc : b.grammar.constantLine line.text with
  | error bare =>
    rw [feed_of_error hc] at h
    obtain rfl := Except.error.inj h
    exact (Grammar.constantLine_ofText hc).ofLine line.number
  | ok constant =>
    rw [feed_of_ok hc] at h
    obtain ⟨bare, hbare, rfl⟩ := Logged.result_atLine_eq_error.1 h
    obtain ⟨cause, rfl⟩ := add_eq_error hb hbare
    exact (Fault.OfText.indent cause).ofLine line.number

namespace Program

theorem entry_eq_error {g : Grammar} {line : Line} {fault : Fault} (h : entry g line = .error fault) :
    fault.OfLine line.number := by
  unfold entry at h
  cases he : g.entryLine line.text with
  | error bare =>
    rw [he] at h
    obtain rfl := Except.error.inj h
    exact (Grammar.entryLine_ofText he).ofLine line.number
  | ok shape =>
    rw [he] at h
    cases h

namespace Stage

variable {g : Grammar} {jumps : JumpPolicy}

/-- The builder of an open block of constants finds its positions. -/
def Sound : Stage → Prop
  | constants b => b.Sound
  | _ => True

theorem sound_opened (stage : Stage) (header : Header) : (stage.opened g jumps header).Sound := by
  unfold opened
  cases header.kind with
  | constants => exact Builder.sound_start g jumps stage.forest header.name
  | table => trivial
  | code => trivial

theorem codeLine_eq_error {line : Line} {fault : Fault} (h : codeLine g line = .error fault) :
    fault.OfLine line.number := by
  unfold codeLine at h
  cases hlabel : g.labelLine? line.text with
  | error bare =>
    rw [hlabel] at h
    obtain rfl := Except.error.inj h
    exact (Grammar.labelLine?_ofText hlabel).ofLine line.number
  | ok found =>
    rw [hlabel] at h
    cases found with
    | some label => cases h
    | none =>
      cases hshape : g.instructionLine line.text with
      | error bare =>
        rw [hshape] at h
        obtain rfl := Except.error.inj h
        exact (Grammar.instructionLine_ofText hshape).ofLine line.number
      | ok shape =>
        rw [hshape] at h
        cases h

/-- A refused line is the line of its fault. -/
theorem Sound.step_eq_error {stage : Stage} (hs : stage.Sound) {line : Line} {fault : Fault}
    (h : stage.step g jumps line = .error fault) : fault.OfLine line.number := by
  by_cases hl : line.isHeader
  · rw [step_header hl] at h
    cases h
  · rw [step_body hl] at h
    cases stage with
    | outside =>
      obtain rfl := Except.error.inj h
      exact .notHeader line.text
    | constants b => exact Builder.feed_eq_error hs (map_eq_error.1 h)
    | table forest => exact entry_eq_error (map_eq_error.1 h)
    | code forest => exact codeLine_eq_error (map_eq_error.1 h)

theorem Sound.sound_step {stage stage' : Stage} (hs : stage.Sound) {line : Line}
    (h : stage.step g jumps line = .ok stage') : stage'.Sound := by
  by_cases hl : line.isHeader
  · rw [step_header hl] at h
    obtain rfl := Except.ok.inj h
    exact sound_opened stage (.ofLine line)
  · rw [step_body hl] at h
    cases stage with
    | outside => cases h
    | constants b =>
      obtain ⟨-, -, rfl⟩ := map_eq_ok.1 h
      exact Builder.Sound.sound_feed hs line
    | table forest =>
      obtain ⟨-, -, rfl⟩ := map_eq_ok.1 h
      trivial
    | code forest =>
      obtain ⟨-, -, rfl⟩ := map_eq_ok.1 h
      trivial

/-- A run stops at its first refused line, after a run that accepts the lines before. -/
theorem Sound.run_eq_error {stage : Stage} (hs : stage.Sound) {lines : List Line} {fault : Fault}
    (h : run g jumps stage lines = .error fault) :
    ∃ before line after stage', lines = before ++ line :: after ∧
      run g jumps stage before = .ok stage' ∧ stage'.step g jumps line = .error fault ∧
      fault.OfLine line.number := by
  induction lines generalizing stage with
  | nil => cases h
  | cons line lines ih =>
    rw [run_cons] at h
    cases hstep : stage.step g jumps line with
    | error other =>
      rw [hstep] at h
      obtain rfl := Except.error.inj h
      exact ⟨[], line, lines, stage, rfl, rfl, hstep, hs.step_eq_error hstep⟩
    | ok next =>
      rw [hstep] at h
      obtain ⟨before, refused, after, stage', rfl, hrun, hrefused, hfault⟩ := ih (hs.sound_step hstep) h
      refine ⟨line :: before, refused, after, stage', rfl, ?_, hrefused, hfault⟩
      rw [run_cons, hstep]
      exact hrun

/-- What follows a refused line does not matter. -/
theorem run_append_of_refused {stage stage' : Stage} {before : List Line} {line : Line} {fault : Fault}
    (hrun : run g jumps stage before = .ok stage') (hstep : stage'.step g jumps line = .error fault)
    (after : List Line) : run g jumps stage (before ++ line :: after) = .error fault := by
  have hcons : (Except.ok stage').bind (run g jumps · (line :: after)) =
      run g jumps stage' (line :: after) := rfl
  rw [run_append, hrun, hcons, run_cons, hstep]
  rfl

end Stage

theorem read_eq_error_iff {g : Grammar} {jumps : JumpPolicy} {text : String} {fault : Fault} :
    (read g jumps text).result = .error fault ↔
      Stage.run g jumps .outside (Line.ofText text) = .error fault := by
  rw [← @map_eq_error _ _ (read g jumps text).result (·.constants), ← Stage.run_ofText, map_eq_error]

theorem exists_read_iff {g : Grammar} {jumps : JumpPolicy} {text : String} :
    (∃ p, (read g jumps text).result = .ok p) ↔
      ∃ stage, Stage.run g jumps .outside (Line.ofText text) = .ok stage := by
  have hmap := @Stage.run_ofText g jumps text
  cases hread : (read g jumps text).result with
  | error fault =>
    rw [hread] at hmap
    simp [map_eq_error.1 hmap]
  | ok p =>
    rw [hread] at hmap
    obtain ⟨stage, hrun, -⟩ := map_eq_ok.1 hmap
    simp [hrun]

/-- A fault is one of a raw line that is neither blank nor a comment, and carries its
number. The raw lines before it make up a program, and a text that starts with the
same raw lines up to it has the same fault, whatever follows. -/
theorem fault_of_first_line (options : ParseOptions) (valid : 0 < options.indentUnit) (text : String)
    (fault : Fault) (failed : (parse options text).result = .error fault) :
    ∃ number raw, fault.OfLine number ∧ fault.line? = some number ∧ 1 ≤ number ∧
      (Text.lines text.toList)[number - 1]? = some raw ∧ Line.isKept raw ∧
      (∃ before : String, before.toList <+: text.toList ∧
        Text.lines before.toList = (Text.lines text.toList).take (number - 1)) ∧
      (∀ before : String, Text.lines before.toList = (Text.lines text.toList).take (number - 1) →
        ∃ p, (parse options before).result = .ok p) ∧
      ∀ other : String,
        (Text.lines other.toList).take number = (Text.lines text.toList).take number →
        (parse options other).result = .error fault := by
  rw [parse_of_valid valid, read_eq_error_iff] at failed
  have hs : Stage.outside.Sound := trivial
  obtain ⟨before, line, after, stage, hlines, hrun, hstep, hfault⟩ := hs.run_eq_error failed
  obtain ⟨first, raw, rest, hraws, hnumber, hkept, hbefore, hline⟩ := Line.cleaned_eq_append_cons hlines
  -- The lines that are accepted before the fault come from the raw lines in `first`.
  have hlen : line.number = first.length + 1 := by omega
  have htake : (Text.lines text.toList).take first.length = first := by rw [hraws, List.take_left]
  refine ⟨line.number, raw, hfault, hfault.line?, by omega, ?_, hkept, ?_, ?_, ?_⟩
  · rw [hraws, hlen, Nat.add_sub_cancel, List.getElem?_append_right (Nat.le_refl _), Nat.sub_self]
    rfl
  · obtain ⟨cs, hprefix, hcs⟩ := Text.exists_prefix_lines (line.number - 1) text.toList
    exact ⟨String.ofList cs, by rwa [String.toList_ofList], by rwa [String.toList_ofList]⟩
  · intro earlier hearlier
    rw [hlen, Nat.add_sub_cancel, htake] at hearlier
    rw [parse_of_valid valid, exists_read_iff, Line.ofText, hearlier, hbefore]
    exact ⟨stage, hrun⟩
  · intro other hother
    rw [parse_of_valid valid, read_eq_error_iff, Line.ofText]
    have hsame : (Text.lines other.toList).take line.number = first ++ [raw] := by
      rw [hother, hraws, List.append_cons]
      exact List.take_left' (by rw [List.length_append, List.length_singleton, hlen])
    have hclean : Line.cleaned 0 (first ++ [raw]) = before ++ [line] := by
      rw [Line.cleaned_append, hbefore, Line.cleaned_cons, Nat.zero_add, ← hlen, hline]
      rfl
    rw [← List.take_append_drop line.number (Text.lines other.toList), hsame, Line.cleaned_append, hclean,
      List.append_assoc]
    exact Stage.run_append_of_refused hrun hstep _

theorem fault_of_fourth_line :
    let text := "_io:\n  a: 1\n\n   b: 2\nmain:\n"
    let fault := Fault.indent 4 (.partialUnit 3 2)
    (parse ⟨2, .collapse⟩ text).result = .error fault ∧
      ∀ other : String, (Text.lines other.toList).take 4 = (Text.lines text.toList).take 4 →
        (parse ⟨2, .collapse⟩ other).result = .error fault := by
  intro text fault
  have failed : (parse ⟨2, .collapse⟩ text).result = .error fault := by decide +kernel
  obtain ⟨number, _, -, hnumber, -, -, -, -, -, hother⟩ :=
    fault_of_first_line ⟨2, .collapse⟩ (by decide) text fault failed
  obtain rfl : 4 = number := Option.some.inj hnumber
  exact ⟨failed, hother⟩

end Program

end Codesheet
