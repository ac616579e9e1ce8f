import Codesheet.Grammar.Basic
import Mathlib.Data.List.TakeWhile
import Mathlib.Tactic.Set
import Mathlib.Tactic.SplitIfs

/-! What the recognisers of lines have in common. Their faults are misfits or
indents that are no level, without a line number; the level of an accepted line
comes from its leading spaces alone; and no text is both a label and an
instruction. -/

namespace Codesheet

namespace Text

variable {body : List Char}

theorem takeWhile_indented (spaces : Nat) (h : body.head? ≠ some ' ') :
    (List.replicate spaces ' ' ++ body).takeWhile (· = ' ') = List.replicate spaces ' ' := by
  have hbody : body.takeWhile (· = ' ') = [] := by
    cases body with
    | nil => rfl
    | cons c body => exact List.takeWhile_cons_of_neg (by simpa using h)
  rw [List.takeWhile_append_of_pos (by simp), hbody, List.append_nil]

theorem dropWhile_indented (spaces : Nat) (h : body.head? ≠ some ' ') :
    (List.replicate spaces ' ' ++ body).dropWhile (· = ' ') = body := by
  rw [List.dropWhile_append_of_pos (by simp)]
  cases body with
  | nil => rfl
  | cons c body => exact List.dropWhile_cons_of_neg (by simpa using h)

end Text

/-- A fault found in a bare text. -/
inductive Fault.OfText : Fault → Prop where
  | indent (cause : IndentCause) : OfText (.indent 0 cause)
  | grammar (column : Nat) (expected : Expected) (text : String) :
    OfText (.grammar 0 column expected text)

namespace Scan

variable {α β : Type}

/-! ### Sequences -/

theorem bind_of_ok {scan : Scan α} {c c' : Cursor} {a : α} (h : scan c = .ok a c')
    (next : α → Scan β) : (scan >>= next) c = next a c' := by
  rw [bind_apply, h]

theorem bind_eq_ok {scan : Scan α} {next : α → Scan β} {c c'' : Cursor} {b : β}
    (h : (scan >>= next) c = .ok b c'') : ∃ a c', scan c = .ok a c' ∧ next a c' = .ok b c'' := by
  rw [bind_apply] at h
  cases hs : scan c with
  | ok a c' => exact ⟨a, c', rfl, by simpa [hs] using h⟩
  | error fault c' => simp [hs] at h

theorem bind_eq_error {scan : Scan α} {next : α → Scan β} {c c'' : Cursor} {fault : Fault}
    (h : (scan >>= next) c = .error fault c'') :
    scan c = .error fault c'' ∨ ∃ a c', scan c = .ok a c' ∧ next a c' = .error fault c'' := by
  rw [bind_apply] at h
  cases hs : scan c with
  | ok a c' => exact .inr ⟨a, c', rfl, by simpa [hs] using h⟩
  | error other c' => exact .inl (by simpa [hs] using h)

theorem orFail_eq_ok {scan : Scan (Option α)} {expected : Expected} {c c' : Cursor} {a : α}
    (h : orFail scan expected c = .ok a c') : scan c = .ok (some a) c' := by
  obtain ⟨found, c₁, hs, h⟩ := bind_eq_ok h
  cases found with
  | none => simp [fail] at h
  | some b =>
    obtain ⟨rfl, rfl⟩ := EStateM.Result.ok.inj h
    exact hs

theorem spaces_apply (c : Cursor) :
    spaces c = .ok (c.rest.takeWhile (· = ' ')).length (c.skipWhile (· = ' ')) := rfl

theorem run?_apply (start p : Char → Bool) (c : Cursor) :
    run? start p c =
      if c.peek?.any start then .ok (some (String.ofList (c.rest.takeWhile p))) (c.skipWhile p)
      else .ok none c := by
  simp only [run?, bind_apply, get_apply]
  split <;> rfl

theorem run?_eq_some {start p : Char → Bool} {c c' : Cursor} {name : String}
    (h : run? start p c = .ok (some name) c') :
    c.rest.head?.any start ∧ name = String.ofList (c.rest.takeWhile p) ∧ c' = c.skipWhile p := by
  rw [run?_apply] at h
  split_ifs at h with hs
  · obtain ⟨hname, rfl⟩ := EStateM.Result.ok.inj h
    exact ⟨hs, (Option.some.inj hname).symm, rfl⟩
  · simp at h

theorem expectEnd_eq_ok {c c' : Cursor} (h : expectEnd c = .ok () c') : c.rest = [] := by
  obtain ⟨_, _, hg, h⟩ := bind_eq_ok h
  obtain ⟨rfl, rfl⟩ := EStateM.Result.ok.inj hg
  cases he : c.isAtEnd
  · simp [he, fail] at h
  · simpa [Cursor.isAtEnd] using he

/-! ### Faults -/

/-- Every fault of the scanner is one of a bare text. -/
def Bare (scan : Scan α) : Prop := ∀ c fault c', scan c = .error fault c' → fault.OfText

theorem bare_of_ok {scan : Scan α} (h : ∀ c, ∃ a c', scan c = .ok a c') : Bare scan := by
  intro c fault c' he
  obtain ⟨a, c'', hok⟩ := h c
  simp [hok] at he

theorem bare_pure (a : α) : Bare (pure a) := bare_of_ok fun c => ⟨a, c, rfl⟩

theorem bare_bind {scan : Scan α} {next : α → Scan β} (hs : Bare scan) (hn : ∀ a, Bare (next a)) :
    Bare (scan >>= next) := by
  intro c fault c'' h
  rcases bind_eq_error h with h | ⟨a, c', -, h⟩
  · exact hs c fault c'' h
  · exact hn a c' fault c'' h

theorem bare_fail (expected : Expected) : Bare (fail expected : Scan α) := by
  intro c fault c' h
  obtain ⟨rfl, -⟩ := EStateM.Result.error.inj h
  exact .grammar c.column expected c.text

theorem bare_throw {fault : Fault} (h : fault.OfText) : Bare (throw fault : Scan α) := by
  intro c other c' he
  obtain ⟨rfl, -⟩ := EStateM.Result.error.inj he
  exact h

theorem bare_get : Bare (get : Scan Cursor) := bare_of_ok fun c => ⟨c, c, rfl⟩

theorem bare_modify (f : Cursor → Cursor) : Bare (modify f : Scan PUnit) :=
  bare_of_ok fun c => ⟨⟨⟩, f c, rfl⟩

theorem bare_matchChar (expected : Char) : Bare (matchChar expected) := by
  refine bare_of_ok fun c => ?_
  by_cases h : c.peek? = some expected
  · exact ⟨true, _, if_pos h⟩
  · exact ⟨false, _, if_neg h⟩

theorem bare_takeWhile (p : Char → Bool) : Bare (takeWhile p) := bare_of_ok fun _ => ⟨_, _, rfl⟩

theorem bare_blanks : Bare blanks := bare_of_ok fun _ => ⟨_, _, rfl⟩

theorem bare_spaces : Bare spaces := bare_bind (bare_takeWhile _) fun _ => bare_pure _

theorem bare_expectChar (expected : Char) : Bare (expectChar expected) := by
  refine bare_bind (bare_matchChar expected) fun found => ?_
  cases found
  · exact bare_fail _
  · exact bare_pure _

theorem bare_expectEnd : Bare expectEnd := by
  refine bare_bind bare_get fun c => ?_
  cases h : c.isAtEnd
  · simpa [h] using bare_fail _
  · simpa [h] using bare_pure _

theorem bare_run? (start p : Char → Bool) : Bare (run? start p) := by
  refine bare_bind bare_get fun c => ?_
  by_cases h : c.peek?.any start
  · simpa [h] using bare_bind (bare_takeWhile p) fun cs => bare_pure (some (String.ofList cs))
  · simpa [h] using bare_pure none

theorem bare_orFail {scan : Scan (Option α)} (h : Bare scan) (expected : Expected) :
    Bare (orFail scan expected) := by
  refine bare_bind h fun found => ?_
  cases found
  · exact bare_fail _
  · exact bare_pure _

theorem bare_numeral (radix : Text.Radix) : Bare (numeral radix) := by
  intro c fault c' h
  rw [numeral_apply] at h
  dsimp only at h
  split_ifs at h
  · obtain ⟨rfl, -⟩ := EStateM.Result.error.inj h
    exact .grammar _ _ _
  · obtain ⟨rfl, -⟩ := EStateM.Result.error.inj h
    exact .grammar _ _ _

theorem bare_number? : Bare number? := by
  refine bare_bind bare_get fun c => ?_
  cases Text.Radix.ofText c.rest with
  | none => exact bare_pure _
  | some radix => exact bare_bind (bare_numeral radix) fun _ => bare_pure _

theorem bare_segments (n : Nat) (path : String) : Bare (segments n path) := by
  induction n generalizing path with
  | zero => exact bare_pure path
  | succ n ih =>
    refine bare_bind (bare_matchChar '.') fun found => ?_
    cases found
    · exact bare_pure path
    · exact bare_bind (bare_orFail (bare_run? _ _) _) fun _ => ih _

theorem bare_path? : Bare path? := by
  refine bare_bind (bare_run? _ _) fun first => ?_
  cases first with
  | none => exact bare_pure none
  | some first =>
    exact bare_bind bare_get fun _ => bare_bind (bare_segments _ _) fun _ => bare_pure _

theorem bare_target (expected : Expected) : Bare (target expected) := by
  refine bare_bind (bare_matchChar '@') fun found => ?_
  cases found
  · refine bare_bind bare_number? fun value => ?_
    cases value
    · exact bare_bind (bare_orFail bare_path? _) fun _ => bare_pure _
    · exact bare_pure _
  · exact bare_bind (bare_orFail (bare_run? _ _) _) fun _ => bare_pure _

theorem bare_moreTerms (n : Nat) (series : Series) : Bare (moreTerms n series) := by
  induction n generalizing series with
  | zero => exact bare_pure series
  | succ n ih =>
    refine bare_bind bare_get fun c => ?_
    cases c.peek?.bind Sign.ofSymbol? with
    | none => exact bare_pure series
    | some sign =>
      exact bare_bind (bare_modify _) fun _ => bare_bind bare_blanks fun _ =>
        bare_bind (bare_target _) fun _ => bare_bind bare_blanks fun _ => ih _

theorem bare_series : Bare series :=
  bare_bind bare_blanks fun _ => bare_bind (bare_target _) fun _ =>
    bare_bind bare_blanks fun _ => bare_bind bare_get fun _ => bare_moreTerms _ _

end Scan

namespace Grammar

variable {g : Grammar} {text : String}

open Scan

theorem level?_ofText {spaces : Nat} {fault : Fault} (h : g.level? spaces = .error fault) :
    fault.OfText := by
  unfold level? at h
  split_ifs at h
  obtain rfl := Except.error.inj h
  exact .indent _

theorem bare_indent (g : Grammar) : Bare g.indent := by
  refine bare_bind bare_spaces fun spaces => ?_
  cases h : g.level? spaces with
  | ok level => exact bare_pure level
  | error fault => exact bare_throw (level?_ofText h)

theorem bare_constantName : Bare constantName := by
  refine bare_bind (bare_matchChar '.') fun dotted => ?_
  cases dotted
  · exact bare_orFail (bare_run? _ _) _
  · refine bare_bind (bare_matchChar '*') fun star => ?_
    cases star
    · exact bare_bind (bare_orFail (bare_run? _ _) _) fun _ => bare_pure _
    · exact bare_pure _

theorem bare_moreArguments (n : Nat) (args : List Series) : Bare (moreArguments n args) := by
  induction n generalizing args with
  | zero => exact bare_fail _
  | succ n ih =>
    refine bare_bind bare_series fun series => bare_bind (bare_matchChar ',') fun comma => ?_
    cases comma
    · refine bare_bind (bare_matchChar ')') fun closed => ?_
      cases closed
      · exact bare_fail _
      · exact bare_pure _
    · exact ih _

theorem bare_label? : Bare label? := by
  refine bare_bind bare_spaces fun spaces => bare_bind (bare_run? _ _) fun name => ?_
  cases name with
  | none => exact bare_pure none
  | some name =>
    refine bare_bind (bare_matchChar ':') fun colon => ?_
    cases colon
    · exact bare_pure none
    · exact bare_bind bare_blanks fun _ => bare_bind bare_get fun _ => bare_pure _

theorem bare_arguments : Bare arguments := by
  refine bare_bind (bare_matchChar '(') fun opened => ?_
  cases opened
  · exact bare_pure []
  · exact bare_bind bare_get fun _ => bare_moreArguments _ _

theorem arguments_eq_ok {c c' : Cursor} {args : List Series} (h : arguments c = .ok args c') :
    c.rest.head? = some '(' ∨ args = [] ∧ c' = c := by
  by_cases hopen : c.peek? = some '('
  · exact .inl hopen
  · obtain ⟨opened, c₁, hm, h⟩ := bind_eq_ok h
    rw [matchChar, if_neg hopen] at hm
    obtain ⟨rfl, rfl⟩ := EStateM.Result.ok.inj hm
    obtain ⟨rfl, rfl⟩ := EStateM.Result.ok.inj h
    exact .inr ⟨rfl, rfl⟩

theorem read_eq_error {α : Type} {scan : Scan α} (hs : Bare scan) {fault : Fault}
    (h : read scan text = .error fault) : fault.OfText := by
  cases hr : scan.run (.start text) with
  | ok a c => simp [read, hr] at h
  | error other c =>
    obtain rfl : other = fault := by simpa [read, hr] using h
    exact hs _ _ _ hr

theorem constantLine_ofText {fault : Fault} (h : g.constantLine text = .error fault) :
    fault.OfText :=
  read_eq_error (bare_bind g.bare_indent fun _ => bare_bind bare_constantName fun _ =>
    bare_bind bare_blanks fun _ => bare_bind (bare_expectChar ':') fun _ =>
    bare_bind bare_blanks fun _ => bare_bind (bare_orFail bare_number? _) fun _ =>
    bare_bind bare_blanks fun _ => bare_bind bare_expectEnd fun _ => bare_pure _) h

theorem entryLine_ofText {fault : Fault} (h : g.entryLine text = .error fault) : fault.OfText :=
  read_eq_error (bare_bind g.bare_indent fun _ => bare_bind (bare_orFail (bare_run? _ _) _) fun _ =>
    bare_bind (bare_expectChar ':') fun _ => bare_bind bare_series fun _ =>
    bare_bind bare_expectEnd fun _ => bare_pure _) h

theorem instructionLine_ofText {fault : Fault} (h : g.instructionLine text = .error fault) :
    fault.OfText :=
  read_eq_error (bare_bind g.bare_indent fun _ => bare_bind (bare_orFail (bare_run? _ _) _) fun _ =>
    bare_bind bare_arguments fun _ => bare_bind bare_blanks fun _ =>
    bare_bind bare_expectEnd fun _ => bare_pure _) h

theorem labelLine?_ofText {fault : Fault} (h : g.labelLine? text = .error fault) :
    fault.OfText := by
  cases hr : read label? text with
  | error other =>
    obtain rfl : other = fault := by simpa [labelLine?, hr, bind, Except.bind] using h
    exact read_eq_error bare_label? hr
  | ok found =>
    cases found with
    | none => simp [labelLine?, hr, bind, Except.bind, pure, Except.pure] at h
    | some label =>
      cases hl : g.level? label.1 with
      | ok level => simp [labelLine?, hr, hl, bind, Except.bind, pure, Except.pure] at h
      | error other =>
        obtain rfl : other = fault := by simpa [labelLine?, hr, hl, bind, Except.bind] using h
        exact level?_ofText hl

/-! ### Levels -/

/-- The number of spaces that a text starts with. -/
def leading (text : String) : Nat := (text.toList.takeWhile (· = ' ')).length

theorem indent_apply (g : Grammar) (c : Cursor) :
    g.indent c =
      match g.level? (c.rest.takeWhile (· = ' ')).length with
      | .ok level => .ok level (c.skipWhile (· = ' '))
      | .error fault => .error fault (c.skipWhile (· = ' ')) := by
  simp only [indent, spaces, bind_apply, takeWhile, pure_apply]
  cases g.level? (c.rest.takeWhile (· = ' ')).length <;> rfl

/-- A text that is indented to a level. -/
def indented (g : Grammar) (level : Nat) (rest : List Char) : List Char :=
  List.replicate (level * g.unit) ' ' ++ rest

/-- The indent of such a text is that level, and the scan goes on with the text. -/
theorem indent_indented (level : Nat) {rest : List Char} (h : rest.head? ≠ some ' ') :
    g.indent ⟨[], g.indented level rest⟩ = .ok level ⟨List.replicate (level * g.unit) ' ', rest⟩ := by
  have htake : (g.indented level rest).takeWhile (· = ' ') = List.replicate (level * g.unit) ' ' :=
    Text.takeWhile_indented _ h
  have hdrop : (g.indented level rest).dropWhile (· = ' ') = rest := Text.dropWhile_indented _ h
  have hlevel : g.level? (level * g.unit) = .ok level := by
    rw [level?, if_pos (Nat.mul_mod_left _ _), Nat.mul_div_cancel _ g.unit_pos]
  rw [indent_apply, htake, List.length_replicate, hlevel]
  simp [Cursor.skipWhile, htake, hdrop]

/-- An accepted line starts with spaces that make a level, and goes on after them. -/
theorem read_indent_eq_ok {α : Type} {next : Nat → Scan α} {a : α}
    (h : read (g.indent >>= next) text = .ok a) :
    ∃ level c, g.level? (leading text) = .ok level ∧
      next level ((Cursor.start text).skipWhile (· = ' ')) = .ok a c := by
  cases hr : (g.indent >>= next).run (.start text) with
  | error fault c => simp [read, hr] at h
  | ok b c =>
    obtain rfl : b = a := by simpa [read, hr] using h
    obtain ⟨level, c', hi, hn⟩ := bind_eq_ok hr
    rw [indent_apply] at hi
    cases hl : g.level? ((Cursor.start text).rest.takeWhile (· = ' ')).length with
    | error fault => simp [hl] at hi
    | ok level' =>
      rw [hl] at hi
      obtain ⟨rfl, rfl⟩ := EStateM.Result.ok.inj hi
      exact ⟨level', c, hl, hn⟩

/-- An accepted constant has the level of its leading spaces and a name that was scanned. -/
theorem constantLine_eq_ok {line : ConstantLine} (h : g.constantLine text = .ok line) :
    g.level? (leading text) = .ok line.level ∧ ∃ c c', constantName c = .ok line.name c' := by
  obtain ⟨level, c, hl, h⟩ := read_indent_eq_ok h
  obtain ⟨name, c', hname, h⟩ := bind_eq_ok h
  obtain ⟨-, c, -, h⟩ := bind_eq_ok h
  obtain ⟨-, c, -, h⟩ := bind_eq_ok h
  obtain ⟨-, c, -, h⟩ := bind_eq_ok h
  obtain ⟨value, c, -, h⟩ := bind_eq_ok h
  obtain ⟨-, c, -, h⟩ := bind_eq_ok h
  obtain ⟨-, c, -, h⟩ := bind_eq_ok h
  obtain ⟨rfl, -⟩ := EStateM.Result.ok.inj h
  exact ⟨hl, _, c', hname⟩

theorem constantLine_level {line : ConstantLine} (h : g.constantLine text = .ok line) :
    g.level? (leading text) = .ok line.level := (constantLine_eq_ok h).1

/-- A name is that of a bit field, or has name characters alone. -/
theorem constantName_eq_ok {c c' : Cursor} {name : String} (h : constantName c = .ok name c') :
    name.toList.head? = some '.' ∨ ∀ char ∈ name.toList, isNameChar char := by
  obtain ⟨dotted, c₁, -, h⟩ := bind_eq_ok h
  cases dotted with
  | true =>
    left
    obtain ⟨star, c₂, -, h⟩ := bind_eq_ok h
    cases star with
    | true =>
      obtain ⟨rfl, -⟩ := EStateM.Result.ok.inj h
      rfl
    | false =>
      obtain ⟨field, c₃, -, h⟩ := bind_eq_ok h
      obtain ⟨rfl, -⟩ := EStateM.Result.ok.inj h
      rw [String.toList_append]
      rfl
  | false =>
    right
    obtain ⟨-, rfl, -⟩ := run?_eq_some (orFail_eq_ok h)
    intro char hm
    rw [String.toList_ofList] at hm
    exact List.mem_takeWhile_imp hm

/-- The name of a node has name characters alone. -/
theorem constantLine_name {line : ConstantLine} (h : g.constantLine text = .ok line)
    (hb : line.bitField? = none) : ∀ char ∈ line.name.toList, isNameChar char := by
  obtain ⟨-, c, c', hname⟩ := constantLine_eq_ok h
  refine (constantName_eq_ok hname).resolve_left fun hdot => ?_
  obtain ⟨rest, hrest⟩ := List.head?_eq_some_iff.1 hdot
  simp [ConstantLine.bitField?, hrest] at hb

theorem level?_pos {spaces level : Nat} (hs : 0 < spaces) (h : g.level? spaces = .ok level) :
    1 ≤ level := by
  unfold level? at h
  split_ifs at h with hm
  obtain rfl := Except.ok.inj h
  exact Nat.div_pos (Nat.le_of_dvd hs (Nat.dvd_of_mod_eq_zero hm)) g.unit_pos

theorem level?_le {spaces level : Nat} (h : g.level? spaces = .ok level) : level ≤ spaces := by
  unfold level? at h
  split_ifs at h
  obtain rfl := Except.ok.inj h
  exact Nat.div_le_self _ _

theorem leading_le (text : String) : leading text ≤ text.toList.length :=
  (List.takeWhile_prefix _).length_le

theorem leading_pos (h : text.toList.head? = some ' ') : 0 < leading text := by
  cases ht : text.toList with
  | nil => simp [ht] at h
  | cons c cs => simp_all [leading]

theorem leading_eq_zero (h : text.toList.head? ≠ some ' ') : leading text = 0 :=
  congrArg List.length (Text.takeWhile_indented 0 h)

/-! ### Labels and instructions -/

/-- The name that a label has behind its leading spaces. -/
def labelName? (body : List Char) : Option String :=
  let rest := body.dropWhile isNameChar
  if body.head?.any isNameStart ∧ rest.head? = some ':' ∧ (rest.drop 1).dropWhile (· = ' ') = [] then
    some (String.ofList (body.takeWhile isNameChar))
  else none

theorem read_label? (text : String) :
    read label? text =
      .ok ((labelName? (text.toList.dropWhile (· = ' '))).map (leading text, ·)) := by
  suffices h : ∃ c, label? (.start text) =
      .ok ((labelName? (text.toList.dropWhile (· = ' '))).map (leading text, ·)) c by
    obtain ⟨c, hc⟩ := h
    rw [read, EStateM.run, hc]
  have hspaces : label? (.start text) = _ := bind_of_ok (spaces_apply (.start text)) _
  set start := (Cursor.start text).skipWhile (· = ' ')
  have hbody : start.rest = text.toList.dropWhile (· = ' ') := rfl
  rw [hspaces, ← hbody]
  by_cases hname : start.rest.head?.any isNameStart
  · have hrun : name? start = .ok _ _ := (run?_apply _ _ _).trans (if_pos hname)
    rw [bind_of_ok hrun]
    by_cases hcolon : (start.rest.dropWhile isNameChar).head? = some ':'
    · have hmatch : matchChar ':' (start.skipWhile isNameChar) = .ok true _ := if_pos hcolon
      set stop := ((start.skipWhile isNameChar).skip 1).skipWhile (· = ' ')
      refine ⟨stop, (bind_of_ok hmatch _).trans ?_⟩
      have hafter : stop.rest = ((start.rest.dropWhile isNameChar).drop 1).dropWhile (· = ' ') := rfl
      by_cases hend : stop.rest = []
      · have hsome : labelName? start.rest = some _ := if_pos ⟨hname, hcolon, hafter ▸ hend⟩
        have hatEnd : stop.isAtEnd = true := List.isEmpty_iff.2 hend
        rw [hsome]
        show EStateM.Result.ok (if stop.isAtEnd then _ else _) stop = _
        rw [hatEnd]
        rfl
      · have hnone : labelName? start.rest = none := if_neg fun h => hend (hafter ▸ h.2.2)
        have hatEnd : ¬ stop.isAtEnd := mt List.isEmpty_iff.1 hend
        rw [hnone]
        show EStateM.Result.ok (if stop.isAtEnd then _ else _) stop = _
        rw [if_neg hatEnd]
        rfl
    · have hmatch : matchChar ':' (start.skipWhile isNameChar) = .ok false _ := if_neg hcolon
      have hnone : labelName? start.rest = none := if_neg fun h => hcolon h.2.1
      rw [hnone]
      exact ⟨_, bind_of_ok hmatch _⟩
  · have hrun : name? start = .ok none start := (run?_apply _ _ _).trans (if_neg hname)
    have hnone : labelName? start.rest = none := if_neg fun h => hname h.1
    rw [hnone]
    exact ⟨_, bind_of_ok hrun _⟩

/-- An instruction is letters, then arguments in parentheses or none, then spaces. -/
theorem instructionLine_eq_ok {line : InstructionLine} (h : g.instructionLine text = .ok line) :
    g.level? (leading text) = .ok line.level ∧
      let body := text.toList.dropWhile (· = ' ')
      body.head?.any Char.isAlpha ∧
        ((body.dropWhile Char.isAlpha).head? = some '(' ∨
          ∀ c ∈ body.dropWhile Char.isAlpha, c = ' ') := by
  obtain ⟨level, c, hl, h⟩ := read_indent_eq_ok h
  obtain ⟨func, c₁, hf, h⟩ := bind_eq_ok h
  obtain ⟨args, c₂, ha, h⟩ := bind_eq_ok h
  obtain ⟨_, c₃, hb, h⟩ := bind_eq_ok h
  obtain ⟨_, c₄, he, h⟩ := bind_eq_ok h
  obtain ⟨rfl, -⟩ := EStateM.Result.ok.inj h
  obtain ⟨hstart, -, rfl⟩ := run?_eq_some (orFail_eq_ok hf)
  refine ⟨hl, hstart, ?_⟩
  rcases arguments_eq_ok ha with hopen | ⟨-, rfl⟩
  · exact .inl hopen
  · right
    obtain ⟨-, rfl⟩ := EStateM.Result.ok.inj hb
    simpa [Cursor.skipWhile, Cursor.start, List.dropWhile_eq_nil_iff] using expectEnd_eq_ok he

/-- A run of name characters is one of letters if no other name character follows. -/
theorem dropWhile_isNameChar {cs : List Char}
    (h : ∀ c ∈ (cs.dropWhile Char.isAlpha).head?, ¬ isNameChar c) :
    cs.dropWhile isNameChar = cs.dropWhile Char.isAlpha := by
  induction cs with
  | nil => rfl
  | cons c cs ih =>
    by_cases hc : c.isAlpha
    · have hn : isNameChar c := by simp [isNameChar, Char.isAlphanum, hc]
      rw [List.dropWhile_cons_of_pos hn, List.dropWhile_cons_of_pos hc]
      exact ih (by simpa [hc] using h)
    · rw [List.dropWhile_cons_of_neg hc] at h ⊢
      exact List.dropWhile_cons_of_neg (h c rfl)

/-- A text that is an instruction is no label. -/
theorem labelLine?_of_instructionLine {line : InstructionLine}
    (h : g.instructionLine text = .ok line) : g.labelLine? text = .ok none := by
  obtain ⟨-, -, hstop⟩ := instructionLine_eq_ok h
  set body := text.toList.dropWhile (· = ' ') with hbody
  set rest := body.dropWhile Char.isAlpha with hrest
  have hnext : ∀ c ∈ rest.head?, c = '(' ∨ c = ' ' := by
    intro c hc
    rcases hstop with hopen | hblank
    · exact .inl (Option.some.inj (hc.symm.trans hopen))
    · exact .inr (hblank c (List.mem_of_mem_head? hc))
  -- the name that a label would have is the whole run of letters
  have hname : body.dropWhile isNameChar = rest := dropWhile_isNameChar fun c hc => by
    rcases hnext c hc with rfl | rfl <;> decide
  have hcolon : rest.head? ≠ some ':' := fun hc => by
    rcases hnext ':' hc with h | h <;> simp at h
  have hnone : labelName? body = none := if_neg fun hlabel => hcolon (hname ▸ hlabel.2.1)
  rw [labelLine?, read_label?, ← hbody, hnone]
  rfl

end Grammar

end Codesheet
