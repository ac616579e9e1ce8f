import Codesheet.Proofs.Grammar.Shapes
import Codesheet.Proofs.Scan.Ahead
import Codesheet.Proofs.Scan.Endings

/-! The columns of misfits. A misfit stands behind the longest start of a text that can still be continued to
an accepted one, and a number that does not fit stands where the first such number starts. -/

namespace Codesheet

open LineGrammar

namespace Grammar

open Scan

variable {α : Type} {level : Nat} {word : List Char} {P : Cursor → Prop}

/-! ### The end of a line -/

theorem local_end (a : α) : Local (do Scan.blanks; Scan.expectEnd; return a) :=
  local_blanks.bind fun _ => local_expectEnd.bind fun _ => local_pure a

theorem ends_end (a : α) (P : Cursor → Prop) : Ends P (do Scan.blanks; Scan.expectEnd; return a) fun word =>
    ∃ j, word = LineGrammar.blanks j := by
  refine (((ends_expectEnd anywhere).bind_pure fun _ => a).behindBlanks fun _ _ => trivial).mono ?_
  rintro _ ⟨j, _, rfl, rfl⟩
  exact ⟨j, List.append_nil _⟩

/-! ### Constants -/

theorem local_constantName : Local constantName :=
  local_ifMatch '.' (local_ifMatch '*' (local_pure _) (((local_run? _ _).orFail _).bind fun _ => local_pure _))
    ((local_run? _ _).orFail _)

theorem local_constantBody (level : Nat) : Local (constantBody level) :=
  local_constantName.bind fun _ => local_blanks.bind fun _ => (local_expectChar ':').bind fun _ =>
    local_blanks.bind fun _ => (local_number?.orFail _).bind fun _ => local_end _

theorem ends_constantName (P : Cursor → Prop) :
    Ends P constantName fun word => ∃ more, IsConstantName (word ++ more) := by
  refine (ends_ifMatch (x := '.') (by decide) (ends_ifMatch (x := '*') (by decide)
    (ends_pure _ _ fun _ => False) ((ends_name .bitFieldName nofun _).bind_pure ("." ++ ·)))
    (ends_name .constantName nofun P)).mono ?_
  rintro _ (⟨_, rfl, ⟨_, -, hnever⟩ | rfl⟩ | rfl)
  · exact hnever.elim
  · exact ⟨['a'], .bitField isName_letter⟩
  · exact ⟨['a'], .node isName_letter⟩

theorem viable_constant (level h i : Nat) {name : List Char} (hname : IsConstantName name)
    (hword : Viable IsNumber word) :
    Viable (IsConstant level) (name ++ LineGrammar.blanks h ++ [':'] ++ LineGrammar.blanks i ++ word) := by
  obtain ⟨more, value, hvalue⟩ := hword
  have hconstant : IsConstant level _ _ := .intro hname h i hvalue 0
  refine ⟨more, ⟨level, String.ofList name, value⟩, ?_⟩
  simpa [LineGrammar.blanks] using hconstant

/-- A name with blanks behind it can be continued with a colon and a number. -/
theorem viable_constant_left (level h : Nat) {name : List Char} (hname : IsConstantName name) :
    Viable (IsConstant level) (name ++ LineGrammar.blanks h) := by
  have hviable := viable_constant level h 0 hname (viable_number (.inl rfl))
  rw [List.append_assoc, List.append_assoc] at hviable
  exact hviable.left

theorem ends_constantBody (level : Nat) : Ends P (constantBody level) (Viable (IsConstant level)) := by
  have hvalue : ∀ name, Ends Cursor.Fresh (do
      Scan.blanks
      let value ← Scan.number
      Scan.blanks
      Scan.expectEnd
      return (⟨level, name, value⟩ : ConstantLine)) _ := fun name =>
    (ends_number.bind_anywhere takes_number fun value => ends_end _ _).behindBlanks
      fun hc hpassed => hpassed.fresh_blanks hc
  refine ((ends_constantName P).bind_anywhere takes_constantName fun name =>
    ((hvalue name).behindChar (by decide) anywhere).behindBlanks fun _ _ => trivial).mono ?_
  -- the run has stopped within the name, in front of the colon, within the number, or behind it
  rintro _ (⟨more, hname⟩ | ⟨name, _, _, _, rfl, ⟨-, hname⟩, h, _, rfl,
    rfl | ⟨_, rfl, i, _, rfl, hword | ⟨number, _, _, value, rfl, hvalue, j, rfl⟩⟩⟩)
  · exact (viable_constant_left level 0 hname).left.left
  · rw [List.append_nil]
    exact viable_constant_left level h hname
  · simpa using viable_constant level h i hname (viable_number hword)
  · have hconstant : IsConstant level _ _ := .intro hname h i hvalue j
    simpa using viable_of_word hconstant

/-! ### Entries -/

theorem local_entryBody (level : Nat) : Local (entryBody level) :=
  ((local_run? _ _).orFail _).bind fun _ => (local_expectChar ':').bind fun _ =>
    local_series.bind fun _ => local_expectEnd.bind fun _ => local_pure _

theorem viable_entry (level : Nat) {name : List Char} (hname : IsName name) (hword : Viable IsSeries word) :
    Viable (IsEntry level) (name ++ ':' :: word) := by
  obtain ⟨more, terms, hseries⟩ := hword
  obtain ⟨s, rfl⟩ := exists_terms_of_isSeries hseries
  refine ⟨more, ⟨level, String.ofList name, s⟩, ?_⟩
  rw [List.append_assoc, List.cons_append]
  exact .intro hname hseries

theorem viable_series_nil : Viable IsSeries [] := by
  obtain ⟨more, t, ht⟩ := viable_target_nil
  exact ⟨more, _, by simpa [LineGrammar.blanks] using IsSeries.intro 0 ht 0 .nil⟩

theorem ends_entryBody (level : Nat) : Ends P (entryBody level) (Viable (IsEntry level)) := by
  have hseries : ∀ name, Ends Cursor.Fresh (do
      let series ← Scan.series
      Scan.expectEnd
      return (⟨level, name, series⟩ : EntryLine)) _ := fun name =>
    ends_series.bind_anywhere takes_series fun s => (ends_expectEnd _).bind_pure _
  refine ((ends_name .entryName nofun P).bind_anywhere (takes_name _) fun name =>
    (hseries name).behindChar (by decide) anywhere).mono ?_
  rintro _ (rfl | ⟨name, _, _, _, rfl, ⟨-, hname⟩, rfl | ⟨_, rfl, hv | ⟨u, _, _, s, rfl, hu, rfl⟩⟩⟩)
  · exact (viable_entry level isName_letter viable_series_nil).left (u := [])
  · rw [List.append_nil]
    exact (viable_entry level hname viable_series_nil).left
  · exact viable_entry level hname hv
  · rw [List.append_nil]
    exact viable_entry level hname (viable_of_word hu)

/-! ### Arguments -/

theorem moreArguments_congr {n m : Nat} {c : Cursor} (hn : c.rest.length < n) (hm : c.rest.length < m)
    (args : List Series) : moreArguments n args c = moreArguments m args c := by
  induction n generalizing m c args with
  | zero => cases hn
  | succ n ih =>
    cases m with
    | zero => cases hm
    | succ m =>
      apply bind_congr_of_ok
      intro s c₁ h₁
      apply bind_congr_of_ok
      intro found c₂ h₂
      cases found with
      | false => rfl
      | true =>
        have hle := local_series.length_le h₁
        have hlength := matchChar_eq_true h₂
        exact ih (by omega) (by omega) _

theorem local_moreArguments (n : Nat) (args : List Series) : Local (moreArguments n args) := by
  induction n generalizing args with
  | zero => exact local_fail .argumentEnd
  | succ n ih =>
    exact local_series.bind fun s => local_ifMatch ',' (ih _)
      (local_ifMatch ')' (local_pure _) (local_fail .argumentEnd))

theorem local_arguments : Local arguments :=
  local_ifMatch '(' (local_bounded (fun n => moreArguments (n + 1) [])
    (fun n => local_moreArguments (n + 1) []) fun hn hm =>
      moreArguments_congr (Nat.lt_succ_of_le hn) (Nat.lt_succ_of_le hm) []) (local_pure [])

theorem viable_arguments_of_series {u : List Char} (hu : Viable IsSeries u) :
    Viable IsArguments ('(' :: u) := by
  obtain ⟨more, terms, hseries⟩ := hu
  obtain ⟨s, rfl⟩ := exists_terms_of_isSeries hseries
  refine ⟨more ++ [')'], [s], ?_⟩
  simpa using IsArguments.present hseries .nil

/-- One argument more in front of arguments. -/
theorem viable_arguments_of_further {u v : List Char} {s : Series} (hu : IsSeries u s.terms)
    (hv : Viable IsArguments ('(' :: v)) : Viable IsArguments ('(' :: (u ++ ',' :: v)) := by
  obtain ⟨more, args, hargs⟩ := hv
  rw [List.cons_append] at hargs
  generalize hword : '(' :: (v ++ more) = word at hargs
  cases hargs with
  | absent => cases hword
  | @present w t ht rest args hrest =>
    obtain ⟨-, hbehind⟩ := List.cons.inj hword
    refine ⟨more, s :: t :: args, ?_⟩
    have hargs := IsArguments.present hu (.cons ⟨w, rfl, ht⟩ hrest)
    simpa [hbehind] using hargs

theorem ends_moreArguments (n : Nat) (args : List Series) :
    Ends Cursor.Fresh (moreArguments n args) fun word => Viable IsArguments ('(' :: word) := by
  induction n generalizing args with
  | zero =>
    -- a bound that is too small ends the run early, and the empty start is open there too
    refine (ends_fail .argumentEnd nofun _).mono ?_
    rintro _ rfl
    exact viable_arguments_of_series viable_series_nil
  | succ n ih =>
    refine (ends_series.bind_anywhere takes_series fun s => ends_ifMatch (x := ',') (by decide) (ih _)
      (ends_ifMatch (x := ')') (by decide) (ends_pure _ _ fun _ => False)
        (ends_fail .argumentEnd nofun _))).mono ?_
    rintro _ (hword | ⟨u, _, _, s, rfl, hu, ⟨v, rfl, hv⟩ | ⟨_, rfl, hnever⟩ | rfl⟩)
    · exact viable_arguments_of_series hword
    · exact viable_arguments_of_further hu hv
    · exact hnever.elim
    · rw [List.append_nil]
      exact viable_arguments_of_series (viable_of_word hu)

theorem ends_arguments (P : Cursor → Prop) : Ends P arguments (Viable IsArguments) := by
  refine (ends_ifMatch (x := '(') (by decide) (ends_get fun c => ends_moreArguments (c.rest.length + 1) [])
    (ends_pure _ P fun _ => False)).mono ?_
  rintro _ (⟨v, rfl, hv⟩ | hnever)
  · exact hv
  · exact hnever.elim

/-! ### Instructions -/

theorem local_instructionBody (level : Nat) : Local (instructionBody level) :=
  ((local_run? _ _).orFail _).bind fun _ => local_arguments.bind fun _ => local_end _

theorem viable_instruction (level : Nat) {func : List Char} (hfunc : IsLetters func)
    (hword : Viable IsArguments word) : Viable (IsInstruction level) (func ++ word) := by
  obtain ⟨more, args, hargs⟩ := hword
  have hinstruction : IsInstruction level _ _ := .intro hfunc hargs 0
  refine ⟨more, ⟨level, String.ofList func, args⟩, ?_⟩
  simpa [LineGrammar.blanks] using hinstruction

theorem ends_instructionBody (level : Nat) : Ends P (instructionBody level) (Viable (IsInstruction level)) := by
  refine ((ends_letters .instructionName nofun P).bind_anywhere (takes_letters _) fun func =>
    (ends_arguments _).bind_anywhere takes_arguments fun args =>
      ends_end (⟨level, func, args⟩ : InstructionLine) _).mono ?_
  rintro _ (rfl | ⟨func, _, _, _, rfl, ⟨-, hfunc⟩, hword | ⟨word, _, _, args, rfl, hargs, j, rfl⟩⟩)
  · have hletter : IsLetters ['a'] :=
      ⟨List.cons_ne_nil _ _, List.forall_mem_singleton.2 (.inr ⟨by decide, by decide⟩)⟩
    exact (viable_instruction level hletter (viable_of_word .absent)).left (u := [])
  · exact viable_instruction level hfunc hword
  · rw [← List.append_assoc]
    exact viable_of_word (.intro hfunc hargs j)

/-! ### Whole texts -/

/-- A start of texts that can be continued to an accepted one. -/
def Open (recognise : String → Except Fault α) (start : List Char) : Prop :=
  ∃ more a, recognise (String.ofList (start ++ more)) = .ok a

/-- What a fault of a recogniser tells about its text. The longest open start is known at every misfit, and
the first numeral that does not fit is known where one was in the way. -/
structure Located (recognise : String → Except Fault α) (text : String) (column : Nat) (expected : Expected)
    (source : String) : Prop where
  source : source = text
  counted : 1 ≤ column ∧ column - 1 ≤ text.toList.length
  start : Open recognise (text.toList.take (column - 1))
  longest : (∀ radix, expected ≠ .fittingNumeral radix) →
    ∀ n ≤ text.toList.length, Open recognise (text.toList.take n) → n ≤ column - 1
  numeral : ∀ radix, expected = .fittingNumeral radix →
    ∃ value, NumeralAt text.toList (column - 1) value ∧ 2 ^ 32 ≤ value
  first : ∀ radix, expected = .fittingNumeral radix →
    ∀ place < column - 1, ∀ value, NumeralAt text.toList place value → value < 2 ^ 32

/-- A scanner that has stopped in front of a character refuses every text with the same start up to there. -/
theorem not_open_of_stop {scan : Scan α} (h : Local scan) {text : String} {fault : Fault} {c : Cursor} {d : Char}
    {rest : List Char} (herror : scan (.start text) = .error fault c) (htext : text.toList = word ++ d :: rest)
    (hrest : c.rest = d :: rest) (rest' : List Char) : ¬ Open (read scan) (word ++ d :: rest') := by
  rintro ⟨more, a, haccept⟩
  have hstart : Cursor.start text = ⟨[], word ++ d :: rest⟩ := by rw [Cursor.start, htext]
  rw [hstart] at herror
  have hsame := h.same (by rw [herror]; exact hrest) (rest' ++ more)
  rw [read_eq_answer, Cursor.start, String.toList_ofList, List.append_assoc, List.cons_append] at haccept
  generalize scan ⟨[], word ++ d :: (rest' ++ more)⟩ = result at hsame haccept
  rw [herror] at hsame
  cases hsame
  cases haccept

/-- Where a scanner that looks no further ahead has ended, its fault is located. -/
theorem located_of_ending {scan : Scan α} (hlocal : Local scan) {V : List Char → Prop}
    (hopen : ∀ word, V word → Open (read scan) word) {text : String}
    (hend : Ending V (.start text) (scan (.start text))) {line column : Nat} {expected : Expected}
    {source : String} (h : read scan text = .error (.grammar line column expected source)) :
    Located (read scan) text column expected source := by
  have hplace : ∀ {word c}, (Cursor.start text).Passes word c →
      c.text = text ∧ c.column - 1 = word.length ∧ text.toList = word ++ c.rest := by
    intro word c hpassed
    refine ⟨hpassed.text.trans (Cursor.text_start text), ?_, hpassed.rest⟩
    rw [hpassed.column, Nat.add_comm]
    rfl
  rw [read_eq_answer] at h
  generalize hresult : scan (.start text) = result at hend h
  cases hend with
  | ok spared => cases h
  | @misfit _ word c passed viable other =>
    obtain ⟨htext, hcolumn, happend⟩ := hplace passed
    obtain ⟨-, rfl, rfl, rfl⟩ := Fault.grammar.inj (Except.error.inj h)
    refine ⟨htext, ⟨Nat.succ_pos _, ?_⟩, ?_, fun _ n hn hopen' => ?_, ?_, ?_⟩
    · rw [hcolumn, happend, List.length_append]
      exact Nat.le_add_right _ _
    · rw [hcolumn, happend, List.take_left]
      exact hopen word viable
    · -- a longer start has the character that the scanner has stopped at
      by_contra hlt
      rw [hcolumn, Nat.not_le] at hlt
      obtain ⟨j, rfl⟩ := Nat.exists_eq_add_of_lt hlt
      cases hrest : c.rest with
      | nil =>
        rw [happend, hrest, List.append_nil] at hn
        omega
      | cons d rest =>
        rw [hrest] at happend
        rw [happend, Nat.add_assoc, List.take_length_add_append, List.take_succ_cons] at hopen'
        exact not_open_of_stop hlocal hresult happend hrest _ hopen'
    · exact fun radix hradix => absurd hradix (other radix)
    · exact fun radix hradix => absurd hradix (other radix)
  | @overflow radix value word c _ passed viable spared numeral large =>
    obtain ⟨htext, hcolumn, happend⟩ := hplace passed
    obtain ⟨-, rfl, rfl, rfl⟩ := Fault.grammar.inj (Except.error.inj h)
    rw [Cursor.text_start] at numeral
    refine ⟨htext, ⟨Nat.succ_pos _, ?_⟩, ?_, fun hother => absurd rfl (hother radix), ?_, ?_⟩
    · rw [hcolumn, happend, List.length_append]
      exact Nat.le_add_right _ _
    · rw [hcolumn, happend, List.take_left]
      exact hopen word viable
    · exact fun _ _ => ⟨value, numeral, large⟩
    · intro _ _ place hlt value' hvalue
      exact spared place (Nat.zero_le _) hlt value' (by rwa [Cursor.text_start])

theorem local_indent (g : Grammar) : Local g.indent := by
  refine local_spaces.bind fun spaces => ?_
  cases g.level? spaces with
  | ok level => exact local_pure level
  | error fault => exact local_throw fault

/-- The faults of a line are located if those of its body are, at every level. -/
theorem located_of_line {next : Nat → Scan α} {Body : Nat → List Char → α → Prop} (g : Grammar)
    (hlocal : ∀ level, Local (next level))
    (hends : ∀ level, Ends Cursor.Fresh (next level) (Viable (Body level)))
    (haccept : ∀ text a, IsLine g.unit Body text.toList a → read (g.indent >>= next) text = .ok a)
    {text : String} {line column : Nat} {expected : Expected} {source : String}
    (h : read (g.indent >>= next) text = .error (.grammar line column expected source)) :
    Located (read (g.indent >>= next)) text column expected source := by
  have hindent := indent_start g text
  by_cases hk : g.unit ∣ leading text
  · rw [if_pos hk] at hindent
    refine located_of_ending ((local_indent g).bind hlocal) (V := Viable (IsLine g.unit Body)) ?_ ?_ h
    · rintro word ⟨more, a, hword⟩
      exact ⟨more, a, haccept _ a (by rwa [String.toList_ofList])⟩
    · have hpassed := Cursor.Passes.skipWhile (.start text) (· = ' ')
      have hblanks : (Cursor.start text).rest.takeWhile (· = ' ') = _ := takeWhile_eq_blanks text
      rw [hblanks] at hpassed
      rw [bind_of_ok hindent]
      refine (hends _ _ (hpassed.fresh_blanks (Cursor.fresh_start text))).after hpassed hpassed.spares_blanks ?_
      rintro v ⟨more, a, hbody⟩
      refine ⟨more, a, ?_⟩
      rw [List.append_assoc]
      exact .intro hk hbody
  · rw [if_neg hk] at hindent
    rw [read_eq_answer, bind_apply, hindent] at h
    cases h

theorem local_seriesBody : Local (Scan.series >>= fun s => Scan.expectEnd >>= fun _ => pure s) :=
  local_series.bind fun _ => local_expectEnd.bind fun _ => local_pure _

theorem ends_seriesBody : Ends Cursor.Fresh (Scan.series >>= fun s => Scan.expectEnd >>= fun _ => pure s)
    (Viable IsSeries) := by
  refine (ends_series.bind_anywhere takes_series fun s => (ends_expectEnd _).bind_pure fun _ => s).mono ?_
  rintro _ (hword | ⟨u, _, _, s, rfl, hu, rfl⟩)
  · exact hword
  · rw [List.append_nil]
    exact viable_of_word hu

theorem located_series {text : String} {line column : Nat} {expected : Expected} {source : String}
    (h : Series.ofText? text = .error (.grammar line column expected source)) :
    Located Series.ofText? text column expected source := by
  refine located_of_ending local_seriesBody (V := Viable IsSeries) ?_ (ends_seriesBody _ (Cursor.fresh_start text)) h
  rintro word ⟨more, terms, hword⟩
  obtain ⟨s, rfl⟩ := exists_terms_of_isSeries hword
  exact ⟨more, s, Series.ofText?_eq_ok_iff.2 (by rwa [String.toList_ofList])⟩

/-- Every misfit of a series, a constant, an entry and an instruction is located in its text. -/
theorem faults_located (g : Grammar) (text : String) (line column : Nat) (expected : Expected)
    (source : String) :
    (Series.ofText? text = .error (.grammar line column expected source) →
      Located Series.ofText? text column expected source) ∧
    (g.constantLine text = .error (.grammar line column expected source) →
      Located g.constantLine text column expected source) ∧
    (g.entryLine text = .error (.grammar line column expected source) →
      Located g.entryLine text column expected source) ∧
    (g.instructionLine text = .error (.grammar line column expected source) →
      Located g.instructionLine text column expected source) := by
  refine ⟨located_series, ?_, ?_, ?_⟩
  · exact located_of_line g local_constantBody ends_constantBody fun _ _ => constantLine_eq_ok_iff.2
  · exact located_of_line g local_entryBody ends_entryBody fun text a => ((entryLine_exact g text).1 a).2
  · exact located_of_line g local_instructionBody ends_instructionBody fun _ _ =>
      instructionLine_eq_ok_iff.2

/-- A doubled operator, a number that does not fit, a marker without digits and a list that ends early. -/
theorem faults_located_of_four :
    Located Series.ofText? "1 + + 2" 5 (.referenceAfter .plus) "1 + + 2" ∧
      Located standard.constantLine "  a: 4294967296 b" 6 (.fittingNumeral .decimal) "  a: 4294967296 b" ∧
      Located standard.entryLine "a: b + 0x" 10 .hexDigits "a: b + 0x" ∧
      Located standard.instructionLine "Sum(1, a" 9 .argumentEnd "Sum(1, a" := by
  refine ⟨?_, ?_, ?_, ?_⟩
  · exact (faults_located standard _ 0 _ _ _).1 (by decide +kernel)
  · exact (faults_located standard _ 0 _ _ _).2.1 (by decide +kernel)
  · exact (faults_located standard _ 0 _ _ _).2.2.1 (by decide +kernel)
  · exact (faults_located standard _ 0 _ _ _).2.2.2 (by decide +kernel)

end Grammar

end Codesheet
