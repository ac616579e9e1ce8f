import Codesheet.Proofs.Scan.Terms

/-! Which texts are accepted. A series, a constant and an instruction are accepted exactly if the grammar
derives them, and they are what they are derived as. Every other text has the fault of its indent or, where
the indent makes a level, a misfit. -/

namespace Codesheet

open LineGrammar

namespace Grammar

open Scan

variable {α : Type} {word rest : List Char} {text : String} {g : Grammar}

/-! ### Texts -/

theorem read_eq_answer (scan : Scan α) (text : String) : read scan text = answer (scan (.start text)) := by
  rw [read, EStateM.run]
  cases scan (.start text) <;> rfl

theorem read_decided {scan : Scan α} {L : List Char → α → Prop}
    (h : Takes scan fun word rest a => rest = [] ∧ L word a)
    (hread : ∀ word a, L word a → Reads scan word [] a) (text : String) :
    Decided (L text.toList) text (read scan text) := by
  have hdecided := h.decided hread (.start text)
  rwa [Cursor.text_start, ← read_eq_answer] at hdecided

theorem takeWhile_eq_blanks (text : String) :
    text.toList.takeWhile (· = ' ') = LineGrammar.blanks (leading text) :=
  List.eq_replicate_of_mem fun c hc => by simpa using List.mem_takeWhile_imp hc

/-- The indent of a line is all of its leading spaces, since no body starts with one. -/
theorem isLine_iff {Body : Nat → List Char → α → Prop}
    (hfirst : ∀ level word a, Body level word a → word.head? ≠ some ' ') {a : α} :
    IsLine g.unit Body text.toList a ↔
      g.unit ∣ leading text ∧ Body (leading text / g.unit) (text.toList.dropWhile (· = ' ')) a := by
  constructor
  · generalize hline : text.toList = line
    rintro ⟨hk, hbody⟩
    rename_i k body
    have hhead := hfirst _ _ _ hbody
    have htake := Text.takeWhile_indented k hhead
    have hdrop := Text.dropWhile_indented k hhead
    rw [leading, hline, LineGrammar.blanks, htake, hdrop, List.length_replicate]
    exact ⟨hk, hbody⟩
  · rintro ⟨hk, hbody⟩
    rw [← List.takeWhile_append_dropWhile (p := (· = ' ')) (l := text.toList), takeWhile_eq_blanks]
    exact .intro hk hbody

theorem indent_start (g : Grammar) (text : String) :
    g.indent (.start text) =
      if g.unit ∣ leading text then
        .ok (leading text / g.unit) ((Cursor.start text).skipWhile (· = ' '))
      else
        .error (.indent 0 (.partialUnit (leading text) g.unit)) ((Cursor.start text).skipWhile (· = ' ')) := by
  have hspaces : ((Cursor.start text).rest.takeWhile (· = ' ')).length = leading text := rfl
  rw [indent_apply, hspaces]
  split_ifs with hk
  · have hlevel : g.level? (leading text) = .ok (leading text / g.unit) :=
      if_pos (Nat.mod_eq_zero_of_dvd hk)
    rw [hlevel]
  · have hlevel : g.level? (leading text) = .error (.indent 0 (.partialUnit (leading text) g.unit)) :=
      if_neg (mt Nat.dvd_of_mod_eq_zero hk)
    rw [hlevel]

/-- A line is accepted, or it has the fault of its indent, or else a misfit. -/
theorem read_indent_exact {next : Nat → Scan α} {Body : Nat → List Char → α → Prop}
    (h : ∀ level, Takes (next level) fun word rest a => rest = [] ∧ Body level word a)
    (hread : ∀ level word a, Body level word a → Reads (next level) word [] a)
    (hfirst : ∀ level word a, Body level word a → word.head? ≠ some ' ') (g : Grammar) (text : String) :
    (∀ a, read (g.indent >>= next) text = .ok a ↔ IsLine g.unit Body text.toList a) ∧
      (read (g.indent >>= next) text = .error (.indent 0 (.partialUnit (leading text) g.unit)) ↔
        ¬ g.unit ∣ leading text) ∧
      ((∃ column expected, read (g.indent >>= next) text = .error (.grammar 0 column expected text)) ↔
        g.unit ∣ leading text ∧ ∀ a, ¬ IsLine g.unit Body text.toList a) := by
  simp only [isLine_iff hfirst]
  have hindent := indent_start g text
  by_cases hk : g.unit ∣ leading text
  · rw [if_pos hk] at hindent
    set body := (Cursor.start text).skipWhile (· = ' ') with hbody
    have hdecided := (h (leading text / g.unit)).decided (hread _) body
    rw [← bind_of_ok hindent next, ← read_eq_answer, hbody, Cursor.text_skipWhile, Cursor.text_start]
      at hdecided
    -- the body is scanned from behind the leading spaces, at the level that they make
    have hlanguage : ∀ a, (g.unit ∣ leading text ∧ Body (leading text / g.unit)
        (text.toList.dropWhile (· = ' ')) a) ↔ Body (leading text / g.unit) body.rest a :=
      fun a => and_iff_right hk
    simp only [hlanguage]
    refine ⟨hdecided.ok_iff, ⟨fun herror => ?_, fun hnot => absurd hk hnot⟩, ?_⟩
    · rw [herror] at hdecided
      cases hdecided
    · exact hdecided.misfit_iff.trans (and_iff_right hk).symm
  · rw [if_neg hk] at hindent
    have hresult : read (g.indent >>= next) text =
        .error (.indent 0 (.partialUnit (leading text) g.unit)) := by
      rw [read_eq_answer, bind_apply, hindent]
      rfl
    rw [hresult]
    exact ⟨fun a => ⟨nofun, fun h => absurd h.1 hk⟩, ⟨fun _ => hk, fun _ => rfl⟩,
      ⟨nofun, fun h => absurd h.1 hk⟩⟩

/-! ### The end of a line -/

theorem takes_end (a : α) : Takes (do Scan.blanks; Scan.expectEnd; return a) fun word rest b =>
    rest = [] ∧ b = a ∧ ∃ j, word = LineGrammar.blanks j := by
  refine (takes_blanks.bind fun _ => takes_expectEnd.bind_pure fun _ => a).mono ?_
  rintro _ rest b ⟨_, _, -, rfl, ⟨j, rfl⟩, -, ⟨rfl, rfl⟩, rfl⟩
  exact ⟨rfl, rfl, j, List.append_nil _⟩

theorem reads_end (j : Nat) (a : α) :
    Reads (do Scan.blanks; Scan.expectEnd; return a) (LineGrammar.blanks j) [] a := by
  have hall : Reads (do Scan.blanks; Scan.expectEnd; return a) (List.replicate j ' ' ++ []) [] a :=
    (reads_blanks j (by decide)).bind (reads_expectEnd.bind_pure fun _ => a)
  rwa [List.append_nil] at hall

theorem follows_blanks (j : Nat) : Follows [' '] (LineGrammar.blanks j ++ []) :=
  (follows_nil []).replicate ' ' j

/-! ### Constants -/

theorem takes_constantName :
    Takes constantName fun word _ name => name = String.ofList word ∧ IsConstantName word := by
  refine (takes_ifMatch '.' (takes_ifMatch '*' (takes_pure _)
    ((takes_name .bitFieldName).bind_pure ("." ++ ·))) (takes_name .constantName)).mono ?_
  rintro word rest name (⟨_, rfl, ⟨_, rfl, rfl, rfl⟩ | ⟨_, ⟨rfl, hname⟩, rfl⟩⟩ | ⟨rfl, hname⟩)
  · exact ⟨rfl, .allBits⟩
  · exact ⟨String.ofList_append.symm, .bitField hname⟩
  · exact ⟨rfl, .node hname⟩

theorem reads_constantName (h : IsConstantName word) (hrest : Apart isNameChar rest) :
    Reads constantName word rest (String.ofList word) := by
  cases h with
  | allBits => exact reads_ifMatch '.' (reads_ifMatch '*' (reads_pure _ rest))
  | @bitField name h =>
    have hstar : (name ++ rest).head? ≠ some '*' := head?_of_isName h (by decide) rest
    have hread := (reads_name h hrest .bitFieldName).bind_pure ("." ++ ·)
    rw [show "." ++ String.ofList name = String.ofList ('.' :: name) from String.ofList_append.symm] at hread
    exact reads_ifMatch '.' (reads_ifMatch_of_ne hstar hread)
  | node h =>
    exact reads_ifMatch_of_ne (head?_of_isName h (by decide) rest) (reads_name h hrest .constantName)

/-- What is scanned behind the indent of a constant. -/
def constantBody (level : Nat) : Scan ConstantLine := do
  let name ← constantName
  Scan.blanks
  Scan.expectChar ':'
  Scan.blanks
  let value ← Scan.number
  Scan.blanks
  Scan.expectEnd
  return ⟨level, name, value⟩

theorem takes_constantBody (level : Nat) :
    Takes (constantBody level) fun word rest line => rest = [] ∧ IsConstant level word line := by
  refine (takes_constantName.bind fun name => takes_blanks.bind fun _ => (takes_expectChar ':').bind fun _ =>
    takes_blanks.bind fun _ => takes_number.bind fun value =>
    takes_end (⟨level, name, value⟩ : ConstantLine)).mono ?_
  rintro _ rest _ ⟨name, _, _, rfl, ⟨rfl, hname⟩, _, _, -, rfl, ⟨h, rfl⟩, _, _, -, rfl, rfl, _, _, -, rfl,
    ⟨i, rfl⟩, number, _, value, rfl, hvalue, rfl, rfl, j, rfl⟩
  have hconstant : IsConstant level _ _ := .intro hname h i hvalue j
  refine ⟨rfl, ?_⟩
  simpa only [LineGrammar.blanks, List.append_assoc] using hconstant

theorem reads_constantBody (level : Nat) (word : List Char) (line : ConstantLine)
    (h : IsConstant level word line) : Reads (constantBody level) word [] line := by
  obtain ⟨hname, h, i, hvalue, j⟩ := h
  simp only [List.append_assoc]
  refine (reads_constantName hname ?_).bind ((reads_blanks h ?_).bind ((reads_expectChar ':' _).bind
    ((reads_blanks i ?_).bind ((reads_number hvalue ?_).bind (reads_end j _)))))
  · rw [List.append_assoc]
    exact ((follows_cons (List.mem_singleton_self ':') _).replicate ' ' h).apart (by decide)
  · exact (follows_cons (List.mem_singleton_self ':') _).head?_ne (by decide)
  · rw [List.append_assoc]
    exact head?_of_isNumber hvalue (by decide) _
  · exact (follows_blanks j).apart (by decide)

theorem head?_of_isConstantName (h : IsConstantName word) (more : List Char) :
    (word ++ more).head? ≠ some ' ' := by
  cases h with
  | node hname => exact head?_of_isName hname (by decide) more
  | bitField _ => exact fun heq => absurd (Option.some.inj heq) (by decide)
  | allBits => exact fun heq => absurd (Option.some.inj heq) (by decide)

theorem head?_of_isConstant (level : Nat) (word : List Char) (line : ConstantLine)
    (h : IsConstant level word line) : word.head? ≠ some ' ' := by
  obtain ⟨hname, h, i, hvalue, j⟩ := h
  simp only [List.append_assoc]
  exact head?_of_isConstantName hname _

/-! ### Arguments -/

theorem takes_moreArguments (n : Nat) (args : List Series) :
    Takes (moreArguments n args) fun word _ all =>
      ∃ u s v more, word = u ++ v ++ [')'] ∧ IsSeries u s.terms ∧ Many IsFurther v more ∧
        all = args ++ s :: more := by
  induction n generalizing args with
  | zero => exact takes_fail _ _
  | succ n ih =>
    refine (takes_series.bind fun s => takes_ifMatch ',' (ih (args ++ [s]))
      (takes_ifMatch ')' (takes_pure (args ++ [s])) (takes_fail .argumentEnd fun _ _ _ => False))).mono ?_
    rintro _ rest all ⟨u, _, s, rfl, hs, ⟨_, rfl, w, t, v, more, rfl, ht, hmore, rfl⟩ |
      ⟨_, rfl, rfl, rfl⟩ | hnever⟩
    · refine ⟨u, s, ',' :: w ++ v, t :: more, ?_, hs, .cons ⟨w, rfl, ht⟩ hmore, ?_⟩
      · simp
      · simp
    · exact ⟨u, s, [], [], by simp, hs, .nil, rfl⟩
    · exact hnever.elim

/-- An argument takes its comma at least, so the length of the further ones bounds their number. -/
theorem reads_moreArguments {u v : List Char} {more : List Series} (hmore : Many IsFurther v more)
    {s : Series} (h : IsSeries u s.terms) {n : Nat} (hn : v.length < n) (args : List Series)
    (rest : List Char) :
    Reads (moreArguments n args) (u ++ (v ++ [')'])) rest (args ++ s :: more) := by
  induction hmore generalizing u s n args with
  | nil =>
    cases n with
    | zero => cases hn
    | succ n =>
      have hclose := follows_cons (List.mem_singleton_self ')') rest
      refine (reads_series h (follows_cons (by decide) _)).bind
        (reads_ifMatch_of_ne (hclose.head?_ne (by decide)) ?_)
      exact reads_ifMatch ')' (reads_pure _ rest)
  | @cons _ words t more first _ ih =>
    obtain ⟨w, rfl, ht⟩ := first
    cases n with
    | zero => cases hn
    | succ n =>
      have hwords : words.length < n := by
        simp only [List.length_append, List.length_cons] at hn
        omega
      have hread := ih ht hwords (args ++ [s])
      rw [List.append_assoc, List.singleton_append] at hread
      rw [List.append_assoc, List.cons_append]
      exact (reads_series h (follows_cons (by decide) _)).bind (reads_ifMatch ',' hread)

theorem takes_arguments : Takes arguments fun word _ args => IsArguments word args := by
  refine (takes_ifMatch '(' (takes_get fun c => takes_moreArguments (c.rest.length + 1) [])
    (takes_pure [])).mono ?_
  rintro _ rest args (⟨_, rfl, u, s, v, more, rfl, hs, hmore, rfl⟩ | ⟨rfl, rfl⟩)
  · exact .present hs hmore
  · exact .absent

theorem reads_arguments {args : List Series} (h : IsArguments word args) (hrest : rest.head? ≠ some '(') :
    Reads arguments word rest args := by
  cases h with
  | absent => exact reads_ifMatch_of_ne hrest (reads_pure [] rest)
  | @present u s hs v more hmore =>
    refine reads_ifMatch '(' (reads_get fun c hc => ?_)
    have hn : v.length < c.rest.length + 1 := by
      simp only [hc, List.length_append]
      omega
    rw [List.append_assoc]
    exact reads_moreArguments hmore hs hn [] rest

/-! ### Instructions -/

/-- What is scanned behind the indent of an instruction. -/
def instructionBody (level : Nat) : Scan InstructionLine := do
  let func ← Scan.orFail Scan.letters? .instructionName
  let args ← arguments
  Scan.blanks
  Scan.expectEnd
  return ⟨level, func, args⟩

theorem takes_instructionBody (level : Nat) :
    Takes (instructionBody level) fun word rest line => rest = [] ∧ IsInstruction level word line := by
  refine ((takes_letters .instructionName).bind fun func => takes_arguments.bind fun args =>
    takes_end (⟨level, func, args⟩ : InstructionLine)).mono ?_
  rintro _ rest _ ⟨func, _, _, rfl, ⟨rfl, hfunc⟩, word, _, args, rfl, hargs, rfl, rfl, j, rfl⟩
  have hinstruction : IsInstruction level _ _ := .intro hfunc hargs j
  rw [List.append_assoc] at hinstruction
  exact ⟨rfl, hinstruction⟩

theorem reads_instructionBody (level : Nat) (word : List Char) (line : InstructionLine)
    (h : IsInstruction level word line) : Reads (instructionBody level) word [] line := by
  obtain ⟨hfunc, hargs, j⟩ := h
  have hblanks := follows_blanks j
  rw [List.append_assoc]
  refine (reads_letters hfunc ?_ _).bind ((reads_arguments hargs (hblanks.head?_ne (by decide))).bind
    (reads_end j _))
  cases hargs with
  | absent => exact hblanks.apart (by decide)
  | present _ _ => exact (follows_cons (List.mem_singleton_self '(') _).apart (by decide)

theorem head?_of_isInstruction (level : Nat) (word : List Char) (line : InstructionLine)
    (h : IsInstruction level word line) : word.head? ≠ some ' ' := by
  obtain ⟨hfunc, hargs, j⟩ := h
  obtain ⟨c, cs, rfl, hc, -⟩ := isLetters_iff.1 hfunc
  intro heq
  obtain rfl := Option.some.inj heq
  cases hc

/-! ### What is accepted -/

theorem constantLine_eq_ok_iff {line : ConstantLine} :
    g.constantLine text = .ok line ↔ IsConstantLine g.unit text.toList line :=
  (read_indent_exact takes_constantBody reads_constantBody head?_of_isConstant g text).1 line

/-- A text that is no constant has the fault of its indent or a misfit. -/
theorem constantLine_eq_error {fault : Fault} (h : g.constantLine text = .error fault) :
    fault = .indent 0 (.partialUnit (leading text) g.unit) ∨
      ∃ column expected, fault = .grammar 0 column expected text := by
  obtain ⟨hok, hpartial, hmisfit⟩ :=
    read_indent_exact takes_constantBody reads_constantBody head?_of_isConstant g text
  by_cases hk : g.unit ∣ leading text
  · by_cases hline : ∃ line, IsConstantLine g.unit text.toList line
    · obtain ⟨line, hline⟩ := hline
      cases h.symm.trans ((hok line).2 hline)
    · obtain ⟨column, expected, herror⟩ := hmisfit.2 ⟨hk, not_exists.1 hline⟩
      exact .inr ⟨column, expected, Except.error.inj (h.symm.trans herror)⟩
  · exact .inl (Except.error.inj (h.symm.trans (hpartial.2 hk)))

theorem instructionLine_eq_ok_iff {line : InstructionLine} :
    g.instructionLine text = .ok line ↔ IsInstructionLine g.unit text.toList line :=
  (read_indent_exact takes_instructionBody reads_instructionBody head?_of_isInstruction g text).1 line

theorem constantLine_exact (g : Grammar) (text : String) :
    (∀ line, g.constantLine text = .ok line ↔ IsConstantLine g.unit text.toList line) ∧
      (g.constantLine text = .error (.indent 0 (.partialUnit (leading text) g.unit)) ↔
        ¬ g.unit ∣ leading text) ∧
      ((∃ column expected, g.constantLine text = .error (.grammar 0 column expected text)) ↔
        g.unit ∣ leading text ∧ ∀ line, ¬ IsConstantLine g.unit text.toList line) :=
  read_indent_exact takes_constantBody reads_constantBody head?_of_isConstant g text

theorem instructionLine_exact (g : Grammar) (text : String) :
    (∀ line, g.instructionLine text = .ok line ↔ IsInstructionLine g.unit text.toList line) ∧
      (g.instructionLine text = .error (.indent 0 (.partialUnit (leading text) g.unit)) ↔
        ¬ g.unit ∣ leading text) ∧
      ((∃ column expected, g.instructionLine text = .error (.grammar 0 column expected text)) ↔
        g.unit ∣ leading text ∧ ∀ line, ¬ IsInstructionLine g.unit text.toList line) :=
  read_indent_exact takes_instructionBody reads_instructionBody head?_of_isInstruction g text

end Grammar

namespace Series

open Scan

theorem ofText?_decided (text : String) :
    Decided (fun s : Series => IsSeries text.toList s.terms) text (ofText? text) := by
  refine Grammar.read_decided (L := fun word (s : Series) => IsSeries word s.terms) ?_ ?_ text
  · refine (takes_series.bind fun s => takes_expectEnd.bind_pure fun _ => s).mono ?_
    rintro _ rest _ ⟨word, _, s, rfl, hs, -, ⟨rfl, rfl⟩, rfl⟩
    rw [List.append_nil]
    exact ⟨rfl, hs⟩
  · intro word s hs
    rw [← List.append_nil word]
    exact (reads_series hs (follows_nil _)).bind (reads_expectEnd.bind_pure fun _ => s)

theorem ofText?_eq_ok_iff {text : String} {s : Series} : ofText? text = .ok s ↔ IsSeries text.toList s.terms :=
  (ofText?_decided text).ok_iff s

/-- A text is a series or it has a misfit; the terms are those of the derivation, in its order. -/
theorem ofText?_exact (text : String) :
    (∀ terms, IsSeries text.toList terms ↔ ∃ s, ofText? text = .ok s ∧ s.terms = terms) ∧
      ((∃ column expected, ofText? text = .error (.grammar 0 column expected text)) ↔
        ∀ terms, ¬ IsSeries text.toList terms) := by
  have hdecided := ofText?_decided text
  refine ⟨fun terms => ⟨fun h => ?_, ?_⟩, hdecided.misfit_iff.trans ⟨fun hnone terms h => ?_, ?_⟩⟩
  · obtain ⟨s, rfl⟩ := exists_terms_of_isSeries h
    exact ⟨s, (hdecided.ok_iff s).2 h, rfl⟩
  · rintro ⟨s, hs, rfl⟩
    exact (hdecided.ok_iff s).1 hs
  · obtain ⟨s, rfl⟩ := exists_terms_of_isSeries h
    exact hnone s h
  · exact fun hnone s => hnone s.terms

example : ofText? "  0x0fF+ @a -b.c" =
    .ok ⟨.literal 255, [(.plus, .address "a"), (.minus, .path "b.c")]⟩ := by decide +kernel

end Series

end Codesheet
