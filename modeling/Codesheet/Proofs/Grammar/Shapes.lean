import Codesheet.Proofs.Grammar.Derived

/-! Labels and entries beside instructions and constants. A label has nothing behind its colon and an entry
has a series there, while no character of an instruction's name is followed by a colon, so a text has at
most one of the three shapes. A constant whose colon is directly behind its name is an entry as well. -/

namespace Codesheet

open LineGrammar

namespace Grammar

open Scan

variable {level : Nat} {name name' word rest rest' : List Char} {text : String} {g : Grammar}

/-! ### Names up to their colon -/

theorem isNameChar_of_isName (h : IsName name) : ∀ c ∈ name, isNameChar c := by
  obtain ⟨c, cs, rfl, hc, hcs⟩ := isName_iff.1 h
  exact List.forall_mem_cons.2 ⟨isNameChar_of_isNameStart hc, hcs⟩

/-- The name ends at the colon, so a text has one name in front of it. -/
theorem name_of_colon (h : IsName name) (rest : List Char) :
    (name ++ ':' :: rest).takeWhile isNameChar = name ∧
      (name ++ ':' :: rest).dropWhile isNameChar = ':' :: rest := by
  apply takeWhile_of_apart (isNameChar_of_isName h)
  intro c hc
  obtain rfl := Option.some.inj hc
  decide

theorem eq_of_colon (h : IsName name) (h' : IsName name') (heq : name ++ ':' :: rest = name' ++ ':' :: rest') :
    name = name' ∧ rest = rest' := by
  obtain ⟨htake, hdrop⟩ := name_of_colon h rest
  obtain ⟨htake', hdrop'⟩ := name_of_colon h' rest'
  rw [heq, htake'] at htake
  rw [heq, hdrop'] at hdrop
  exact ⟨htake.symm, (List.cons.inj hdrop).2.symm⟩

/-! ### Labels -/

theorem labelName?_eq_some_iff {label : String} :
    labelName? word = some label ↔
      ∃ name j, word = name ++ ':' :: LineGrammar.blanks j ∧ IsName name ∧ label = String.ofList name := by
  constructor
  · intro h
    simp only [labelName?, Option.ite_none_right_eq_some] at h
    obtain ⟨⟨hstart, hcolon, hblank⟩, h⟩ := h
    obtain ⟨c, hc, hname⟩ := (Option.any_eq_true _ _).1 hstart
    obtain ⟨cs, rfl⟩ := List.head?_eq_some_iff.1 hc
    obtain ⟨behind, hbehind⟩ := List.head?_eq_some_iff.1 hcolon
    rw [hbehind, List.drop_one, List.tail_cons, List.dropWhile_eq_nil_iff] at hblank
    have htake := List.takeWhile_cons_of_pos (l := cs) (isNameChar_of_isNameStart hname)
    refine ⟨(c :: cs).takeWhile isNameChar, behind.length, ?_, ?_, (Option.some.inj h).symm⟩
    · have hblanks : behind = LineGrammar.blanks behind.length :=
        List.eq_replicate_of_mem fun d hd => by simpa using hblank d hd
      rw [← hblanks, ← hbehind, List.takeWhile_append_dropWhile]
    · rw [htake]
      exact isName_iff.2 ⟨c, _, rfl, hname, fun d hd => List.mem_takeWhile_imp hd⟩
  · rintro ⟨name, j, rfl, hname, rfl⟩
    obtain ⟨htake, hdrop⟩ := name_of_colon hname (LineGrammar.blanks j)
    have hstart : (name ++ ':' :: LineGrammar.blanks j).head?.any isNameStart := by
      obtain ⟨c, cs, rfl, hc, -⟩ := isName_iff.1 hname
      exact hc
    have hblank : ((':' :: LineGrammar.blanks j).drop 1).dropWhile (· = ' ') = [] := by
      simp [LineGrammar.blanks]
    unfold labelName?
    rw [htake, hdrop, if_pos ⟨hstart, rfl, hblank⟩]

theorem head?_of_isLabel (level : Nat) (word : List Char) (line : LabelLine) (h : IsLabel level word line) :
    word.head? ≠ some ' ' := by
  obtain ⟨hname, j⟩ := h
  exact head?_of_isName hname (by decide) _

/-- The level of a label is what its leading spaces make. -/
theorem isLabelLine_iff {line : LabelLine} :
    IsLabelLine g.unit text.toList line ↔
      labelName? (text.toList.dropWhile (· = ' ')) = some line.name ∧
        g.unit ∣ leading text ∧ line.level = leading text / g.unit := by
  rw [IsLabelLine, isLine_iff head?_of_isLabel, labelName?_eq_some_iff]
  constructor
  · rintro ⟨hk, hlabel⟩
    generalize text.toList.dropWhile (· = ' ') = body at hlabel
    obtain ⟨hname, j⟩ := hlabel
    exact ⟨⟨_, j, rfl, hname, rfl⟩, hk, rfl⟩
  · rintro ⟨⟨name, j, hbody, hname, hlabel⟩, hk, hlevel⟩
    have hbuilt : IsLabel (leading text / g.unit) _ ⟨leading text / g.unit, String.ofList name⟩ :=
      .intro hname j
    rw [hbody, show line = ⟨leading text / g.unit, String.ofList name⟩ by rw [← hlevel, ← hlabel]]
    exact ⟨hk, hbuilt⟩

/-- With one space to a level every indent makes a level, so only the shape counts. -/
theorem isLabelLine_one_iff {line : LabelLine} :
    IsLabelLine 1 text.toList line ↔
      labelName? (text.toList.dropWhile (· = ' ')) = some line.name ∧ line.level = leading text := by
  let g : Grammar := ⟨1, Nat.one_pos⟩
  have hline : IsLabelLine g.unit text.toList line ↔ _ := isLabelLine_iff
  rw [hline, Nat.div_one, and_iff_right (one_dvd _)]

theorem labelLine?_eq (g : Grammar) (text : String) :
    g.labelLine? text =
      match labelName? (text.toList.dropWhile (· = ' ')) with
      | none => .ok none
      | some name =>
        if g.unit ∣ leading text then .ok (some ⟨leading text / g.unit, name⟩)
        else .error (.indent 0 (.partialUnit (leading text) g.unit)) := by
  rw [labelLine?, read_label?]
  cases labelName? (text.toList.dropWhile (· = ' ')) with
  | none => rfl
  | some name =>
    have hlevel : g.level? (leading text) = if g.unit ∣ leading text then .ok (leading text / g.unit)
        else .error (.indent 0 (.partialUnit (leading text) g.unit)) := by
      simp only [level?, Nat.dvd_iff_mod_eq_zero]
    simp only [Option.map_some, bind, Except.bind, hlevel]
    split_ifs <;> rfl

theorem labelLine?_exact (g : Grammar) (text : String) :
    (∀ line, g.labelLine? text = .ok (some line) ↔ IsLabelLine g.unit text.toList line) ∧
      (∀ fault, g.labelLine? text = .error fault ↔ ∃ spaces name, IsLabelLine 1 text.toList ⟨spaces, name⟩ ∧
        ¬ g.unit ∣ spaces ∧ fault = .indent 0 (.partialUnit spaces g.unit)) ∧
      (g.labelLine? text = .ok none ↔ ∀ line, ¬ IsLabelLine 1 text.toList line) := by
  rw [labelLine?_eq]
  simp only [isLabelLine_iff, isLabelLine_one_iff]
  cases labelName? (text.toList.dropWhile (· = ' ')) with
  | none => simp
  | some name =>
    by_cases hk : g.unit ∣ leading text
    · have hlevel : ∀ line : LabelLine, (⟨leading text / g.unit, name⟩ : LabelLine) = line ↔
          name = line.name ∧ line.level = leading text / g.unit := by
        rintro ⟨level, label⟩
        simp [eq_comm, and_comm]
      simp only [if_pos hk]
      refine ⟨fun line => ?_, fun fault => ⟨nofun, ?_⟩, ⟨nofun, fun hnone => ?_⟩⟩
      · simpa [hk] using hlevel line
      · rintro ⟨spaces, label, ⟨-, hspaces⟩, hnot, -⟩
        exact absurd (hspaces ▸ hk) hnot
      · exact absurd ⟨rfl, rfl⟩ (hnone ⟨leading text, name⟩)
    · simp only [if_neg hk]
      refine ⟨fun line => ⟨nofun, ?_⟩, fun fault => ⟨?_, ?_⟩, ⟨nofun, fun hnone => ?_⟩⟩
      · rintro ⟨-, hk', -⟩
        exact absurd hk' hk
      · rintro heq
        exact ⟨leading text, name, ⟨rfl, rfl⟩, hk, (Except.error.inj heq).symm⟩
      · rintro ⟨spaces, label, ⟨-, hspaces⟩, -, rfl⟩
        rw [show spaces = leading text from hspaces]
      · exact absurd ⟨rfl, rfl⟩ (hnone ⟨leading text, name⟩)

/-! ### Entries -/

/-- What is scanned behind the indent of an entry. -/
def entryBody (level : Nat) : Scan EntryLine := do
  let name ← Scan.orFail Scan.name? .entryName
  Scan.expectChar ':'
  let series ← Scan.series
  Scan.expectEnd
  return ⟨level, name, series⟩

theorem takes_entryBody (level : Nat) :
    Takes (entryBody level) fun word rest line => rest = [] ∧ IsEntry level word line := by
  refine ((takes_name .entryName).bind fun name => (takes_expectChar ':').bind fun _ =>
    takes_series.bind fun s => takes_expectEnd.bind_pure fun _ => (⟨level, name, s⟩ : EntryLine)).mono ?_
  rintro _ rest _ ⟨name, _, _, rfl, ⟨rfl, hname⟩, _, _, -, rfl, rfl, word, _, s, rfl, hs, -, ⟨rfl, rfl⟩, rfl⟩
  rw [List.append_nil]
  exact ⟨rfl, .intro hname hs⟩

theorem reads_entryBody (level : Nat) (word : List Char) (line : EntryLine) (h : IsEntry level word line) :
    Reads (entryBody level) word [] line := by
  obtain ⟨hname, hs⟩ := h
  rename_i name word s
  rw [← List.append_nil word]
  refine (reads_name hname ?_ .entryName).bind ((reads_expectChar ':' _).bind
    ((reads_series hs (follows_nil _)).bind (reads_expectEnd.bind_pure _)))
  exact (follows_cons (List.mem_singleton_self ':') _).apart (by decide)

theorem head?_of_isEntry (level : Nat) (word : List Char) (line : EntryLine) (h : IsEntry level word line) :
    word.head? ≠ some ' ' := by
  obtain ⟨hname, hs⟩ := h
  exact head?_of_isName hname (by decide) _

theorem entryLine_exact (g : Grammar) (text : String) :
    (∀ line, g.entryLine text = .ok line ↔ IsEntryLine g.unit text.toList line) ∧
      (g.entryLine text = .error (.indent 0 (.partialUnit (leading text) g.unit)) ↔
        ¬ g.unit ∣ leading text) ∧
      ((∃ column expected, g.entryLine text = .error (.grammar 0 column expected text)) ↔
        g.unit ∣ leading text ∧ ∀ line, ¬ IsEntryLine g.unit text.toList line) :=
  read_indent_exact takes_entryBody reads_entryBody head?_of_isEntry g text

/-! ### One shape at most -/

theorem ne_nil_of_isTarget {t : Target} (h : IsTarget word t) : word ≠ [] := by
  rintro rfl
  cases h with
  | path h =>
    obtain ⟨name, rest, names, heq, hname, -⟩ := h
    obtain ⟨rfl, -⟩ := List.append_eq_nil_iff.1 heq.symm
    cases hname
  | literal h =>
    cases h with
    | decimal h =>
      have hdigits : IsNumeral Text.Radix.decimal.base [] _ := h
      exact (Text.Radix.isNumeral_iff.1 hdigits).1 rfl

/-- A series is never blank. -/
theorem not_isSeries_blanks (j : Nat) (terms : List Term) : ¬ IsSeries (LineGrammar.blanks j) terms := by
  generalize hword : LineGrammar.blanks j = word
  rintro ⟨i, hu, i', more⟩
  rename_i u t rest terms
  obtain ⟨c, cs, rfl⟩ := List.exists_cons_of_ne_nil (ne_nil_of_isTarget hu)
  have hmem : c ∈ LineGrammar.blanks j := by simp [hword]
  have hblank : c = ' ' := List.eq_of_mem_replicate hmem
  exact head?_of_isTarget hu [] (by rw [hblank]; rfl)

/-- Behind the first name of an instruction there is no colon. -/
theorem not_isInstruction_of_colon (h : IsName name) {line : InstructionLine} :
    ¬ IsInstruction level (name ++ ':' :: rest) line := by
  obtain ⟨-, hdrop⟩ := name_of_colon h rest
  generalize name ++ ':' :: rest = word at hdrop
  rintro ⟨hfunc, hargs, j⟩
  rename_i func args _
  have hletters : ∀ c ∈ func, isNameChar c := by
    intro c hc
    have halpha := isLetter_iff.1 (hfunc.2 c hc)
    simp [isNameChar, Char.isAlphanum, halpha]
  have hfollows : Follows [' ', '('] (args ++ LineGrammar.blanks j) := by
    cases hargs with
    | absent =>
      rw [List.nil_append, ← List.append_nil (LineGrammar.blanks j)]
      exact (follows_nil ['(']).replicate ' ' j
    | present _ _ => exact follows_cons (by decide) _
  rw [List.append_assoc, (takeWhile_of_apart hletters (hfollows.apart (by decide))).2] at hdrop
  rw [hdrop] at hfollows
  exact absurd (hfollows ':' rfl) (by decide)

theorem not_isEntry_of_isLabel {level' : Nat} {label : LabelLine} {entry : EntryLine}
    (h : IsLabel level word label) : ¬ IsEntry level' word entry := by
  obtain ⟨hname, j⟩ := h
  rename_i name
  generalize hword : name ++ ':' :: LineGrammar.blanks j = word
  rintro ⟨hname', hs⟩
  obtain ⟨-, hbehind⟩ := eq_of_colon hname hname' hword
  exact not_isSeries_blanks j _ (hbehind ▸ hs)

theorem not_isInstruction_of_isEntry {level' : Nat} {entry : EntryLine} {line : InstructionLine}
    (h : IsEntry level word entry) : ¬ IsInstruction level' word line := by
  obtain ⟨hname, -⟩ := h
  exact not_isInstruction_of_colon hname

theorem isConstantName_of_isConstant {line : ConstantLine} (h : IsConstant level word line) :
    IsConstantName line.name.toList := by
  obtain ⟨hname, h, i, hvalue, j⟩ := h
  rwa [String.toList_ofList]

theorem level_of_isConstant {line : ConstantLine} (h : IsConstant level word line) : line.level = level := by
  obtain ⟨hname, h, i, hvalue, j⟩ := h
  rfl

/-- A constant with its colon directly behind the name of a node is an entry with its number. -/
theorem isEntry_of_isConstant {line : ConstantLine} (h : IsConstant level word line)
    (hdot : line.name.toList.head? ≠ some '.') (hcolon : word = line.name.toList ++ ':' :: rest) :
    IsEntry level word ⟨level, line.name, .single (.literal line.value)⟩ := by
  obtain ⟨hname, h, i, hvalue, j⟩ := h
  rename_i name number value
  rw [String.toList_ofList] at hdot hcolon
  cases hname with
  | bitField _ => exact absurd rfl hdot
  | allBits => exact absurd rfl hdot
  | node hname =>
    simp only [List.append_assoc] at hcolon ⊢
    have hbehind := List.append_cancel_left hcolon
    -- a blank between the name and its colon would be the character behind the name
    cases h with
    | succ h => exact absurd (List.cons.inj hbehind).1 (by decide)
    | zero =>
      have hseries := IsSeries.intro i (.literal hvalue) j .nil
      rw [List.append_nil, List.append_assoc] at hseries
      exact .intro hname hseries

/-! ### The four shapes -/

/-- Labels and entries are accepted exactly if the grammar derives them. A text with the shape of a label
has the fault of its indent if that makes no level, and a text without the shape is no label and has no
fault. No text is accepted in two of the shapes of labels, entries and instructions, and a constant with
its colon directly behind the name of a node is accepted as an entry of its level, its name and its
number. -/
theorem shapes_exact (g : Grammar) (text : String) :
    ((∀ line, g.labelLine? text = .ok (some line) ↔ IsLabelLine g.unit text.toList line) ∧
      (∀ fault, g.labelLine? text = .error fault ↔ ∃ spaces name, IsLabelLine 1 text.toList ⟨spaces, name⟩ ∧
        ¬ g.unit ∣ spaces ∧ fault = .indent 0 (.partialUnit spaces g.unit)) ∧
      (g.labelLine? text = .ok none ↔ ∀ line, ¬ IsLabelLine 1 text.toList line)) ∧
    (∀ line, g.entryLine text = .ok line ↔ IsEntryLine g.unit text.toList line) ∧
    ((∀ label entry, ¬ (g.labelLine? text = .ok (some label) ∧ g.entryLine text = .ok entry)) ∧
      (∀ label line, ¬ (g.labelLine? text = .ok (some label) ∧ g.instructionLine text = .ok line)) ∧
      ∀ entry line, ¬ (g.entryLine text = .ok entry ∧ g.instructionLine text = .ok line)) ∧
    ∀ line, g.constantLine text = .ok line → line.name.toList.head? ≠ some '.' →
      (∃ spaces rest, text.toList = LineGrammar.blanks spaces ++ line.name.toList ++ ':' :: rest) →
      g.entryLine text = .ok ⟨line.level, line.name, .single (.literal line.value)⟩ := by
  have hentry := (entryLine_exact g text).1
  have hlabel := labelLine?_exact g text
  refine ⟨hlabel, hentry, ⟨?_, ?_, ?_⟩, ?_⟩
  · rintro label entry ⟨h, h'⟩
    obtain ⟨-, hbody⟩ := (isLine_iff head?_of_isLabel).1 ((hlabel.1 label).1 h)
    obtain ⟨-, hbody'⟩ := (isLine_iff head?_of_isEntry).1 ((hentry entry).1 h')
    exact not_isEntry_of_isLabel hbody hbody'
  · rintro label line ⟨h, h'⟩
    rw [labelLine?_of_instructionLine h'] at h
    cases h
  · rintro entry line ⟨h, h'⟩
    obtain ⟨-, hbody⟩ := (isLine_iff head?_of_isEntry).1 ((hentry entry).1 h)
    obtain ⟨-, hbody'⟩ := (isLine_iff head?_of_isInstruction).1 (instructionLine_eq_ok_iff.1 h')
    exact not_isInstruction_of_isEntry hbody hbody'
  · rintro line h hdot ⟨spaces, rest, htext⟩
    obtain ⟨hk, hbody⟩ := (isLine_iff head?_of_isConstant).1 (constantLine_eq_ok_iff.1 h)
    refine (hentry _).2 ((isLine_iff head?_of_isEntry).2 ⟨hk, ?_⟩)
    have hlevel : line.level = leading text / g.unit := level_of_isConstant hbody
    have hhead := head?_of_isConstantName (isConstantName_of_isConstant hbody) (':' :: rest)
    have hcolon : text.toList.dropWhile (· = ' ') = line.name.toList ++ ':' :: rest := by
      rw [htext, List.append_assoc]
      exact Text.dropWhile_indented spaces hhead
    rw [hlevel]
    exact isEntry_of_isConstant hbody hdot hcolon

/-- A label with an indent of half a level, and a constant that is an entry. -/
theorem shapes_exact_of_two :
    standard.labelLine? "   top: " = .error (.indent 0 (.partialUnit 3 2)) ∧
      standard.entryLine "  width: 0x10" = .ok ⟨1, "width", .single (.literal 16)⟩ := by
  have hlabel : IsLabelLine 1 "   top: ".toList ⟨3, "top"⟩ := isLabelLine_one_iff.2 ⟨by decide, by decide⟩
  have hconstant : standard.constantLine "  width: 0x10" = .ok ⟨1, "width", 16⟩ := by decide +kernel
  refine ⟨?_, ?_⟩
  · exact ((shapes_exact standard "   top: ").1.2.1 _).2 ⟨3, "top", hlabel, by decide, rfl⟩
  · exact (shapes_exact standard "  width: 0x10").2.2.2 _ hconstant (by decide) ⟨2, " 0x10".toList, by decide⟩

end Grammar

end Codesheet
