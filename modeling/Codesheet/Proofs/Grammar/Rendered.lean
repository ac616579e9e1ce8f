import Codesheet.Proofs.Grammar.Shapes

/-! The written form of a series is read as that series. What is read from any line has names and paths that
can be written, so the written form is a normal form of the texts that are accepted. -/

namespace Codesheet

open LineGrammar

/-- The name of an address is a name, and the text of a path is names joined by dots. -/
def Target.Readable : Target → Prop
  | address name => IsName name.toList
  | path text => IsPath text.toList
  | literal _ => True

def Series.Readable (s : Series) : Prop := ∀ term ∈ s.terms, term.target.Readable

/-! ### What is written -/

theorem isNumeral_decimal (n : Nat) : IsNumeral Text.Radix.decimal.base (Text.decimal n) n :=
  Text.Radix.isNumeral_iff.2 ⟨Nat.toDigits_ne_nil, fun _ hd =>
    Nat.isDigit_of_mem_toDigits (by decide) (by decide) hd, Text.value_decimal n⟩

theorem Text.toList_intercalate_cons (separator head : String) (tail : List String) :
    (separator.intercalate (head :: tail)).toList =
      head.toList ++ tail.flatMap fun text => separator.toList ++ text.toList := by
  induction tail generalizing head with
  | nil => simp
  | cons text tail ih =>
    rw [String.intercalate_cons_cons, String.toList_append, String.toList_append, ih, List.flatMap_cons,
      List.append_assoc, List.append_assoc]

theorem Target.isTarget_text {t : Target} (h : t.Readable) : IsTarget t.text.toList t := by
  cases t with
  | address name =>
    have haddress := IsTarget.address h
    rw [String.ofList_toList] at haddress
    rw [text, String.toList_append]
    exact haddress
  | path text =>
    have hpath := IsTarget.path h
    rwa [String.ofList_toList] at hpath
  | literal value =>
    rw [text, String.toList_ofList]
    exact .literal (.decimal (isNumeral_decimal _))

namespace Series

/-- Each term behind the head is written behind a space. -/
theorem toList_text (s : Series) :
    s.text.toList = s.head.text.toList ++
      s.tail.flatMap fun term => ' ' :: term.1.symbol :: ' ' :: term.2.text.toList := by
  rw [text, terms, List.map_cons, Text.toList_intercalate_cons, List.map_map, List.flatMap_map]
  simp [Term.text]

/-- The space in front of a sign stands behind the target before it. -/
theorem exists_signed {tail : List (Sign × Target)} (h : ∀ term ∈ tail, term.2.Readable) :
    ∃ j rest, (tail.flatMap fun term => ' ' :: term.1.symbol :: ' ' :: term.2.text.toList) =
        blanks j ++ rest ∧
      Many IsSigned rest (tail.map fun (sign, target) => ⟨some sign, target⟩) := by
  induction tail with
  | nil => exact ⟨0, [], rfl, .nil⟩
  | cons term tail ih =>
    obtain ⟨htarget, htail⟩ := List.forall_mem_cons.1 h
    obtain ⟨j, rest, hrest, hmore⟩ := ih htail
    refine ⟨1, _, ?_, .cons (.intro term.1 1 (Target.isTarget_text htarget) j) hmore⟩
    rw [List.flatMap_cons, hrest]
    simp [blanks]

theorem isSeries_text {s : Series} (h : s.Readable) : IsSeries s.text.toList s.terms := by
  obtain ⟨hhead, htail⟩ := List.forall_mem_cons.1 h
  have htargets : ∀ term ∈ s.tail, term.2.Readable := fun term hterm => htail _ (List.mem_map_of_mem hterm)
  obtain ⟨j, rest, hrest, hmore⟩ := exists_signed htargets
  have hseries := IsSeries.intro 0 (Target.isTarget_text hhead) j hmore
  rwa [toList_text, hrest, ← List.append_assoc]

end Series

/-! ### What is read -/

theorem LineGrammar.Many.forall_mem {α : Type} {L : List Char → α → Prop} {P : α → Prop} {word : List Char}
    {as : List α} (h : Many L word as) (hL : ∀ word a, L word a → P a) : ∀ a ∈ as, P a := by
  induction h with
  | nil => exact List.forall_mem_nil P
  | cons first _ ih => exact List.forall_mem_cons.2 ⟨hL _ _ first, ih⟩

variable {level : Nat} {word : List Char} {s : Series}

theorem Target.readable_of_isTarget {t : Target} (h : IsTarget word t) : t.Readable := by
  cases h with
  | address h => rwa [Readable, String.toList_ofList]
  | path h => rwa [Readable, String.toList_ofList]
  | literal _ => trivial

theorem Series.readable_of_isSeries (h : IsSeries word s.terms) : s.Readable := by
  rw [Readable]
  generalize s.terms = terms at h
  obtain ⟨i, hhead, j, hmore⟩ := h
  refine List.forall_mem_cons.2 ⟨Target.readable_of_isTarget hhead, hmore.forall_mem ?_⟩
  rintro _ _ ⟨sign, i, htarget, j⟩
  exact Target.readable_of_isTarget htarget

theorem readable_of_isArguments {args : List Series} (h : IsArguments word args) : ∀ s ∈ args, s.Readable := by
  cases h with
  | absent => exact List.forall_mem_nil _
  | present h more =>
    refine List.forall_mem_cons.2 ⟨Series.readable_of_isSeries h, more.forall_mem ?_⟩
    rintro _ _ ⟨_, rfl, hs⟩
    exact Series.readable_of_isSeries hs

theorem readable_of_isEntry {line : EntryLine} (h : IsEntry level word line) : line.series.Readable := by
  cases h with
  | intro _ hs => exact Series.readable_of_isSeries hs

theorem readable_of_isInstruction {line : InstructionLine} (h : IsInstruction level word line) :
    ∀ s ∈ line.args, s.Readable := by
  cases h with
  | intro _ hargs _ => exact readable_of_isArguments hargs

namespace Series

theorem readable_of_ofText? {text : String} (h : ofText? text = .ok s) : s.Readable :=
  readable_of_isSeries (ofText?_eq_ok_iff.1 h)

theorem ofText?_text_iff : ofText? s.text = .ok s ↔ s.Readable :=
  ⟨readable_of_ofText?, fun h => ofText?_eq_ok_iff.2 (isSeries_text h)⟩

theorem text_inj {s s' : Series} (h : s.Readable) (h' : s'.Readable) : s.text = s'.text ↔ s = s' := by
  refine ⟨fun heq => ?_, fun heq => heq ▸ rfl⟩
  have hread := ofText?_text_iff.2 h
  rw [heq, ofText?_text_iff.2 h'] at hread
  exact (Except.ok.inj hread).symm

/-- The series that are read back from their written form are those that can be read at all: a text, an
entry and an instruction have no others. So two texts of series are written alike if and only if they are
read alike, and each is read as it is written. -/
theorem text_normal_form (g : Grammar) :
    (∀ s : Series, ofText? s.text = .ok s ↔ s.Readable) ∧
    ((∀ text s, ofText? text = .ok s → s.Readable) ∧
      (∀ text line, g.entryLine text = .ok line → line.series.Readable) ∧
      (∀ text line, g.instructionLine text = .ok line → ∀ s ∈ line.args, s.Readable)) ∧
    (∀ s s' : Series, s.Readable → s'.Readable → (s.text = s'.text ↔ s = s')) ∧
    (∀ text text' s s', ofText? text = .ok s → ofText? text' = .ok s' →
      ofText? s.text = ofText? text ∧ (s.text = s'.text ↔ ofText? text = ofText? text')) := by
  refine ⟨fun s => ofText?_text_iff, ⟨fun text s => readable_of_ofText?, ?_, ?_⟩, fun s s' => text_inj, ?_⟩
  · intro text line h
    obtain ⟨-, hentry⟩ := (Grammar.isLine_iff Grammar.head?_of_isEntry).1
      (((Grammar.entryLine_exact g text).1 line).1 h)
    exact readable_of_isEntry hentry
  · intro text line h
    obtain ⟨-, hinstruction⟩ := (Grammar.isLine_iff Grammar.head?_of_isInstruction).1
      (Grammar.instructionLine_eq_ok_iff.1 h)
    exact readable_of_isInstruction hinstruction
  · intro text text' s s' h h'
    have hs := readable_of_ofText? h
    rw [h, h', ofText?_text_iff.2 hs, text_inj hs (readable_of_ofText? h')]
    exact ⟨rfl, by rw [Except.ok.injEq]⟩

/-- The largest number after two texts of one series, and a series inside an instruction. -/
theorem text_normal_form_of_two :
    let s : Series := ⟨.literal 4294967295, [(.minus, .path "a.b"), (.plus, .address "c")]⟩
    s.text = "4294967295 - a.b + @c" ∧ ofText? "4294967295 - a.b + @c" = ofText? "0xFFFFFFFF-a.b+@c" ∧
      (⟨.literal 16, []⟩ : Series).Readable := by
  intro s
  obtain ⟨-, ⟨-, -, hinstruction⟩, -, htexts⟩ := text_normal_form .standard
  have hread : ofText? "0xFFFFFFFF-a.b+@c" = .ok s := by decide +kernel
  have htext : s.text = "4294967295 - a.b + @c" := by decide +kernel
  have hline : Grammar.standard.instructionLine "Put(0x10,s.w)" =
      .ok ⟨0, "Put", [⟨.literal 16, []⟩, ⟨.path "s.w", []⟩]⟩ := by decide +kernel
  refine ⟨htext, htext ▸ (htexts _ _ s s hread hread).1, ?_⟩
  exact hinstruction _ _ hline _ List.mem_cons_self

end Series

end Codesheet
