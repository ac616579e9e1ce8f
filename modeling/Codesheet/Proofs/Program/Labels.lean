import Codesheet.Proofs.Keys
import Codesheet.Proofs.Program.Events
import Codesheet.Proofs.Program.Nesting

/-! Labels of code. A label goes to the instruction on the next line of its block. Where that
line is another label, or where the block ends, the label is given up with one warning. The
warnings of a parse are those about its labels, one for each label that is given up. -/

namespace Codesheet

namespace Event

/-- A warning that a label is given up. -/
def isGivenUp : Event → Bool
  | tagReplaced .. | tagUnused .. => true
  | _ => false

/-- The line of the label that is given up. -/
def labelLine? : Event → Option Nat
  | tagReplaced _ line | tagUnused _ line => some line
  | _ => none

theorem kind?_of_isGivenUp {event : Event} (h : event.isGivenUp) : event.kind? = some .code := by
  cases event <;> first | rfl | cases h

end Event

namespace Program

variable {g : Grammar} {jumps : JumpPolicy}

/-! ### Warnings about labels -/

/-- Lines, each with the line after it. -/
def withNext : List Line → List (Line × Option Line)
  | [] => []
  | line :: lines => (line, lines.head?) :: withNext lines

theorem map_fst_withNext (lines : List Line) : (withNext lines).map Prod.fst = lines := by
  induction lines with
  | nil => rfl
  | cons line lines ih => rw [withNext, List.map_cons, ih]

theorem mem_withNext {line : Line} {next : Option Line} {lines : List Line} :
    (line, next) ∈ withNext lines ↔
      ∃ before after, lines = before ++ line :: after ∧ after.head? = next := by
  induction lines with
  | nil => simp [withNext]
  | cons first lines ih =>
    rw [withNext, List.mem_cons, ih]
    constructor
    · rintro (h | ⟨before, after, rfl, hnext⟩)
      · obtain ⟨rfl, rfl⟩ := Prod.mk.inj h
        exact ⟨[], lines, rfl, rfl⟩
      · exact ⟨first :: before, after, rfl, hnext⟩
    · rintro ⟨before, after, h, rfl⟩
      cases before with
      | nil =>
        obtain ⟨rfl, rfl⟩ := List.cons.inj h
        exact .inl rfl
      | cons other before =>
        obtain ⟨rfl, rfl⟩ := List.cons.inj h
        exact .inr ⟨before, after, rfl, rfl⟩

/-- The warning about a label, by the line after it. -/
def Label.warning? (g : Grammar) (label : Label) : Option Line → Option Event
  | none => some (.tagUnused label.name label.line)
  | some next =>
    if (labelName? g next).isSome then some (.tagReplaced label.name label.line) else none

def label? (g : Grammar) (line : Line) : Option Label :=
  (labelName? g line).map (⟨·, line.number⟩)

/-- The warning about a line, if it is a label that is given up. -/
def warning? (g : Grammar) (place : Line × Option Line) : Option Event :=
  (label? g place.1).bind (·.warning? g place.2)

/-- A warning is about a label, for either reason. -/
def Label.GivenUpBy (label : Label) (event : Event) : Prop :=
  event = .tagReplaced label.name label.line ∨ event = .tagUnused label.name label.line

theorem Label.GivenUpBy.isGivenUp {label : Label} {event : Event} (h : label.GivenUpBy event) :
    event.isGivenUp := by
  rcases h with rfl | rfl <;> rfl

theorem Label.GivenUpBy.labelLine? {label : Label} {event : Event} (h : label.GivenUpBy event) :
    event.labelLine? = some label.line := by
  rcases h with rfl | rfl <;> rfl

theorem Label.givenUpBy_of_warning? {label : Label} {next : Option Line} {event : Event}
    (h : label.warning? g next = some event) : label.GivenUpBy event := by
  cases next with
  | none => exact .inr (Option.some.inj h).symm
  | some next =>
    dsimp only [Label.warning?] at h
    split_ifs at h
    exact .inl (Option.some.inj h).symm

theorem line_of_label? {line : Line} {label : Label} (h : label? g line = some label) :
    label.line = line.number := by
  obtain ⟨name, -, rfl⟩ := Option.map_eq_some_iff.1 h
  rfl

theorem givenUpBy_of_warning? {place : Line × Option Line} {event : Event}
    (h : warning? g place = some event) :
    ∃ label, label? g place.1 = some label ∧ label.GivenUpBy event := by
  obtain ⟨label, hlabel, hwarning⟩ := Option.bind_eq_some_iff.1 h
  exact ⟨label, hlabel, Label.givenUpBy_of_warning? hwarning⟩

theorem labelLine?_of_warning? {place : Line × Option Line} {event : Event}
    (h : warning? g place = some event) : event.labelLine? = some place.1.number := by
  obtain ⟨label, hlabel, hgiven⟩ := givenUpBy_of_warning? h
  rw [hgiven.labelLine?, line_of_label? hlabel]

/-- A line of code gives up the label that waits unless it is an instruction, and then waits
for one itself if it is a label. -/
theorem events_code_cons {waiting : Option Label} {line : Line} {lines : List Line}
    {instructions : List Instruction} (h : (code g waiting (line :: lines)).result = .ok instructions) :
    (∃ more, (code g (label? g line) lines).result = .ok more) ∧
      (code g waiting (line :: lines)).events =
        (waiting.bind (·.warning? g (some line))).toList ++ (code g (label? g line) lines).events := by
  by_cases ha : AcceptsCode g line
  · rcases ha with ⟨label, hlabel⟩ | ⟨shape, hshape⟩
    · have hname := labelName?_of_label hlabel
      have hwarned : (waiting.bind (·.warning? g (some line))).toList = (replaced waiting).events := by
        cases waiting with
        | none => rfl
        | some earlier => simp [Label.warning?, hname, replaced, Logged.report]
      rw [code_of_label hlabel] at h ⊢
      obtain ⟨_, -, hrest⟩ := Logged.result_bind_eq_ok.1 h
      rw [Logged.bind_ok (result_replaced waiting), label?, hname, hwarned]
      exact ⟨⟨instructions, hrest⟩, rfl⟩
    · have hname := labelName?_of_none (Grammar.labelLine?_of_instructionLine hshape)
      have hcarried : waiting.bind (·.warning? g (some line)) = none := by
        cases waiting with
        | none => rfl
        | some earlier => simp [Label.warning?, hname]
      rw [code_of_instruction hshape] at h ⊢
      obtain ⟨more, hmore, -⟩ := Logged.result_bind_eq_ok.1 h
      rw [Logged.bind_ok hmore, label?, hname, hcarried]
      exact ⟨⟨more, hmore⟩, List.append_nil _⟩
  · obtain ⟨bare, hfail, -⟩ := code_of_fault ha waiting lines
    rw [hfail] at h
    cases h

/-- Code reports the label that waits, if it is given up, and then those of its lines. -/
theorem events_code {waiting : Option Label} {lines : List Line} {instructions : List Instruction}
    (h : (code g waiting lines).result = .ok instructions) :
    (code g waiting lines).events =
      (waiting.bind (·.warning? g lines.head?)).toList ++ (withNext lines).filterMap (warning? g) := by
  induction lines generalizing waiting instructions with
  | nil => cases waiting <;> rfl
  | cons line lines ih =>
    obtain ⟨⟨more, hmore⟩, hevents⟩ := events_code_cons h
    have hcons : (withNext (line :: lines)).filterMap (warning? g) =
        (warning? g (line, lines.head?)).toList ++ (withNext lines).filterMap (warning? g) := by
      rw [withNext, List.filterMap_cons]
      cases warning? g (line, lines.head?) <;> rfl
    rw [hevents, ih hmore, hcons, List.head?_cons]
    rfl

/-- The lines of all blocks of code, each with the line after it in its block. -/
def codePlaces (blocks : List Block) : List (Line × Option Line) :=
  (ofKind .code blocks).flatMap fun b => withNext b.body

theorem map_fst_codePlaces (blocks : List Block) :
    (codePlaces blocks).map Prod.fst = linesOf .code blocks := by
  simp only [codePlaces, linesOf, List.map_flatMap, map_fst_withNext]

theorem codePlaces_cons (b : Block) (blocks : List Block) :
    codePlaces (b :: blocks) =
      (if b.header.kind = .code then withNext b.body else []) ++ codePlaces blocks := by
  rw [codePlaces, ofKind_cons]
  split_ifs <;> rfl

/-- A block gives up labels only if it is one of code. -/
theorem givenUp_addBlock {p q : Program} {b : Block}
    (h : (addBlock g jumps p b.header b.body).result = .ok q) :
    (addBlock g jumps p b.header b.body).events.filter (·.isGivenUp) =
      (if b.header.kind = .code then withNext b.body else []).filterMap (warning? g) := by
  by_cases hk : b.header.kind = .code
  · rw [if_pos hk]
    simp only [addBlock, hk] at h ⊢
    obtain ⟨instructions, hcode, -⟩ := Logged.result_bind_eq_ok.1 h
    have hevents := events_code hcode
    have hdone : (Logged.report (.codeDone b.header.name instructions.length) >>= fun _ =>
        pure { p with instructions := p.instructions ++ instructions } : Logged Program).events =
        [.codeDone b.header.name instructions.length] := rfl
    rw [Logged.bind_ok hcode, hdone, hevents, List.filter_append, Option.bind_none]
    have hall : ∀ event ∈ (withNext b.body).filterMap (warning? g), event.isGivenUp := by
      intro event hm
      obtain ⟨place, -, hwarning⟩ := List.mem_filterMap.1 hm
      obtain ⟨label, -, hgiven⟩ := givenUpBy_of_warning? hwarning
      exact hgiven.isGivenUp
    have hend : [Event.codeDone b.header.name instructions.length].filter (·.isGivenUp) = [] := rfl
    rw [hend, List.append_nil, Option.toList_none, List.nil_append, List.filter_eq_self.2 hall]
  · rw [if_neg hk, List.filterMap_nil, List.filter_eq_nil_iff]
    intro event hm hgiven
    have hkind := reports_addBlock g jumps p b.header b.body event hm
    exact hk (Option.some.inj (hkind.symm.trans (Event.kind?_of_isGivenUp hgiven)))

theorem givenUp_addAll {p q : Program} {blocks : List Block}
    (h : (addAll g jumps p blocks).result = .ok q) :
    (addAll g jumps p blocks).events.filter (·.isGivenUp) =
      (codePlaces blocks).filterMap (warning? g) := by
  induction blocks generalizing p with
  | nil => rfl
  | cons b blocks ih =>
    rw [addAll_cons, Logged.result_bind_eq_ok] at h
    obtain ⟨p', hblock, hrest⟩ := h
    obtain ⟨_, hheader, hadd⟩ := Logged.result_bind_eq_ok.1 hblock
    have hreported : (Logged.report (.blockHeader b.header)).events.filter (·.isGivenUp) = [] := rfl
    rw [addAll_cons, Logged.bind_ok hblock, Logged.bind_ok hheader, codePlaces_cons,
      List.filterMap_append, List.filter_append, List.filter_append, hreported,
      givenUp_addBlock hadd, List.nil_append]
    exact congrArg _ (ih hrest)

theorem givenUp_read {text : String} {p : Program} (h : (read g jumps text).result = .ok p) :
    (read g jumps text).events.filter (·.isGivenUp) =
      (codePlaces (Block.cut (Line.ofText text)).2).filterMap (warning? g) := by
  have hread := read_of_header g jumps (cut_of_read h)
  rw [hread] at h ⊢
  obtain ⟨q, hq, -⟩ := Logged.result_bind_eq_ok.1 h
  rw [Logged.bind_ok hq, List.filter_append, givenUp_addAll hq]
  exact List.append_nil _

/-! ### Lines by their numbers -/

theorem nodup_numbers_linesOf (kind : Kind) {text : String}
    (hc : (Block.cut (Line.ofText text)).1 = []) :
    ((linesOf kind (Block.cut (Line.ofText text)).2).map (·.number)).Nodup :=
  ((linesOf_sublist_ofText kind hc).map (·.number)).nodup (Line.nodup_numbers_ofText text)

/-- An event about a line is reported once if it is the warning about it, and never if not. -/
theorem count_warnings {places : List (Line × Option Line)} (h : (places.map (·.1.number)).Nodup)
    {place : Line × Option Line} (hm : place ∈ places) {event : Event}
    (hline : event.labelLine? = some place.1.number) :
    (places.filterMap (warning? g)).count event = if warning? g place = some event then 1 else 0 := by
  have hplace : places.filter (·.1.number = place.1.number) = [place] := filter_key_eq_singleton h hm
  have hcount : (places.filter (·.1.number = place.1.number)).countP (warning? g · == some event) =
      places.countP (warning? g · == some event) := by
    rw [List.countP_filter]
    refine List.countP_congr fun other _ => ?_
    simp only [Bool.and_eq_true, beq_iff_eq, decide_eq_true_eq, and_iff_left_iff_imp]
    intro hother
    exact Option.some.inj ((labelLine?_of_warning? hother).symm.trans hline)
  rw [List.count_filterMap, ← hcount, hplace, List.countP_singleton]
  simp only [beq_iff_eq]

theorem mem_codePlaces {blocks : List Block} {b : Block} (hb : b ∈ ofKind .code blocks)
    {before after : List Line} {line : Line} (hbody : b.body = before ++ line :: after) :
    (line, after.head?) ∈ codePlaces blocks :=
  List.mem_flatMap.2 ⟨b, hb, mem_withNext.2 ⟨before, after, hbody, rfl⟩⟩

theorem nodup_numbers_codePlaces {text : String} (hc : (Block.cut (Line.ofText text)).1 = []) :
    ((codePlaces (Block.cut (Line.ofText text)).2).map (·.1.number)).Nodup := by
  have hlines := nodup_numbers_linesOf .code hc
  rwa [← map_fst_codePlaces, List.map_map] at hlines

theorem count_read {text : String} {p : Program} (h : (read g jumps text).result = .ok p)
    {place : Line × Option Line} (hm : place ∈ codePlaces (Block.cut (Line.ofText text)).2)
    (event : Event) (hgiven : event.isGivenUp) (hline : event.labelLine? = some place.1.number) :
    (read g jumps text).events.count event = if warning? g place = some event then 1 else 0 := by
  rw [← List.count_filter hgiven, givenUp_read h]
  exact count_warnings (nodup_numbers_codePlaces (cut_of_read h)) hm hline

/-! ### Instructions by their lines -/

theorem numbers_of_tags {places : List (Option Line × Line)} {instructions : List Instruction}
    (h : List.Forall₂ (InstructionOf g) places instructions) :
    instructions.map (·.line) = places.map (·.2.number) := by
  induction h with
  | nil => rfl
  | cons hfirst hrest ih => rw [List.map_cons, List.map_cons, hfirst.1, ih]

theorem mem_withBefore (waiting : Option Line) (before after : List Line) (line next : Line) :
    (some line, next) ∈ withBefore waiting (before ++ line :: next :: after) := by
  induction before generalizing waiting with
  | nil => exact List.mem_cons_of_mem _ List.mem_cons_self
  | cons first before ih => exact List.mem_cons_of_mem _ (ih _)

/-- The instruction on the line after a label is the only one there, and carries the label. -/
theorem carried_of_tags {blocks : List Block} (hn : ((linesOf .code blocks).map (·.number)).Nodup)
    {instructions : List Instruction}
    (h : List.Forall₂ (InstructionOf g)
      ((ofKind .code blocks).flatMap fun b => unlabelled g none b.body) instructions)
    {b : Block} (hb : b ∈ ofKind .code blocks) {before after : List Line} {line next : Line}
    (hbody : b.body = before ++ line :: next :: after) (hnext : labelName? g next = none) :
    ∃ instruction, instructions.filter (·.line = next.number) = [instruction] ∧
      instruction.tag = labelName? g line := by
  have hplace : (some line, next) ∈ unlabelled g none b.body := by
    rw [unlabelled, hbody, List.mem_filter, hnext]
    exact ⟨mem_withBefore none before after line next, rfl⟩
  have hm : (some line, next) ∈ (ofKind .code blocks).flatMap fun b => unlabelled g none b.body :=
    List.mem_flatMap.2 ⟨b, hb, hplace⟩
  have hnumbers : (instructions.map (·.line)).Nodup := by
    have hlines := (unlabelled_sublist_linesOf (g := g) blocks).map (·.number)
    rw [List.map_map] at hlines
    rw [numbers_of_tags h]
    exact hlines.nodup hn
  obtain ⟨first, rest, hplaces⟩ := List.append_of_mem hm
  rw [hplaces] at h
  obtain ⟨earlier, _, -, hrest, rfl⟩ := forall₂_append_left_iff.1 h
  obtain ⟨instruction, later, hinstruction, -, rfl⟩ := List.forall₂_cons_left_iff.1 hrest
  refine ⟨instruction, ?_, hinstruction.2.1⟩
  rw [← filter_key_eq_singleton hnumbers List.mem_append_cons_self, hinstruction.1]

/-! ### Fates -/

/-- What becomes of a label, by the lines after it in its block. -/
inductive Fate (g : Grammar) (p : Program) (log : List Event) (label : Label) : List Line → Prop where
  /-- The next line is an instruction, which carries it. -/
  | carried {next : Line} {after : List Line} {instruction : Instruction}
    (code : labelName? g next = none)
    (only : p.instructions.filter (·.line = next.number) = [instruction])
    (tag : instruction.tag = some label.name)
    (kept : log.count (.tagReplaced label.name label.line) = 0)
    (used : log.count (.tagUnused label.name label.line) = 0) : Fate g p log label (next :: after)
  /-- The next line is another label. -/
  | replaced {next : Line} {after : List Line} {later : String}
    (other : labelName? g next = some later)
    (warned : log.count (.tagReplaced label.name label.line) = 1)
    (used : log.count (.tagUnused label.name label.line) = 0) : Fate g p log label (next :: after)
  /-- The block ends. -/
  | unused (kept : log.count (.tagReplaced label.name label.line) = 0)
    (warned : log.count (.tagUnused label.name label.line) = 1) : Fate g p log label []

/-- No label of some blocks is lost or carried twice, and the instructions and the warnings
stem from their lines alone. -/
structure KeepsLabels (g : Grammar) (blocks : List Block) (p : Program) (log : List Event) : Prop where
  fates : ∀ b ∈ ofKind .code blocks, ∀ before line after label,
    b.body = before ++ line :: after → label? g line = some label → Fate g p log label after
  tags : List.Forall₂ (InstructionOf g)
    ((ofKind .code blocks).flatMap fun b => unlabelled g none b.body) p.instructions
  warnings : ∀ event ∈ log, event.isGivenUp → ∃! line, line ∈ linesOf .code blocks ∧
    ∃ label, label? g line = some label ∧ label.GivenUpBy event

theorem fate_of_read {text : String} {p : Program} (h : (read g jumps text).result = .ok p)
    (htags : List.Forall₂ (InstructionOf g) ((ofKind .code (Block.cut (Line.ofText text)).2).flatMap
      fun b => unlabelled g none b.body) p.instructions)
    {b : Block} (hb : b ∈ ofKind .code (Block.cut (Line.ofText text)).2) {before after : List Line}
    {line : Line} (hbody : b.body = before ++ line :: after) {label : Label}
    (hlabel : label? g line = some label) :
    Fate g p (read g jumps text).events label after := by
  obtain ⟨name, hname, rfl⟩ := Option.map_eq_some_iff.1 hlabel
  have hplace := mem_codePlaces hb hbody
  have hwarning : warning? g (line, after.head?) =
      Label.warning? g ⟨name, line.number⟩ after.head? := by
    rw [warning?, hlabel, Option.bind_some]
  have hreplaced := count_read h hplace (.tagReplaced name line.number) rfl rfl
  have hunused := count_read h hplace (.tagUnused name line.number) rfl rfl
  rw [hwarning] at hreplaced hunused
  cases after with
  | nil =>
    refine .unused ?_ ?_
    · simpa [Label.warning?] using hreplaced
    · simpa [Label.warning?] using hunused
  | cons next after =>
    cases hnext : labelName? g next with
    | some later =>
      refine .replaced hnext ?_ ?_
      · simpa [Label.warning?, hnext] using hreplaced
      · simpa [Label.warning?, hnext] using hunused
    | none =>
      have hnumbers := nodup_numbers_linesOf .code (cut_of_read h)
      obtain ⟨instruction, honly, htag⟩ := carried_of_tags hnumbers htags hb hbody hnext
      refine .carried hnext honly (htag.trans hname) ?_ ?_
      · simpa [Label.warning?, hnext] using hreplaced
      · simpa [Label.warning?, hnext] using hunused

/-- A warning stems from one line, which is a label of a block of code. -/
theorem existsUnique_of_givenUp {text : String} {p : Program}
    (h : (read g jumps text).result = .ok p) {event : Event}
    (hm : event ∈ (read g jumps text).events) (hgiven : event.isGivenUp) :
    ∃! line, line ∈ linesOf .code (Block.cut (Line.ofText text)).2 ∧
      ∃ label, label? g line = some label ∧ label.GivenUpBy event := by
  have hwarnings := List.mem_filter.2 ⟨hm, hgiven⟩
  rw [givenUp_read h] at hwarnings
  obtain ⟨place, hplace, hwarning⟩ := List.mem_filterMap.1 hwarnings
  have hline : place.1 ∈ linesOf .code (Block.cut (Line.ofText text)).2 := by
    rw [← map_fst_codePlaces]
    exact List.mem_map_of_mem hplace
  refine ⟨place.1, ⟨hline, givenUpBy_of_warning? hwarning⟩, ?_⟩
  rintro other ⟨hother, label, hlabel, hgivenUp⟩
  have hnumber : other.number = place.1.number := by
    rw [← line_of_label? hlabel]
    exact Option.some.inj (hgivenUp.labelLine?.symm.trans (labelLine?_of_warning? hwarning))
  exact List.inj_on_of_nodup_map (nodup_numbers_linesOf .code (cut_of_read h)) hother hline hnumber

/-- Every label of a parsed text has one fate. The next instruction of its block carries it, or
it is given up with one warning. No instruction and no warning stems from anything else. -/
theorem keepsLabels_of_parse (options : ParseOptions) (valid : 0 < options.indentUnit)
    (text : String) (p : Program) (h : (parse options text).result = .ok p) :
    KeepsLabels ⟨options.indentUnit, valid⟩ (Block.cut (Line.ofText text)).2 p
      (parse options text).events := by
  rw [parse_of_valid valid] at h ⊢
  have htags := ((read_eq_ok_iff _ _ (cut_of_read h)).1 h).instructions
  constructor
  · intro b hb before line after label hbody hlabel
    exact fate_of_read h htags hb hbody hlabel
  · exact htags
  · intro event hm hgiven
    exact existsUnique_of_givenUp h hm hgiven

theorem keepsLabels_of_four_labels :
    let text := "main:\n  a:\n  b:\n  NOP\n  RET\n  c:\nend:\n  RET\n"
    ∃ p, (parse ⟨2, .collapse⟩ text).result = .ok p ∧
      p.instructions.map (·.tag) = [some "b", none, none] ∧
      KeepsLabels ⟨2, by decide⟩ (Block.cut (Line.ofText text)).2 p
        (parse ⟨2, .collapse⟩ text).events := by
  intro text
  have hp : (parse ⟨2, .collapse⟩ text).result =
      .ok ⟨.empty, [], [⟨some "b", "NOP", [], 1, 4⟩, ⟨none, "RET", [], 1, 5⟩,
        ⟨none, "RET", [], 1, 8⟩]⟩ := by decide +kernel
  exact ⟨_, hp, rfl, keepsLabels_of_parse ⟨2, .collapse⟩ (by decide) text _ hp⟩

end Program

end Codesheet
