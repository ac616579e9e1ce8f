import Codesheet.Proofs.Block.Cut
import Codesheet.Proofs.Grammar.Widened
import Codesheet.Proofs.Program.Partition

/-! Texts with wider indents. A builder sees the levels of its lines and not their spaces, and no block
of another kind sees more, so a text with its leading spaces multiplied is read as before if the unit is
multiplied too. Its faults are the same ones, at their places in the wider lines. -/

namespace Codesheet

variable {k : Nat} {g : Grammar}

/-! ### Logged runs -/

namespace Logged

variable {α β : Type} {φ : Fault → Fault}

/-- The run with another fault at its end. -/
def mapFault (φ : Fault → Fault) (x : Logged α) : Logged α := ⟨x.events, x.result.mapError φ⟩

theorem mapFault_of_ok {x : Logged α} {a : α} (h : x.result = .ok a) (φ : Fault → Fault) :
    x.mapFault φ = x := by
  rw [mapFault, h]
  exact Logged.ext rfl h.symm

@[simp] theorem mapFault_pure (a : α) : (Pure.pure a : Logged α).mapFault φ = Pure.pure a := rfl

@[simp] theorem mapFault_report (event : Event) : (report event).mapFault φ = report event := rfl

theorem mapFault_ofExcept (result : Except Fault α) :
    (ofExcept result).mapFault φ = ofExcept (result.mapError φ) := rfl

theorem mapFault_bind (φ : Fault → Fault) (x : Logged α) (f : α → Logged β) :
    (x >>= f).mapFault φ = x.mapFault φ >>= fun a => (f a).mapFault φ := by
  cases h : x.result with
  | error fault =>
    have hx : (x.mapFault φ).result = .error (φ fault) := by rw [mapFault, h]; rfl
    rw [bind_error h, bind_error hx]
    rfl
  | ok a =>
    rw [bind_ok h, mapFault_of_ok h, bind_ok h]
    rfl

theorem mapFault_atLine (number : Nat) (x : Logged α) :
    (x.atLine number).mapFault (Fault.widen k) = (x.mapFault (Fault.widen k)).atLine number := by
  rcases x with ⟨events, fault | a⟩
  · simp only [mapFault, atLine, Except.mapError, Fault.widen_atLine]
  · rfl

end Logged

open Logged (mapFault mapFault_of_ok mapFault_bind mapFault_atLine)

/-! ### Builders -/

namespace Builder

variable {b : Builder}

/-- The builder with a multiple of its unit. -/
def scaled (hk : 0 < k) (b : Builder) : Builder := { b with grammar := b.grammar.scaled hk }

theorem annotate_scaled (hk : 0 < k) (field : BitField) : Commutes (scaled hk) (annotate field) b := by
  have hedit : (b.scaled hk).edited (·.addBitField field) (b.scaled hk).last =
      b.edited (·.addBitField field) b.last := rfl
  rw [Commutes, annotate, annotate, hedit]
  cases b.edited (·.addBitField field) b.last <;> rfl

theorem attach_scaled (hk : 0 < k) (node : Node) : Commutes (scaled hk) (attach node) b := by
  have hnode : (b.scaled hk).nodeAt (b.scaled hk).parent = b.nodeAt b.parent := rfl
  have hedit : (b.scaled hk).edited (·.insertChild node) (b.scaled hk).parent =
      b.edited (·.insertChild node) b.parent := rfl
  rw [Commutes, attach, attach, hnode, hedit]
  cases b.nodeAt b.parent <;> cases b.edited (·.insertChild node) b.parent <;> rfl

theorem moveTo_scaled (hk : 0 < k) (level : Nat) : Commutes (scaled hk) (moveTo level) b :=
  moveTo_commutes (scaled hk) (fun _ => rfl) (fun _ => rfl) (fun _ => rfl) (fun _ _ => rfl)
    (fun _ _ => rfl) (fun _ _ _ => rfl) level

theorem add_scaled (hk : 0 < k) (line : ConstantLine) : Commutes (scaled hk) (add line) b :=
  add_commutes (annotate_scaled hk) (moveTo_scaled hk) (fun node _ => attach_scaled hk node) line

/-- A refusal speaks of levels. -/
theorem widen_of_refusal {level : Nat} {cause : IndentCause} (h : b.refusal? level = some cause) (k : Nat) :
    cause.widen k = cause := by
  unfold refusal? at h
  split_ifs at h
  · obtain rfl := Option.some.inj h
    rfl
  · obtain rfl := Option.some.inj h
    rfl

theorem Sound.mapFault_add (hb : b.Sound) (line : ConstantLine) (k : Nat) :
    (add line b).2.mapFault (Fault.widen k) = (add line b).2 := by
  cases hbit : line.bitField? with
  | some name =>
    obtain ⟨_, _, -, -, ha⟩ := annotate_of_sound hb ⟨name, line.value⟩
    rw [add_of_bitField hbit, ha]
    rfl
  | none =>
    cases hc : b.refusal? line.level with
    | none => exact mapFault_of_ok (hb.add_of_not_refused hbit hc).1 _
    | some cause =>
      have hresult := (add_of_refusal hbit hc).1
      refine Logged.ext rfl ?_
      rw [mapFault, hresult]
      show Except.error (Fault.indent 0 (cause.widen k)) = _
      rw [widen_of_refusal hc]

theorem Sound.feed_widen (hb : b.Sound) (hk : 0 < k) (line : Line) :
    feed (line.widen k) (b.scaled hk) =
      ((feed line b).1.scaled hk, (feed line b).2.mapFault (Fault.widen k)) := by
  have hwide : (b.scaled hk).grammar.constantLine (line.widen k).text =
      (b.grammar.constantLine line.text).mapError (Fault.widen k) := Grammar.constantLine_scaled hk line.text
  cases hc : b.grammar.constantLine line.text with
  | error fault =>
    rw [hc] at hwide
    rw [feed_of_error hc, feed_of_error hwide, ← Fault.widen_atLine]
    rfl
  | ok constant =>
    rw [hc] at hwide
    rw [feed_of_ok hc, feed_of_ok hwide, add_scaled, mapFault_atLine, hb.mapFault_add]
    rfl

theorem Sound.feedAll_widen (hb : b.Sound) (hk : 0 < k) (lines : List Line) :
    feedAll (lines.map (Line.widen k)) (b.scaled hk) =
      ((feedAll lines b).1.scaled hk, (feedAll lines b).2.mapFault (Fault.widen k)) := by
  induction lines generalizing b with
  | nil => rfl
  | cons line lines ih =>
    have hfeed := hb.feed_widen hk line
    rw [List.map_cons, feedAll, feedAll]
    cases hr : (feed line b).2.result with
    | error fault =>
      have hr' : (feed (line.widen k) (b.scaled hk)).2.result = .error (fault.widen k) := by
        rw [hfeed, mapFault, hr]
        rfl
      rw [andThen_of_error hr, andThen_of_error hr', hfeed]
    | ok done =>
      have hr' : (feed (line.widen k) (b.scaled hk)).2.result = .ok () := by
        rw [hfeed, mapFault, hr]
        rfl
      rw [andThen_of_ok hr, andThen_of_ok hr', hfeed, ih (hb.sound_feed line)]
      rfl

end Builder

namespace Program

/-! ### Tables and code -/

theorem entry_widen (hk : 0 < k) (line : Line) :
    entry (g.scaled hk) (line.widen k) = (entry g line).mapError (Fault.widen k) := by
  have hwide : (g.scaled hk).entryLine (line.widen k).text =
      (g.entryLine line.text).mapError (Fault.widen k) := Grammar.entryLine_scaled hk line.text
  rw [entry, entry, hwide]
  cases g.entryLine line.text with
  | error fault => exact congrArg Except.error (Fault.widen_atLine k line.number fault).symm
  | ok shape => rfl

theorem mapM_entry_widen (hk : 0 < k) (lines : List Line) :
    (lines.map (Line.widen k)).mapM (entry (g.scaled hk)) =
      (lines.mapM (entry g)).mapError (Fault.widen k) := by
  induction lines with
  | nil => rfl
  | cons line lines ih =>
    rw [List.map_cons, List.mapM_cons, List.mapM_cons, entry_widen, ih]
    cases entry g line with
    | error fault => rfl
    | ok e => cases lines.mapM (entry g) <;> rfl

theorem code_widen (hk : 0 < k) (waiting : Option Label) (lines : List Line) :
    code (g.scaled hk) waiting (lines.map (Line.widen k)) =
      (code g waiting lines).mapFault (Fault.widen k) := by
  induction lines generalizing waiting with
  | nil => cases waiting <;> rfl
  | cons line lines ih =>
    have hlabel : (g.scaled hk).labelLine? (line.widen k).text =
        (g.labelLine? line.text).mapError (Fault.widen k) := Grammar.labelLine?_scaled hk line.text
    have hshape : (g.scaled hk).instructionLine (line.widen k).text =
        (g.instructionLine line.text).mapError (Fault.widen k) := Grammar.instructionLine_scaled hk line.text
    have hnumber : (line.widen k).number = line.number := rfl
    rw [List.map_cons, code, code, hlabel, hshape, hnumber, ← Logged.mapFault_ofExcept,
      ← Logged.mapFault_ofExcept, ← mapFault_atLine, ← mapFault_atLine, mapFault_bind]
    refine bind_congr fun found => ?_
    cases found with
    | some label =>
      simp only [ih, mapFault_bind, mapFault_of_ok (result_replaced waiting)]
    | none =>
      simp only [ih, mapFault_bind, Logged.mapFault_pure]

/-! ### Blocks -/

theorem addBlock_widen (hk : 0 < k) (jumps : JumpPolicy) (p : Program) (header : Header) (body : List Line) :
    addBlock (g.scaled hk) jumps p header (body.map (Line.widen k)) =
      (addBlock g jumps p header body).mapFault (Fault.widen k) := by
  unfold addBlock
  cases header.kind with
  | constants =>
    have hb := Builder.sound_start g jumps p.constants header.name
    have hfeed := hb.feedAll_widen hk body
    have hstart : Builder.start (g.scaled hk) jumps p.constants header.name =
        (Builder.start g jumps p.constants header.name).scaled hk := rfl
    simp only [hstart, hfeed, mapFault_bind, Logged.mapFault_report, Logged.mapFault_pure]
    rfl
  | table =>
    simp only [mapM_entry_widen, mapFault_bind, Logged.mapFault_ofExcept, Logged.mapFault_report,
      Logged.mapFault_pure]
  | code =>
    simp only [code_widen, mapFault_bind, Logged.mapFault_report, Logged.mapFault_pure]

theorem addAll_widen (hk : 0 < k) (jumps : JumpPolicy) (p : Program) {blocks : List Block}
    (h : ∀ b ∈ blocks, b.WellFormed) :
    addAll (g.scaled hk) jumps p (blocks.map (Block.map (Line.widen k))) =
      (addAll g jumps p blocks).mapFault (Fault.widen k) := by
  induction blocks generalizing p with
  | nil => rfl
  | cons b blocks ih =>
    obtain ⟨hb, hrest⟩ := List.forall_mem_cons.1 h
    have hheader : (b.map (Line.widen k)).header = b.header :=
      congrArg Header.ofLine (Line.widen_of_isHeader hb.1 k)
    have hbody : (b.map (Line.widen k)).body = b.body.map (Line.widen k) := rfl
    have hadd := addBlock_widen (g := g) hk jumps p b.header b.body
    simp only [List.map_cons, addAll_cons, hheader, hbody, hadd, ih _ hrest, mapFault_bind,
      Logged.mapFault_report]

/-! ### Programs -/

/-- The text with the leading spaces of each of its lines multiplied. -/
def widened (k : Nat) (text : String) : String := String.ofList (Text.widened k text.toList)

theorem read_widened (hk : 0 < k) (jumps : JumpPolicy) (text : String) :
    read (g.scaled hk) jumps (widened k text) = (read g jumps text).mapFault (Fault.widen k) := by
  have hlines : Line.ofText (widened k text) = (Line.ofText text).map (Line.widen k) :=
    Line.ofText_widened k text
  have hcut := Block.cut_map (Line.isHeader_widen hk) (Line.ofText text)
  by_cases hc : (Block.cut (Line.ofText text)).1 = []
  · have hc' : (Block.cut (Line.ofText (widened k text))).1 = [] := by rw [hlines, hcut, hc]; rfl
    rw [read_of_header _ _ hc, read_of_header _ _ hc', hlines, hcut,
      addAll_widen hk jumps .empty fun b => Block.wellFormed_of_mem_cut, mapFault_bind]
    rfl
  · rw [Block.cut_fst_eq_nil_iff] at hc
    push Not at hc
    obtain ⟨line, hline, hl⟩ := hc
    have hline' : (Line.ofText (widened k text)).head? = some (line.widen k) := by
      rw [hlines, List.head?_map, hline]
      rfl
    have hl' : ¬ (line.widen k).isHeader := by rwa [Line.isHeader_widen hk]
    rw [read_eq_fail _ _ hline hl, read_eq_fail _ _ hline' hl']
    rfl

/-- Only the levels of the lines count: with the leading spaces of every line multiplied, and the unit
too, a text gives the same program and reports the same, or stops with a fault of the same kind at the
same line. -/
theorem parse_widened (unit : Nat) (hk : 0 < k) (jumps : JumpPolicy) (text : String) :
    parse ⟨k * unit, jumps⟩ (widened k text) = (parse ⟨unit, jumps⟩ text).mapFault (Fault.widen k) ∧
      ∀ fault : Fault, fault.Alike (fault.widen k) := by
  refine ⟨?_, Fault.alike_widen k⟩
  by_cases valid : 0 < unit
  · have hparse : parse ⟨unit, jumps⟩ text = read ⟨unit, valid⟩ jumps text := parse_of_valid valid text
    have hparse' : parse ⟨k * unit, jumps⟩ (widened k text) =
        read (Grammar.scaled ⟨unit, valid⟩ hk) jumps (widened k text) :=
      parse_of_valid (Nat.mul_pos hk valid) (widened k text)
    rw [hparse, hparse', read_widened]
  · obtain rfl : unit = 0 := Nat.eq_zero_of_not_pos valid
    rfl

/-- Indents that make levels 1 and 2, one of them in front of a blank line, and one that makes none. -/
theorem parse_widened_partial_unit :
    let text := "_r:\n  a: 1\n \n    b: 2\n   c: 3\n"
    let text' := "_r:\n      a: 1\n   \n            b: 2\n         c: 3\n"
    0 < 3 ∧ widened 3 text = text' ∧
      (parse ⟨2, .reject⟩ text).result = .error (.indent 5 (.partialUnit 3 2)) ∧
      (parse ⟨6, .reject⟩ text').result = .error (.indent 5 (.partialUnit 9 6)) := by
  intro text text'
  have htext : widened 3 text = text' := by decide +kernel
  have hparse : (parse ⟨2, .reject⟩ text).result = .error (.indent 5 (.partialUnit 3 2)) := by
    decide +kernel
  have hwide := (parse_widened 2 (k := 3) (by decide) .reject text).1
  refine ⟨by decide, htext, hparse, ?_⟩
  rw [← htext]
  refine (congrArg Logged.result hwide).trans ?_
  rw [mapFault, hparse]
  rfl

end Program

end Codesheet
