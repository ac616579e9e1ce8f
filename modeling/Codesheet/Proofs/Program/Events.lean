import Codesheet.Program.Parse
import Codesheet.Proofs.Constants.Steps

/-! The events of a parse. A block reports events of its own kind only, whatever its lines
are and whether it is accepted. -/

namespace Codesheet

/-- The kind of the blocks that report an event, apart from their headers. -/
def Event.kind? : Event → Option Kind
  | bitField .. | indentJump .. | constant .. | constantsDone .. => some .constants
  | tableDone .. => some .table
  | tagReplaced .. | tagUnused .. | codeDone .. => some .code
  | _ => none

namespace Logged

variable {α β : Type} {P : Event → Prop}

/-- All events of a run have a property. -/
def Reports (P : Event → Prop) (x : Logged α) : Prop := ∀ event ∈ x.events, P event

theorem mem_events_bind {x : Logged α} {f : α → Logged β} {event : Event} :
    event ∈ (x >>= f).events ↔
      event ∈ x.events ∨ ∃ a, x.result = .ok a ∧ event ∈ (f a).events := by
  cases h : x.result with
  | ok a => simp [bind_ok h]
  | error fault => simp [bind_error h]

theorem Reports.bind {x : Logged α} {f : α → Logged β} (h : x.Reports P)
    (hf : ∀ a, (f a).Reports P) : (x >>= f).Reports P := by
  intro event hm
  rcases mem_events_bind.1 hm with hm | ⟨a, -, hm⟩
  · exact h event hm
  · exact hf a event hm

theorem reports_of_nil {x : Logged α} (h : x.events = []) : x.Reports P := by
  rw [Reports, h]
  exact nofun

theorem reports_report {event : Event} (h : P event) : (report event).Reports P := by
  intro other hm
  obtain rfl := List.mem_singleton.1 hm
  exact h

end Logged

open Logged (reports_of_nil reports_report)

namespace Builder

variable {b : Builder}

theorem reports_andThen {P : Event → Prop} {first second : Step} (h : (first b).2.Reports P)
    (h' : (second (first b).1).2.Reports P) : (first.andThen second b).2.Reports P := by
  cases hr : (first b).2.result with
  | error fault => rwa [andThen_of_error hr]
  | ok done =>
    rw [andThen_of_ok hr]
    intro event hm
    rcases List.mem_append.1 hm with hm | hm
    · exact h event hm
    · exact h' event hm

theorem mem_events_andThen {first : Step} {event : Event} (h : event ∈ (first b).2.events)
    (second : Step) : event ∈ (first.andThen second b).2.events := by
  cases hr : (first b).2.result with
  | error fault => rwa [andThen_of_error hr]
  | ok done =>
    rw [andThen_of_ok hr]
    exact List.mem_append_left _ h

theorem events_annotate (field : BitField) :
    (annotate field b).2.events = [.bitField field.name field.size] := by
  unfold annotate
  split <;> rfl

theorem events_attach (node : Node) :
    (attach node b).2.events = [.constant node.name node.value (b.parent.length + 1)] := by
  unfold attach
  split <;> rfl

/-- Only a jump that is collapsed is reported. -/
theorem events_moveTo (level : Nat) :
    (moveTo level b).2.events =
      if b.level + 1 < level ∧ b.jumps = .collapse then [.indentJump b.level level] else [] := by
  have hm := moves_moveTo level b
  generalize moveTo level b = r at hm
  cases hm with
  | same h => rw [if_neg (by omega)]; rfl
  | next h => rw [if_neg (by omega)]; rfl
  | collapsed h hj => rw [if_pos ⟨h, hj⟩]; rfl
  | rejected h hj => rw [if_neg (by simp [hj])]; rfl
  | fallen h hs hd => rw [if_neg (by omega)]; rfl
  | unopened h hs hd => rw [if_neg (by omega)]; rfl

theorem reports_add (line : ConstantLine) : (add line b).2.Reports (·.kind? = some .constants) := by
  cases hbit : line.bitField? with
  | some name =>
    rw [add_of_bitField hbit, Logged.Reports, events_annotate]
    exact List.forall_mem_singleton.2 rfl
  | none =>
    rw [add_of_node hbit]
    refine reports_andThen ?_ ?_
    · rw [Logged.Reports, events_moveTo]
      split
      · exact List.forall_mem_singleton.2 rfl
      · exact nofun
    · rw [Logged.Reports, events_attach]
      exact List.forall_mem_singleton.2 rfl

theorem reports_feed (line : Line) : (feed line b).2.Reports (·.kind? = some .constants) := by
  unfold feed
  split
  · exact reports_add _
  · exact reports_of_nil rfl

theorem reports_feedAll (lines : List Line) :
    (feedAll lines b).2.Reports (·.kind? = some .constants) := by
  induction lines generalizing b with
  | nil => exact reports_of_nil rfl
  | cons line lines ih => exact reports_andThen (reports_feed line) ih

end Builder

namespace Program

variable (g : Grammar) (jumps : JumpPolicy)

theorem reports_replaced {P : Event → Prop} (h : ∀ tag line, P (.tagReplaced tag line))
    (waiting : Option Label) : (replaced waiting).Reports P := by
  cases waiting with
  | none => exact reports_of_nil rfl
  | some label => exact reports_report (h label.name label.line)

theorem reports_unused {P : Event → Prop} (h : ∀ tag line, P (.tagUnused tag line))
    (waiting : Option Label) : (unused waiting).Reports P := by
  cases waiting with
  | none => exact reports_of_nil rfl
  | some label => exact reports_report (h label.name label.line)

/-- Code reports nothing but labels that are not carried. -/
theorem reports_code {P : Event → Prop} (hreplaced : ∀ tag line, P (.tagReplaced tag line))
    (hunused : ∀ tag line, P (.tagUnused tag line)) (waiting : Option Label) (lines : List Line) :
    (code g waiting lines).Reports P := by
  induction lines generalizing waiting with
  | nil => exact (reports_unused hunused waiting).bind fun _ => reports_of_nil rfl
  | cons line lines ih =>
    refine Logged.Reports.bind (reports_of_nil rfl) fun found => ?_
    cases found with
    | some label => exact (reports_replaced hreplaced waiting).bind fun _ => ih _
    | none =>
      refine Logged.Reports.bind (reports_of_nil rfl) fun shape => ?_
      exact (ih none).bind fun more => reports_of_nil rfl

/-- A block reports events of its kind. -/
theorem reports_addBlock (p : Program) (header : Header) (body : List Line) :
    (addBlock g jumps p header body).Reports (·.kind? = some header.kind) := by
  unfold addBlock
  cases header.kind with
  | constants =>
    refine (Builder.reports_feedAll body).bind fun _ => ?_
    exact Logged.Reports.bind (reports_report rfl) fun _ => reports_of_nil rfl
  | table =>
    refine Logged.Reports.bind (reports_of_nil rfl) fun entries => ?_
    exact Logged.Reports.bind (reports_report rfl) fun _ => reports_of_nil rfl
  | code =>
    refine (reports_code g (fun _ _ => rfl) (fun _ _ => rfl) none body).bind fun instructions => ?_
    exact Logged.Reports.bind (reports_report rfl) fun _ => reports_of_nil rfl

end Program

end Codesheet
