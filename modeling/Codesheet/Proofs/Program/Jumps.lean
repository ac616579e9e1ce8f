import Codesheet.Proofs.Constants.Scopes
import Codesheet.Proofs.Program.Events
import Codesheet.Proofs.Program.Partition

/-! Parses that collapse jumps beside parses that reject them. Line by line the two do the same
and report the same, up to the first node that is more than one level deeper than the node
before it. There the one run warns and goes on, and the other one stops. -/

namespace Codesheet

/-- A node line by its number and its level, with the level of the node line before it in its
block. The first one comes after level 0. -/
structure Shift where
  before : Nat
  line : Nat
  level : Nat
  deriving DecidableEq

namespace Shift

def isJump (s : Shift) : Bool := s.before + 1 < s.level

def fault (s : Shift) : Fault := .indent s.line (.jump s.before s.level)

end Shift

def shift? (g : Grammar) (before : Nat) (line : Line) : Option Shift :=
  (Builder.nodeLine? g line).map fun constant => ⟨before, line.number, constant.level⟩

/-- The shifts of some lines after a node of a level. -/
def shifts (g : Grammar) : Nat → List Line → List Shift
  | _, [] => []
  | before, line :: lines =>
    (shift? g before line).toList ++
      shifts g ((Builder.nodeLine? g line).elim before (·.level)) lines

def Block.shifts (g : Grammar) (b : Block) : List Shift :=
  if b.header.kind = .constants then Codesheet.shifts g 0 b.body else []

def Event.isJump : Event → Bool
  | indentJump .. => true
  | _ => false

/-! ### Two runs -/

namespace Logged

variable {α β γ δ : Type} {R : α → β → Prop} {S : γ → δ → Prop}

/-- A run that collapses jumps and a run that rejects them, over the same lines. Where these
hold no jump, the runs have the same events and end in the same way. At the first jump the one
warns and the other stops. -/
inductive Parallel (R : α → β → Prop) (shifts : List Shift) (x : Logged α) (y : Logged β) : Prop where
  | failed (fault : Fault) (hx : x.result = .error fault) (hy : y.result = .error fault)
    (events : y.events = x.events) (quiet : x.Reports (¬ ·.isJump))
  | agreed (a : α) (b : β) (hx : x.result = .ok a) (hy : y.result = .ok b) (related : R a b)
    (events : y.events = x.events) (quiet : x.Reports (¬ ·.isJump))
    (level : ∀ s ∈ shifts, ¬ s.isJump)
  | parted (s : Shift) (first : shifts.find? (·.isJump) = some s)
    (warned : .indentJump s.before s.level ∈ x.events) (stopped : y.result = .error s.fault)

theorem Parallel.bind {shifts more : List Shift} {x : Logged α} {y : Logged β} {f : α → Logged γ}
    {f' : β → Logged δ} (h : Parallel R shifts x y)
    (hf : ∀ a b, x.result = .ok a → R a b → Parallel S more (f a) (f' b)) :
    Parallel S (shifts ++ more) (x >>= f) (y >>= f') := by
  cases h with
  | failed fault hx hy events quiet =>
    rw [bind_error hx, bind_error hy]
    exact .failed fault rfl rfl events quiet
  | parted s first warned stopped =>
    refine .parted s ?_ (mem_events_bind.2 (.inl warned)) ?_
    · rw [List.find?_append, first, Option.some_or]
    · rw [bind_error stopped]
  | agreed a b hx hy related events quiet level =>
    have hquiet : (f a).Reports (¬ ·.isJump) →
        ∀ event ∈ x.events ++ (f a).events, ¬ event.isJump := by
      intro hmore event hm
      exact (List.mem_append.1 hm).elim (quiet event) (hmore event)
    rw [bind_ok hx, bind_ok hy, events]
    cases hf a b hx related with
    | failed fault hx' hy' events' quiet' =>
      exact .failed fault hx' hy' (by rw [events']) (hquiet quiet')
    | agreed c d hx' hy' related' events' quiet' level' =>
      refine .agreed c d hx' hy' related' (by rw [events']) (hquiet quiet') ?_
      exact List.forall_mem_append.2 ⟨level, level'⟩
    | parted s first warned stopped =>
      refine .parted s ?_ (List.mem_append_right _ warned) stopped
      rw [List.find?_append, List.find?_eq_none.2 level, Option.none_or, first]

/-- A run that does not depend on the policy, and reports no jump. -/
theorem parallel_same {shifts : List Shift} {x : Logged α} (quiet : x.Reports (¬ ·.isJump))
    (level : ∀ s ∈ shifts, ¬ s.isJump) : Parallel Eq shifts x x := by
  cases h : x.result with
  | ok a => exact .agreed a a h h rfl rfl quiet level
  | error fault => exact .failed fault h h rfl quiet

end Logged

open Logged (Parallel parallel_same reports_of_nil)

/-! ### Builders -/

namespace Builder

variable {b : Builder}

/-- The same builder under the policy that rejects jumps. -/
def rejecting (b : Builder) : Builder := { b with jumps := .reject }

/-- A step that does the same under both policies. -/
def Alike (step : Step) (b : Builder) : Prop :=
  step b.rejecting = ((step b).1.rejecting, (step b).2)

theorem alike_andThen {first second : Step} (h : Alike first b) (h' : Alike second (first b).1) :
    Alike (first.andThen second) b :=
  commutes_andThen h h'

theorem alike_annotate (field : BitField) : Alike (annotate field) b := by
  have hedit : b.rejecting.edited (·.addBitField field) b.rejecting.last =
      b.edited (·.addBitField field) b.last := rfl
  rw [Alike, annotate, annotate, hedit]
  cases b.edited (·.addBitField field) b.last <;> rfl

theorem alike_attach (node : Node) : Alike (attach node) b := by
  have hnode : b.rejecting.nodeAt b.rejecting.parent = b.nodeAt b.parent := rfl
  have hedit : b.rejecting.edited (·.insertChild node) b.rejecting.parent =
      b.edited (·.insertChild node) b.parent := rfl
  rw [Alike, attach, attach, hnode, hedit]
  cases b.nodeAt b.parent <;> cases b.edited (·.insertChild node) b.parent <;> rfl

theorem close_rejecting (n : Nat) (b : Builder) :
    close n b.rejecting = ((close n b).1.rejecting, (close n b).2) :=
  close_commutes rejecting (fun _ => rfl) (fun _ _ _ => rfl) n b

theorem alike_moveTo {level : Nat} (h : level ≤ b.level + 1) : Alike (moveTo level) b := by
  have hlevel : b.rejecting.level = b.level := rfl
  rw [Alike, moveTo, moveTo, hlevel, if_pos h, if_pos h, close_rejecting]
  split_ifs
  · rfl
  · cases hc : close (b.level - level) b with
    | mk c done => cases done <;> rfl
  · rfl

/-- A node that is no jump is added in the same way. -/
theorem alike_add {line : ConstantLine} (h : line.bitField? = none → line.level ≤ b.level + 1) :
    Alike (add line) b := by
  cases hbit : line.bitField? with
  | some name =>
    rw [add_of_bitField hbit]
    exact alike_annotate _
  | none =>
    rw [add_of_node hbit]
    exact alike_andThen (alike_moveTo (h hbit)) (alike_attach _)

theorem quiet_add {line : ConstantLine} (h : line.bitField? = none → line.level ≤ b.level + 1) :
    (add line b).2.Reports (¬ ·.isJump) := by
  cases hbit : line.bitField? with
  | some name =>
    rw [add_of_bitField hbit, Logged.Reports, events_annotate]
    exact List.forall_mem_singleton.2 Bool.false_ne_true
  | none =>
    have hlevel := h hbit
    rw [add_of_node hbit]
    refine reports_andThen ?_ ?_
    · rw [Logged.Reports, events_moveTo, if_neg (by omega)]
      exact List.forall_mem_nil _
    · rw [Logged.Reports, events_attach]
      exact List.forall_mem_singleton.2 Bool.false_ne_true

/-! ### Fed lines -/

/-- The builder after a step, if the step does not fail. -/
def run (step : Step) (b : Builder) : Logged Builder := (step b).2 >>= fun _ => pure (step b).1

theorem run_of_ok {step : Step} (h : (step b).2.result = .ok ()) :
    run step b = ⟨(step b).2.events, .ok (step b).1⟩ := by
  rw [run, Logged.bind_ok h]
  simp

theorem run_of_error {step : Step} {fault : Fault} (h : (step b).2.result = .error fault) :
    run step b = ⟨(step b).2.events, .error fault⟩ := by
  rw [run, Logged.bind_error h]

theorem run_andThen (first second : Step) (b : Builder) :
    run (first.andThen second) b = run first b >>= run second := by
  cases hr : (first b).2.result with
  | error fault =>
    rw [run_of_error hr, Logged.bind_error rfl, run, andThen_of_error hr, Logged.bind_error hr]
  | ok done =>
    rw [run_of_ok hr, Logged.bind_ok rfl, run, andThen_of_ok hr]
    cases hs : (second (first b).1).2.result with
    | error fault => rw [run_of_error hs, Logged.bind_error rfl]
    | ok done => rw [run_of_ok hs, Logged.bind_ok rfl, Logged.events_pure, List.append_nil]; rfl

theorem parallel_of_alike {step : Step} {shifts : List Shift} (h : Alike step b)
    (quiet : (step b).2.Reports (¬ ·.isJump)) (level : ∀ s ∈ shifts, ¬ s.isJump) :
    Parallel (fun c c' => c' = c.rejecting) shifts (run step b) (run step b.rejecting) := by
  have hsame : (step b.rejecting).2 = (step b).2 := by rw [h]
  cases hr : (step b).2.result with
  | error fault =>
    rw [run_of_error hr, run_of_error (hsame ▸ hr), hsame]
    exact .failed fault rfl rfl rfl quiet
  | ok done =>
    rw [run_of_ok hr, run_of_ok (hsame ▸ hr), h]
    exact .agreed _ _ rfl rfl rfl rfl quiet level

theorem shift?_of_some {g : Grammar} {before : Nat} {line : Line} {constant : ConstantLine}
    (h : nodeLine? g line = some constant) :
    shift? g before line = some ⟨before, line.number, constant.level⟩ := by
  rw [shift?, h]
  rfl

/-- One line is taken in the same way, or is the jump at which the runs part. -/
theorem parallel_feed (hj : b.jumps = .collapse) (line : Line) :
    Parallel (fun c c' => c' = c.rejecting) (shift? b.grammar b.level line).toList
      (run (feed line) b) (run (feed line) b.rejecting) := by
  cases hc : b.grammar.constantLine line.text with
  | error fault =>
    have hnone : nodeLine? b.grammar line = none := by rw [nodeLine?, hc]
    refine parallel_of_alike ?_ ?_ ?_
    · rw [Alike, feed_of_error hc, feed_of_error (b := b.rejecting) hc]
    · rw [feed_of_error hc]
      exact reports_of_nil rfl
    · rw [shift?, hnone]
      exact List.forall_mem_nil _
  | ok constant =>
    have hc' : b.rejecting.grammar.constantLine line.text = .ok constant := hc
    by_cases hl : constant.bitField? = none → constant.level ≤ b.level + 1
    · refine parallel_of_alike ?_ ?_ fun s hs => ?_
      · rw [Alike, feed_of_ok hc, feed_of_ok hc', alike_add hl]
      · rw [feed_of_ok hc]
        exact quiet_add hl
      · obtain ⟨node, hnode, rfl⟩ := Option.map_eq_some_iff.1 (Option.mem_toList.1 hs)
        obtain ⟨hc'', hbit⟩ := nodeLine?_eq_some.1 hnode
        obtain rfl := Except.ok.inj (hc.symm.trans hc'')
        simpa [Shift.isJump] using hl hbit
    · obtain ⟨hbit, hlevel⟩ := Classical.not_imp.1 hl
      have hjump := Nat.lt_of_not_le hlevel
      have hshift : shift? b.grammar b.level line = some ⟨b.level, line.number, constant.level⟩ :=
        shift?_of_some (nodeLine?_eq_some.2 ⟨hc, hbit⟩)
      refine .parted ⟨b.level, line.number, constant.level⟩ ?_ ?_ ?_
      · simp [hshift, Shift.isJump, hjump]
      · have hmove : .indentJump b.level constant.level ∈ (moveTo constant.level b).2.events := by
          rw [events_moveTo, if_pos ⟨hjump, hj⟩]
          exact List.mem_singleton_self _
        refine Logged.mem_events_bind.2 (.inl ?_)
        rw [feed_of_ok hc, add_of_node hbit]
        exact mem_events_andThen hmove _
      · have hrefused : b.rejecting.refusal? constant.level = some (.jump b.level constant.level) :=
          if_pos ⟨hjump, rfl⟩
        have hadd := (add_of_refusal hbit hrefused).1
        rw [run_of_error]
        rw [feed_of_ok hc']
        exact Logged.result_atLine_of_error hadd line.number

/-- A line that is taken has shifted the builder to its level. -/
theorem level_feed (hb : b.Sound) {line : Line} (h : (feed line b).2.result = .ok ()) :
    (feed line b).1.level = (nodeLine? b.grammar line).elim b.level (·.level) := by
  cases hc : b.grammar.constantLine line.text with
  | error fault =>
    rw [feed_of_error hc] at h
    cases h
  | ok constant =>
    rw [feed_of_ok hc] at h ⊢
    cases hbit : constant.bitField? with
    | some name =>
      have hnone : nodeLine? b.grammar line = none := by simp [nodeLine?, hc, hbit]
      obtain ⟨_, _, -, -, ha⟩ := annotate_of_sound hb ⟨name, constant.value⟩
      rw [hnone, add_of_bitField hbit, ha]
      rfl
    | none =>
      rw [nodeLine?_eq_some.2 ⟨hc, hbit⟩]
      have haccepted := (hb.add_eq_ok_iff hbit).1 (Logged.result_atLine_eq_ok.1 h)
      exact (hb.add_of_not_refused hbit haccepted).2.level

theorem parallel_feedAll (hb : b.Sound) (hj : b.jumps = .collapse) (lines : List Line) :
    Parallel (fun c c' => c' = c.rejecting) (shifts b.grammar b.level lines)
      (run (feedAll lines) b) (run (feedAll lines) b.rejecting) := by
  induction lines generalizing b with
  | nil => exact .agreed b b.rejecting rfl rfl rfl rfl (reports_of_nil rfl) (List.forall_mem_nil _)
  | cons line lines ih =>
    have hcons : feedAll (line :: lines) = (feed line).andThen (feedAll lines) := rfl
    rw [hcons, run_andThen, run_andThen, shifts]
    refine (parallel_feed hj line).bind fun c c' hc hsame => ?_
    subst hsame
    obtain ⟨done, hok, hresult⟩ := Logged.result_bind_eq_ok.1 hc
    obtain rfl := Except.ok.inj hresult
    obtain ⟨hgrammar, hjumps, -⟩ := fixed_feed line b
    have hrest := ih (hb.sound_feed line) (hjumps.trans hj)
    rwa [hgrammar, level_feed hb hok] at hrest

end Builder

/-! ### Blocks -/

namespace Program

variable {g : Grammar}

theorem addBlock_of_constants {jumps : JumpPolicy} {header : Header} (hk : header.kind = .constants)
    (p : Program) (body : List Line) :
    addBlock g jumps p header body =
      Builder.run (Builder.feedAll body) (.start g jumps p.constants header.name) >>= fun built => do
        Logged.report (.constantsDone header.name built.nodes built.bitFields)
        return { p with constants := built.forest } := by
  simp only [addBlock, hk, Builder.run, bind_assoc, pure_bind]

theorem kind?_of_isJump {event : Event} (h : event.isJump) : event.kind? = some .constants := by
  cases event <;> first | rfl | cases h

theorem parallel_addBlock (p : Program) (b : Block) :
    Parallel Eq (b.shifts g) (addBlock g .collapse p b.header b.body)
      (addBlock g .reject p b.header b.body) := by
  by_cases hk : b.header.kind = .constants
  · rw [Block.shifts, if_pos hk, addBlock_of_constants hk, addBlock_of_constants hk,
      ← List.append_nil (Codesheet.shifts g 0 b.body)]
    have hfed := Builder.parallel_feedAll
      (Builder.sound_start g .collapse p.constants b.header.name) rfl b.body
    refine hfed.bind fun c c' _ hsame => ?_
    subst hsame
    exact parallel_same (List.forall_mem_singleton.2 Bool.false_ne_true) (List.forall_mem_nil _)
  · have hsame : addBlock g .reject p b.header b.body = addBlock g .collapse p b.header b.body := by
      unfold addBlock
      cases hkind : b.header.kind with
      | constants => exact absurd hkind hk
      | table => rfl
      | code => rfl
    rw [Block.shifts, if_neg hk, hsame]
    refine parallel_same (fun event hm hjump => hk ?_) (List.forall_mem_nil _)
    have hkind := reports_addBlock g .collapse p b.header b.body event hm
    exact Option.some.inj (hkind.symm.trans (kind?_of_isJump hjump))

theorem parallel_addAll (p : Program) (blocks : List Block) :
    Parallel Eq (blocks.flatMap (·.shifts g)) (addAll g .collapse p blocks)
      (addAll g .reject p blocks) := by
  induction blocks generalizing p with
  | nil => exact parallel_same (reports_of_nil rfl) (List.forall_mem_nil _)
  | cons b blocks ih =>
    rw [addAll_cons, addAll_cons, List.flatMap_cons, ← List.nil_append (b.shifts g)]
    have hheader : Parallel Eq [] (Logged.report (.blockHeader b.header))
        (Logged.report (.blockHeader b.header)) :=
      parallel_same (List.forall_mem_singleton.2 Bool.false_ne_true) (List.forall_mem_nil _)
    refine (hheader.bind fun _ _ _ _ => parallel_addBlock p b).bind fun p₁ p₂ _ hsame => ?_
    subst hsame
    exact ih p₁

/-- The first jump of the blocks of constants. -/
def firstJump? (g : Grammar) (blocks : List Block) : Option Shift :=
  (blocks.flatMap (·.shifts g)).find? (·.isJump)

theorem parallel_read (text : String) :
    Parallel Eq ((Block.cut (Line.ofText text)).2.flatMap (·.shifts g)) (read g .collapse text)
      (read g .reject text) := by
  by_cases hc : (Block.cut (Line.ofText text)).1 = []
  · rw [read_of_header g _ hc, read_of_header g _ hc, ← List.append_nil (List.flatMap _ _)]
    refine (parallel_addAll .empty _).bind fun p p' _ hsame => ?_
    subst hsame
    exact parallel_same (List.forall_mem_singleton.2 Bool.false_ne_true) (List.forall_mem_nil _)
  · have hfirst := mt Block.cut_fst_eq_nil_iff.2 hc
    push Not at hfirst
    obtain ⟨line, hline, hl⟩ := hfirst
    rw [read_eq_fail g _ hline hl, read_eq_fail g _ hline hl]
    exact .failed _ rfl rfl rfl (reports_of_nil rfl)

/-- Two parses that differ in the policy for jumps alone are the same parse if the one that
collapses them warns of none. If it does, the other one stops at the first jump of the text. -/
theorem reject_stops_at_first_jump (unit : Nat) (valid : 0 < unit) (text : String) :
    let collapsed := parse ⟨unit, .collapse⟩ text
    let rejected := parse ⟨unit, .reject⟩ text
    ((∀ event ∈ collapsed.events, ¬ event.isJump) → rejected = collapsed) ∧
    ((∃ event ∈ collapsed.events, event.isJump) →
      ∃ s, firstJump? ⟨unit, valid⟩ (Block.cut (Line.ofText text)).2 = some s ∧
        rejected.result = .error (.indent s.line (.jump s.before s.level))) := by
  intro collapsed rejected
  have hcollapsed : collapsed = read ⟨unit, valid⟩ .collapse text := parse_of_valid valid text
  have hrejected : rejected = read ⟨unit, valid⟩ .reject text := parse_of_valid valid text
  rw [hcollapsed, hrejected]
  cases parallel_read (g := ⟨unit, valid⟩) text with
  | failed fault hx hy events quiet =>
    refine ⟨fun _ => Logged.ext events (hy.trans hx.symm), fun ⟨event, hm, hjump⟩ => ?_⟩
    exact absurd hjump (quiet event hm)
  | agreed p _ hx hy related events quiet level =>
    subst related
    refine ⟨fun _ => Logged.ext events (hy.trans hx.symm), fun ⟨event, hm, hjump⟩ => ?_⟩
    exact absurd hjump (quiet event hm)
  | parted s first warned stopped =>
    refine ⟨fun quiet => absurd rfl (quiet _ warned), fun _ => ⟨s, first, stopped⟩⟩

theorem reject_stops_at_fourth_line :
    let text := "_r:\n  a: 1\n\n      b: 2\n        c: 3\n"
    (∃ event ∈ (parse ⟨2, .collapse⟩ text).events, event.isJump) ∧
      (parse ⟨2, .reject⟩ text).result = .error (.indent 4 (.jump 1 3)) := by
  intro text
  have hwarned : ∃ event ∈ (parse ⟨2, .collapse⟩ text).events, event.isJump := by decide +kernel
  obtain ⟨s, hfirst, hstopped⟩ := (reject_stops_at_first_jump 2 (by decide) text).2 hwarned
  have hs : firstJump? ⟨2, by decide⟩ (Block.cut (Line.ofText text)).2 = some ⟨1, 4, 3⟩ := by
    decide +kernel
  obtain rfl := Option.some.inj (hfirst.symm.trans hs)
  exact ⟨hwarned, hstopped⟩

end Program

end Codesheet
