import Codesheet.Proofs.Constants.Declared
import Codesheet.Proofs.Program.Jumps
import Codesheet.Proofs.Program.LastWrites
import Mathlib.Data.List.Perm.Subperm

/-! The counts that a parse reports. Every block reports its header, then what is found in its lines, and then
one end of its kind with the counts of what was found; and the counts of all blocks make up the program. -/

namespace Codesheet

namespace Event

def isConstant : Event → Bool
  | constant .. => true
  | _ => false

def isBitField : Event → Bool
  | bitField .. => true
  | _ => false

/-- The header of a block, the end of a block, or the end of the program. -/
def isBound : Event → Bool
  | blockHeader .. | constantsDone .. | tableDone .. | codeDone .. | parsed .. => true
  | _ => false

/-- The number of nodes, entries or instructions at the end of a block of a kind. -/
def counted : Kind → Event → Nat
  | .constants, constantsDone _ nodes _ => nodes
  | .table, tableDone _ entries => entries
  | .code, codeDone _ instructions => instructions
  | _, _ => 0

theorem counted_of_not_isBound {event : Event} (h : ¬ event.isBound) (kind : Kind) :
    event.counted kind = 0 := by
  cases event <;> cases kind <;> first | rfl | exact absurd rfl h

end Event

namespace Builder

variable {b built : Builder} {lines more : List Line} {events : List Event}

/-- A line is a bit field. -/
def isField (g : Grammar) (line : Line) : Bool :=
  match g.constantLine line.text with
  | .ok constant => constant.bitField?.isSome
  | .error _ => false

/-- What a builder reports of some lines, and counts. -/
structure Tally (b : Builder) (lines : List Line) (events : List Event) (built : Builder) : Prop where
  quiet : ∀ event ∈ events, ¬ event.isBound
  nodes : built.nodes = b.nodes + events.countP Event.isConstant
  bitFields : built.bitFields = b.bitFields + events.countP Event.isBitField
  nodeLines : events.countP Event.isConstant = lines.countP (isNode b.grammar)
  fieldLines : events.countP Event.isBitField = lines.countP (isField b.grammar)

theorem tally_nil (b : Builder) : Tally b [] [] b := ⟨nofun, rfl, rfl, rfl, rfl⟩

theorem Tally.append {c : Builder} {events' : List Event} (h : Tally b lines events c)
    (h' : Tally c more events' built) (hgrammar : c.grammar = b.grammar) :
    Tally b (lines ++ more) (events ++ events') built := by
  obtain ⟨hquiet, hnodes, hfields, hnodeLines, hfieldLines⟩ := h
  obtain ⟨hquiet', hnodes', hfields', hnodeLines', hfieldLines'⟩ := h'
  rw [hgrammar] at hnodeLines' hfieldLines'
  refine ⟨List.forall_mem_append.2 ⟨hquiet, hquiet'⟩, ?_, ?_, ?_, ?_⟩
  · rw [hnodes', hnodes, List.countP_append, Nat.add_assoc]
  · rw [hfields', hfields, List.countP_append, Nat.add_assoc]
  · rw [List.countP_append, List.countP_append, hnodeLines, hnodeLines']
  · rw [List.countP_append, List.countP_append, hfieldLines, hfieldLines']

theorem counts_moveTo (level : Nat) (b : Builder) :
    (moveTo level b).1.nodes = b.nodes ∧ (moveTo level b).1.bitFields = b.bitFields ∧
      (moveTo level b).1.grammar = b.grammar := by
  have hm := moves_moveTo level b
  generalize moveTo level b = r at hm
  cases hm <;> exact ⟨rfl, rfl, rfl⟩

theorem tally_moveTo (level : Nat) (b : Builder) :
    Tally b [] (moveTo level b).2.events (moveTo level b).1 := by
  obtain ⟨hnodes, hfields, -⟩ := counts_moveTo level b
  have hevents := events_moveTo (b := b) level
  split_ifs at hevents <;> rw [hevents]
  · exact ⟨List.forall_mem_singleton.2 Bool.false_ne_true, hnodes, hfields, rfl, rfl⟩
  · exact ⟨nofun, hnodes, hfields, rfl, rfl⟩

theorem tally_annotate (hb : b.Sound) (field : BitField) {line : Line} (hnode : ¬ isNode b.grammar line)
    (hfield : isField b.grammar line) :
    Tally b [line] (annotate field b).2.events (annotate field b).1 := by
  obtain ⟨_, _, -, -, ha⟩ := annotate_of_sound hb field
  rw [ha]
  refine ⟨List.forall_mem_singleton.2 Bool.false_ne_true, rfl, rfl, ?_, ?_⟩
  · rw [List.countP_cons_of_neg hnode]
    rfl
  · rw [List.countP_cons_of_pos hfield]
    rfl

theorem tally_attach (hb : b.Ready) (node : Node) {line : Line} (hnode : isNode b.grammar line)
    (hfield : ¬ isField b.grammar line) :
    Tally b [line] (attach node b).2.events (attach node b).1 := by
  obtain ⟨_, _, _, -, -, -, ha⟩ := attach_of_ready hb node
  rw [ha]
  refine ⟨List.forall_mem_singleton.2 Bool.false_ne_true, rfl, rfl, ?_, ?_⟩
  · rw [List.countP_cons_of_pos hnode]
    rfl
  · rw [List.countP_cons_of_neg hfield]
    rfl

theorem tally_feed (hb : b.Sound) {line : Line} (hok : (feed line b).2.result = .ok ()) :
    Tally b [line] (feed line b).2.events (feed line b).1 := by
  cases hc : b.grammar.constantLine line.text with
  | error fault =>
    rw [feed_of_error hc] at hok
    cases hok
  | ok constant =>
    rw [feed_of_ok hc] at hok ⊢
    cases hbit : constant.bitField? with
    | some name =>
      rw [add_of_bitField hbit]
      exact tally_annotate hb _ (by simp [isNode, nodeLine?, hc, hbit]) (by simp [isField, hc, hbit])
    | none =>
      have hrefused := (hb.add_eq_ok_iff hbit).1 (Logged.result_atLine_eq_ok.1 hok)
      have hgrammar := (counts_moveTo constant.level b).2.2
      have hattach := @tally_attach _ (hb.ready_moveTo constant.level) (.leaf constant.name constant.value)
        line (by simp [isNode, nodeLine?, hgrammar, hc, hbit]) (by simp [isField, hgrammar, hc, hbit])
      rw [add_of_node hbit, andThen_of_ok (moveTo_of_not_refused hrefused).1]
      exact (tally_moveTo constant.level b).append hattach hgrammar

/-- Every line of a block that is accepted is reported and counted once. -/
theorem Feeds.tally (h : Feeds b lines built) (hb : b.Sound) :
    Tally b lines (feedAll lines b).2.events built := by
  induction h with
  | nil b => exact tally_nil b
  | @cons b built line lines accepted rest ih =>
    have hrest := (tally_feed hb accepted).append (ih (hb.sound_feed line)) (fixed_feed line b).1
    rwa [feedAll, andThen_of_ok accepted]

end Builder

namespace Program

open Builder (isNode isField)

variable {g : Grammar} {jumps : JumpPolicy}

/-- What a block reports: its header, then what is found in its lines, then one end of its kind. The end has
the numbers of what was found, which are those of the lines. -/
inductive Account (g : Grammar) (b : Block) : List Event → Prop where
  | constants {found : List Event} (kind : b.header.kind = .constants)
    (quiet : ∀ event ∈ found, ¬ event.isBound)
    (nodes : found.countP Event.isConstant = b.body.countP (isNode g))
    (bitFields : found.countP Event.isBitField = b.body.countP (isField g)) :
    Account g b (.blockHeader b.header :: found ++
      [.constantsDone b.header.name (found.countP Event.isConstant) (found.countP Event.isBitField)])
  | table (kind : b.header.kind = .table) :
    Account g b [.blockHeader b.header, .tableDone b.header.name b.body.length]
  | code {found : List Event} (kind : b.header.kind = .code) (quiet : ∀ event ∈ found, ¬ event.isBound) :
    Account g b (.blockHeader b.header :: found ++
      [.codeDone b.header.name (unlabelled g none b.body).length])

/-- A block that is accepted has its account. -/
theorem account_addBlock {b : Block} (hb : b.WellFormed) {p p' : Program}
    (h : (addBlock g jumps p b.header b.body).result = .ok p') :
    Account g b (.blockHeader b.header :: (addBlock g jumps p b.header b.body).events) := by
  cases hk : b.header.kind with
  | constants =>
    obtain ⟨built, hfed, rfl⟩ := (addBlock_constants hk).1 h
    obtain ⟨hok, hbuilt⟩ := Builder.feedAll_iff_feeds.2 hfed
    have htally := hfed.tally (Builder.sound_start g jumps p.constants b.header.name)
    have hnodes := htally.nodes.trans (Nat.zero_add _)
    have hfields := htally.bitFields.trans (Nat.zero_add _)
    rw [addBlock_of_constants hk, Builder.run_of_ok hok, Logged.bind_ok rfl, hbuilt]
    have haccount := Account.constants hk htally.quiet htally.nodeLines htally.fieldLines
    rwa [← hnodes, ← hfields] at haccount
  | table =>
    obtain ⟨entries, hentries, rfl⟩ := (addBlock_table hk).1 h
    have haccount := Account.table (g := g) hk
    rw [hentries.length_eq] at haccount
    simp only [addBlock, hk]
    rw [mapM_entry_eq_ok.2 hentries]
    exact haccount
  | code =>
    obtain ⟨instructions, haccept, hread, rfl⟩ := (addBlock_code hk hb).1 h
    have hnone : (none : Option Label).map (·.name) = (none : Option Line).bind (labelName? g) := rfl
    have hcode := (code_eq_ok hb.2 hnone).2 ⟨haccept, hread⟩
    have hquiet : ∀ event ∈ (code g none b.body).events, ¬ event.isBound :=
      reports_code g (fun _ _ => Bool.false_ne_true) (fun _ _ => Bool.false_ne_true) none b.body
    have haccount := Account.code (g := g) hk hquiet
    rw [hread.length_eq] at haccount
    simp only [addBlock, hk]
    rw [Logged.bind_ok hcode]
    exact haccount

theorem account_addAll {blocks : List Block} (h : ∀ b ∈ blocks, b.WellFormed) {p q : Program}
    (hok : (addAll g jumps p blocks).result = .ok q) :
    ∃ accounts, List.Forall₂ (Account g) blocks accounts ∧
      (addAll g jumps p blocks).events = accounts.flatten := by
  induction blocks generalizing p with
  | nil => exact ⟨[], .nil, rfl⟩
  | cons b blocks ih =>
    obtain ⟨hb, hrest⟩ := List.forall_mem_cons.1 h
    rw [addAll_cons, bind_assoc, Logged.bind_ok (Logged.result_report _)] at hok ⊢
    obtain ⟨p', hadd, hok⟩ := Logged.result_bind_eq_ok.1 hok
    obtain ⟨accounts, haccounts, hevents⟩ := ih hrest hok
    refine ⟨_ :: accounts, .cons (account_addBlock hb hadd) haccounts, ?_⟩
    rw [Logged.bind_ok hadd, hevents]
    rfl

/-! ### Sums -/

/-- The number of nodes, entries or instructions that the lines of a block are. -/
def counted (g : Grammar) (b : Block) : Nat :=
  match b.header.kind with
  | .constants => b.body.countP (isNode g)
  | .table => b.body.length
  | .code => (unlabelled g none b.body).length

theorem Account.sum_counted {b : Block} {events : List Event} (h : Account g b events) (kind : Kind) :
    (events.map (Event.counted kind)).sum = if b.header.kind = kind then counted g b else 0 := by
  have hfound : ∀ found : List Event, (∀ event ∈ found, ¬ event.isBound) →
      (found.map (Event.counted kind)).sum = 0 := by
    intro found quiet
    refine List.sum_eq_zero_iff_forall_eq_nat.2 fun n hn => ?_
    obtain ⟨event, hm, rfl⟩ := List.mem_map.1 hn
    exact Event.counted_of_not_isBound (quiet event hm) kind
  cases h with
  | constants hk quiet nodes _ =>
    rw [counted, hk, ← nodes]
    cases kind <;> simp [Event.counted, hfound _ quiet]
  | table hk =>
    rw [counted, hk]
    cases kind <;> simp [Event.counted]
  | code hk quiet =>
    rw [counted, hk]
    cases kind <;> simp [Event.counted, hfound _ quiet]

theorem sum_counted {blocks : List Block} {accounts : List (List Event)}
    (h : List.Forall₂ (Account g) blocks accounts) (kind : Kind) :
    (accounts.flatten.map (Event.counted kind)).sum = ((ofKind kind blocks).map (counted g)).sum := by
  induction h with
  | nil => rfl
  | @cons b events blocks accounts first rest ih =>
    rw [List.flatten_cons, List.map_append, List.sum_append, first.sum_counted, ih, ofKind_cons]
    split_ifs
    · rfl
    · rw [Nat.zero_add]

theorem sum_counted_ofKind {kind : Kind} {size : Block → Nat}
    (hsize : ∀ b, b.header.kind = kind → counted g b = size b) (blocks : List Block) :
    ((ofKind kind blocks).map (counted g)).sum = ((ofKind kind blocks).map size).sum := by
  congr 1
  exact List.map_congr_left fun b hb => hsize b (of_decide_eq_true (List.mem_filter.1 hb).2)

/-- The counts of the ends of blocks are those of the program: all entries and instructions, and all nodes
that were declared. -/
theorem counted_of_adds {blocks : List Block} {p : Program} (h : Adds g jumps .empty blocks p) :
    ((ofKind .table blocks).map (counted g)).sum = p.table.length ∧
      ((ofKind .code blocks).map (counted g)).sum = p.instructions.length ∧
      ((ofKind .constants blocks).map (counted g)).sum =
        (declared g jumps .empty (ofKind .constants blocks)).length := by
  have htable := h.table.length_eq
  have hcode := h.instructions.length_eq
  have hconstants := (h.constants.covers Builder.covers_empty).2
  rw [linesOf, List.length_flatMap] at htable
  rw [List.length_flatMap] at hcode
  refine ⟨?_, ?_, ?_⟩
  · rw [← htable]
    exact sum_counted_ofKind (fun b hk => by rw [counted, hk]) blocks
  · rw [← hcode]
    exact sum_counted_ofKind (fun b hk => by rw [counted, hk]) blocks
  · rw [hconstants]
    exact sum_counted_ofKind (fun b hk => by rw [counted, hk]) blocks

/-- There are no more nodes below the roots than were declared, and there are as many exactly if no names were
declared twice. -/
theorem length_descendants {text : String} {p : Program} (h : (read g jumps text).result = .ok p) :
    let keys := declared g jumps .empty (ofKind .constants (Block.cut (Line.ofText text)).2)
    p.constants.descendants.length ≤ keys.length ∧
      (p.constants.descendants.length = keys.length ↔ keys.Nodup) := by
  intro keys
  have hadds := (read_eq_ok_iff g jumps (cut_of_read h)).1 h
  obtain ⟨hcovers, -⟩ := hadds.constants.covers Builder.covers_empty
  rw [List.nil_append] at hcovers
  have hnodup := Forest.nodup_descendants (made_of_read h).named
  -- distinct nodes among as many declared ones are all of these, which are then distinct too
  have hsub := List.subperm_of_subset hnodup hcovers.only
  refine ⟨hsub.length_le, fun hlength => ?_, fun hkeys => (hcovers.all hkeys).length_eq⟩
  exact (hsub.perm_of_length_le hlength.ge).nodup_iff.1 hnodup

/-- The log of a parsed text has an account for each block, in their order, and then the counts of the program.
The entries and the instructions that the ends of the blocks have counted make up the table and the
instructions of the program. The nodes that they have counted are those that were declared, and make up the
nodes below the roots if no names were declared twice; otherwise these are fewer. -/
theorem account_of_parse {options : ParseOptions} {text : String} {p : Program}
    (valid : 0 < options.indentUnit) (h : (parse options text).result = .ok p) :
    let g : Grammar := ⟨options.indentUnit, valid⟩
    let events := (parse options text).events
    let blocks := (Block.cut (Line.ofText text)).2
    let keys := declared g options.indentJumps .empty (ofKind .constants blocks)
    (∃ accounts, List.Forall₂ (Account g) blocks accounts ∧
      events = accounts.flatten ++
        [.parsed p.constants.roots.length p.table.length p.instructions.length]) ∧
    (events.map (Event.counted .table)).sum = p.table.length ∧
    (events.map (Event.counted .code)).sum = p.instructions.length ∧
    (events.map (Event.counted .constants)).sum = keys.length ∧
    p.constants.descendants.length ≤ (events.map (Event.counted .constants)).sum ∧
    (p.constants.descendants.length = (events.map (Event.counted .constants)).sum ↔ keys.Nodup) := by
  intro g events blocks keys
  have hparse : parse options text = read g options.indentJumps text := parse_of_valid valid text
  rw [hparse] at h
  have hc := cut_of_read h
  obtain ⟨hle, heq⟩ := length_descendants h
  obtain ⟨htable, hcode, hconstants⟩ := counted_of_adds ((read_eq_ok_iff g options.indentJumps hc).1 h)
  rw [read_of_header g _ hc, Logged.result_bind_eq_ok] at h
  obtain ⟨q, hall, hq⟩ := h
  obtain rfl : q = p := Except.ok.inj hq
  obtain ⟨accounts, haccounts, hflatten⟩ := account_addAll (fun b => Block.wellFormed_of_mem_cut) hall
  have hevents : events = accounts.flatten ++
      [.parsed q.constants.roots.length q.table.length q.instructions.length] := by
    show (parse options text).events = _
    rw [hparse, read_of_header g _ hc, Logged.bind_ok hall, hflatten]
    rfl
  have hsum : ∀ kind, (events.map (Event.counted kind)).sum = ((ofKind kind blocks).map (counted g)).sum := by
    intro kind
    rw [hevents, List.map_append, List.sum_append, sum_counted haccounts]
    cases kind <;> rfl
  rw [hsum, hsum, hsum, hconstants]
  exact ⟨⟨accounts, haccounts, hevents⟩, htable, hcode, rfl, hle, heq⟩

/-- A node with a bit field and a child, and then a node in its place. -/
theorem account_of_node_declared_twice :
    let text := "_r:\n  a: 1\n    .f: 2\n    b: 3\n  a: 4\n#t:\n  x:@y\nmain:\n  y:\n  NOP\n"
    let p : Program := ⟨⟨[⟨"r", 0, [.leaf "a" 4], []⟩]⟩, [⟨"x", ⟨.address "y", []⟩, 7⟩],
      [⟨some "y", "NOP", [], 1, 10⟩]⟩
    let blocks := (Block.cut (Line.ofText text)).2
    (parse {} text).result = .ok p ∧
      (∃ accounts, List.Forall₂ (Account .standard) blocks accounts ∧
        (parse {} text).events = accounts.flatten ++ [.parsed 1 1 1]) ∧
      p.constants.descendants = [["r", "a"]] ∧
      ((parse {} text).events.map (Event.counted .constants)).sum = 3 ∧
      ¬ (declared .standard .collapse .empty (ofKind .constants blocks)).Nodup := by
  intro text p blocks
  have hparse : (parse {} text).result = .ok p := by decide +kernel
  obtain ⟨haccounts, -, -, -, -, hiff⟩ := account_of_parse (by decide) hparse
  have hnodes : p.constants.descendants = [["r", "a"]] := by decide +kernel
  have hsum : ((parse {} text).events.map (Event.counted .constants)).sum = 3 := by decide +kernel
  refine ⟨hparse, haccounts, hnodes, hsum, fun hkeys => ?_⟩
  have hlength := hiff.2 hkeys
  rw [hnodes, hsum] at hlength
  cases hlength

end Program

end Codesheet
