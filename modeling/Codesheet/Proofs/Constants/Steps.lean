import Codesheet.Constants.Builder
import Mathlib.Data.List.Chain
import Mathlib.Tactic.SplitIfs

/-! The steps of a builder. Its open positions, from the node added last outwards,
are each inside the next one and all denote nodes; every step keeps this, so no
step finds a position that leads nowhere. -/

namespace Codesheet

/-! ### Positions in a node -/

namespace Node

theorem at?_cons (n : Node) (i : Nat) (path : List Nat) :
    n.at? (i :: path) = n.children[i]?.bind (·.at? path) := by
  cases h : n.children[i]? <;> simp [at?, h]

theorem at?_append (n : Node) (path rest : List Nat) :
    n.at? (path ++ rest) = (n.at? path).bind (·.at? rest) := by
  induction path generalizing n with
  | nil => rfl
  | cons i path ih =>
    rw [List.cons_append, at?_cons, at?_cons, Option.bind_assoc]
    congr 1
    funext child
    exact ih child

theorem isSome_at?_of_prefix {n : Node} {path outer : List Nat} (h : (n.at? path).isSome)
    (hp : outer <+: path) : (n.at? outer).isSome := by
  obtain ⟨rest, rfl⟩ := hp
  rw [at?_append] at h
  cases ho : n.at? outer <;> simp_all

theorem exists_editAt? {n m : Node} {path : List Nat} (h : n.at? path = some m)
    (f : Node → Node) : ∃ changed, editAt? f path n = some changed := by
  rw [← Option.isSome_iff_exists, editAt?_isSome, h, Option.isSome_some]

end Node

namespace Builder

variable {b : Builder}

/-! ### Sequences of steps -/

theorem andThen_of_ok {first : Step} (h : (first b).2.result = .ok ()) (second : Step) :
    first.andThen second b =
      ((second (first b).1).1,
        ⟨(first b).2.events ++ (second (first b).1).2.events, (second (first b).1).2.result⟩) := by
  simp [Step.andThen, h]

theorem andThen_of_error {first : Step} {fault : Fault} (h : (first b).2.result = .error fault)
    (second : Step) : first.andThen second b = first b := by
  simp [Step.andThen, h]

/-- A step that does the same after a change of the builder. -/
def Commutes (change : Builder → Builder) (step : Step) (b : Builder) : Prop :=
  step (change b) = (change (step b).1, (step b).2)

theorem commutes_andThen {change : Builder → Builder} {first second : Step} (h : Commutes change first b)
    (h' : Commutes change second (first b).1) : Commutes change (first.andThen second) b := by
  have hfirst : (first (change b)).2 = (first b).2 := by rw [h]
  cases hr : (first b).2.result with
  | error fault => rw [Commutes, andThen_of_error hr, andThen_of_error (hfirst ▸ hr), h]
  | ok done =>
    rw [Commutes, andThen_of_ok hr, andThen_of_ok (hfirst ▸ hr), h]
    dsimp only
    rw [h']

/-! ### Levels -/

/-- A change that leaves the open levels does not matter for closing some. -/
theorem close_commutes (change : Builder → Builder) (hstack : ∀ b, (change b).stack = b.stack)
    (hclose : ∀ b outer stack, { change b with last := (change b).parent, parent := outer, stack } =
      change { b with last := b.parent, parent := outer, stack }) (n : Nat) (b : Builder) :
    close n (change b) = (change (close n b).1, (close n b).2) := by
  induction n generalizing b with
  | zero => rfl
  | succ n ih =>
    rw [close, close, hstack]
    cases b.stack with
    | nil => rfl
    | cons outer stack =>
      dsimp only
      rw [hclose, ih]

/-- What a step to a level reads and writes is all that a change has to leave. -/
theorem moveTo_commutes (change : Builder → Builder) (hlevel : ∀ b, (change b).level = b.level)
    (hjumps : ∀ b, (change b).jumps = b.jumps) (hstack : ∀ b, (change b).stack = b.stack)
    (hset : ∀ b level, { change b with level } = change { b with level })
    (hdescend : ∀ b level, (change b).descend level = change (b.descend level))
    (hclose : ∀ b outer stack, { change b with last := (change b).parent, parent := outer, stack } =
      change { b with last := b.parent, parent := outer, stack }) (level : Nat) :
    Commutes change (moveTo level) b := by
  rw [Commutes, moveTo, moveTo, hlevel, hjumps, hdescend, close_commutes change hstack hclose]
  split_ifs
  · rfl
  · cases b.jumps <;> rfl
  · cases hc : close (b.level - level) b with
    | mk c done =>
      cases done
      · rfl
      · dsimp only
        rw [hset]
  · rfl

/-- The parents of the levels that are open, the innermost first. -/
def parents (b : Builder) : List (List Nat) := b.parent :: b.stack

/-- The open positions: the node added last, then the parents. -/
def positions (b : Builder) : List (List Nat) := b.last :: b.parents

theorem close_of_le {n : Nat} (h : n ≤ b.stack.length) :
    ∃ last parent stack, close n b = ({ b with last, parent, stack }, true) ∧
      last :: parent :: stack = b.positions.drop n := by
  induction n generalizing b with
  | zero => exact ⟨b.last, b.parent, b.stack, rfl, rfl⟩
  | succ n ih =>
    cases hs : b.stack with
    | nil => simp [hs] at h
    | cons outer stack =>
      have hn : n ≤ stack.length := by simpa [hs] using h
      obtain ⟨last, parent, stack', hc, hd⟩ :=
        @ih { b with last := b.parent, parent := outer, stack } hn
      refine ⟨last, parent, stack', by simp only [close, hs, hc], ?_⟩
      rw [hd, positions, positions, parents, parents, hs, List.drop_succ_cons]

theorem close_of_lt {n : Nat} (h : b.stack.length < n) :
    ∃ last parent, close n b = ({ b with last, parent, stack := [] }, false) ∧
      [last, parent] = b.positions.drop b.stack.length := by
  induction n generalizing b with
  | zero => omega
  | succ n ih =>
    cases hs : b.stack with
    | nil =>
      refine ⟨b.last, b.parent, ?_, by simp [positions, parents, hs]⟩
      cases b
      cases hs
      rfl
    | cons outer stack =>
      have hn : stack.length < n := by simpa [hs] using h
      obtain ⟨last, parent, hc, hd⟩ :=
        @ih { b with last := b.parent, parent := outer, stack } hn
      refine ⟨last, parent, by simp only [close, hs, hc], ?_⟩
      rw [hd, positions, positions, parents, parents, hs, List.length_cons, List.drop_succ_cons]

/-- What a step to a level can do. -/
inductive Moves (level : Nat) (b : Builder) : Builder × Logged Unit → Prop where
  | same (h : level = b.level) : Moves level b (b, pure ())
  | next (h : level = b.level + 1) : Moves level b (b.descend level, pure ())
  | collapsed (h : b.level + 1 < level) (hj : b.jumps = .collapse) :
    Moves level b (b.descend level, Logged.report (.indentJump b.level level))
  | rejected (h : b.level + 1 < level) (hj : b.jumps = .reject) :
    Moves level b (b, Logged.fail (.indent 0 (.jump b.level level)))
  | fallen {last parent : List Nat} {stack : List (List Nat)} (h : level < b.level)
    (hs : b.level - level ≤ b.stack.length)
    (hd : last :: parent :: stack = b.positions.drop (b.level - level)) :
    Moves level b ({ b with last, parent, stack, level }, pure ())
  | unopened {last parent : List Nat} (h : level < b.level) (hs : b.stack.length < b.level - level)
    (hd : [last, parent] = b.positions.drop b.stack.length) :
    Moves level b
      ({ b with last, parent, stack := [] }, Logged.fail (.indent 0 (.unopened level)))

theorem moves_moveTo (level : Nat) (b : Builder) : Moves level b (moveTo level b) := by
  unfold moveTo
  split_ifs with hrise hnext hfall
  · exact .next (by omega)
  · cases hj : b.jumps with
    | collapse => exact .collapsed (by omega) hj
    | reject => exact .rejected (by omega) hj
  · by_cases hs : b.level - level ≤ b.stack.length
    · obtain ⟨last, parent, stack, hc, hd⟩ := close_of_le hs
      rw [hc]
      exact .fallen hfall hs hd
    · obtain ⟨last, parent, hc, hd⟩ := close_of_lt (Nat.lt_of_not_le hs)
      rw [hc]
      exact .unopened hfall (Nat.lt_of_not_le hs) hd
  · exact .same (by omega)

/-! ### Sound positions -/

/-- A position is inside another one, and is the same only if both are the root's. -/
def Inside (inner outer : List Nat) : Prop := outer <+: inner ∧ (outer = inner → outer = [])

theorem inside_concat {outer path : List Nat} (h : outer <+: path) (i : Nat) :
    Inside (path ++ [i]) outer := by
  refine ⟨h.trans (List.prefix_append path [i]), fun heq => ?_⟩
  have hlen := h.length_le
  rw [heq, List.length_append, List.length_singleton] at hlen
  omega

theorem prefix_of_isChain {inner outer : List Nat} {rest : List (List Nat)}
    (h : (inner :: rest).IsChain Inside) (hm : outer ∈ inner :: rest) : outer <+: inner := by
  induction rest generalizing inner with
  | nil =>
    obtain rfl := List.mem_singleton.1 hm
    exact List.prefix_rfl
  | cons next rest ih =>
    obtain ⟨hn, hrest⟩ := List.isChain_cons_cons.1 h
    rcases List.mem_cons.1 hm with rfl | hm
    · exact List.prefix_rfl
    · exact (ih hrest hm).trans hn.1

/-- Positions that are inside each other, and denote nodes of one of the roots. -/
structure Open (forest : Forest) (root : Nat) (paths : List (List Nat)) : Prop where
  nested : paths.IsChain Inside
  denote : ∃ node, forest.roots[root]? = some node ∧ ∀ path ∈ paths, (node.at? path).isSome

/-- All positions of the builder are open. -/
def Sound (b : Builder) : Prop := Open b.forest b.root b.positions

/-- The parents are open, and the node added last need not be a child of the current
one. -/
def Ready (b : Builder) : Prop := Open b.forest b.root b.parents

theorem Open.drop {forest : Forest} {root : Nat} {paths : List (List Nat)}
    (h : Open forest root paths) (n : Nat) : Open forest root (paths.drop n) := by
  obtain ⟨node, hn, hp⟩ := h.denote
  exact ⟨h.nested.drop n, node, hn, fun path hm => hp path (List.mem_of_mem_drop hm)⟩

theorem Sound.ready (h : b.Sound) : b.Ready := Open.drop h 1

theorem sound_start (g : Grammar) (jumps : JumpPolicy) (forest : Forest) (name : String) :
    (start g jumps forest name).Sound := by
  have hslot := forest.slot_lt_ensureRoot name
  refine ⟨.cons_cons ⟨List.prefix_rfl, fun _ => rfl⟩ (.singleton _),
    _, List.getElem?_eq_getElem hslot, ?_⟩
  intro path hm
  obtain rfl : path = [] := by simpa [positions, parents, start] using hm
  rfl

theorem Sound.ready_moveTo (h : b.Sound) (level : Nat) : (moveTo level b).1.Ready := by
  have hm := moves_moveTo level b
  generalize moveTo level b = r at hm
  cases hm with
  | same hl => exact h.ready
  | next hl => exact h
  | collapsed hl hj => exact h
  | rejected hl hj => exact h.ready
  | fallen hl hs hd => exact Open.drop (hd ▸ Open.drop h _) 1
  | unopened hl hs hd => exact Open.drop (hd ▸ Open.drop h _) 1

/-- A failed step leaves the positions that it has not closed. -/
theorem Sound.moveTo_error (h : b.Sound) {level : Nat} {fault : Fault}
    (he : (moveTo level b).2.result = .error fault) :
    (moveTo level b).1.Sound ∧ ∃ cause, fault = .indent 0 cause := by
  have hm := moves_moveTo level b
  generalize moveTo level b = r at hm he
  cases hm with
  | same hl => cases he
  | next hl => cases he
  | collapsed hl hj => cases he
  | rejected hl hj =>
    obtain rfl := Except.error.inj he
    exact ⟨h, _, rfl⟩
  | fallen hl hs hd => cases he
  | unopened hl hs hd =>
    obtain rfl := Except.error.inj he
    have ho := Open.drop h b.stack.length
    rw [← hd] at ho
    exact ⟨ho, _, rfl⟩

/-! ### Edits -/

theorem edited_eq_ok {f : Node → Node} {path : List Nat} {root changed : Node}
    (hr : b.forest.roots[b.root]? = some root) (he : Node.editAt? f path root = some changed) :
    b.edited f path = .ok ⟨b.forest.roots.set b.root changed⟩ := by
  simp [edited, hr, he]

theorem nodeAt_eq_ok {path : List Nat} {root node : Node}
    (hr : b.forest.roots[b.root]? = some root) (hn : root.at? path = some node) :
    b.nodeAt path = .ok node := by
  simp [nodeAt, hr, hn]

/-- Where the parents are open, a node is attached below the current one. -/
theorem attach_of_ready (h : b.Ready) (node : Node) :
    ∃ root parent changed, b.forest.roots[b.root]? = some root ∧
      root.at? b.parent = some parent ∧
      Node.editAt? (·.insertChild node) b.parent root = some changed ∧
      attach node b =
        ({ b with
            forest := ⟨b.forest.roots.set b.root changed⟩
            last := b.parent ++ [parent.slot node.name]
            nodes := b.nodes + 1 },
          Logged.report (.constant node.name node.value (b.parent.length + 1))) := by
  obtain ⟨root, hr, hp⟩ := h.denote
  obtain ⟨parent, hparent⟩ := Option.isSome_iff_exists.1 (hp b.parent List.mem_cons_self)
  obtain ⟨changed, hchanged⟩ := Node.exists_editAt? hparent (·.insertChild node)
  refine ⟨root, parent, changed, hr, hparent, hchanged, ?_⟩
  simp only [attach, nodeAt_eq_ok hr hparent, edited_eq_ok hr hchanged]

theorem annotate_of_sound (h : b.Sound) (field : BitField) :
    ∃ root changed, b.forest.roots[b.root]? = some root ∧
      Node.editAt? (·.addBitField field) b.last root = some changed ∧
      annotate field b =
        ({ b with forest := ⟨b.forest.roots.set b.root changed⟩, bitFields := b.bitFields + 1 },
          Logged.report (.bitField field.name field.size)) := by
  obtain ⟨root, hr, hp⟩ := h.denote
  obtain ⟨last, hlast⟩ := Option.isSome_iff_exists.1 (hp b.last List.mem_cons_self)
  obtain ⟨changed, hchanged⟩ := Node.exists_editAt? hlast (·.addBitField field)
  refine ⟨root, changed, hr, hchanged, ?_⟩
  simp only [annotate, edited_eq_ok hr hchanged]

theorem Ready.sound_attach (h : b.Ready) (node : Node) : (attach node b).1.Sound := by
  obtain ⟨root, parent, changed, hr, hparent, hchanged, ha⟩ := attach_of_ready h node
  have hi : b.root < b.forest.roots.length := (List.getElem?_eq_some_iff.1 hr).1
  have hat := Node.at?_editAt? _ _ _ _ hchanged
  have hnew : changed.at? (b.parent ++ [parent.slot node.name]) = some node := by
    rw [Node.at?_append, hat, hparent]
    exact Node.at?_insertChild parent node
  rw [ha]
  refine ⟨.cons_cons (inside_concat List.prefix_rfl _) h.nested, changed, by simp [hi], ?_⟩
  intro path hm
  rcases List.mem_cons.1 hm with rfl | hm
  · rw [hnew, Option.isSome_some]
  · have hp := prefix_of_isChain h.nested hm
    exact Node.isSome_at?_of_prefix (by rw [hat, hparent]; rfl) hp

theorem Sound.sound_annotate (h : b.Sound) (field : BitField) : (annotate field b).1.Sound := by
  obtain ⟨root, changed, hr, hchanged, ha⟩ := annotate_of_sound h field
  have hi : b.root < b.forest.roots.length := (List.getElem?_eq_some_iff.1 hr).1
  have hlast : (changed.at? b.last).isSome := by
    obtain ⟨root', hr', hp⟩ := h.denote
    obtain rfl : root' = root := Option.some.inj (hr'.symm.trans hr)
    rw [Node.at?_editAt? _ _ _ _ hchanged, Option.isSome_map]
    exact hp b.last List.mem_cons_self
  rw [ha]
  refine ⟨h.nested, changed, by simp [hi], fun path hm => ?_⟩
  exact Node.isSome_at?_of_prefix hlast (prefix_of_isChain h.nested hm)

/-! ### Lines -/

theorem add_of_bitField {line : ConstantLine} {name : String} (h : line.bitField? = some name) :
    add line = annotate ⟨name, line.value⟩ := by
  simp only [add, h]

theorem add_of_node {line : ConstantLine} (h : line.bitField? = none) :
    add line = (moveTo line.level).andThen (attach (.leaf line.name line.value)) := by
  simp only [add, h]

/-- A line is added in the same way if its steps are taken in the same way. -/
theorem add_commutes {change : Builder → Builder}
    (hannotate : ∀ field, Commutes change (annotate field) b)
    (hmove : ∀ level, Commutes change (moveTo level) b)
    (hattach : ∀ node b, Commutes change (attach node) b) (line : ConstantLine) :
    Commutes change (add line) b := by
  cases hbit : line.bitField? with
  | some name =>
    rw [add_of_bitField hbit]
    exact hannotate _
  | none =>
    rw [add_of_node hbit]
    exact commutes_andThen (hmove line.level) (hattach _ _)

/-- What adding a node can do: move, and then attach unless the move failed. -/
theorem add_node_cases (hb : b.Sound) {line : ConstantLine} (h : line.bitField? = none) :
    (∃ fault, (moveTo line.level b).2.result = .error fault ∧ add line b = moveTo line.level b) ∨
      ((moveTo line.level b).2.result = .ok () ∧ (add line b).2.result = .ok () ∧
        (add line b).1 = (attach (.leaf line.name line.value) (moveTo line.level b).1).1) := by
  rw [add_of_node h]
  cases hm : (moveTo line.level b).2.result with
  | error fault => exact .inl ⟨fault, rfl, andThen_of_error hm _⟩
  | ok _ =>
    right
    obtain ⟨root, parent, changed, -, -, -, ha⟩ :=
      attach_of_ready (hb.ready_moveTo line.level) (.leaf line.name line.value)
    rw [andThen_of_ok hm, ha]
    exact ⟨rfl, rfl, rfl⟩

theorem Sound.sound_add (h : b.Sound) (line : ConstantLine) : (add line b).1.Sound := by
  cases hbit : line.bitField? with
  | some name =>
    rw [add_of_bitField hbit]
    exact h.sound_annotate _
  | none =>
    rcases add_node_cases h hbit with ⟨fault, hm, ha⟩ | ⟨-, -, ha⟩
    · rw [ha]
      exact (h.moveTo_error hm).1
    · rw [ha]
      exact (h.ready_moveTo line.level).sound_attach _

/-- A line is refused for its indent alone. -/
theorem add_eq_error (hb : b.Sound) {line : ConstantLine} {fault : Fault}
    (h : (add line b).2.result = .error fault) : ∃ cause, fault = .indent 0 cause := by
  cases hbit : line.bitField? with
  | some name =>
    obtain ⟨_, _, -, -, ha⟩ := annotate_of_sound hb ⟨name, line.value⟩
    rw [add_of_bitField hbit, ha] at h
    cases h
  | none =>
    rcases add_node_cases hb hbit with ⟨other, hm, ha⟩ | ⟨-, hok, -⟩
    · rw [ha, hm] at h
      obtain rfl := Except.error.inj h
      exact (hb.moveTo_error hm).2
    · rw [hok] at h
      cases h

/-- What no step changes. -/
theorem fixed_add (line : ConstantLine) (b : Builder) :
    (add line b).1.grammar = b.grammar ∧ (add line b).1.jumps = b.jumps ∧
      (add line b).1.root = b.root := by
  have hattach : ∀ (node : Node) (b : Builder), (attach node b).1.grammar = b.grammar ∧
      (attach node b).1.jumps = b.jumps ∧ (attach node b).1.root = b.root := by
    intro node b
    unfold attach
    split <;> exact ⟨rfl, rfl, rfl⟩
  cases hbit : line.bitField? with
  | some name =>
    rw [add_of_bitField hbit]
    unfold annotate
    split <;> exact ⟨rfl, rfl, rfl⟩
  | none =>
    have hmove : (moveTo line.level b).1.grammar = b.grammar ∧
        (moveTo line.level b).1.jumps = b.jumps ∧ (moveTo line.level b).1.root = b.root := by
      have hm := moves_moveTo line.level b
      generalize moveTo line.level b = r at hm
      cases hm <;> exact ⟨rfl, rfl, rfl⟩
    rw [add_of_node hbit]
    cases hm : (moveTo line.level b).2.result with
    | error fault => rwa [andThen_of_error hm]
    | ok _ =>
      obtain ⟨hg, hj, hr⟩ := hattach (.leaf line.name line.value) (moveTo line.level b).1
      rw [andThen_of_ok hm]
      exact ⟨hg.trans hmove.1, hj.trans hmove.2.1, hr.trans hmove.2.2⟩

/-- Adds constants one by one, also after one that is refused. -/
def addEach (b : Builder) (lines : List ConstantLine) : Builder :=
  lines.foldl (fun b line => (add line b).1) b

theorem Sound.sound_addEach (h : b.Sound) (lines : List ConstantLine) : (b.addEach lines).Sound := by
  induction lines generalizing b with
  | nil => exact h
  | cons line lines ih => exact ih (h.sound_add line)

theorem fixed_addEach (lines : List ConstantLine) (b : Builder) :
    (b.addEach lines).grammar = b.grammar ∧ (b.addEach lines).jumps = b.jumps ∧
      (b.addEach lines).root = b.root := by
  induction lines generalizing b with
  | nil => exact ⟨rfl, rfl, rfl⟩
  | cons line lines ih =>
    obtain ⟨hg, hj, hr⟩ := fixed_add line b
    obtain ⟨hg', hj', hr'⟩ := ih (add line b).1
    exact ⟨hg'.trans hg, hj'.trans hj, hr'.trans hr⟩

/-! ### Nodes -/

/-- Why a node of some level is refused, if it is. -/
def refusal? (b : Builder) (level : Nat) : Option IndentCause :=
  if b.level + 1 < level ∧ b.jumps = .reject then some (.jump b.level level)
  else if level + b.stack.length < b.level then some (.unopened level)
  else none

/-- The parents of a node of some level that is not refused, the innermost first. -/
def parentsAt (b : Builder) (level : Nat) : List (List Nat) :=
  if b.level < level then b.positions else b.parents.drop (b.level - level)

/-- A node closes the positions inside its parent, if there are any. -/
theorem parentsAt_eq_drop (b : Builder) (level : Nat) :
    b.parentsAt level = b.positions.drop (b.level + 1 - level) := by
  rw [parentsAt]
  split_ifs with hrise
  · rw [show b.level + 1 - level = 0 by omega, List.drop_zero]
  · rw [show b.level + 1 - level = b.level - level + 1 by omega, positions, List.drop_succ_cons]

/-- A node that is refused leaves the forest and the level, and some of the parents. -/
theorem add_of_refusal {line : ConstantLine} (h : line.bitField? = none) {cause : IndentCause}
    (hc : b.refusal? line.level = some cause) :
    (add line b).2.result = .error (.indent 0 cause) ∧ (add line b).1.forest = b.forest ∧
      (add line b).1.level = b.level ∧
      ((add line b).1 = b ∨ line.level < b.level ∧ (add line b).1.stack = []) := by
  have hm := moves_moveTo line.level b
  have ha : ∀ fault, (moveTo line.level b).2.result = .error fault → add line b = moveTo line.level b := by
    intro fault hf
    rw [add_of_node h, andThen_of_error hf]
  unfold refusal? at hc
  generalize moveTo line.level b = r at hm ha
  cases hm with
  | same hl => rw [if_neg (by omega), if_neg (by omega)] at hc; cases hc
  | next hl => rw [if_neg (by omega), if_neg (by omega)] at hc; cases hc
  | collapsed hl hj => rw [if_neg (by simp [hj]), if_neg (by omega)] at hc; cases hc
  | rejected hl hj =>
    rw [if_pos ⟨hl, hj⟩] at hc
    obtain rfl := Option.some.inj hc
    rw [ha _ rfl]
    exact ⟨rfl, rfl, rfl, .inl rfl⟩
  | fallen hl hs hd => rw [if_neg (by omega), if_neg (by omega)] at hc; cases hc
  | unopened hl hs hd =>
    rw [if_neg (by omega), if_pos (by omega)] at hc
    obtain rfl := Option.some.inj hc
    rw [ha _ rfl]
    exact ⟨rfl, rfl, rfl, .inr ⟨hl, rfl⟩⟩

theorem moveTo_of_not_refused {level : Nat} (h : b.refusal? level = none) :
    (moveTo level b).2.result = .ok () ∧ (moveTo level b).1.forest = b.forest ∧
      (moveTo level b).1.root = b.root ∧ (moveTo level b).1.level = level ∧
      (moveTo level b).1.parents = b.parentsAt level := by
  have hm := moves_moveTo level b
  unfold refusal? at h
  unfold parentsAt
  generalize moveTo level b = r at hm
  cases hm with
  | same hl =>
    rw [if_neg (by omega), hl, Nat.sub_self]
    exact ⟨rfl, rfl, rfl, rfl, rfl⟩
  | next hl =>
    rw [if_pos (by omega)]
    exact ⟨rfl, rfl, rfl, rfl, rfl⟩
  | collapsed hl hj =>
    rw [if_pos (by omega)]
    exact ⟨rfl, rfl, rfl, rfl, rfl⟩
  | rejected hl hj =>
    rw [if_pos ⟨hl, hj⟩] at h
    cases h
  | fallen hl hs hd =>
    have htail := congrArg List.tail hd
    rw [List.tail_drop, positions, List.drop_succ_cons] at htail
    rw [if_neg (by omega)]
    exact ⟨rfl, rfl, rfl, rfl, htail⟩
  | unopened hl hs hd =>
    rw [if_neg (by omega), if_pos (by omega)] at h
    cases h

/-- What a node that is not refused does: it is attached below the innermost parent
of its level, and the builder stands at it. -/
structure Attached (line : ConstantLine) (b built : Builder) : Prop where
  level : built.level = line.level
  parents : built.parents = b.parentsAt line.level
  edit : ∃ root parent changed, b.forest.roots[b.root]? = some root ∧
    root.at? built.parent = some parent ∧
    Node.editAt? (·.insertChild (.leaf line.name line.value)) built.parent root = some changed ∧
    built.forest = ⟨b.forest.roots.set b.root changed⟩ ∧
    built.last = built.parent ++ [parent.slot line.name]

theorem Sound.add_of_not_refused (hb : b.Sound) {line : ConstantLine} (h : line.bitField? = none)
    (hc : b.refusal? line.level = none) :
    (add line b).2.result = .ok () ∧ Attached line b (add line b).1 := by
  obtain ⟨root, parent, changed, hroot, hparent, hchanged, ha⟩ :=
    attach_of_ready (hb.ready_moveTo line.level) (.leaf line.name line.value)
  obtain ⟨hok, hforest, hr, hlevel, hparents⟩ := moveTo_of_not_refused hc
  rw [hforest, hr] at hroot ha
  rw [add_of_node h, andThen_of_ok hok, ha]
  exact ⟨rfl, hlevel, hparents, root, parent, changed, hroot, hparent, hchanged, rfl, rfl⟩

/-- A node is accepted exactly if it is not refused for its level. -/
theorem Sound.add_eq_ok_iff (hb : b.Sound) {line : ConstantLine} (h : line.bitField? = none) :
    (add line b).2.result = .ok () ↔ b.refusal? line.level = none := by
  cases hc : b.refusal? line.level with
  | none => simp [(hb.add_of_not_refused h hc).1]
  | some cause => simp [(add_of_refusal h hc).1]

/-! ### Fed lines -/

theorem feed_of_ok {line : Line} {constant : ConstantLine}
    (h : b.grammar.constantLine line.text = .ok constant) :
    feed line b = ((add constant b).1, (add constant b).2.atLine line.number) := by
  simp only [feed, h]

theorem feed_of_error {line : Line} {fault : Fault}
    (h : b.grammar.constantLine line.text = .error fault) :
    feed line b = (b, Logged.fail (fault.atLine line.number)) := by
  simp only [feed, h]

/-- A line leaves the builder, or its constant is added. -/
theorem feed_induction {P : Builder → Prop} {line : Line} (same : P b)
    (added : ∀ constant, b.grammar.constantLine line.text = .ok constant → P (add constant b).1) :
    P (feed line b).1 := by
  cases hc : b.grammar.constantLine line.text with
  | ok constant =>
    rw [feed_of_ok hc]
    exact added constant hc
  | error fault =>
    rw [feed_of_error hc]
    exact same

theorem Sound.sound_feed (h : b.Sound) (line : Line) : (feed line b).1.Sound :=
  feed_induction h fun constant _ => h.sound_add constant

theorem fixed_feed (line : Line) (b : Builder) :
    (feed line b).1.grammar = b.grammar ∧ (feed line b).1.jumps = b.jumps ∧
      (feed line b).1.root = b.root :=
  feed_induction (P := fun built => built.grammar = b.grammar ∧ built.jumps = b.jumps ∧ built.root = b.root)
    ⟨rfl, rfl, rfl⟩ fun constant _ => fixed_add constant b

/-- The builder accepts some lines, one after the other, and ends up as another. -/
inductive Feeds : Builder → List Line → Builder → Prop where
  | nil (b : Builder) : Feeds b [] b
  | cons {b built : Builder} {line : Line} {lines : List Line}
    (accepted : (feed line b).2.result = .ok ()) (rest : Feeds (feed line b).1 lines built) :
    Feeds b (line :: lines) built

theorem feedAll_iff_feeds {lines : List Line} {built : Builder} :
    (feedAll lines b).2.result = .ok () ∧ (feedAll lines b).1 = built ↔ Feeds b lines built := by
  induction lines generalizing b with
  | nil =>
    constructor
    · rintro ⟨-, rfl⟩
      exact .nil b
    · rintro ⟨⟩
      exact ⟨rfl, rfl⟩
  | cons line lines ih =>
    rw [feedAll]
    constructor
    · rintro ⟨hok, hb⟩
      cases hf : (feed line b).2.result with
      | error fault =>
        rw [andThen_of_error hf, hf] at hok
        cases hok
      | ok _ =>
        rw [andThen_of_ok hf] at hok hb
        exact .cons hf (ih.1 ⟨hok, hb⟩)
    · rintro (_ | ⟨hf, hrest⟩)
      rw [andThen_of_ok hf]
      exact ih.2 hrest

/-- Where adding a constant keeps a relation of two builders with one grammar, so does feeding lines: what
the one builder accepts the other one accepts too, and they end up related. -/
theorem Feeds.related {R : Builder → Builder → Prop} (hgrammar : ∀ {b b'}, R b b' → b'.grammar = b.grammar)
    (hadd : ∀ {b b'} (line : ConstantLine), R b b' → b.Sound → b'.Sound →
      (add line b).2.result = .ok () →
      (add line b').2.result = .ok () ∧ R (add line b).1 (add line b').1)
    {b' built : Builder} {lines : List Line} (h : Feeds b lines built) (hrelated : R b b') (hb : b.Sound)
    (hb' : b'.Sound) : ∃ built', Feeds b' lines built' ∧ R built built' := by
  induction h generalizing b' with
  | nil b => exact ⟨b', .nil b', hrelated⟩
  | @cons b built line lines accepted rest ih =>
    cases hc : b.grammar.constantLine line.text with
    | error fault =>
      rw [feed_of_error hc] at accepted
      cases accepted
    | ok constant =>
      have hc' : b'.grammar.constantLine line.text = .ok constant := by rw [hgrammar hrelated, hc]
      rw [feed_of_ok hc, Logged.result_atLine_eq_ok] at accepted
      obtain ⟨haccepted, hnext⟩ := hadd constant hrelated hb hb' accepted
      rw [feed_of_ok hc] at ih
      obtain ⟨built', hrest, hbuilt⟩ := ih hnext (hb.sound_add constant) (hb'.sound_add constant)
      refine ⟨built', .cons ?_ ?_, hbuilt⟩
      · rw [feed_of_ok hc', Logged.result_atLine_eq_ok, haccepted]
      · rwa [feed_of_ok hc']

end Builder

end Codesheet
