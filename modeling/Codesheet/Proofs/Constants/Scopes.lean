import Codesheet.Proofs.Constants.Recorded
import Codesheet.Proofs.Constants.Reject

/-! Where nodes are attached, whatever is done with jumps. An open position belongs to a
line that all later lines are indented below, and its level is smaller by at least the
number of positions that are open inside it. A fall closes one position for each level,
so it leaves no position of a line that it falls back to; after a jump it may close
more, and then the node is attached further out, but never in a scope that has ended. -/

namespace Codesheet.Builder

open Node

variable {b : Builder}

/-- A node line, and the builder right after it was added. -/
structure Addition where
  constant : ConstantLine
  built : Builder

/-- The constant of a line, if it is a node. -/
def nodeLine? (g : Grammar) (line : Line) : Option ConstantLine :=
  match g.constantLine line.text with
  | .ok constant => if constant.bitField? = none then some constant else none
  | .error _ => none

/-- The nodes that a builder adds when it is fed some lines. -/
def additions (b : Builder) : List Line → List Addition
  | [] => []
  | line :: lines =>
    match nodeLine? b.grammar line with
    | some constant => ⟨constant, (feed line b).1⟩ :: additions (feed line b).1 lines
    | none => additions (feed line b).1 lines

/-- The scope of a line is open after some lines: all lines after it are more indented.
Their nodes are inside its node, which is still the one that it has put there. -/
structure Stands (added : List Addition) (b : Builder) (path : List Nat) (p : Addition) : Prop where
  later : ∃ before after, added = before ++ p :: after ∧
    ∀ q ∈ after, p.constant.level < q.constant.level ∧ Inside q.built.last path
  put : p.built.last = path
  depth : path.length ≤ p.constant.level
  node : ∃ node, b.nodeAt path = .ok node ∧ node.name = p.constant.name ∧
    node.value = p.constant.value

/-- Every node on the way to an open position is that of a line whose scope is open. -/
structure Scoped (added : List Addition) (b : Builder) : Prop where
  sound : b.Sound
  stands : ∀ (j : Nat) path, b.positions[j]? = some path → ∀ outer, outer <+: path →
    outer = [] ∨ ∃ p, Stands added b outer p ∧ p.constant.level + j ≤ b.level

/-- The builder adds a node of a body. -/
structure Takes (b : Builder) (a : Addition) : Prop where
  node : a.constant.bitField? = none
  indented : 1 ≤ a.constant.level
  accepted : b.refusal? a.constant.level = none
  built : a.built = (add a.constant b).1

variable {added : List Addition} {a p : Addition} {path : List Nat}

/-! ### Steps -/

theorem scoped_start (g : Grammar) (jumps : JumpPolicy) (forest : Forest) (name : String) :
    Scoped [] (start g jumps forest name) := by
  refine ⟨sound_start g jumps forest name, fun j path hj outer houter => .inl ?_⟩
  have hm : path ∈ [([] : List Nat), []] := List.mem_of_getElem? hj
  obtain rfl : path = [] := by simpa using hm
  exact List.prefix_nil.1 houter

theorem Stands.of_nodeAt (h : Stands added b path p) {c : Builder} {node node' : Node}
    (hb : b.nodeAt path = .ok node) (hc : c.nodeAt path = .ok node') (hn : node.Continues node') :
    Stands added c path p := by
  obtain ⟨other, hother, hname, hvalue⟩ := h.node
  obtain rfl := Except.ok.inj (hother.symm.trans hb)
  exact ⟨h.later, h.put, h.depth, node', hc, hn.name.trans hname, hn.value.trans hvalue⟩

/-- A scope stays open over a line that is more indented and goes inside. -/
theorem Stands.concat (h : Stands added b path p) (hl : p.constant.level < a.constant.level)
    (hi : Inside a.built.last path) : Stands (added ++ [a]) b path p := by
  obtain ⟨⟨before, after, rfl, hafter⟩, hput, hdepth, hnode⟩ := h
  refine ⟨⟨before, after ++ [a], by simp, fun q hq => ?_⟩, hput, hdepth, hnode⟩
  rcases List.mem_append.1 hq with hq | hq
  · exact hafter q hq
  · obtain rfl := List.mem_singleton.1 hq
    exact ⟨hl, hi⟩

theorem Takes.attached (ha : b.Takes a) (hb : b.Sound) : Attached a.constant b a.built := by
  rw [ha.built]
  exact (hb.add_of_not_refused ha.node ha.accepted).2

theorem Takes.nodeAt_last (ha : b.Takes a) (hb : b.Sound) :
    a.built.nodeAt a.built.last = .ok (leaf a.constant.name a.constant.value) := by
  obtain ⟨root, hroot, hnode⟩ := (ha.attached hb).at?_last
  rw [← (fixed_add a.constant b).2.2, ← ha.built] at hroot
  exact nodeAt_eq_ok hroot hnode

theorem Attached.exists_place {line : ConstantLine} {built : Builder} (h : Attached line b built) :
    ∃ place, built.last = built.parent ++ [place] := by
  obtain ⟨_, parent, _, -, -, -, -, hlast⟩ := h.edit
  exact ⟨_, hlast⟩

/-- The parents of a node that is added are positions that were open before, those of
lines with smaller levels. -/
theorem Scoped.stands_parents (h : Scoped added b) (ha : b.Takes a) {j : Nat}
    (hj : a.built.parents[j]? = some path) {outer : List Nat} (houter : outer <+: path) :
    outer = [] ∨ ∃ p, Stands added a.built outer p ∧ p.constant.level + j < a.constant.level := by
  have hold := hj
  rw [(ha.attached h.sound).parents, parentsAt_eq_drop, List.getElem?_drop] at hold
  refine (h.stands _ path hold outer houter).imp_right ?_
  rintro ⟨p, hp, hlevel⟩
  have hkeeps := h.sound.keeps_add a.constant
  rw [← ha.built] at hkeeps
  obtain ⟨node, node', hnode, hnode', hcontinues⟩ := hkeeps.nodeAt (List.mem_of_getElem? hj) houter
  exact ⟨p, hp.of_nodeAt hnode hnode' hcontinues, by omega⟩

theorem Scoped.stands_parent (h : Scoped added b) (ha : b.Takes a) {outer : List Nat}
    (houter : outer <+: a.built.parent) :
    outer = [] ∨ ∃ p, Stands added a.built outer p ∧ p.constant.level < a.constant.level := by
  have hfirst : a.built.parents[0]? = some a.built.parent := rfl
  exact h.stands_parents ha hfirst houter

/-- A parent is less deep than the level of the line. -/
theorem Scoped.depth (h : Scoped added b) (ha : b.Takes a) :
    a.built.parent.length < a.constant.level := by
  rcases h.stands_parent ha List.prefix_rfl with hroot | ⟨p, hp, hlevel⟩
  · rw [hroot]
    exact ha.indented
  · have := hp.depth
    omega

/-- The new node stands where it was put. -/
theorem Scoped.stands_last (h : Scoped added b) (ha : b.Takes a) :
    Stands (added ++ [a]) a.built a.built.last a := by
  obtain ⟨place, hlast⟩ := (ha.attached h.sound).exists_place
  have hdepth := h.depth ha
  refine ⟨⟨added, [], rfl, nofun⟩, rfl, ?_, _, ha.nodeAt_last h.sound, rfl, rfl⟩
  rw [hlast, List.length_append, List.length_singleton]
  exact hdepth

/-- The new node is inside the nodes on the way to its parents. -/
theorem Scoped.stands_parents_concat (h : Scoped added b) (ha : b.Takes a) {j : Nat}
    (hj : a.built.parents[j]? = some path) {outer : List Nat} (houter : outer <+: path) :
    outer = [] ∨ ∃ p, Stands (added ++ [a]) a.built outer p ∧
      p.constant.level + j < a.constant.level := by
  have hsound : a.built.Sound := ha.built ▸ h.sound.sound_add a.constant
  refine (h.stands_parents ha hj houter).imp_right ?_
  rintro ⟨p, hp, hlevel⟩
  obtain ⟨place, hlast⟩ := (ha.attached h.sound).exists_place
  have hpath := prefix_of_isChain hsound.ready.nested (List.mem_of_getElem? hj)
  have hinside : Inside a.built.last outer := by
    rw [hlast]
    exact inside_concat (houter.trans hpath) place
  exact ⟨p, hp.concat (by omega) hinside, hlevel⟩

theorem Scoped.take (h : Scoped added b) (ha : b.Takes a) : Scoped (added ++ [a]) a.built := by
  have hattached := ha.attached h.sound
  refine ⟨ha.built ▸ h.sound.sound_add a.constant, fun j path hj outer houter => ?_⟩
  rw [hattached.level]
  cases j with
  | zero =>
    obtain rfl := Option.some.inj hj
    obtain ⟨place, hlast⟩ := hattached.exists_place
    rw [hlast, List.prefix_concat_iff, ← hlast] at houter
    rcases houter with rfl | houter
    · exact .inr ⟨a, h.stands_last ha, Nat.le_refl _⟩
    · have hfirst : a.built.parents[0]? = some a.built.parent := rfl
      refine (h.stands_parents_concat ha hfirst houter).imp_right ?_
      rintro ⟨p, hp, hlevel⟩
      exact ⟨p, hp, Nat.le_of_lt hlevel⟩
  | succ j => exact h.stands_parents_concat ha hj houter

/-- A list is split in one way at two elements of which neither is behind the other. -/
theorem eq_of_append_cons {α : Type} {x y : α} {before before' after after' : List α}
    (h : before ++ x :: after = before' ++ y :: after') (hy : y ∉ after) (hx : x ∉ after') :
    x = y ∧ after = after' := by
  rcases List.append_eq_append_iff.1 h with ⟨between, -, hrest⟩ | ⟨between, -, hrest⟩
  · cases between with
    | nil => exact List.cons.inj hrest
    | cons first between =>
      obtain ⟨-, rfl⟩ := List.cons.inj hrest
      simp at hy
  · cases between with
    | nil => exact (List.cons.inj hrest).imp Eq.symm Eq.symm
    | cons first between =>
      obtain ⟨-, rfl⟩ := List.cons.inj hrest
      simp at hx

/-- A line with its node on the way to a parent, and no later node in the same place, is
not closed. -/
theorem Scoped.encloses (h : Scoped added b) (ha : b.Takes a) {before after : List Addition}
    (hsplit : added = before ++ p :: after) (hpath : p.built.last <+: a.built.parent)
    (hroot : p.built.last ≠ []) (hkept : ∀ q ∈ after, q.built.last ≠ p.built.last) :
    p.constant.level < a.constant.level ∧ ∀ q ∈ after, p.constant.level < q.constant.level := by
  obtain ⟨other, ⟨⟨before', after', hsplit', hlater⟩, hput, -, -⟩, hlevel⟩ :=
    (h.stands_parent ha hpath).resolve_left hroot
  -- The line that stands there is neither later nor earlier than this one.
  have hnotLater : other ∉ after := fun hm => hkept other hm hput
  have hnotEarlier : p ∉ after' := fun hm => hroot ((hlater p hm).2.2 rfl)
  obtain ⟨rfl, rfl⟩ := eq_of_append_cons (hsplit.symm.trans hsplit') hnotLater hnotEarlier
  exact ⟨hlevel, fun q hq => (hlater q hq).1⟩

/-- A bit field leaves the positions, and the nodes on the way to them. -/
theorem Scoped.add_bitField (h : Scoped added b) {line : ConstantLine} {name : String}
    (hbit : line.bitField? = some name) : Scoped added (add line b).1 := by
  obtain ⟨root, changed, hroot, hedit, ha⟩ := annotate_of_sound h.sound ⟨name, line.value⟩
  have hi : b.root < b.forest.roots.length := (List.getElem?_eq_some_iff.1 hroot).1
  refine ⟨h.sound.sound_add line, ?_⟩
  rw [add_of_bitField hbit, ha]
  intro j path hj outer houter
  refine (h.stands j path hj outer houter).imp_right ?_
  rintro ⟨p, hp, hlevel⟩
  have hlast := prefix_of_isChain h.sound.nested (List.mem_of_getElem? hj)
  obtain ⟨node, node', hnode, hnode', hcontinues⟩ :=
    continues_editAt? (continues_addBitField · _) hedit (houter.trans hlast)
  have hchanged : (b.forest.roots.set b.root changed)[b.root]? = some changed := List.getElem?_set_self hi
  exact ⟨p, hp.of_nodeAt (nodeAt_eq_ok hroot hnode) (nodeAt_eq_ok hchanged hnode') hcontinues, hlevel⟩

/-! ### Fed lines -/

theorem nodeLine?_eq_some {g : Grammar} {line : Line} {constant : ConstantLine} :
    nodeLine? g line = some constant ↔
      g.constantLine line.text = .ok constant ∧ constant.bitField? = none := by
  unfold nodeLine?
  cases g.constantLine line.text with
  | error fault => simp
  | ok other =>
    simp only [Option.ite_none_right_eq_some, Except.ok.injEq, Option.some.injEq]
    constructor
    · rintro ⟨hnode, rfl⟩
      exact ⟨rfl, hnode⟩
    · rintro ⟨rfl, hnode⟩
      exact ⟨hnode, rfl⟩

theorem additions_of_some {line : Line} {constant : ConstantLine}
    (h : nodeLine? b.grammar line = some constant) (lines : List Line) :
    b.additions (line :: lines) = ⟨constant, (feed line b).1⟩ :: (feed line b).1.additions lines := by
  rw [additions, h]

theorem additions_of_none {line : Line} (h : nodeLine? b.grammar line = none) (lines : List Line) :
    b.additions (line :: lines) = (feed line b).1.additions lines := by
  rw [additions, h]

theorem map_constant_additions (lines : List Line) (b : Builder) :
    (b.additions lines).map (·.constant) = lines.filterMap (nodeLine? b.grammar) := by
  induction lines generalizing b with
  | nil => rfl
  | cons line lines ih =>
    have hrest := ih (feed line b).1
    rw [(fixed_feed line b).1] at hrest
    cases hline : nodeLine? b.grammar line with
    | none => rw [additions_of_none hline, List.filterMap_cons_none hline, hrest]
    | some constant =>
      rw [additions_of_some hline, List.filterMap_cons_some hline, List.map_cons, hrest]

theorem Scoped.feed_of_none (h : Scoped added b) {line : Line} (hline : nodeLine? b.grammar line = none) :
    Scoped added (feed line b).1 := by
  refine feed_induction h fun constant hc => ?_
  cases hbit : constant.bitField? with
  | none => simp [nodeLine?_eq_some.2 ⟨hc, hbit⟩] at hline
  | some name => exact h.add_bitField hbit

theorem Scoped.takes_of_some (h : Scoped added b) {line : Line} (hl : ¬ line.isHeader)
    {constant : ConstantLine} (hline : nodeLine? b.grammar line = some constant)
    (hok : (feed line b).2.result = .ok ()) : b.Takes ⟨constant, (feed line b).1⟩ := by
  obtain ⟨hc, hnode⟩ := nodeLine?_eq_some.1 hline
  rw [feed_of_ok hc] at hok ⊢
  have haccepted := Logged.result_atLine_eq_ok.1 hok
  exact ⟨hnode, level_pos_of_body hl hc, (h.sound.add_eq_ok_iff hnode).1 haccepted, rfl⟩

/-- Over the lines of a body, every node is added while the scopes of the open positions
are open. -/
theorem Scoped.takes_of_feeds (h : Scoped added b) {lines : List Line} (hl : ∀ line ∈ lines, ¬ line.isHeader)
    {built : Builder} (hf : Feeds b lines built) {earlier later : List Addition}
    (hsplit : b.additions lines = earlier ++ a :: later) :
    ∃ c, c.root = b.root ∧ Scoped (added ++ earlier) c ∧ c.Takes a := by
  induction hf generalizing added earlier with
  | nil => simp [additions] at hsplit
  | @cons b built line lines accepted rest ih =>
    obtain ⟨hline, hlines⟩ := List.forall_mem_cons.1 hl
    have hroot := (fixed_feed line b).2.2
    cases hnode : nodeLine? b.grammar line with
    | none =>
      rw [additions_of_none hnode] at hsplit
      obtain ⟨c, hc, hscoped, htakes⟩ := ih (h.feed_of_none hnode) hlines hsplit
      exact ⟨c, hc.trans hroot, hscoped, htakes⟩
    | some constant =>
      have htakes := h.takes_of_some hline hnode accepted
      rw [additions_of_some hnode] at hsplit
      cases earlier with
      | nil =>
        obtain ⟨rfl, -⟩ := List.cons.inj hsplit
        exact ⟨b, rfl, by rwa [List.append_nil], htakes⟩
      | cons first earlier =>
        obtain ⟨rfl, hrest⟩ := List.cons.inj hsplit
        obtain ⟨c, hc, hscoped, htakes'⟩ := ih (h.take htakes) hlines hrest
        rw [List.append_assoc] at hscoped
        exact ⟨c, hc.trans hroot, hscoped, htakes'⟩

end Codesheet.Builder
