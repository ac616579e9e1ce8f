import Codesheet.Proofs.Constants.Steps

/-! Falls after collapsed jumps. A jump opens one level whatever it measures, and a
fall closes as many levels as it measures, so every level that a jump skips is
missing when the lines fall back to where they were. -/

namespace Codesheet.Builder

variable {b : Builder}

/-- The levels of the nodes among some constants. -/
def levels (lines : List ConstantLine) : List Nat :=
  (lines.filter (·.bitField? = none)).map (·.level)

/-- How many levels are skipped by the jumps of some lines after a line of a level. -/
def skipped : Nat → List Nat → Nat
  | _, [] => 0
  | before, level :: levels => level - (before + 1) + skipped level levels

/-- Two positions are places below one node. -/
def Siblings (place other : List Nat) : Prop :=
  ∃ parent i j, place = parent ++ [i] ∧ other = parent ++ [j]

/-- The parents that are left when the lines fall back to a level. -/
def parentsBelow (b : Builder) (level : Nat) : List (List Nat) := b.parents.drop (b.level - level)

theorem levels_cons_bitField {line : ConstantLine} {name : String} (h : line.bitField? = some name)
    (lines : List ConstantLine) : levels (line :: lines) = levels lines := by
  simp [levels, h]

theorem levels_cons_node {line : ConstantLine} (h : line.bitField? = none)
    (lines : List ConstantLine) : levels (line :: lines) = line.level :: levels lines := by
  simp [levels, h]

/-- A node leaves the parents of every level that is not above its own, but for as
many as its jump skips. -/
theorem Sound.parentsBelow_add (hb : b.Sound) {line : ConstantLine} (h : line.bitField? = none)
    (hc : b.refusal? line.level = none) {level : Nat} (hl : level ≤ line.level)
    (hopen : level ≤ b.level) :
    (add line b).1.parentsBelow level = (b.parentsBelow level).drop (line.level - (b.level + 1)) := by
  obtain ⟨-, hlevel, hparents, -⟩ := hb.add_of_not_refused h hc
  rw [parentsBelow, hlevel, hparents, parentsAt, parentsBelow, List.drop_drop]
  split_ifs with hrise
  · have hdepth : line.level - level = (b.level - level + (line.level - (b.level + 1))) + 1 := by omega
    rw [hdepth, positions, List.drop_succ_cons]
  · rw [List.drop_drop]
    congr 1
    omega

theorem refusal?_of_collapse (hj : b.jumps = .collapse) {level : Nat} (hopen : level ≤ b.level) :
    b.refusal? level = none ↔ b.parentsBelow level ≠ [] := by
  rw [parentsBelow, Ne, List.drop_eq_nil_iff, parents, List.length_cons, refusal?,
    if_neg (by simp [hj])]
  split_ifs with hs
  · simp only [false_iff, not_not]
    omega
  · simp only [true_iff]
    omega

/-- A refused fall leaves no parent for any level below. -/
theorem parentsBelow_of_refusal (hj : b.jumps = .collapse) {line : ConstantLine}
    (h : line.bitField? = none) {cause : IndentCause} (hc : b.refusal? line.level = some cause)
    {level : Nat} (hl : level ≤ line.level) (hopen : level ≤ b.level) :
    b.parentsBelow level = [] ∧ (add line b).1.parentsBelow level = [] := by
  have hs : line.level + b.stack.length < b.level := by
    by_contra hs
    rw [refusal?, if_neg (by simp [hj]), if_neg hs] at hc
    cases hc
  have hnone : b.parentsBelow level = [] := by
    rw [parentsBelow, List.drop_eq_nil_iff, parents, List.length_cons]
    omega
  refine ⟨hnone, ?_⟩
  obtain ⟨-, -, hlevel, hsame | ⟨-, hstack⟩⟩ := add_of_refusal h hc
  · rw [hsame, hnone]
  · rw [parentsBelow, hlevel, parents, hstack, List.drop_eq_nil_iff, List.length_singleton]
    omega

/-- A node that is not above a level costs it as many parents as are skipped since the
line before. After a refused line no parent is left, and the line before may be any. -/
theorem Sound.parentsBelow_add_node (hb : b.Sound) (hj : b.jumps = .collapse) {level : Nat}
    (hopen : level ≤ b.level) {line : ConstantLine} (h : line.bitField? = none) (hl : level ≤ line.level)
    {before : Nat} (hbefore : b.parentsBelow level = [] ∨ before = b.level) :
    level ≤ (add line b).1.level ∧
      (add line b).1.parentsBelow level = (b.parentsBelow level).drop (line.level - (before + 1)) ∧
      ((add line b).1.parentsBelow level = [] ∨ line.level = (add line b).1.level) := by
  cases hc : b.refusal? line.level with
  | some cause =>
    obtain ⟨hnone, hnone'⟩ := parentsBelow_of_refusal hj h hc hl hopen
    obtain ⟨-, -, hlevel, -⟩ := add_of_refusal h hc
    refine ⟨by rw [hlevel]; exact hopen, ?_, .inl hnone'⟩
    rw [hnone, hnone', List.drop_nil]
  | none =>
    obtain ⟨-, hlevel, -, -⟩ := hb.add_of_not_refused h hc
    refine ⟨by rw [hlevel]; exact hl, ?_, .inr hlevel.symm⟩
    rw [hb.parentsBelow_add h hc hl hopen]
    rcases hbefore with hnone | rfl
    · rw [hnone, List.drop_nil, List.drop_nil]
    · rfl

theorem parentsBelow_add_bitField (hb : b.Sound) {line : ConstantLine} {name : String}
    (h : line.bitField? = some name) (level : Nat) :
    (add line b).1.level = b.level ∧ (add line b).1.parentsBelow level = b.parentsBelow level := by
  obtain ⟨_, _, -, -, ha⟩ := annotate_of_sound hb ⟨name, line.value⟩
  rw [add_of_bitField h, ha]
  exact ⟨rfl, rfl⟩

/-- Over lines that are not above a level, every skipped level costs one parent. -/
theorem Sound.parentsBelow_addEach (hb : b.Sound) (hj : b.jumps = .collapse) {level : Nat}
    (hopen : level ≤ b.level) {lines : List ConstantLine}
    (hl : ∀ line ∈ lines, line.bitField? = none → level ≤ line.level) {before : Nat}
    (hbefore : b.parentsBelow level = [] ∨ before = b.level) :
    level ≤ (b.addEach lines).level ∧
      (b.addEach lines).parentsBelow level =
        (b.parentsBelow level).drop (skipped before (levels lines)) := by
  induction lines generalizing b before with
  | nil => exact ⟨hopen, rfl⟩
  | cons line lines ih =>
    have hrest : ∀ line ∈ lines, line.bitField? = none → level ≤ line.level :=
      fun other hm => hl other (List.mem_cons_of_mem _ hm)
    have hj' : (add line b).1.jumps = .collapse := (fixed_add line b).2.1.trans hj
    have hcons : b.addEach (line :: lines) = (add line b).1.addEach lines := rfl
    rw [hcons]
    cases hbit : line.bitField? with
    | some name =>
      obtain ⟨hlevel, hsame⟩ := parentsBelow_add_bitField hb hbit level
      rw [levels_cons_bitField hbit, ← hsame]
      rw [← hlevel, ← hsame] at hbefore
      exact ih (hb.sound_add line) hj' (by rw [hlevel]; exact hopen) hrest hbefore
    | none =>
      obtain ⟨hopen', hdrop, hnow⟩ :=
        hb.parentsBelow_add_node hj hopen hbit (hl line List.mem_cons_self hbit) hbefore
      obtain ⟨hlevel, hrun⟩ := ih (hb.sound_add line) hj' hopen' hrest hnow
      rw [levels_cons_node hbit, skipped, hrun, hdrop, List.drop_drop]
      exact ⟨hlevel, rfl⟩

/-! ### Siblings -/

theorem inside_of_isChain {inner outer : List Nat} {rest : List (List Nat)}
    (h : (inner :: rest).IsChain Inside) (hm : outer ∈ rest) : Inside inner outer := by
  cases rest with
  | nil => cases hm
  | cons next rest =>
    obtain ⟨hn, hrest⟩ := List.isChain_cons_cons.1 h
    have hp := prefix_of_isChain hrest hm
    refine ⟨hp.trans hn.1, ?_⟩
    rintro rfl
    have hnext : next = outer := List.IsPrefix.eq_of_length_le hn.1 hp.length_le
    rw [← hnext]
    exact hn.2 hnext

/-- Dropping some parents leaves the innermost one only if all are the root. -/
theorem head?_drop_of_isChain {parent : List Nat} {stack : List (List Nat)}
    (h : (parent :: stack).IsChain Inside) (n : Nat) :
    ((parent :: stack).drop n).head? = some parent ↔ n = 0 ∨ parent = [] ∧ n ≤ stack.length := by
  cases n with
  | zero => simp
  | succ n =>
    rw [List.drop_succ_cons, List.head?_drop, or_iff_right (Nat.succ_ne_zero n)]
    constructor
    · intro hn
      have hm := List.mem_of_getElem? hn
      exact ⟨(inside_of_isChain h hm).2 rfl, (List.getElem?_eq_some_iff.1 hn).1⟩
    · rintro ⟨rfl, hn⟩
      have hp : stack[n] <+: [] := prefix_of_isChain h (List.mem_cons_of_mem _ (List.getElem_mem hn))
      rw [List.getElem?_eq_getElem hn, List.prefix_nil.1 hp]

theorem Attached.siblings_iff {line other : ConstantLine} {b c built built' : Builder}
    (h : Attached line b built) (h' : Attached other c built') :
    Siblings built.last built'.last ↔ built'.parent = built.parent := by
  obtain ⟨_, place, _, -, -, -, -, hlast⟩ := h.edit
  obtain ⟨_, place', _, -, -, -, -, hlast'⟩ := h'.edit
  rw [hlast, hlast']
  constructor
  · rintro ⟨parent, i, j, hi, hj⟩
    rw [(List.append_inj' hi rfl).1, (List.append_inj' hj rfl).1]
  · intro hp
    exact ⟨built.parent, _, _, rfl, by rw [hp]⟩

/-- Where jumps are collapsed, a node of the level of an earlier one, with nothing
above that level between them, comes to stand beside it exactly if no level was
skipped since, or both stand below the root and enough levels are open there. -/
theorem siblings_iff_skipped (g : Grammar) (forest : Forest) (name : String)
    (before between : List ConstantLine) (first second : ConstantLine)
    (node : first.bitField? = none) (node' : second.bitField? = none)
    (same : second.level = first.level)
    (inside : ∀ line ∈ between, line.bitField? = none → first.level ≤ line.level)
    (accepted : (add first ((start g .collapse forest name).addEach before)).2.result = .ok ()) :
    let built := (add first ((start g .collapse forest name).addEach before)).1
    let built' := (add second (built.addEach between)).1
    let n := skipped first.level (levels between)
    (add second (built.addEach between)).2.result = .ok () ∧ Siblings built.last built'.last ↔
      n = 0 ∨ built.parent = [] ∧ n ≤ built.stack.length := by
  intro built built' n
  have hb := (sound_start g .collapse forest name).sound_addEach before
  have hj := (fixed_addEach before (start g .collapse forest name)).2.1
  have hfirst := (hb.add_of_not_refused node ((hb.add_eq_ok_iff node).1 accepted)).2
  have hbuilt : built.Sound := hb.sound_add first
  have hjbuilt : built.jumps = .collapse := (fixed_add first _).2.1.trans hj
  have hbelow : built.parentsBelow first.level = built.parents := by
    rw [parentsBelow, hfirst.level, Nat.sub_self, List.drop_zero]
  obtain ⟨hopen, hrun⟩ := hbuilt.parentsBelow_addEach hjbuilt (le_of_eq hfirst.level.symm) inside
    (.inr hfirst.level.symm)
  rw [hbelow] at hrun
  have hnow := hbuilt.sound_addEach between
  have hjnow := (fixed_addEach between built).2.1.trans hjbuilt
  have hok : (add second (built.addEach between)).2.result = .ok () ↔ built.parents.drop n ≠ [] := by
    rw [hnow.add_eq_ok_iff node', same, refusal?_of_collapse hjnow hopen, hrun]
  have hsib : (add second (built.addEach between)).2.result = .ok () →
      (Siblings built.last built'.last ↔ (built.parents.drop n).head? = some built.parent) := by
    intro h
    have hsecond := (hnow.add_of_not_refused node' ((hnow.add_eq_ok_iff node').1 h)).2
    have hparents := hsecond.parents
    rw [parentsAt, if_neg (by omega), same, ← parentsBelow, hrun] at hparents
    rw [← hparents, hfirst.siblings_iff hsecond]
    exact Option.some_inj.symm
  rw [← head?_drop_of_isChain hbuilt.ready.nested]
  constructor
  · rintro ⟨h, hbeside⟩
    exact (hsib h).1 hbeside
  · intro hhead
    have h := hok.2 (List.ne_nil_of_mem (List.mem_of_mem_head? hhead))
    exact ⟨h, (hsib h).2 hhead⟩

/-- One jump directly below the root: levels 1, 3, 1. -/
theorem siblings_below_root :
    let built := (add ⟨1, "a", 1⟩ ((start .standard .collapse .empty "root").addEach [])).1
    let step := add ⟨1, "c", 3⟩ (built.addEach [⟨3, "b", 2⟩])
    step.2.result = .ok () ∧ Siblings built.last step.1.last :=
  (siblings_iff_skipped .standard .empty "root" [] [⟨3, "b", 2⟩] ⟨1, "a", 1⟩ ⟨1, "c", 3⟩
    (by decide +kernel) (by decide +kernel) rfl (by decide) (by decide +kernel)).2
    (.inr ⟨by decide +kernel, by decide +kernel⟩)

/-- The same jump one level deeper: levels 1, 2, 4, 2. The last node is accepted below
the root, beside the first node and not beside the second. -/
theorem not_siblings_below_child :
    let built := (start .standard .collapse .empty "root").addEach [⟨1, "a", 1⟩, ⟨2, "b", 2⟩]
    let step := add ⟨2, "d", 4⟩ (built.addEach [⟨4, "c", 3⟩])
    step.2.result = .ok () ∧ ¬ Siblings built.last step.1.last := by
  intro built step
  have hlast : built.last = [0, 0] := by decide +kernel
  have hlast' : step.1.last = [1] := by decide +kernel
  refine ⟨by decide +kernel, ?_⟩
  rintro ⟨parent, i, j, hi, hj⟩
  rw [hlast] at hi
  rw [hlast'] at hj
  have hlen := congrArg List.length hi
  have hlen' := congrArg List.length hj
  simp only [List.length_cons, List.length_append, List.length_nil] at hlen hlen'
  omega

end Codesheet.Builder
