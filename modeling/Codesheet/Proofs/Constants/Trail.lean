import Codesheet.Proofs.Constants.Outline
import Codesheet.Proofs.Constants.Steps

/-! Positions of open lines in the tree that lines declare. One more line leaves those
positions to which its level does not fall back, and changes the tree by one edit at
the position of its parent. -/

namespace Codesheet.Outline

open Node

variable {root : Node} {lines : List ConstantLine} {line : ConstantLine}

/-- What a parent is without its lines. -/
def bare (root : Node) (lines : List ConstantLine) : Option Nat → Node
  | none => root
  | some i => leafOf lines i

/-- A parent with the nodes of its lines over its old children. -/
def grown (root : Node) (lines : List ConstantLine) (parent : Option Nat) : Node :=
  { bare root lines parent with
    children := overlay (bare root lines parent).children (kids lines parent) }

theorem grown_some (i : Nat) : grown root lines (some i) = declared lines i := by
  rw [declared_eq]
  cases h : lines[i]? <;> simp [grown, bare, leafOf, h, leaf, overlay]

theorem bare_concat {parent : Option Nat} (h : ∀ i, parent = some i → i < lines.length) :
    bare root (lines ++ [line]) parent = bare root lines parent := by
  cases parent with
  | none => rfl
  | some i => exact leafOf_concat (h i rfl)

theorem name_declared (i : Nat) : (declared lines i).name = (leafOf lines i).name := by
  rw [declared_eq]

/-! ### Children of open lines -/

/-- An open line's node was placed last among the children of its parent. -/
theorem children_of_isOpen {i : Nat} (h : IsOpen lines i) :
    ∃ before, childLines lines (parentLine lines i) = before ++ [i] ∧
      (∀ k ∈ before, k < lines.length ∧ ¬ IsOpen lines k) ∧
      (grown root lines (parentLine lines i)).children =
        place (declared lines i)
          (overlay (bare root lines (parentLine lines i)).children (before.map (declared lines))) := by
  obtain ⟨before, hbefore, hclosed⟩ := childLines_of_isOpen h
  refine ⟨before, hbefore, hclosed, ?_⟩
  rw [grown, kids, hbefore, List.map_append, List.map_singleton, overlay_concat]

theorem slot_of_children {node other : Node} {others : List Node}
    (h : node.children = place other others) :
    node.slot other.name = others.findIdx (·.name = other.name) := by
  rw [slot, h]
  exact findIdx_place other others (.inl rfl)

theorem getElem?_slot {i : Nat} (h : IsOpen lines i) :
    (grown root lines (parentLine lines i)).children[
      (grown root lines (parentLine lines i)).slot (leafOf lines i).name]? = some (declared lines i) := by
  obtain ⟨before, -, -, hchildren⟩ := @children_of_isOpen root lines i h
  rw [← name_declared, slot_of_children hchildren, hchildren]
  exact getElem?_place _ _

/-- An open line that the new line does not close is changed in its place. -/
theorem grown_concat_of_isOpen {i : Nat} (h : IsOpen lines i) (hl : levelOf lines i < line.level) :
    let parent := grown root lines (parentLine lines i)
    let parent' := grown root (lines ++ [line]) (parentLine lines i)
    parent'.slot (leafOf lines i).name = parent.slot (leafOf lines i).name ∧
      parent' =
        { parent with
          children := parent.children.set (parent.slot (leafOf lines i).name)
            (declared (lines ++ [line]) i) } := by
  intro parent parent'
  obtain ⟨before, hbefore, hclosed, hchildren⟩ := @children_of_isOpen root lines i h
  have hparent : ∀ j, parentLine lines i = some j → j < lines.length :=
    fun j hj => (nearest_eq_some hj).1.trans h.1
  have hlines : childLines (lines ++ [line]) (parentLine lines i) = before ++ [i] := by
    obtain ⟨j, hj, hij⟩ := le_of_nearest h.1 hl
    have hne : nearest lines lines.length line.level ≠ parentLine lines i := by
      rw [hj]
      intro heq
      have := (nearest_eq_some heq.symm).1
      omega
    rw [childLines_concat, if_neg hne, List.append_nil, hbefore]
  have hkids : before.map (declared (lines ++ [line])) = before.map (declared lines) := by
    apply List.map_congr_left
    intro k hm
    obtain ⟨hk, hnot⟩ := hclosed k hm
    exact declared_concat hk fun hopen => absurd hopen hnot
  have hchildren' : parent'.children = place (declared (lines ++ [line]) i)
      (overlay (bare root lines (parentLine lines i)).children (before.map (declared lines))) := by
    show (grown root (lines ++ [line]) (parentLine lines i)).children = _
    rw [grown, bare_concat hparent, kids, hlines, List.map_append, List.map_singleton, overlay_concat, hkids]
  have hname : (declared (lines ++ [line]) i).name = (declared lines i).name := by
    rw [name_declared, name_declared, leafOf_concat h.1]
  have hslot := slot_of_children hchildren
  have hslot' := slot_of_children hchildren'
  rw [hname] at hslot'
  refine ⟨by rw [← name_declared, hslot, hslot'], ?_⟩
  rw [← name_declared, hslot, hchildren, set_place hname, ← hchildren']
  simp only [parent', parent, grown, bare_concat hparent]

/-- The parent of the new line gets its node. -/
theorem grown_concat_of_nearest :
    grown root (lines ++ [line]) (nearest lines lines.length line.level) =
      (grown root lines (nearest lines lines.length line.level)).insertChild
        (leaf line.name line.value) := by
  have hparent : ∀ i, nearest lines lines.length line.level = some i → i < lines.length :=
    fun i hi => (nearest_eq_some hi).1
  have hkids : (childLines lines (nearest lines lines.length line.level)).map (declared (lines ++ [line])) =
      kids lines (nearest lines lines.length line.level) := by
    rw [kids]
    apply List.map_congr_left
    intro k hm
    obtain ⟨hk, hkparent⟩ := mem_childLines.1 hm
    refine declared_concat hk fun hopen => ?_
    by_contra hlevel
    obtain ⟨j, hj, hkj⟩ := le_of_nearest hk (Nat.lt_of_not_le hlevel)
    rw [hj] at hkparent
    have := (nearest_eq_some hkparent).1
    omega
  rw [grown, bare_concat hparent, kids, childLines_concat, if_pos rfl, List.map_append, List.map_singleton,
    hkids, declared_length, overlay_concat, grown, insertChild]

/-! ### Positions -/

/-- The position of an open line below the root. -/
inductive Leads (root : Node) (lines : List ConstantLine) : Option Nat → List Nat → Prop where
  | root : Leads root lines none []
  | child {parent : Option Nat} {path : List Nat} {i : Nat} (h : Leads root lines parent path)
    (hp : parentLine lines i = parent) (ho : IsOpen lines i) :
    Leads root lines (some i) (path ++ [(grown root lines parent).slot (leafOf lines i).name])

theorem Leads.at? {parent : Option Nat} {path : List Nat} (h : Leads root lines parent path) :
    (grown root lines none).at? path = some (grown root lines parent) := by
  induction h with
  | root => rfl
  | child h hp ho ih =>
    subst hp
    rw [at?_append, ih, Option.bind_some, at?_cons, getElem?_slot ho, grown_some]
    rfl

/-- An edit at a child is an edit of the node above it. -/
theorem editAt?_concat {f : Node → Node} {path : List Nat} {i : Nat} {n m child : Node}
    (hm : n.at? path = some m) (hc : m.children[i]? = some child) :
    editAt? f (path ++ [i]) n =
      editAt? (fun m => { m with children := m.children.set i (f child) }) path n := by
  induction path generalizing n with
  | nil =>
    obtain rfl := Option.some.inj hm
    simp [editAt?, hc]
  | cons j path ih =>
    rw [at?_cons] at hm
    obtain ⟨next, hnext, hm⟩ := Option.bind_eq_some_iff.1 hm
    rw [List.cons_append, editAt?, editAt?, hnext]
    simp only [ih hm]

variable {parent : Option Nat} {path : List Nat}

/-- One more line leaves the positions of the lines that it does not close. -/
theorem Leads.concat (h : Leads root lines parent path)
    (hl : ∀ i, parent = some i → levelOf lines i < line.level) :
    Leads root (lines ++ [line]) parent path := by
  induction h with
  | root => exact .root
  | child h hp ho ih =>
    subst hp
    next i =>
    have hlevel := hl i rfl
    have hparent := ih fun j hj => (isOpen_parent hj ho).2.trans hlevel
    have hnew := hparent.child (parentLine_concat ho.1) (isOpen_concat ho hlevel)
    rwa [leafOf_concat ho.1, (grown_concat_of_isOpen ho hlevel).1] at hnew

/-- An edit that turns a parent into what it is with the new line does the same to the
whole tree. -/
theorem Leads.edit (h : Leads root lines parent path)
    (hl : ∀ i, parent = some i → levelOf lines i < line.level) {f : Node → Node}
    (hf : f (grown root lines parent) = grown root (lines ++ [line]) parent) :
    editAt? f path (grown root lines none) = some (grown root (lines ++ [line]) none) := by
  induction h generalizing f with
  | root => rw [editAt?, hf]
  | child h hp ho ih =>
    subst hp
    next i =>
    have hlevel := hl i rfl
    rw [grown_some, grown_some] at hf
    -- Seen from the parent, the edit puts the child's new node in the place of the old one.
    rw [editAt?_concat h.at? (getElem?_slot ho)]
    refine ih (fun j hj => (isOpen_parent hj ho).2.trans hlevel) ?_
    rw [hf]
    exact (grown_concat_of_isOpen ho hlevel).2.symm

/-- The new line is at a place below its parent. -/
theorem Leads.concat_length (h : Leads root lines (nearest lines lines.length line.level) path) :
    Leads root (lines ++ [line]) (some lines.length)
      (path ++ [(grown root lines (nearest lines lines.length line.level)).slot line.name]) := by
  have hparent := h.concat fun i hi => (nearest_eq_some hi).2.1
  have hnew := hparent.child parentLine_length isOpen_length
  have hname : (leafOf (lines ++ [line]) lines.length).name = line.name := by
    rw [leafOf_length]
    rfl
  have hslot : ((grown root lines (nearest lines lines.length line.level)).insertChild
      (leaf line.name line.value)).slot line.name =
        (grown root lines (nearest lines lines.length line.level)).slot line.name :=
    slot_insertChild _ (leaf line.name line.value)
  rwa [hname, grown_concat_of_nearest, hslot] at hnew

end Codesheet.Outline
