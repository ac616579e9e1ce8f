import Codesheet.Text.Split

/-! Trees of named 32-bit constants. A node's children keep the order in which
their names first came. -/

namespace Codesheet

/-- A named size. -/
structure BitField where
  name : String
  size : UInt32
  deriving DecidableEq

structure Node where
  name : String
  value : UInt32
  children : List Node
  bitFields : List BitField

namespace Node

def leaf (name : String) (value : UInt32) : Node := ⟨name, value, [], []⟩

/-- The first child of a name. -/
def child? (n : Node) (name : String) : Option Node := n.children.find? (·.name = name)

/-- The place of the first child of a name, or the place after all children. -/
def slot (n : Node) (name : String) : Nat := n.children.findIdx (·.name = name)

/-- Puts a node in the place of the first one of its name, or at the end. -/
def place (node : Node) : List Node → List Node
  | [] => [node]
  | child :: children =>
    if child.name = node.name then node :: children else child :: place node children

def insertChild (n child : Node) : Node := { n with children := place child n.children }

def addBitField (n : Node) (field : BitField) : Node := { n with bitFields := n.bitFields ++ [field] }

/-- The earliest bit field of a name. -/
def bitField? (n : Node) (name : String) : Option BitField := n.bitFields.find? (·.name = name)

/-- The node reached through the first child of each name. -/
def descend (n : Node) (names : List String) : Option Node := names.foldlM child? n

/-- The node at a dotted path below this one. -/
def find? (n : Node) (path : String) : Option Node := n.descend (Text.segments path)

/-- The node reached through the children at some places. -/
def at? (n : Node) : List Nat → Option Node
  | [] => some n
  | i :: path =>
    match n.children[i]? with
    | some child => child.at? path
    | none => none

/-- The places on the way through the first child of each name. -/
def places? (n : Node) : List String → Option (List Nat)
  | [] => some []
  | name :: names =>
    match n.child? name with
    | some child => (child.places? names).map (n.slot name :: ·)
    | none => none

/-- Changes the node at a path of places, if there is one. -/
def editAt? (f : Node → Node) : List Nat → Node → Option Node
  | [], n => some (f n)
  | i :: path, n =>
    match n.children[i]? with
    | some child =>
      (editAt? f path child).map fun child => { n with children := n.children.set i child }
    | none => none

theorem getElem?_place (node : Node) (children : List Node) :
    (place node children)[children.findIdx (·.name = node.name)]? = some node := by
  induction children with
  | nil => rfl
  | cons child children ih =>
    by_cases h : child.name = node.name
    · simp [place, List.findIdx_cons, h]
    · simpa [place, List.findIdx_cons, h] using ih

/-- Inserting puts the child at the slot of its name. -/
theorem at?_insertChild (n child : Node) :
    (n.insertChild child).at? [n.slot child.name] = some child := by
  simp [at?, insertChild, slot, getElem?_place]

/-- A change further down is a change of one child. -/
theorem exists_of_editAt?_cons {f : Node → Node} {i : Nat} {path : List Nat} {n m : Node}
    (h : editAt? f (i :: path) n = some m) :
    ∃ child changed, n.children[i]? = some child ∧ editAt? f path child = some changed ∧
      m = { n with children := n.children.set i changed } := by
  unfold editAt? at h
  split at h
  · next child hchild =>
    obtain ⟨changed, hchanged, heq⟩ := Option.map_eq_some_iff.1 h
    exact ⟨child, changed, hchild, hchanged, heq.symm⟩
  · cases h

/-- The change is made at its path. -/
theorem at?_editAt? (f : Node → Node) (path : List Nat) (n m : Node)
    (h : editAt? f path n = some m) : m.at? path = (n.at? path).map f := by
  induction path generalizing n m with
  | nil => simp_all [editAt?, at?]
  | cons i path ih =>
    obtain ⟨child, changed, hc, he, rfl⟩ := exists_of_editAt?_cons h
    have hi : i < n.children.length := (List.getElem?_eq_some_iff.1 hc).1
    rw [show n.at? (i :: path) = child.at? path by simp [at?, hc], ← ih child changed he]
    simp [at?, hi]

theorem editAt?_isSome (f : Node → Node) (path : List Nat) (n : Node) :
    (editAt? f path n).isSome = (n.at? path).isSome := by
  induction path generalizing n with
  | nil => rfl
  | cons i path ih =>
    cases h : n.children[i]? with
    | none => simp [editAt?, at?, h]
    | some child => simp [editAt?, at?, h, ih]

/-! ### Equality -/

mutual

def decEq : (m n : Node) → Decidable (m = n)
  | ⟨name, value, children, fields⟩, ⟨name', value', children', fields'⟩ =>
    match decEqAll children children' with
    | isTrue h =>
      if h' : name = name' ∧ value = value' ∧ fields = fields' then isTrue (by simp [h, h'])
      else isFalse (by simp only [mk.injEq]; grind)
    | isFalse h => isFalse (by simp [h])

def decEqAll : (ms ns : List Node) → Decidable (ms = ns)
  | [], [] => isTrue rfl
  | [], _ :: _ => isFalse nofun
  | _ :: _, [] => isFalse nofun
  | m :: ms, n :: ns =>
    match m.decEq n, decEqAll ms ns with
    | isTrue h, isTrue hs => isTrue (by rw [h, hs])
    | isFalse h, _ => isFalse (by simp [h])
    | _, isFalse hs => isFalse (by simp [hs])

end

instance : DecidableEq Node := decEq

end Node

end Codesheet
