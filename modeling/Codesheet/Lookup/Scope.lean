import Codesheet.Event
import Codesheet.Options
import Codesheet.Program.Basic

/-! Dotted paths looked up among the constants of a program. -/

namespace Codesheet

/-- Where names are looked up, and how. -/
structure Scope where
  forest : Forest
  /-- The names that addresses may have, if they are known. -/
  symbols : Option (List String)
  options : LookupOptions

namespace Scope

/-- The symbols of the program count only if addresses are to be checked. -/
def ofProgram (p : Program) (options : LookupOptions) : Scope :=
  ⟨p.constants, if options.checkAddresses then some p.symbols else none, options⟩

/-- The roots with a child of some name, and these children. -/
def candidates (f : Forest) (name : String) : List (Node × Node) :=
  f.roots.filterMap fun root => (root.child? name).map (root, ·)

/-- The child of a root that the first segment of a path names, if there is one. -/
def first (s : Scope) (path name : String) : Logged (Option Node) :=
  match candidates s.forest name with
  | [] => pure none
  | [(_, child)] => pure (some child)
  | (root, child) :: others =>
    match s.options.rootLookup with
    | .firstMatch => do
      Logged.report (.firstRootTaken path root.name (others.length + 1))
      return some child
    | .requireUnique =>
      Logged.fail (.ambiguous path (root.name :: others.map fun (root, _) => root.name))

/-- The node that a path names: the first segment is a child of a root, or, if no
root has such a child, a root itself that is not the end of the path. -/
def resolve (s : Scope) (path : String) : Logged Node := do
  match Text.segments path with
  | [] => Logged.fail (.notFound path)
  | name :: names =>
    let start ← match ← s.first path name with
      | some node => pure (some node)
      | none => pure (if names.isEmpty then none else s.forest.root? name)
    match start.bind (·.descend names) with
    | some node => return node
    | none => Logged.fail (.notFound path)

/-- The value of the node that a path names, or 0 for none where the options say
so. -/
def valueOf (s : Scope) (path : String) : Logged UInt32 :=
  let found := s.resolve path
  match found.result, s.options.unresolved with
  | .error (.notFound reference), .zero =>
    ⟨found.events ++ [.unresolvedZero reference], .ok 0⟩
  | _, _ => found.bind fun node => pure node.value

end Scope

end Codesheet
