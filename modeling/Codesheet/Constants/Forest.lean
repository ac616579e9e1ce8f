import Codesheet.Constants.Node

/-! The trees of a program, one for each name of a constants block. -/

namespace Codesheet

structure Forest where
  roots : List Node
  deriving DecidableEq

namespace Forest

def empty : Forest := ⟨[]⟩

/-- The first root of a name. -/
def root? (f : Forest) (name : String) : Option Node := f.roots.find? (·.name = name)

/-- The place of the first root of a name, or the place after all roots. -/
def slot (f : Forest) (name : String) : Nat := f.roots.findIdx (·.name = name)

/-- Adds a root of a name, with value 0, if there is none. -/
def ensureRoot (f : Forest) (name : String) : Forest :=
  if f.slot name < f.roots.length then f else ⟨f.roots ++ [.leaf name 0]⟩

theorem slot_lt_ensureRoot (f : Forest) (name : String) :
    f.slot name < (f.ensureRoot name).roots.length := by
  unfold ensureRoot
  split
  · assumption
  · have : f.slot name ≤ f.roots.length := List.findIdx_le_length
    simp only [List.length_append, List.length_singleton]
    omega

end Forest

end Codesheet
