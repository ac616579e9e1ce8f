import Codesheet.Proofs.Line.Pieces
import Codesheet.Proofs.Program.Nesting
import Mathlib.Data.Finset.Basic

/-! The blocks of some kinds alone. A text with the lines of the other blocks emptied has the blocks
that are left, under the same numbers. No kind of block reads what the others add, so these
blocks are accepted as before, and add the same to the program. -/

namespace Codesheet

/-! ### Emptied lines -/

/-- The text with some lines emptied, given by their numbers. -/
def Text.emptied (gone : List Nat) (cs : List Char) : List Char :=
  ['\n'].intercalate (((split '\n' cs).zipIdx 1).map fun (raw, number) => if number ∈ gone then [] else raw)

theorem Text.split_emptied (gone : List Nat) (cs : List Char) :
    split '\n' (emptied gone cs) =
      ((split '\n' cs).zipIdx 1).map fun (raw, number) => if number ∈ gone then [] else raw := by
  apply split_intercalate
  · simp [split_ne_nil]
  · intro piece hm
    obtain ⟨⟨raw, number⟩, hraw, rfl⟩ := List.mem_map.1 hm
    dsimp only
    split_ifs
    · exact List.not_mem_nil
    · exact not_mem_of_mem_split (List.fst_mem_of_mem_zipIdx hraw)

namespace Line

theorem cleaned_emptied (gone : List Nat) (number : Nat) (raws : List (List Char)) :
    cleaned number ((raws.zipIdx (number + 1)).map fun (raw, number) => if number ∈ gone then [] else raw) =
      (cleaned number raws).filter (·.number ∉ gone) := by
  induction raws generalizing number with
  | nil => rfl
  | cons raw raws ih =>
    rw [List.zipIdx_cons, List.map_cons, cleaned_cons, cleaned_cons, List.filter_append, ih]
    congr 1
    by_cases hgone : number + 1 ∈ gone
    · have hnone : clean? (number + 1) [] = none := rfl
      cases hc : clean? (number + 1) raw with
      | none => simp [hgone, hnone]
      | some line => simp [hgone, hnone, number_of_clean? hc]
    · cases hc : clean? (number + 1) raw with
      | none => simp [hgone, hc]
      | some line => simp [hgone, hc, number_of_clean? hc]

/-- The lines that are emptied are gone, and the others keep their numbers. -/
theorem ofText_emptied (gone : List Nat) (text : String) :
    ofText (String.ofList (Text.emptied gone text.toList)) = (ofText text).filter (·.number ∉ gone) := by
  rw [ofText_eq_cleaned_split, ofText_eq_cleaned_split, String.toList_ofList, Text.split_emptied]
  exact cleaned_emptied gone 0 _

end Line

/-! ### Blocks -/

namespace Block

variable {kinds : Finset Kind} {blocks : List Block}

/-- The blocks of some kinds. -/
def onto (kinds : Finset Kind) (blocks : List Block) : List Block := blocks.filter (·.header.kind ∈ kinds)

/-- The numbers of the lines of the other blocks. -/
def numbersOutside (kinds : Finset Kind) (blocks : List Block) : List Nat :=
  (blocks.filter (·.header.kind ∉ kinds)).flatMap fun b => b.lines.map (·.number)

theorem onto_cons (kinds : Finset Kind) (b : Block) (blocks : List Block) :
    onto kinds (b :: blocks) = if b.header.kind ∈ kinds then b :: onto kinds blocks else onto kinds blocks := by
  by_cases h : b.header.kind ∈ kinds <;> simp [onto, h]

/-- Lines that are kept exactly if their block is make up the blocks that are kept. -/
theorem filter_lines {kept : Line → Bool}
    (h : ∀ b ∈ blocks, ∀ line ∈ b.lines, kept line ↔ b.header.kind ∈ kinds) :
    (blocks.flatMap lines).filter kept = (onto kinds blocks).flatMap lines := by
  induction blocks with
  | nil => rfl
  | cons b blocks ih =>
    obtain ⟨hb, hrest⟩ := List.forall_mem_cons.1 h
    rw [List.flatMap_cons, List.filter_append, ih hrest, onto_cons]
    split_ifs with hkind
    · have hall : b.lines.filter kept = b.lines := by
        rw [List.filter_eq_self]
        intro line hm
        exact (hb line hm).2 hkind
      rw [hall, List.flatMap_cons]
    · have hnone : b.lines.filter kept = [] := by
        rw [List.filter_eq_nil_iff]
        intro line hm hkept
        exact hkind ((hb line hm).1 hkept)
      rw [hnone, List.nil_append]

/-- As no number comes twice, a line goes exactly if its block does. -/
theorem mem_numbersOutside_iff (hnodup : ((blocks.flatMap lines).map (·.number)).Nodup) {b : Block}
    (hb : b ∈ blocks) {line : Line} (hline : line ∈ b.lines) :
    line.number ∈ numbersOutside kinds blocks ↔ b.header.kind ∉ kinds := by
  have hmem : line.number ∈ b.lines.map (·.number) := List.mem_map_of_mem hline
  rw [List.map_flatMap, List.nodup_flatMap] at hnodup
  constructor
  · intro hgone hkept
    obtain ⟨other, hother, hnumber⟩ := List.mem_flatMap.1 hgone
    obtain ⟨hother, hkind⟩ := List.mem_filter.1 hother
    have hne : b ≠ other := by
      rintro rfl
      simp [hkept] at hkind
    have : Std.Symm fun b b' : Block => (b.lines.map (·.number)).Disjoint (b'.lines.map (·.number)) :=
      ⟨fun _ _ => List.Disjoint.symm⟩
    exact hnodup.2.forall hb hother hne hmem hnumber
  · intro hkind
    exact List.mem_flatMap.2 ⟨b, List.mem_filter.2 ⟨hb, by simpa using hkind⟩, hmem⟩

theorem filter_not_mem_numbersOutside (hnodup : ((blocks.flatMap lines).map (·.number)).Nodup)
    (kinds : Finset Kind) :
    (blocks.flatMap lines).filter (·.number ∉ numbersOutside kinds blocks) =
      (onto kinds blocks).flatMap lines := by
  apply filter_lines
  intro b hb line hline
  simp [mem_numbersOutside_iff hnodup hb hline]

end Block

namespace Program

open Block (onto onto_cons numbersOutside)

variable {g : Grammar} {jumps : JumpPolicy} {kinds : Finset Kind}

/-- The text with every line of every block of another kind emptied. -/
def projection (kinds : Finset Kind) (text : String) : String :=
  String.ofList (Text.emptied (numbersOutside kinds (Block.cut (Line.ofText text)).2) text.toList)

theorem cut_projection {text : String} (h : (Block.cut (Line.ofText text)).1 = []) (kinds : Finset Kind) :
    Block.cut (Line.ofText (projection kinds text)) = ([], onto kinds (Block.cut (Line.ofText text)).2) := by
  have hlines := Block.lines_of_cut h
  have hnodup := Line.nodup_numbers_ofText text
  rw [← hlines] at hnodup
  have hkept := Block.filter_not_mem_numbersOutside hnodup kinds
  rw [hlines] at hkept
  rw [projection, Line.ofText_emptied, hkept]
  apply Block.cut_flatMap
  intro b hb
  exact Block.wellFormed_of_mem_cut (List.mem_of_mem_filter hb)

/-! ### Programs -/

/-- The parts of a program that blocks of some kinds add. -/
def restrict (kinds : Finset Kind) (p : Program) : Program where
  constants := if .constants ∈ kinds then p.constants else .empty
  table := if .table ∈ kinds then p.table else []
  instructions := if .code ∈ kinds then p.instructions else []

theorem ofKind_onto (kind : Kind) (kinds : Finset Kind) (blocks : List Block) :
    ofKind kind (onto kinds blocks) = if kind ∈ kinds then ofKind kind blocks else [] := by
  induction blocks with
  | nil => simp [onto, ofKind]
  | cons b blocks ih =>
    by_cases hb : b.header.kind = kind
    · subst hb
      by_cases hk : b.header.kind ∈ kinds <;> simp [onto_cons, ofKind_cons, hk, ih]
    · by_cases hk : b.header.kind ∈ kinds <;> simp [onto_cons, ofKind_cons, hb, hk, ih]

theorem linesOf_onto (kind : Kind) (kinds : Finset Kind) (blocks : List Block) :
    linesOf kind (onto kinds blocks) = if kind ∈ kinds then linesOf kind blocks else [] := by
  rw [linesOf, ofKind_onto]
  split_ifs <;> rfl

/-- Blocks of some kinds add their parts of what all blocks add. -/
theorem Adds.onto {blocks : List Block} {p : Program} (h : Adds g jumps .empty blocks p)
    (kinds : Finset Kind) : Adds g jumps .empty (Block.onto kinds blocks) (p.restrict kinds) := by
  constructor
  · show Grows g jumps .empty _ (if .constants ∈ kinds then p.constants else .empty)
    rw [ofKind_onto]
    split_ifs
    · exact h.constants
    · exact .nil .empty
  · show List.Forall₂ (EntryOf g) _ (if .table ∈ kinds then p.table else [])
    rw [linesOf_onto]
    split_ifs
    · exact h.table
    · exact .nil
  · rw [linesOf_onto]
    split_ifs
    · exact h.code
    · exact List.forall_mem_nil _
  · show List.Forall₂ (InstructionOf g) _ (if .code ∈ kinds then p.instructions else [])
    rw [ofKind_onto]
    split_ifs
    · exact h.instructions
    · exact .nil

/-- Blocks add up to a program if those of each kind do. -/
theorem exists_adds_iff_onto {blocks : List Block} :
    (∃ p, Adds g jumps .empty blocks p) ↔ ∀ kind, ∃ p, Adds g jumps .empty (onto {kind} blocks) p := by
  constructor
  · rintro ⟨p, h⟩ kind
    exact ⟨p.restrict {kind}, h.onto {kind}⟩
  · intro h
    have hkind : ∀ kind, ofKind kind (onto {kind} blocks) = ofKind kind blocks := by
      intro kind
      rw [ofKind_onto, if_pos (Finset.mem_singleton_self kind)]
    obtain ⟨p, hconstants, -⟩ := h .constants
    obtain ⟨q, -, htable, -⟩ := h .table
    obtain ⟨r, -, -, hcode, hinstructions⟩ := h .code
    rw [hkind] at hconstants hinstructions
    rw [linesOf, hkind] at htable hcode
    exact ⟨⟨p.constants, q.table, r.instructions⟩, hconstants, htable, hcode, hinstructions⟩

theorem read_projection_eq_ok_iff {text : String} (h : (Block.cut (Line.ofText text)).1 = [])
    (kinds : Finset Kind) {p : Program} :
    (read g jumps (projection kinds text)).result = .ok p ↔
      Adds g jumps .empty (onto kinds (Block.cut (Line.ofText text)).2) p := by
  have hcut := cut_projection h kinds
  rw [read_eq_ok_iff g jumps (congrArg Prod.fst hcut), hcut]

/-- A text that starts with a header is a program exactly if its blocks of each kind alone are one. The
blocks of some kinds alone are then the parts of the program that these kinds make up. -/
theorem parse_projection (options : ParseOptions) (valid : 0 < options.indentUnit) (text : String)
    (header : ∀ line, (Line.ofText text).head? = some line → line.isHeader) :
    ((∃ p, (parse options text).result = .ok p) ↔
      ∀ kind, ∃ p, (parse options (projection {kind} text)).result = .ok p) ∧
    ∀ p, (parse options text).result = .ok p →
      ∀ kinds, (parse options (projection kinds text)).result = .ok (p.restrict kinds) := by
  have hc : (Block.cut (Line.ofText text)).1 = [] := Block.cut_fst_eq_nil_iff.2 header
  simp only [parse_of_valid valid, read_eq_ok_iff _ _ hc, read_projection_eq_ok_iff hc]
  exact ⟨exists_adds_iff_onto, fun p h kinds => h.onto kinds⟩

/-- A root that is opened again after a block of code, without the lines of that block. -/
theorem parse_projection_reopened_root :
    let text := "_r:\n  a: 1\nmain:\n  NOP\n_r:\n  b: 2\n#t:\n  x:@s\n"
    let p : Program := ⟨⟨[⟨"r", 0, [.leaf "a" 1, .leaf "b" 2], []⟩]⟩, [⟨"x", ⟨.address "s", []⟩, 8⟩],
      [⟨none, "NOP", [], 1, 4⟩]⟩
    (parse {} text).result = .ok p ∧
      projection {.constants, .table} text = "_r:\n  a: 1\n\n\n_r:\n  b: 2\n#t:\n  x:@s\n" ∧
      (parse {} (projection {.constants, .table} text)).result = .ok { p with instructions := [] } := by
  intro text p
  have hp : (parse {} text).result = .ok p := by decide +kernel
  have hheader : ∀ line, (Line.ofText text).head? = some line → line.isHeader := by decide +kernel
  have hprojection := (parse_projection {} (by decide) text hheader).2 p hp {.constants, .table}
  exact ⟨hp, by decide +kernel, hprojection⟩

end Program

end Codesheet
