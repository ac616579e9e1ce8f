import Codesheet.Block.Segment
import Codesheet.Proofs.Line.Cleaned

/-! A list of lines cut into blocks before every header. The body that is read
from a source is the first piece of its lines, and the source left behind holds
the blocks after it, so reading block by block is cutting the list. -/

namespace Codesheet

/-- A header line and the lines up to the next header line. -/
structure Block where
  head : Line
  body : List Line

namespace Block

def header (b : Block) : Header := Header.ofLine b.head

def lines (b : Block) : List Line := b.head :: b.body

/-- The header line is one, and no line of the body is. -/
def WellFormed (b : Block) : Prop := b.head.isHeader ∧ ∀ line ∈ b.body, ¬ line.isHeader

/-- The lines in front of the first header, and the blocks of the others. -/
def cut : List Line → List Line × List Block
  | [] => ([], [])
  | line :: lines =>
    if line.isHeader then ([], ⟨line, (cut lines).1⟩ :: (cut lines).2)
    else (line :: (cut lines).1, (cut lines).2)

@[simp] theorem cut_nil : cut [] = ([], []) := rfl

theorem cut_header {line : Line} (h : line.isHeader) (lines : List Line) :
    cut (line :: lines) = ([], ⟨line, (cut lines).1⟩ :: (cut lines).2) := by
  rw [cut, if_pos h]

theorem cut_indented {line : Line} (h : ¬ line.isHeader) (lines : List Line) :
    cut (line :: lines) = (line :: (cut lines).1, (cut lines).2) := by
  rw [cut, if_neg h]

/-- No line is lost, doubled or moved. -/
theorem cut_flatten (lines : List Line) :
    (cut lines).1 ++ (cut lines).2.flatMap Block.lines = lines := by
  induction lines with
  | nil => rfl
  | cons line lines ih =>
    by_cases h : line.isHeader
    · simpa [cut_header h, Block.lines] using ih
    · simpa [cut_indented h] using ih

theorem not_isHeader_of_mem_cut {lines : List Line} {line : Line} (h : line ∈ (cut lines).1) :
    ¬ line.isHeader := by
  induction lines with
  | nil => simp at h
  | cons first lines ih =>
    by_cases hf : first.isHeader
    · simp [cut_header hf] at h
    · rw [cut_indented hf, List.mem_cons] at h
      rcases h with rfl | h
      · exact hf
      · exact ih h

theorem wellFormed_of_mem_cut {lines : List Line} {b : Block} (h : b ∈ (cut lines).2) :
    b.WellFormed := by
  induction lines with
  | nil => simp at h
  | cons line lines ih =>
    by_cases hl : line.isHeader
    · rw [cut_header hl, List.mem_cons] at h
      rcases h with rfl | h
      · exact ⟨hl, fun _ => not_isHeader_of_mem_cut⟩
      · exact ih h
    · rw [cut_indented hl] at h
      exact ih h

theorem cut_append {body : List Line} (h : ∀ line ∈ body, ¬ line.isHeader) (lines : List Line) :
    cut (body ++ lines) = (body ++ (cut lines).1, (cut lines).2) := by
  induction body with
  | nil => rfl
  | cons line body ih =>
    rw [List.cons_append, cut_indented (h line List.mem_cons_self),
      ih fun other hm => h other (List.mem_cons_of_mem line hm)]
    rfl

/-- The block with its lines changed. -/
def map (f : Line → Line) (b : Block) : Block := ⟨f b.head, b.body.map f⟩

/-- A change of lines that leaves headers and bodies apart is a change of the pieces. -/
theorem cut_map {f : Line → Line} (hf : ∀ line, (f line).isHeader = line.isHeader) (lines : List Line) :
    cut (lines.map f) = ((cut lines).1.map f, (cut lines).2.map (map f)) := by
  induction lines with
  | nil => rfl
  | cons line lines ih =>
    by_cases h : line.isHeader
    · rw [List.map_cons, cut_header h, cut_header ((hf line).trans h), ih]
      rfl
    · rw [List.map_cons, cut_indented h, cut_indented (by rwa [hf line]), ih]
      rfl

/-- The pieces are the only ones that make up the lines. -/
theorem cut_flatMap {blocks : List Block} (h : ∀ b ∈ blocks, b.WellFormed) :
    cut (blocks.flatMap Block.lines) = ([], blocks) := by
  induction blocks with
  | nil => rfl
  | cons b blocks ih =>
    obtain ⟨hhead, hbody⟩ := h b List.mem_cons_self
    rw [List.flatMap_cons, Block.lines, List.cons_append, cut_header hhead, cut_append hbody,
      ih fun other hm => h other (List.mem_cons_of_mem b hm), List.append_nil]

theorem cut_fst_eq_nil_iff {lines : List Line} :
    (cut lines).1 = [] ↔ ∀ line ∈ lines.head?, line.isHeader := by
  cases lines with
  | nil => simp
  | cons line lines => by_cases h : line.isHeader <;> simp [cut, h]

/-- Lines that start with a header make up blocks of their own, whatever comes before them. -/
theorem cut_append_of_header {after : List Line} (h : (cut after).1 = []) (lines : List Line) :
    cut (lines ++ after) = ((cut lines).1, (cut lines).2 ++ (cut after).2) := by
  induction lines with
  | nil => exact Prod.ext h rfl
  | cons line lines ih =>
    by_cases hl : line.isHeader
    · rw [List.cons_append, cut_header hl, cut_header hl, ih]
      rfl
    · rw [List.cons_append, cut_indented hl, cut_indented hl, ih]

theorem lines_of_cut {lines : List Line} (h : (cut lines).1 = []) :
    (cut lines).2.flatMap Block.lines = lines := by
  simpa [h] using cut_flatten lines

end Block

/-! ### Reading from a source -/

namespace Source

theorem nextHeader_of_remaining_nil {s : Source} (hs : s.Sound) (h : s.remaining = []) :
    ∃ s', s.nextHeader = (s', pure none) ∧ s'.Sound ∧ s'.remaining = [] := by
  obtain ⟨s', hnext, hs', hrest⟩ := next_of_remaining_nil hs h
  exact ⟨s', by simp [nextHeader, hnext], hs', hrest⟩

theorem nextHeader_of_isHeader {s : Source} (hs : s.Sound) {line : Line} {lines : List Line}
    (h : s.remaining = line :: lines) (hl : line.isHeader) :
    ∃ s', s.nextHeader = (s', ⟨[.blockHeader (.ofLine line)], .ok (some (.ofLine line))⟩) ∧
      s'.Sound ∧ s'.remaining = lines := by
  obtain ⟨s', hnext, hs', hrest, -⟩ := next_of_remaining_cons hs h
  exact ⟨s', by simp [nextHeader, hnext, hl], hs', hrest⟩

theorem nextHeader_of_not_isHeader {s : Source} (hs : s.Sound) {line : Line} {lines : List Line}
    (h : s.remaining = line :: lines) (hl : ¬ line.isHeader) :
    ∃ s', s.nextHeader = (s', Logged.fail (.notHeader line.number line.text)) ∧
      s'.Sound ∧ s'.remaining = lines := by
  obtain ⟨s', hnext, hs', hrest, -⟩ := next_of_remaining_cons hs h
  exact ⟨s', by simp [nextHeader, hnext, hl], hs', hrest⟩

end Source

namespace Body

theorem takeUpTo_eq (n : Nat) {s : Source} (hs : s.Sound) (hn : s.remaining.length < n) :
    ∃ b, takeUpTo n (start s) = ((Block.cut s.remaining).1, b) ∧ b.source.Sound ∧
      b.source.remaining = (Block.cut s.remaining).2.flatMap Block.lines := by
  induction n generalizing s with
  | zero => omega
  | succ n ih =>
    cases hr : s.remaining with
    | nil =>
      obtain ⟨s', hnext, hs', hrest⟩ := Source.next_of_remaining_nil hs hr
      exact ⟨⟨s', true⟩, by simp [takeUpTo, next, start, hnext], hs', hrest⟩
    | cons line lines =>
      obtain ⟨s', hnext, hs', hrest, hback, hbackrest⟩ := Source.next_of_remaining_cons hs hr
      by_cases hl : line.isHeader
      · refine ⟨⟨s'.putBack, true⟩, ?_, hback, ?_⟩
        · simp [takeUpTo, next, start, hnext, hl, Block.cut_header]
        · have hcut : (Block.cut (line :: lines)).1 = [] := by rw [Block.cut_header hl]
          rw [hbackrest, Block.lines_of_cut hcut]
      · have hlen : s'.remaining.length < n := by
          rw [hrest]
          simpa [hr] using hn
        obtain ⟨b, htake, hb, hbrest⟩ := ih hs' hlen
        rw [hrest] at htake hbrest
        refine ⟨b, ?_, hb, by rw [hbrest, Block.cut_indented hl]⟩
        have hstep : (start s).next = (some line, start s') := by simp [next, start, hnext, hl]
        rw [takeUpTo, hstep]
        simp [htake, Block.cut_indented hl]

/-- The body is what comes before the next header, and the source keeps the rest. -/
theorem rest_start {s : Source} (hs : s.Sound) :
    ∃ s', (start s).rest = ((Block.cut s.remaining).1, s') ∧ s'.Sound ∧
      s'.remaining = (Block.cut s.remaining).2.flatMap Block.lines := by
  obtain ⟨b, htake, hb, hrest⟩ :=
    takeUpTo_eq (s.bound + 1) hs (Nat.lt_succ_of_le s.length_remaining_le)
  have hrun : (start s).rest = ((Block.cut s.remaining).1, b.source) := by
    rw [rest, show (start s).source.bound = s.bound from rfl, htake]
  exact ⟨b.source, hrun, hb, hrest⟩

end Body

end Codesheet
