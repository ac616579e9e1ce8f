import Mathlib.Data.List.Forall2
import Codesheet.Proofs.Block.Cut

/-! Calls for blocks, each followed by some reads of the body. Whatever is read and
whatever is left, the calls hand out the cleaned lines in order and each line once. Where
every body is read to its end, the calls hand out one piece of the partition after the
other. -/

namespace Codesheet

/-- The answer to a call for a block, and what the reads of its body give. -/
structure Visit where
  answer : Except Fault (Option Header)
  reads : List (Option Line)
  deriving DecidableEq

/-- Reads of a body, one after the other, also after its end. -/
def Body.readEach : Nat → Body → List (Option Line) × Body
  | 0, b => ([], b)
  | n + 1, b =>
    let (line, b) := b.next
    let (lines, b) := readEach n b
    (line :: lines, b)

namespace Source

/-- A call for a block, and `n` reads of its body if there is one. -/
def visit (n : Nat) (s : Source) : Visit × Source :=
  let (s, found) := s.nextHeader
  match found.result with
  | .ok (some header) =>
    let (reads, b) := (Body.start s).readEach n
    (⟨.ok (some header), reads⟩, b.source)
  | answer => (⟨answer, []⟩, s)

/-- Calls one after the other, with a number of reads for each. -/
def visitEach : List Nat → Source → List Visit × Source
  | [], s => ([], s)
  | n :: takes, s =>
    let (visit, s) := s.visit n
    let (visits, s) := visitEach takes s
    (visit :: visits, s)

end Source

namespace Visit

/-- The body is read to its end, if there is one. -/
def Drained (v : Visit) : Prop := ∀ header, v.answer = .ok (some header) → none ∈ v.reads

/-- The lines that a call hands out: a header and the lines that are read after it, of
which none is a header and after which nothing is read any more, or a line that should
have been a header, or none. -/
inductive Hands : Visit → List Line → Prop where
  | block {line : Line} {body : List Line} (head : line.isHeader)
    (indented : ∀ other ∈ body, ¬ other.isHeader) (n : Nat) :
    Hands ⟨.ok (some (.ofLine line)), body.map some ++ List.replicate n none⟩ (line :: body)
  | misplaced {line : Line} (indented : ¬ line.isHeader) :
    Hands ⟨.error (.notHeader line.number line.text), []⟩ [line]
  | done : Hands ⟨.ok none, []⟩ []

end Visit

/-! ### Reads of a body -/

namespace Body

theorem readEach_of_finished {b : Body} (h : b.finished) (n : Nat) :
    b.readEach n = (List.replicate n none, b) := by
  induction n with
  | zero => rfl
  | succ n ih =>
    have hnext : b.next = (none, b) := by rw [next, if_pos h]
    rw [readEach, hnext, List.replicate_succ]
    simp only [ih]

/-- The reads give the lines up to the next header, and then nothing any more. -/
theorem readEach_start (n : Nat) {s : Source} (hs : s.Sound) :
    let body := (Block.cut s.remaining).1
    ∃ b, (start s).readEach n = ((body.take n).map some ++ List.replicate (n - body.length) none, b) ∧
      b.source.Sound ∧ body.take n ++ b.source.remaining = s.remaining := by
  induction n generalizing s with
  | zero => exact ⟨start s, by simp [readEach], hs, by simp [start]⟩
  | succ n ih =>
    cases hr : s.remaining with
    | nil =>
      obtain ⟨s', hnext, hs', hrest⟩ := Source.next_of_remaining_nil hs hr
      have hend : (start s).next = (none, ⟨s', true⟩) := by simp [start, next, hnext]
      refine ⟨⟨s', true⟩, ?_, hs', by simp [hrest]⟩
      rw [readEach, hend]
      simp [readEach_of_finished, List.replicate_succ]
    | cons line lines =>
      obtain ⟨s', hnext, hs', hrest, hback, hbackrest⟩ := Source.next_of_remaining_cons hs hr
      by_cases hl : line.isHeader
      · have hend : (start s).next = (none, ⟨s'.putBack, true⟩) := by simp [start, next, hnext, hl]
        refine ⟨⟨s'.putBack, true⟩, ?_, hback, by simp [Block.cut_header hl, hbackrest]⟩
        rw [readEach, hend]
        simp [readEach_of_finished, Block.cut_header hl, List.replicate_succ]
      · have hstep : (start s).next = (some line, start s') := by simp [start, next, hnext, hl]
        obtain ⟨b, hreads, hb, hbrest⟩ := ih hs'
        rw [hrest] at hreads hbrest
        refine ⟨b, ?_, hb, by simp [Block.cut_indented hl, hbrest]⟩
        rw [readEach, hstep]
        simp [hreads, Block.cut_indented hl]

end Body

/-! ### Pieces -/

namespace Block

/-- The lines before the first header, one by one, and then the blocks. -/
def pieces (lines : List Line) : List (List Line) :=
  (cut lines).1.map ([·]) ++ (cut lines).2.map Block.lines

@[simp] theorem pieces_nil : pieces [] = [] := rfl

theorem pieces_header {line : Line} (h : line.isHeader) (lines : List Line) :
    pieces (line :: lines) = (line :: (cut lines).1) :: (cut lines).2.map Block.lines := by
  rw [pieces, cut_header h]
  rfl

theorem pieces_indented {line : Line} (h : ¬ line.isHeader) (lines : List Line) :
    pieces (line :: lines) = [line] :: pieces lines := by
  rw [pieces, cut_indented h]
  rfl

/-- Behind the lines before the first header every piece is a block. -/
theorem pieces_blocks (lines : List Line) :
    pieces ((cut lines).2.flatMap Block.lines) = (cut lines).2.map Block.lines := by
  rw [pieces, cut_flatMap fun b => wellFormed_of_mem_cut]
  rfl

theorem flatten_pieces (lines : List Line) : (pieces lines).flatten = lines := by
  have hsingle : ((cut lines).1.map ([·])).flatten = (cut lines).1 := by
    rw [← List.flatMap_def, List.flatMap_singleton']
  rw [pieces, List.flatten_append, hsingle, ← List.flatMap_def, cut_flatten]

/-- A piece that is no block stands before the first header. -/
theorem indented_of_pieces {lines : List Line} {i : Nat} {line : Line}
    (h : (pieces lines)[i]? = some [line]) (hl : ¬ line.isHeader) :
    lines[i]? = some line ∧ ∀ other ∈ lines.take (i + 1), ¬ other.isHeader := by
  induction lines generalizing i with
  | nil => simp at h
  | cons first lines ih =>
    by_cases hf : first.isHeader
    · have hblocks : pieces (first :: lines) = (cut (first :: lines)).2.map Block.lines := by
        rw [pieces, cut_header hf]
        rfl
      rw [hblocks] at h
      obtain ⟨b, hb, hlines⟩ := List.mem_map.1 (List.mem_of_getElem? h)
      exact absurd ((List.cons.inj hlines).1 ▸ (wellFormed_of_mem_cut hb).1) hl
    · rw [pieces_indented hf] at h
      cases i with
      | zero =>
        obtain rfl : first = line := by simpa using h
        simpa using hl
      | succ i =>
        obtain ⟨hline, hbefore⟩ := ih h
        exact ⟨hline, by simpa [hf] using hbefore⟩

end Block

/-! ### Calls -/

namespace Visit

/-- How a visit depends on the lines that are left before and after it: the answer is a
block, a fault or nothing as the first line left is a header, indented or missing, and a
body ends only at a header or with the last line. -/
structure Answers (v : Visit) (before after : List Line) : Prop where
  header : (∃ header, v.answer = .ok (some header)) ↔ ∃ line, before.head? = some line ∧ line.isHeader
  fault : (∃ fault, v.answer = .error fault) ↔ ∃ line, before.head? = some line ∧ ¬ line.isHeader
  done : v.answer = .ok none ↔ before = []
  ended : none ∈ v.reads → ∀ line, after.head? = some line → line.isHeader

end Visit

namespace Source

open Visit

/-- A call hands out the first of the remaining lines, with as much of the body as is
read. -/
theorem hands_visit {s : Source} (hs : s.Sound) (n : Nat) :
    ∃ v s' handed, s.visit n = (v, s') ∧ s'.Sound ∧ Hands v handed ∧
      handed ++ s'.remaining = s.remaining ∧ v.Answers s.remaining s'.remaining ∧
      (v.Drained → handed = (Block.pieces s.remaining).headD [] ∧
        Block.pieces s'.remaining = (Block.pieces s.remaining).tail) := by
  cases hr : s.remaining with
  | nil =>
    obtain ⟨s', hnext, hs', hrest⟩ := nextHeader_of_remaining_nil hs hr
    refine ⟨⟨.ok none, []⟩, s', [], by simp [visit, hnext], hs', .done, hrest, ?_, fun _ => ?_⟩
    · exact ⟨by simp, by simp, by simp, by simp⟩
    · rw [hrest]
      exact ⟨rfl, rfl⟩
  | cons line lines =>
    by_cases hl : line.isHeader
    · obtain ⟨s', hnext, hs', hrest⟩ := nextHeader_of_isHeader hs hr hl
      obtain ⟨b, hreads, hb, hbrest⟩ := Body.readEach_start n hs'
      rw [hrest] at hreads hbrest
      have hbody : ∀ other ∈ (Block.cut lines).1.take n, ¬ other.isHeader :=
        fun other hm => Block.not_isHeader_of_mem_cut (List.mem_of_mem_take hm)
      -- A read that gives nothing comes after the whole body, so the next block is left.
      have hended : none ∈ ((Block.cut lines).1.take n).map some ++
          List.replicate (n - (Block.cut lines).1.length) none →
          (Block.cut lines).1.take n = (Block.cut lines).1 ∧
            b.source.remaining = (Block.cut lines).2.flatMap Block.lines := by
        intro hm
        have htake : (Block.cut lines).1.take n = (Block.cut lines).1 := by
          have hn : n - (Block.cut lines).1.length ≠ 0 := by simpa [← List.map_take] using hm
          exact List.take_of_length_le (by omega)
        rw [htake] at hbrest
        exact ⟨htake, List.append_cancel_left (hbrest.trans (Block.cut_flatten lines).symm)⟩
      refine ⟨_, b.source, _, by simp only [visit, hnext, hreads]; rfl, hb, .block hl hbody _, ?_, ?_, ?_⟩
      · rw [List.cons_append, hbrest]
      · refine ⟨by simp [hl], by simp [hl], by simp, fun hm => ?_⟩
        have hfirst : (Block.cut b.source.remaining).1 = [] := by
          rw [(hended hm).2, Block.cut_flatMap fun b => Block.wellFormed_of_mem_cut]
        exact Block.cut_fst_eq_nil_iff.1 hfirst
      · intro hdrained
        obtain ⟨htake, hleft⟩ := hended (hdrained _ rfl)
        rw [htake, hleft, Block.pieces_header hl, Block.pieces_blocks]
        exact ⟨rfl, rfl⟩
    · obtain ⟨s', hnext, hs', hrest⟩ := nextHeader_of_not_isHeader hs hr hl
      refine ⟨_, s', [line], by simp only [visit, hnext, Logged.result_fail], hs', .misplaced hl, ?_, ?_, fun _ => ?_⟩
      · rw [hrest, List.singleton_append]
      · exact ⟨by simp [hl], by simp [hl], by simp, by simp⟩
      · rw [hrest, Block.pieces_indented hl]
        exact ⟨rfl, rfl⟩

/-- The calls hand out the remaining lines in order, and every call answers to the first
line that is left. -/
theorem hands_visitEach {s : Source} (hs : s.Sound) (takes : List Nat) :
    let visits := (s.visitEach takes).1
    ∃ handed unread, handed.flatten ++ unread = s.remaining ∧ List.Forall₂ Hands visits handed ∧
      (∀ (i : Nat) (v : Visit), visits[i]? = some v →
        v.Answers ((handed.drop i).flatten ++ unread) ((handed.drop (i + 1)).flatten ++ unread)) ∧
      ((∀ v ∈ visits, v.Drained) →
        ∀ (i : Nat) lines, handed[i]? = some lines → lines = (Block.pieces s.remaining)[i]?.getD []) := by
  induction takes generalizing s with
  | nil => exact ⟨[], s.remaining, rfl, .nil, nofun, nofun⟩
  | cons n takes ih =>
    obtain ⟨v, s', first, hvisit, hs', hhands, hfirst, hanswers, hpiece⟩ := hands_visit hs n
    obtain ⟨handed, unread, hrest, hall, hanswer, hpieces⟩ := ih hs'
    rw [visitEach, hvisit]
    refine ⟨first :: handed, unread, ?_, .cons hhands hall, ?_, ?_⟩
    · rw [List.flatten_cons, List.append_assoc, hrest, hfirst]
    · rintro (_ | i) w hw
      · obtain rfl := Option.some.inj hw
        rw [← hrest] at hfirst hanswers
        rw [← hfirst] at hanswers
        simpa using hanswers
      · exact hanswer i w hw
    · intro hdrained
      obtain ⟨hv, hrestDrained⟩ := List.forall_mem_cons.1 hdrained
      obtain ⟨hhead, htail⟩ := hpiece hv
      rintro (_ | i) lines hlines
      · obtain rfl := Option.some.inj hlines
        rw [hhead, List.headD_eq_head?_getD, List.head?_eq_getElem?]
      · rw [hpieces hrestDrained i lines hlines, htail, List.getElem?_tail]

end Source

namespace Visit

/-- Whatever is read of the bodies, the calls hand out the first cleaned lines of the text,
in order and each once. A call finds a block exactly if the next unread line is a header,
fails for that line alone exactly if it is indented, and finds nothing exactly if no line
is left; a body ends only there. Where every body is read to its end, the calls hand out
the lines before the first header, one by one, and then one block after the other, and a
call fails only for a line with no header at or before it. -/
theorem hands_of_text (text : String) (takes : List Nat) :
    let lines := Line.ofText text
    let visits := ((Source.ofText text).visitEach takes).1
    ∃ handed unread, handed.flatten ++ unread = lines ∧ List.Forall₂ Hands visits handed ∧
      (∀ (i : Nat) (v : Visit), visits[i]? = some v →
        v.Answers ((handed.drop i).flatten ++ unread) ((handed.drop (i + 1)).flatten ++ unread)) ∧
      ((∀ v ∈ visits, v.Drained) →
        (∀ (i : Nat) piece, handed[i]? = some piece → piece = (Block.pieces lines)[i]?.getD []) ∧
        ∀ (i : Nat) (v : Visit) fault, visits[i]? = some v → v.answer = .error fault →
          ∃ line, lines[i]? = some line ∧ fault = .notHeader line.number line.text ∧
            ∀ other ∈ lines.take (i + 1), ¬ other.isHeader) := by
  intro lines visits
  obtain ⟨handed, unread, hlines, hall, hanswers, hpieces⟩ :=
    Source.hands_visitEach (Source.sound_ofText text) takes
  rw [Source.remaining_ofText] at hlines hpieces
  refine ⟨handed, unread, hlines, hall, hanswers, fun hdrained => ⟨hpieces hdrained, ?_⟩⟩
  intro i v fault hv hfault
  obtain ⟨hi, hget⟩ := List.getElem?_eq_some_iff.1 hv
  have hi' : i < handed.length := hall.length_eq ▸ hi
  have hhands : Hands v handed[i] := hget ▸ hall.get hi hi'
  have hpiece := hpieces hdrained i handed[i] (List.getElem?_eq_getElem hi')
  generalize handed[i] = piece at hhands hpiece
  cases hhands with
  | block head indented n => cases hfault
  | done => cases hfault
  | @misplaced line indented =>
    obtain rfl := Except.error.inj hfault
    have hsome : (Block.pieces (Line.ofText text))[i]? = some [line] := by
      cases hp : (Block.pieces (Line.ofText text))[i]? with
      | none =>
        rw [hp] at hpiece
        cases hpiece
      | some other =>
        rw [hp] at hpiece
        exact congrArg some hpiece.symm
    obtain ⟨hline, hbefore⟩ := Block.indented_of_pieces hsome indented
    exact ⟨line, hline, rfl, hbefore⟩

/-- A line before the first header, a body that is read beyond its end, and a call at the
end. -/
theorem hands_of_three_calls :
    let text := "  x\n_a:\n  b: 1\n\n"
    let pieces : List (List Line) := [[⟨1, "  x"⟩], [⟨2, "_a:"⟩, ⟨3, "  b: 1"⟩]]
    let visits := ((Source.ofText text).visitEach [0, 2, 0]).1
    visits = [⟨.error (.notHeader 1 "  x"), []⟩,
        ⟨.ok (some ⟨.constants, "a", 2⟩), [some ⟨3, "  b: 1"⟩, none]⟩, ⟨.ok none, []⟩] ∧
      ∃ handed unread, handed.flatten ++ unread = pieces.flatten ∧ List.Forall₂ Hands visits handed ∧
        ∀ (i : Nat) piece, handed[i]? = some piece → piece = pieces[i]?.getD [] := by
  intro text pieces visits
  have hvisits : visits = [⟨.error (.notHeader 1 "  x"), []⟩,
      ⟨.ok (some ⟨.constants, "a", 2⟩), [some ⟨3, "  b: 1"⟩, none]⟩, ⟨.ok none, []⟩] := by decide +kernel
  have hpieces : Block.pieces (Line.ofText text) = pieces := by decide +kernel
  obtain ⟨handed, unread, hlines, hall, -, hdrained⟩ := hands_of_text text [0, 2, 0]
  have hread : ∀ v ∈ visits, v.Drained := by
    rw [hvisits]
    simp [Drained]
  have hpiece := (hdrained hread).1
  rw [hpieces] at hpiece
  refine ⟨hvisits, handed, unread, ?_, hall, hpiece⟩
  rw [hlines, ← hpieces, Block.flatten_pieces]

/-- Two indented lines at the start are two faults, although no body is left unread. -/
theorem not_only_first_line_misplaced :
    ¬ ∀ (text : String) (takes : List Nat),
      let visits := ((Source.ofText text).visitEach takes).1
      (∀ v ∈ visits, v.Drained) → ∀ v ∈ visits, ∀ fault, v.answer = .error fault →
        ∃ line, (Line.ofText text).head? = some line ∧ fault = .notHeader line.number line.text := by
  intro h
  have hvisits : ((Source.ofText "  a: 1\n  b: 2\n").visitEach [0, 0]).1 =
      [⟨.error (.notHeader 1 "  a: 1"), []⟩, ⟨.error (.notHeader 2 "  b: 2"), []⟩] := by decide +kernel
  have hfirst : (Line.ofText "  a: 1\n  b: 2\n").head? = some ⟨1, "  a: 1"⟩ := by decide +kernel
  have hclaim := h "  a: 1\n  b: 2\n" [0, 0]
  rw [hvisits, hfirst] at hclaim
  obtain ⟨line, hline, hfault⟩ :=
    hclaim (by simp [Drained]) _ (List.mem_cons_of_mem _ List.mem_cons_self) _ rfl
  obtain rfl := Option.some.inj hline
  cases hfault

end Visit

end Codesheet
