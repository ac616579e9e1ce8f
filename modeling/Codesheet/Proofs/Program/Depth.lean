import Codesheet.Proofs.Program.Nesting

/-! Constants of any depth. Lines that go one level deeper each are all accepted, and each
node is below the one before it, so that a parse has no bound on the depth of a tree. -/

namespace Codesheet

/-- A line with a constant at some level. -/
def Grammar.constantAt (g : Grammar) (level : Nat) : List Char :=
  g.indented level ['a', ':', ' ', '0']

/-- The indent decides about the level, and about nothing else. -/
theorem Grammar.constantLine_constantAt (g : Grammar) (level : Nat) :
    g.constantLine (String.ofList (g.constantAt level)) = .ok ⟨level, "a", 0⟩ := by
  have hrest : ['a', ':', ' ', '0'].head? ≠ some ' ' := by decide
  rw [constantLine, read, Cursor.start, String.toList_ofList, EStateM.run, constantAt,
    Scan.bind_of_ok (g.indent_indented level hrest)]
  rfl

theorem Grammar.head?_constantAt (g : Grammar) (level : Nat) :
    (g.constantAt (level + 1)).head? = some ' ' := by
  rw [constantAt, indented, List.head?_append, List.head?_replicate,
    if_neg (Nat.mul_pos level.succ_pos g.unit_pos).ne', Option.some_or]

theorem Grammar.isClean_constantAt (g : Grammar) (level : Nat) : Line.IsClean (g.constantAt level) := by
  have hend : g.constantAt level = g.indented level ['a', ':', ' '] ++ ['0'] := by
    rw [constantAt, indented, indented, List.append_assoc]
    rfl
  refine ⟨?_, ?_, ?_, ?_⟩
  · simp [constantAt, indented]
  · rw [Text.withoutReturn, hend, List.getLast?_concat, if_neg (by decide)]
  · have hblank : Text.isBlank ' ' := by decide
    have hspaces : (List.replicate (level * g.unit) ' ').find? (fun c => !Text.isBlank c) = none := by
      simp [hblank]
    rw [Line.isKept, constantAt, indented, List.find?_append, hspaces]
    decide
  · rw [hend, List.rdropWhile_concat_neg _ _ _ (by decide)]

namespace Builder

variable {b : Builder}

/-- Lines that go one level deeper each are all accepted, each node below the one before it. -/
theorem feeds_of_descending (hb : b.Sound) (lines : List Line)
    (h : ∀ i line, lines[i]? = some line →
      ∃ constant, nodeLine? b.grammar line = some constant ∧ constant.level = b.level + i + 1) :
    ∃ built, Feeds b lines built ∧ built.Sound ∧
      built.last.length = b.last.length + lines.length := by
  induction lines generalizing b with
  | nil => exact ⟨b, .nil b, hb, rfl⟩
  | cons line lines ih =>
    obtain ⟨constant, hline, hlevel⟩ := h 0 line rfl
    obtain ⟨hconstant, hbit⟩ := nodeLine?_eq_some.1 hline
    have hc : b.refusal? constant.level = none := by
      rw [refusal?, if_neg (by omega), if_neg (by omega)]
    obtain ⟨hok, hattached⟩ := hb.add_of_not_refused hbit hc
    have hfed : feed line b = ((add constant b).1, (add constant b).2.atLine line.number) :=
      feed_of_ok hconstant
    have haccepted : (feed line b).2.result = .ok () := by
      rw [hfed]
      exact Logged.result_atLine_eq_ok.2 hok
    have hparent : (add constant b).1.parent = b.last := by
      have hparents := hattached.parents
      rw [parentsAt, if_pos (by omega)] at hparents
      exact (List.cons.inj hparents).1
    obtain ⟨hgrammar, -, -⟩ := fixed_add constant b
    obtain ⟨built, hfeeds, hbuilt, hlength⟩ := ih (hb.sound_add constant) fun i other hi => by
      obtain ⟨next, hnext, hnextlevel⟩ := h (i + 1) other hi
      refine ⟨next, by rwa [hgrammar], ?_⟩
      have := hattached.level
      omega
    obtain ⟨_, _, _, -, -, -, -, hlast⟩ := hattached.edit
    rw [hlast, hparent, List.length_append, List.length_singleton] at hlength
    refine ⟨built, .cons haccepted (by rw [hfed]; exact hfeeds), hbuilt, ?_⟩
    rw [hlength, List.length_cons]
    omega

end Builder

namespace Program

variable {g : Grammar} {jumps : JumpPolicy}

/-- A text that is one block of constants is read if its lines are all accepted. -/
theorem read_of_feeds {text name : String} {head : Line} {body : List Line} {built : Builder}
    (hlines : Line.ofText text = head :: body) (hhead : head.isHeader)
    (hbody : ∀ line ∈ body, ¬ line.isHeader)
    (hheader : Header.ofLine head = ⟨.constants, name, head.number⟩)
    (hfed : Builder.Feeds (.start g jumps .empty name) body built) :
    (read g jumps text).result = .ok ⟨built.forest, [], []⟩ := by
  have hcut : Block.cut (Line.ofText text) = ([], [⟨head, body⟩]) := by
    rw [hlines, Block.cut_header hhead, ← List.append_nil body, Block.cut_append hbody,
      Block.cut_nil]
  have hkind : Block.header ⟨head, body⟩ = ⟨.constants, name, head.number⟩ := hheader
  rw [read_eq_ok_iff _ _ (by rw [hcut]), hcut]
  have hconstants : ofKind .constants [⟨head, body⟩] = [⟨head, body⟩] := by simp [ofKind, hkind]
  have htable : ofKind .table [⟨head, body⟩] = [] := by simp [ofKind, hkind]
  have hcode : ofKind .code [⟨head, body⟩] = [] := by simp [ofKind, hkind]
  refine ⟨?_, ?_, ?_, ?_⟩
  · rw [hconstants]
    exact .cons (by rw [hkind]; exact hfed) (.nil _)
  · rw [linesOf, htable]
    exact .nil
  · rw [linesOf, hcode]
    exact List.forall_mem_nil _
  · rw [hcode]
    exact .nil

/-! ### A chain -/

/-- Lines of constants that are each a level deeper than the one before them. -/
def chain (g : Grammar) (depth : Nat) : List (List Char) :=
  (List.range depth).map fun i => g.constantAt (i + 1)

def chainText (g : Grammar) (depth : Nat) : String :=
  String.ofList ((['_', 'r', ':'] :: chain g depth).flatMap (· ++ ['\n']))

/-- The lines of a chain, which start after the header. -/
def chainLines (g : Grammar) (depth : Nat) : List Line :=
  ((chain g depth).zipIdx 2).map fun (raw, number) => ⟨number, String.ofList raw⟩

theorem length_chainLines (g : Grammar) (depth : Nat) : (chainLines g depth).length = depth := by
  simp [chainLines, chain]

theorem text_chainLines {depth i : Nat} {line : Line} (h : (chainLines g depth)[i]? = some line) :
    line.text = String.ofList (g.constantAt (i + 1)) := by
  have hi : i < depth := length_chainLines g depth ▸ (List.getElem?_eq_some_iff.1 h).1
  rw [chainLines, chain, List.getElem?_map, List.getElem?_zipIdx, List.getElem?_map,
    List.getElem?_range hi] at h
  exact congrArg Line.text (Option.some.inj h).symm

theorem ofText_chainText (g : Grammar) (depth : Nat) :
    Line.ofText (chainText g depth) = ⟨1, "_r:"⟩ :: chainLines g depth := by
  have hclean : ∀ raw ∈ ['_', 'r', ':'] :: chain g depth, Line.IsClean raw := by
    rw [List.forall_mem_cons]
    refine ⟨⟨by decide, by decide, by decide, by decide⟩, fun raw hm => ?_⟩
    obtain ⟨i, -, rfl⟩ := List.mem_map.1 hm
    exact g.isClean_constantAt (i + 1)
  rw [chainText, Line.ofText_of_isClean hclean]
  rfl

/-- However deep a chain is, it is read, and its last constant is that deep. -/
theorem exists_forest_of_chain (g : Grammar) (jumps : JumpPolicy) (depth : Nat) :
    ∃ forest, (read g jumps (chainText g depth)).result = .ok ⟨forest, [], []⟩ ∧
      ∃ root ∈ forest.roots, ∃ path node, root.at? path = some node ∧ path.length = depth := by
  have hindented : ∀ line ∈ chainLines g depth, ¬ line.isHeader := by
    intro line hm
    obtain ⟨i, hi⟩ := List.getElem?_of_mem hm
    rw [Line.isHeader, text_chainLines hi, String.toList_ofList, g.head?_constantAt]
    decide
  obtain ⟨built, hfed, hbuilt, hlast⟩ :=
    Builder.feeds_of_descending (Builder.sound_start g jumps .empty "r") (chainLines g depth)
      fun i line hi => by
        have hconstant := text_chainLines hi ▸ g.constantLine_constantAt (i + 1)
        have hnode : (⟨i + 1, "a", 0⟩ : ConstantLine).bitField? = none := by
          simp [ConstantLine.bitField?]
        exact ⟨_, Builder.nodeLine?_eq_some.2 ⟨hconstant, hnode⟩, (Nat.zero_add (i + 1)).symm⟩
  have hread := read_of_feeds (ofText_chainText g depth) (by decide) hindented (by decide) hfed
  refine ⟨built.forest, hread, ?_⟩
  obtain ⟨tree, htree, hdenote⟩ := hbuilt.denote
  obtain ⟨node, hnode⟩ := Option.isSome_iff_exists.1 (hdenote built.last List.mem_cons_self)
  refine ⟨tree, List.mem_of_getElem? htree, built.last, node, hnode, ?_⟩
  rw [hlast, length_chainLines]
  exact Nat.zero_add depth

end Program

end Codesheet
