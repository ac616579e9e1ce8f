import Codesheet.Proofs.Interchange.ReadBack
import Codesheet.Proofs.Program.Depth

/-! Programs handed on as text. The text of a parsed program is read back as that program as long
as its constants do not nest too deeply: the writer has no bound on their depth, and the reader
has one. -/

namespace Codesheet.Program

variable {g : Grammar} {jumps : JumpPolicy}

/-- The numbers of a program come from its text, so they are words if the text's length is one. -/
theorem counted_of_read {text : String} {p : Program} (h : (read g jumps text).result = .ok p)
    (hlen : text.length < UInt64.size) : p.Counted := by
  have hc := cut_of_read h
  have hadds := (read_eq_ok_iff g jumps hc).1 h
  constructor
  · intro e hm
    obtain ⟨line, hline, hnumber, -⟩ := exists_of_forall₂_right hadds.table hm
    have := (Line.le_of_mem_ofText ((linesOf_sublist_ofText .table hc).subset hline)).1
    omega
  · intro i hm
    obtain ⟨place, hplace, hnumber, -, -, hshape⟩ := exists_of_forall₂_right hadds.instructions hm
    have hline := (unlabelled_sublist_linesOf _).subset (List.mem_map_of_mem hplace)
    obtain ⟨hnumber', hlength⟩ := Line.le_of_mem_ofText ((linesOf_sublist_ofText .code hc).subset hline)
    have hlevel := Grammar.level?_le (Grammar.instructionLine_eq_ok hshape).1
    have hleading := Grammar.leading_le place.2.text
    dsimp only at hlevel
    exact ⟨by omega, by omega⟩

/-- The text of a parsed program is read back as that program, unless a node is more than 61
levels below its root, or more than 60 with a bit field. Then it is refused. -/
theorem ofText?_toText_of_parse {options : ParseOptions} {text : String} {p : Program}
    (parsed : (parse options text).result = .ok p) (hlen : text.length < UInt64.size) :
    ((∀ root ∈ p.constants.roots, ∀ path node, root.at? path = some node →
        path.length ≤ 61 ∧ (node.bitFields ≠ [] → path.length ≤ 60)) →
      ofText? p.toText = .ok p) ∧
    ((∃ root ∈ p.constants.roots, ∃ path node, root.at? path = some node ∧
        (61 < path.length ∨ node.bitFields ≠ [] ∧ 60 < path.length)) →
      ofText? p.toText = .error .malformed) := by
  obtain ⟨g, -, hread⟩ := Logged.result_bind_eq_ok.1 parsed
  obtain ⟨hok, hfault⟩ := ofText?_toText (counted_of_read hread hlen)
  constructor
  · intro hshallow
    refine hok fun root hm path node hnode => ?_
    obtain ⟨hpath, hfields⟩ := hshallow root hm path node hnode
    exact ⟨by omega, fun hne => by have := hfields hne; omega⟩
  · rintro ⟨root, hm, path, node, hnode, hdeep⟩
    refine hfault fun hwithin => ?_
    obtain ⟨hpath, hfields⟩ := hwithin root hm path node hnode
    rcases hdeep with hdeep | ⟨hne, hdeep⟩
    · omega
    · have := hfields hne
      omega

theorem ofText?_toText_of_three_blocks :
    let text := "_r:\n  a: 1\n    .b: 2\n#t:\n  x:@y - 3\nmain:\n  y:\n  NOP\n"
    let p : Program := ⟨⟨[⟨"r", 0, [⟨"a", 1, [], [⟨"b", 2⟩]⟩], []⟩]⟩,
      [⟨"x", ⟨.address "y", [(.minus, .literal 3)]⟩, 5⟩], [⟨some "y", "NOP", [], 1, 8⟩]⟩
    (parse ⟨2, .collapse⟩ text).result = .ok p ∧ ofText? p.toText = .ok p := by
  intro text p
  have parsed : (parse ⟨2, .collapse⟩ text).result = .ok p := by decide +kernel
  refine ⟨parsed, (ofText?_toText_of_parse parsed (by decide)).1 ?_⟩
  intro root hm path node hnode
  obtain rfl := List.mem_singleton.1 hm
  have hpath : path.length ≤ 1 := by
    rcases path with _ | ⟨i, _ | ⟨j, path⟩⟩
    · exact Nat.zero_le 1
    · exact Nat.le_refl 1
    · cases i <;> simp [Node.at?_cons] at hnode
  exact ⟨by omega, fun _ => by omega⟩

/-- The writer goes as deep as the constants do, and the reader does not. -/
theorem not_read_back_of_chain :
    ∃ p, (parse {} (chainText .standard 62)).result = .ok p ∧
      ofText? p.toText = .error .malformed := by
  obtain ⟨forest, hread, root, hm, path, node, hnode, hdepth⟩ :=
    exists_forest_of_chain .standard .collapse 62
  refine ⟨⟨forest, [], []⟩, ?_, ?_⟩
  · rw [parse_of_valid (by decide)]
    exact hread
  · refine (ofText?_toText ⟨List.forall_mem_nil _, List.forall_mem_nil _⟩).2 fun hwithin => ?_
    have := (hwithin root hm path node hnode).1
    omega

end Codesheet.Program
