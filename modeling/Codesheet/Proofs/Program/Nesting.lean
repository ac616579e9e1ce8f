import Codesheet.Proofs.Constants.Scopes
import Codesheet.Proofs.Program.Partition

/-! The nodes of the blocks of constants that a parse accepts. Whatever is done with
jumps, each is attached to the root of its block or to the node of a line that encloses
its own by indentation. -/

namespace Codesheet.Program

variable {g : Grammar} {jumps : JumpPolicy}

/-- A parse of a text gets to a block of constants with some builder, which accepts all
lines of its body. What follows the block may be refused. -/
structure AcceptedConstants (g : Grammar) (jumps : JumpPolicy) (text : String) (b : Block)
    (opened : Builder) : Prop where
  kind : b.header.kind = .constants
  reached : ∃ before after p, Block.cut (Line.ofText text) = ([], before ++ b :: after) ∧
    (addAll g jumps .empty before).result = .ok p ∧ opened = .start g jumps p.constants b.header.name
  fed : ∃ built, Builder.Feeds opened b.body built

/-- Blocks are added one after the other. -/
theorem addAll_append_cons {before after : List Block} {b : Block} {p q : Program}
    (h : (addAll g jumps p (before ++ b :: after)).result = .ok q) :
    ∃ p₁ p₂, (addAll g jumps p before).result = .ok p₁ ∧
      (addBlock g jumps p₁ b.header b.body).result = .ok p₂ := by
  rw [addAll, List.foldlM_append, Logged.result_bind_eq_ok] at h
  obtain ⟨p₁, hbefore, h⟩ := h
  rw [List.foldlM_cons, Logged.result_bind_eq_ok] at h
  obtain ⟨p₂, hblock, -⟩ := h
  obtain ⟨_, -, hadd⟩ := Logged.result_bind_eq_ok.1 hblock
  exact ⟨p₁, p₂, hbefore, hadd⟩

/-- A text that is a program has no line before its first header. -/
theorem cut_of_read {text : String} {p : Program} (h : (read g jumps text).result = .ok p) :
    (Block.cut (Line.ofText text)).1 = [] := by
  rw [Block.cut_fst_eq_nil_iff]
  intro line hline
  by_contra hl
  rw [read_of_indented g jumps hline hl] at h
  cases h

/-- In a program every block of constants is accepted. -/
theorem exists_acceptedConstants {text : String} {p : Program} (h : (read g jumps text).result = .ok p)
    {b : Block} (hb : b ∈ (Block.cut (Line.ofText text)).2) (hk : b.header.kind = .constants) :
    ∃ opened, AcceptedConstants g jumps text b opened := by
  have hc := cut_of_read h
  obtain ⟨before, after, hblocks⟩ := List.append_of_mem hb
  rw [read_of_header g jumps hc, Logged.result_bind_eq_ok] at h
  obtain ⟨q, hall, -⟩ := h
  rw [hblocks] at hall
  obtain ⟨p₁, p₂, hbefore, hadd⟩ := addAll_append_cons hall
  obtain ⟨built, hfed, -⟩ := (addBlock_constants hk).1 hadd
  exact ⟨_, hk, ⟨before, after, p₁, Prod.ext hc hblocks, hbefore, rfl⟩, built, hfed⟩

theorem AcceptedConstants.takes {text : String} {b : Block} {opened : Builder}
    (h : AcceptedConstants g jumps text b opened) {earlier later : List Builder.Addition}
    {a : Builder.Addition} (hsplit : opened.additions b.body = earlier ++ a :: later) :
    ∃ c, c.root = opened.root ∧ Builder.Scoped earlier c ∧ c.Takes a := by
  obtain ⟨-, ⟨before, after, p, hcut, -, rfl⟩, built, hfed⟩ := h
  have hb : b ∈ (Block.cut (Line.ofText text)).2 := by simp [hcut]
  exact (Builder.scoped_start g jumps p.constants b.header.name).takes_of_feeds
    (Block.wellFormed_of_mem_cut hb).2 hfed hsplit

/-- In every block of constants that a parse accepts, a node is attached below the root of
the block or below nodes of earlier lines with smaller levels, after which all lines are
more indented and no line has taken the place of the node. So it is at most as deep as
its level, and a line that is closed has no node on the way to it. -/
theorem nested_of_parse (options : ParseOptions) (valid : 0 < options.indentUnit) (text : String) :
    let g : Grammar := ⟨options.indentUnit, valid⟩
    let accepted := AcceptedConstants g options.indentJumps text
    (∀ p, (parse options text).result = .ok p → ∀ b ∈ (Block.cut (Line.ofText text)).2,
      b.header.kind = .constants → ∃ opened, accepted b opened) ∧
    ∀ (b : Block) (opened : Builder), accepted b opened →
      (opened.additions b.body).map (·.constant) = b.body.filterMap (Builder.nodeLine? g) ∧
      ∀ earlier a later, opened.additions b.body = earlier ++ a :: later →
        ∃ parent place, a.built.root = opened.root ∧ a.built.last = parent ++ [place] ∧
          a.built.nodeAt a.built.last = .ok (.leaf a.constant.name a.constant.value) ∧
          (∀ outer, outer <+: parent → outer = [] ∨
            ∃ p, Builder.Stands earlier a.built outer p ∧ p.constant.level < a.constant.level) ∧
          1 ≤ a.built.last.length ∧ a.built.last.length ≤ a.constant.level ∧
          (a.constant.level = 1 → parent = []) ∧
          ∀ before p after, earlier = before ++ p :: after → p.built.last <+: parent →
            (∀ q ∈ after, q.built.last ≠ p.built.last) →
            p.constant.level < a.constant.level ∧ ∀ q ∈ after, p.constant.level < q.constant.level := by
  intro g accepted
  refine ⟨fun p hp b hb hk => ?_, fun b opened h => ⟨?_, fun earlier a later hsplit => ?_⟩⟩
  · rw [parse_of_valid valid] at hp
    exact exists_acceptedConstants hp hb hk
  · have hgrammar : opened.grammar = g := by
      obtain ⟨_, _, _, -, -, rfl⟩ := h.reached
      rfl
    rw [Builder.map_constant_additions, hgrammar]
  · obtain ⟨c, hroot, hscoped, htakes⟩ := h.takes hsplit
    have hattached := htakes.attached hscoped.sound
    obtain ⟨place, hlast⟩ := hattached.exists_place
    have hdepth := hscoped.depth htakes
    have hlength : a.built.last.length = a.built.parent.length + 1 := by
      rw [hlast, List.length_append, List.length_singleton]
    refine ⟨a.built.parent, place, ?_, hlast, htakes.nodeAt_last hscoped.sound,
      fun outer => hscoped.stands_parent htakes, by omega, by omega, fun hlevel => ?_, ?_⟩
    · rw [htakes.built, (Builder.fixed_add a.constant c).2.2, hroot]
    · exact List.length_eq_zero_iff.1 (by omega)
    · intro before p after hearlier hpath hkept
      -- The line on the way has a place of its own, so it is not the root.
      have hp : p.built.last ≠ [] := by
        rw [hearlier, List.append_assoc] at hsplit
        obtain ⟨c', -, hscoped', htakes'⟩ := h.takes hsplit
        obtain ⟨place', hplace'⟩ := (htakes'.attached hscoped'.sound).exists_place
        rw [hplace']
        simp
      exact hscoped.encloses htakes hearlier hpath hp hkept

/-- Levels 1, 3 and 2, before a line that is refused. The fall from 3 to 2 closes the node
of level 1 although its scope is still open. -/
theorem nested_of_jump_and_fall :
    let text := "_r:\n  a: 1\n      b: 2\n    c: 3\n#t:\n  ?\n"
    let b : Block := ⟨⟨1, "_r:"⟩, [⟨2, "  a: 1"⟩, ⟨3, "      b: 2"⟩, ⟨4, "    c: 3"⟩]⟩
    let opened := Builder.start .standard .collapse .empty "r"
    (parse ⟨2, .collapse⟩ text).result = .error (.grammar 6 3 .entryName "  ?") ∧
      AcceptedConstants .standard .collapse text b opened ∧
      ∃ first second third, opened.additions b.body = [first, second, third] ∧
        [first, second, third].map (·.built.last) = [[0], [0, 0], [1]] ∧
        ∃ p, Builder.Stands [first] second.built [0] p ∧ p.constant.level < second.constant.level := by
  intro text b opened
  have hlines : Line.ofText text = [⟨1, "_r:"⟩, ⟨2, "  a: 1"⟩, ⟨3, "      b: 2"⟩, ⟨4, "    c: 3"⟩,
      ⟨5, "#t:"⟩, ⟨6, "  ?"⟩] := by decide +kernel
  have hcut : Block.cut (Line.ofText text) = ([], [b, ⟨⟨5, "#t:"⟩, [⟨6, "  ?"⟩]⟩]) := by
    rw [hlines]
    rfl
  have hname : b.header.name = "r" := by decide +kernel
  have haccepted : AcceptedConstants .standard .collapse text b opened := by
    refine ⟨by decide +kernel, ⟨[], _, .empty, hcut, rfl, ?_⟩, _,
      Builder.feedAll_iff_feeds.1 ⟨by decide +kernel, rfl⟩⟩
    rw [hname]
    rfl
  have hlast : (opened.additions b.body).map (·.built.last) = [[0], [0, 0], [1]] := by decide +kernel
  have hlength : (opened.additions b.body).length = 3 := by
    simpa using congrArg List.length hlast
  obtain ⟨first, second, third, hadditions⟩ := List.length_eq_three.1 hlength
  obtain ⟨-, hnested⟩ := nested_of_parse ⟨2, .collapse⟩ (by decide) text
  obtain ⟨parent, place, -, hplace, -, hscopes, -⟩ :=
    (hnested b opened haccepted).2 [first] second [third] hadditions
  rw [hadditions] at hlast
  refine ⟨by decide +kernel, haccepted, first, second, third, hadditions, hlast, ?_⟩
  have hsecond : second.built.last = [0] ++ [0] := by simpa using (List.cons.inj (List.cons.inj hlast).2).1
  obtain rfl : parent = [0] := (List.append_inj' (hplace.symm.trans hsecond) rfl).1
  exact (hscopes [0] List.prefix_rfl).resolve_left (by simp)

end Codesheet.Program
