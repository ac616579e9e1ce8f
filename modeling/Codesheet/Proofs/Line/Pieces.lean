import Codesheet.Proofs.Line.Cleaned

/-! Cleaned lines from the pieces of a text between its line feeds. Carriage returns and the blanks
at the ends play no part, and neither does the line feed at the end of the text, so a change of
the text is a change of its pieces. -/

namespace Codesheet

/-! ### Pieces -/

namespace Text

variable {sep : Char}

theorem split_eq_takeWhile_cons (sep : Char) (cs : List Char) :
    ∃ rest, split sep cs = cs.takeWhile (· ≠ sep) :: rest := by
  induction cs with
  | nil => exact ⟨[], rfl⟩
  | cons c cs ih =>
    by_cases h : c = sep
    · exact ⟨split sep cs, by simp [split_cons, h]⟩
    · obtain ⟨rest, hrest⟩ := ih
      exact ⟨rest, by simp [split_cons, h, hrest, extend]⟩

/-- What comes after a text is put at the end of its last piece. -/
theorem exists_split_append (sep : Char) (as : List Char) :
    ∃ first last, ∀ bs next rest, split sep bs = next :: rest →
      split sep (as ++ bs) = first ++ (last ++ next) :: rest := by
  induction as with
  | nil => exact ⟨[], [], fun _ _ _ h => h⟩
  | cons a as ih =>
    obtain ⟨first, last, hsplit⟩ := ih
    by_cases ha : a = sep
    · refine ⟨[] :: first, last, fun bs next rest h => ?_⟩
      simp [split_cons, ha, hsplit bs next rest h]
    · cases first with
      | nil =>
        refine ⟨[], a :: last, fun bs next rest h => ?_⟩
        simp [split_cons, ha, hsplit bs next rest h, extend]
      | cons piece first =>
        refine ⟨(a :: piece) :: first, last, fun bs next rest h => ?_⟩
        simp [split_cons, ha, hsplit bs next rest h, extend]

theorem split_append_of_not_mem {as bs next : List Char} {rest : List (List Char)} (h : sep ∉ as)
    (hsplit : split sep bs = next :: rest) : split sep (as ++ bs) = (as ++ next) :: rest := by
  induction as with
  | nil => exact hsplit
  | cons a as ih =>
    rw [List.mem_cons, not_or] at h
    rw [List.cons_append, split_cons, if_neg (Ne.symm h.1), ih h.2]
    rfl

/-- A text that is empty or ends with a separator has its pieces in front of those of what comes
after it. -/
theorem exists_split_of_boundary {as : List Char} (h : as = [] ∨ as.getLast? = some sep) :
    ∃ first, first.length = as.count sep ∧ ∀ bs, split sep (as ++ bs) = first ++ split sep bs := by
  rcases h with rfl | h
  · exact ⟨[], rfl, fun bs => rfl⟩
  · obtain ⟨line, rfl⟩ := List.getLast?_eq_some_iff.1 h
    refine ⟨split sep line, ?_, fun bs => ?_⟩
    · rw [length_split, List.count_append, List.count_singleton_self]
    · rw [List.append_assoc, List.singleton_append, split_append_cons]

theorem not_mem_of_mem_split {cs piece : List Char} (h : piece ∈ split sep cs) : sep ∉ piece := by
  induction cs generalizing piece with
  | nil =>
    obtain rfl := List.mem_singleton.1 h
    exact List.not_mem_nil
  | cons c cs ih =>
    obtain ⟨first, rest, hs⟩ := List.exists_cons_of_ne_nil (split_ne_nil sep cs)
    rw [split_cons] at h
    split_ifs at h with hc
    · rcases List.mem_cons.1 h with rfl | h
      · exact List.not_mem_nil
      · exact ih h
    · rw [hs] at h ih
      rcases List.mem_cons.1 h with rfl | h
      · simpa [Ne.symm hc] using ih List.mem_cons_self
      · exact ih (List.mem_cons_of_mem first h)

/-- Cutting undoes joining pieces without separators. -/
theorem split_intercalate {pieces : List (List Char)} (hne : pieces ≠ [])
    (h : ∀ piece ∈ pieces, sep ∉ piece) : split sep ([sep].intercalate pieces) = pieces := by
  induction pieces with
  | nil => exact absurd rfl hne
  | cons piece pieces ih =>
    obtain ⟨hpiece, hrest⟩ := List.forall_mem_cons.1 h
    cases pieces with
    | nil => rw [List.intercalate_singleton, split_of_not_mem hpiece]
    | cons next pieces =>
      rw [List.intercalate_cons_cons, List.append_assoc, List.singleton_append, split_append_cons,
        split_of_not_mem hpiece, ih (List.cons_ne_nil next pieces) hrest, List.singleton_append]

/-- Joining undoes cutting. -/
theorem intercalate_split (sep : Char) (cs : List Char) : [sep].intercalate (split sep cs) = cs := by
  induction cs with
  | nil => exact List.intercalate_singleton
  | cons c cs ih =>
    obtain ⟨piece, pieces, hs⟩ := List.exists_cons_of_ne_nil (split_ne_nil sep cs)
    rw [hs] at ih
    rw [split_cons, hs]
    split_ifs with hc
    · rw [List.intercalate_cons_cons, ih, hc]
      rfl
    · cases pieces with
      | nil => simpa [extend] using ih
      | cons next pieces => simpa [extend, List.intercalate_cons_cons] using ih

theorem trimEnd_withoutReturn (raw : List Char) : trimEnd (withoutReturn raw) = trimEnd raw := by
  unfold withoutReturn
  split_ifs with h
  · obtain ⟨line, rfl⟩ := List.getLast?_eq_some_iff.1 h
    rw [List.dropLast_concat]
    exact (trimEnd_append_blank line ['\r'] (List.forall_mem_singleton.2 rfl)).symm
  · rfl

end Text

/-! ### Lines of pieces -/

namespace Line

theorem clean?_congr {raw raw' : List Char} (h : Text.trimEnd raw = Text.trimEnd raw') (number : Nat) :
    clean? number raw = clean? number raw' := by
  simp only [clean?, h]

theorem clean?_of_blank {raw : List Char} (h : ∀ c ∈ raw, Text.isBlank c) (number : Nat) :
    clean? number raw = none := by
  have hnil : Text.trimEnd raw = [] := (Text.trimEnd_eq_nil_iff raw).2 h
  simp [clean?, hnil, Text.trimStart]

theorem cleaned_cons_of_none {number : Nat} {raw : List Char} (h : clean? (number + 1) raw = none)
    (raws : List (List Char)) : cleaned number (raw :: raws) = cleaned (number + 1) raws := by
  rw [cleaned_cons, h, Option.toList_none, List.nil_append]

theorem cleaned_concat_of_none {number : Nat} {raws : List (List Char)} {raw : List Char}
    (h : clean? (number + raws.length + 1) raw = none) :
    cleaned number (raws ++ [raw]) = cleaned number raws := by
  rw [cleaned_append, cleaned_cons_of_none h, cleaned_nil, List.append_nil]

theorem cleaned_ended (number : Nat) (pieces : List (List Char)) :
    cleaned number (Text.ended pieces) = cleaned number pieces := by
  induction pieces generalizing number with
  | nil => rfl
  | cons piece pieces ih =>
    cases pieces with
    | nil =>
      rw [Text.ended]
      split_ifs with h
      · obtain rfl := List.isEmpty_iff.1 h
        rfl
      · rfl
    | cons next pieces =>
      rw [Text.ended, cleaned_cons, cleaned_cons, ih,
        clean?_congr (Text.trimEnd_withoutReturn piece)]
      exact List.cons_ne_nil next pieces

theorem ofText_eq_cleaned_split (text : String) :
    ofText text = cleaned 0 (Text.split '\n' text.toList) :=
  cleaned_ended 0 _

/-- The numbers of cleaned lines are those of their raw lines. -/
theorem number_of_mem_cleaned {number : Nat} {raws : List (List Char)} {line : Line}
    (h : line ∈ cleaned number raws) : number < line.number ∧ line.number ≤ number + raws.length := by
  have hm := (numbers_cleaned_sublist number raws).subset (List.mem_map_of_mem h)
  rw [List.mem_range'_1] at hm
  omega

/-! ### Other numbers -/

/-- The line with another number. -/
def renumber (f : Nat → Nat) (line : Line) : Line := { line with number := f line.number }

theorem map_renumber_of_eq {f : Nat → Nat} {lines : List Line}
    (h : ∀ line ∈ lines, f line.number = line.number) : lines.map (renumber f) = lines := by
  have hid : ∀ line ∈ lines, renumber f line = line := by
    intro line hm
    rw [renumber, h line hm]
  rw [List.map_congr_left hid, List.map_id']

theorem map_renumber_congr {f f' : Nat → Nat} {lines : List Line}
    (h : ∀ line ∈ lines, f line.number = f' line.number) :
    lines.map (renumber f) = lines.map (renumber f') := by
  apply List.map_congr_left
  intro line hm
  rw [renumber, renumber, h line hm]

theorem clean?_renumber (number : Nat) (f : Nat → Nat) (raw : List Char) :
    clean? (f number) raw = (clean? number raw).map (renumber f) := by
  rw [clean?_eq, clean?_eq]
  split_ifs <;> rfl

theorem cleaned_add (number k : Nat) (raws : List (List Char)) :
    cleaned (number + k) raws = (cleaned number raws).map (renumber (· + k)) := by
  induction raws generalizing number with
  | nil => rfl
  | cons raw raws ih =>
    have hclean := clean?_renumber (number + 1) (· + k) raw
    have hrest := ih (number + 1)
    rw [Nat.add_right_comm] at hrest
    rw [cleaned_cons, cleaned_cons, List.map_append, hrest, Nat.add_right_comm, hclean]
    cases clean? (number + 1) raw <;> rfl

/-- The lines of two texts with a line feed between them. -/
theorem ofText_append (first second : String) :
    ofText (first ++ "\n" ++ second) =
      ofText first ++ (ofText second).map (renumber (· + (first.toList.count '\n' + 1))) := by
  have hlist : (first ++ "\n" ++ second).toList = first.toList ++ '\n' :: second.toList := by
    rw [String.toList_append, String.toList_append, List.append_assoc]
    rfl
  rw [ofText_eq_cleaned_split, ofText_eq_cleaned_split, ofText_eq_cleaned_split, hlist,
    Text.split_append_cons, cleaned_append, Text.length_split, cleaned_add]

end Line

end Codesheet
