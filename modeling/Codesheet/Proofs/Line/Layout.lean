import Codesheet.Proofs.Line.Pieces

/-! Changes of the layout of a text: lines that are skipped, blanks at the ends of lines, and
carriage returns. They give its cleaned lines new numbers and change nothing else about them. -/

namespace Codesheet

open Line

/-- A raw line of blanks alone, or with a comment mark as its first character that is none. -/
structure Text.Skipped (raw : List Char) : Prop where
  unbroken : '\n' ∉ raw
  shape : (∀ c ∈ raw, isBlank c) ∨
    ∃ blanks comment, raw = blanks ++ commentMark :: comment ∧ ∀ c ∈ blanks, isBlank c

/-- Changes of a text's layout, with the new numbers of its lines. -/
inductive Relaid : (Nat → Nat) → List Char → List Char → Prop where
  /-- One more line at the start of the text or after a line feed. -/
  | insert {before after raw : List Char} (boundary : before = [] ∨ before.getLast? = some '\n')
    (skipped : Text.Skipped raw) :
    Relaid (fun number => if number ≤ before.count '\n' then number else number + 1)
      (before ++ after) (before ++ (raw ++ '\n' :: after))
  /-- One more line at the end, which no line feed ends. -/
  | insertLast {before raw : List Char} (boundary : before = [] ∨ before.getLast? = some '\n')
    (skipped : Text.Skipped raw) : Relaid id before (before ++ raw)
  /-- One more line after a last line that no line feed ended. -/
  | append {text raw : List Char} (skipped : Text.Skipped raw) : Relaid id text (text ++ '\n' :: raw)
  /-- More blanks where no others than blanks come up to the end of the line. -/
  | pad {before blanks after : List Char} (blank : ∀ c ∈ blanks, Text.isBlank c ∧ c ≠ '\n')
    (ending : ∀ c ∈ after.takeWhile (· ≠ '\n'), Text.isBlank c) :
    Relaid id (before ++ after) (before ++ (blanks ++ after))
  /-- A carriage return before a line feed. -/
  | carriage {before after : List Char} :
    Relaid id (before ++ '\n' :: after) (before ++ '\r' :: '\n' :: after)
  | trans {f f' : Nat → Nat} {text text' text'' : List Char} (first : Relaid f text text')
    (second : Relaid f' text' text'') : Relaid (f' ∘ f) text text''

variable {text raw before after blanks : List Char}

theorem Text.Skipped.clean? (h : Text.Skipped raw) (number : Nat) : Line.clean? number raw = none := by
  rcases h.shape with hblank | ⟨blanks, comment, rfl, hblank⟩
  · exact clean?_of_blank hblank number
  · have hfirst : (blanks ++ commentMark :: comment).find? (fun c => !Text.isBlank c) =
        some commentMark := by
      rw [List.find?_append, List.find?_eq_none.2 (by simpa using hblank), Option.none_or]
      rfl
    rw [clean?_eq, isKept, hfirst, if_neg (by simp)]

namespace Line

/-- A line that is skipped moves the lines after it down by one. -/
theorem cleaned_insert (boundary : before = [] ∨ before.getLast? = some '\n') (skipped : Text.Skipped raw)
    (after : List Char) :
    cleaned 0 (Text.split '\n' (before ++ (raw ++ '\n' :: after))) =
      (cleaned 0 (Text.split '\n' (before ++ after))).map
        (renumber fun number => if number ≤ before.count '\n' then number else number + 1) := by
  obtain ⟨first, hlength, hsplit⟩ := Text.exists_split_of_boundary boundary
  rw [hsplit, hsplit, Text.split_append_cons, Text.split_of_not_mem skipped.unbroken,
    List.singleton_append, cleaned_append, cleaned_append,
    cleaned_cons_of_none (skipped.clean? _), List.map_append, cleaned_add, ← hlength]
  congr 1
  · refine (map_renumber_of_eq fun line hm => ?_).symm
    have := number_of_mem_cleaned hm
    rw [if_pos (by omega)]
  · refine map_renumber_congr fun line hm => ?_
    have := number_of_mem_cleaned hm
    rw [if_neg (by omega)]

theorem cleaned_insertLast (boundary : before = [] ∨ before.getLast? = some '\n')
    (skipped : Text.Skipped raw) :
    cleaned 0 (Text.split '\n' (before ++ raw)) = cleaned 0 (Text.split '\n' before) := by
  obtain ⟨first, -, hsplit⟩ := Text.exists_split_of_boundary boundary
  have hbefore := hsplit []
  rw [List.append_nil] at hbefore
  rw [hsplit, hbefore, Text.split_of_not_mem skipped.unbroken, Text.split_nil,
    cleaned_concat_of_none (skipped.clean? _), cleaned_concat_of_none rfl]

theorem cleaned_append_skipped (skipped : Text.Skipped raw) (text : List Char) :
    cleaned 0 (Text.split '\n' (text ++ '\n' :: raw)) = cleaned 0 (Text.split '\n' text) := by
  rw [Text.split_append_cons, Text.split_of_not_mem skipped.unbroken,
    cleaned_concat_of_none (skipped.clean? _)]

/-- Blanks at the end of a line are taken from it, however many there are. -/
theorem cleaned_pad (blank : ∀ c ∈ blanks, Text.isBlank c ∧ c ≠ '\n')
    (ending : ∀ c ∈ after.takeWhile (· ≠ '\n'), Text.isBlank c) (before : List Char) :
    cleaned 0 (Text.split '\n' (before ++ (blanks ++ after))) =
      cleaned 0 (Text.split '\n' (before ++ after)) := by
  obtain ⟨rest, hafter⟩ := Text.split_eq_takeWhile_cons '\n' after
  obtain ⟨first, last, hsplit⟩ := Text.exists_split_append '\n' before
  have hunbroken : '\n' ∉ blanks := fun hm => (blank _ hm).2 rfl
  have hpadded := Text.split_append_of_not_mem hunbroken hafter
  rw [hsplit _ _ _ hafter, hsplit _ _ _ hpadded, cleaned_append, cleaned_append, cleaned_cons, cleaned_cons]
  have htrim : Text.trimEnd (last ++ (blanks ++ after.takeWhile (· ≠ '\n'))) =
      Text.trimEnd (last ++ after.takeWhile (· ≠ '\n')) := by
    rw [Text.trimEnd_append_blank _ _ ending, Text.trimEnd_append_blank]
    intro c hm
    rcases List.mem_append.1 hm with hm | hm
    · exact (blank c hm).1
    · exact ending c hm
  rw [clean?_congr htrim]

end Line

/-- The lines of a text whose layout was changed are its lines with their new numbers. -/
theorem Relaid.cleaned_eq {f : Nat → Nat} {text text' : List Char} (h : Relaid f text text') :
    cleaned 0 (Text.split '\n' text') = (cleaned 0 (Text.split '\n' text)).map (renumber f) := by
  induction h with
  | insert boundary skipped => exact cleaned_insert boundary skipped _
  | insertLast boundary skipped =>
    rw [cleaned_insertLast boundary skipped, map_renumber_of_eq fun _ _ => rfl]
  | append skipped => rw [cleaned_append_skipped skipped, map_renumber_of_eq fun _ _ => rfl]
  | pad blank ending => rw [cleaned_pad blank ending, map_renumber_of_eq fun _ _ => rfl]
  | @carriage before after =>
    have hblank : ∀ c ∈ ['\r'], Text.isBlank c ∧ c ≠ '\n' :=
        List.forall_mem_singleton.2 ⟨rfl, by decide⟩
    have hending : ∀ c ∈ ('\n' :: after).takeWhile (· ≠ '\n'), Text.isBlank c := by simp
    rw [map_renumber_of_eq fun _ _ => rfl]
    exact cleaned_pad hblank hending before
  | trans first second ih ih' =>
    rw [ih', ih, List.map_map]
    rfl

theorem ofText_of_relaid {f : Nat → Nat} {text text' : String} (h : Relaid f text.toList text'.toList) :
    ofText text' = (ofText text).map (renumber f) := by
  rw [ofText_eq_cleaned_split, ofText_eq_cleaned_split, h.cleaned_eq]

end Codesheet
