import Codesheet.Proofs.Grammar.Lines
import Codesheet.Proofs.Line.Pieces

/-! Lines with wider indents. The leading spaces of every raw line are multiplied and nothing else is
changed, so the same lines are kept under the same numbers, and a header stays as it is. -/

namespace Codesheet

/-! ### Raw lines -/

namespace Text

/-- The line with its leading spaces multiplied. -/
def widen (k : Nat) (raw : List Char) : List Char :=
  List.replicate (k * (raw.takeWhile (· = ' ')).length) ' ' ++ raw.dropWhile (· = ' ')

/-- The text with the leading spaces of each of its lines multiplied. -/
def widened (k : Nat) (cs : List Char) : List Char :=
  ['\n'].intercalate ((split '\n' cs).map (widen k))

/-- Every line is some spaces and a rest that starts with none. -/
theorem exists_indented (raw : List Char) :
    ∃ spaces body, body.head? ≠ some ' ' ∧ raw = List.replicate spaces ' ' ++ body := by
  refine ⟨(raw.takeWhile (· = ' ')).length, raw.dropWhile (· = ' '), ?_, ?_⟩
  · intro hspace
    have := List.head?_dropWhile_not (· = ' ') raw
    simp [hspace] at this
  · have hspaces : raw.takeWhile (· = ' ') = List.replicate (raw.takeWhile (· = ' ')).length ' ' :=
      List.eq_replicate_of_mem fun c hm => by simpa using List.mem_takeWhile_imp hm
    rw [← hspaces, List.takeWhile_append_dropWhile]

theorem widen_indented (k spaces : Nat) {body : List Char} (h : body.head? ≠ some ' ') :
    widen k (List.replicate spaces ' ' ++ body) = List.replicate (k * spaces) ' ' ++ body := by
  rw [widen, takeWhile_indented spaces h, dropWhile_indented spaces h, List.length_replicate]

theorem not_mem_widen {sep : Char} (hsep : sep ≠ ' ') (k : Nat) {raw : List Char} (h : sep ∉ raw) :
    sep ∉ widen k raw := by
  intro hm
  rcases List.mem_append.1 hm with hm | hm
  · exact hsep (List.eq_of_mem_replicate hm)
  · exact h ((List.dropWhile_suffix _).subset hm)

theorem split_widened (k : Nat) (cs : List Char) :
    split '\n' (widened k cs) = (split '\n' cs).map (widen k) := by
  apply split_intercalate
  · simp [split_ne_nil]
  · intro piece hm
    obtain ⟨raw, hraw, rfl⟩ := List.mem_map.1 hm
    exact not_mem_widen (by decide) k (not_mem_of_mem_split hraw)

/-- Only the end of a line is trimmed if something is left of it. -/
theorem trimEnd_append {cs : List Char} (h : trimEnd cs ≠ []) (front : List Char) :
    trimEnd (front ++ cs) = front ++ trimEnd cs := by
  induction front with
  | nil => rfl
  | cons c front ih =>
    have hne : (front ++ trimEnd cs).isEmpty = false := by simp [h]
    rw [List.cons_append, trimEnd_cons, ih, hne]
    rfl

theorem head?_trimEnd {cs : List Char} (h : trimEnd cs ≠ []) : (trimEnd cs).head? = cs.head? := by
  cases cs with
  | nil => rfl
  | cons c cs =>
    rw [trimEnd_cons] at h ⊢
    split_ifs at h ⊢ with hblank
    · exact absurd rfl h
    · rfl

end Text

/-! ### Cleaned lines -/

namespace Line

variable {k : Nat}

/-- The line with its leading spaces multiplied. -/
def widen (k : Nat) (line : Line) : Line :=
  { line with text := String.ofList (Text.widen k line.text.toList) }

theorem isKept_indented (spaces : Nat) (body : List Char) :
    isKept (List.replicate spaces ' ' ++ body) = isKept body := by
  have hspaces : (List.replicate spaces ' ').find? (fun c => !Text.isBlank c) = none := by
    rw [List.find?_eq_none]
    intro c hm
    rw [List.eq_of_mem_replicate hm]
    decide
  rw [isKept, isKept, List.find?_append, hspaces, Option.none_or]

theorem trimEnd_ne_nil_of_isKept {raw : List Char} (h : isKept raw) : Text.trimEnd raw ≠ [] := by
  intro hnil
  have hnone : raw.find? (fun c => !Text.isBlank c) = none := by
    rw [← Text.find?_trimEnd, hnil]
    rfl
  simp [isKept, hnone] at h

theorem clean?_widen (k number : Nat) (raw : List Char) :
    clean? number (Text.widen k raw) = (clean? number raw).map (widen k) := by
  obtain ⟨spaces, body, hbody, rfl⟩ := Text.exists_indented raw
  rw [Text.widen_indented k spaces hbody, clean?_eq, clean?_eq, isKept_indented, isKept_indented]
  by_cases hkept : isKept body
  · have hne := trimEnd_ne_nil_of_isKept hkept
    have hhead : (Text.trimEnd body).head? ≠ some ' ' := by rwa [Text.head?_trimEnd hne]
    rw [if_pos hkept, if_pos hkept, ← Text.trimEnd_eq_rdropWhile, ← Text.trimEnd_eq_rdropWhile,
      Text.trimEnd_append hne, Text.trimEnd_append hne, Option.map_some, widen, String.toList_ofList,
      Text.widen_indented k spaces hhead]
  · rw [if_neg hkept, if_neg hkept, Option.map_none]

theorem cleaned_widen (k number : Nat) (raws : List (List Char)) :
    cleaned number (raws.map (Text.widen k)) = (cleaned number raws).map (widen k) := by
  induction raws generalizing number with
  | nil => rfl
  | cons raw raws ih =>
    rw [List.map_cons, cleaned_cons, cleaned_cons, List.map_append, ih, clean?_widen]
    cases clean? (number + 1) raw <;> rfl

theorem ofText_widened (k : Nat) (text : String) :
    ofText (String.ofList (Text.widened k text.toList)) = (ofText text).map (widen k) := by
  rw [ofText_eq_cleaned_split, ofText_eq_cleaned_split, String.toList_ofList, Text.split_widened,
    cleaned_widen]

/-! ### Headers -/

/-- A header has no spaces to multiply. -/
theorem widen_of_isHeader {line : Line} (h : line.isHeader) (k : Nat) : line.widen k = line := by
  have hhead : line.text.toList.head? ≠ some ' ' := by simpa [isHeader] using h
  have hsame : Text.widen k line.text.toList = line.text.toList := Text.widen_indented k 0 hhead
  rw [widen, hsame, String.ofList_toList]

theorem isHeader_widen (hk : 0 < k) (line : Line) : (line.widen k).isHeader = line.isHeader := by
  by_cases h : line.isHeader
  · rw [widen_of_isHeader h]
  · have hspace : line.text.toList.head? = some ' ' := by simpa [isHeader] using h
    have hpos : 0 < k * Grammar.leading line.text := Nat.mul_pos hk (Grammar.leading_pos hspace)
    obtain ⟨n, hn⟩ := Nat.exists_eq_succ_of_ne_zero hpos.ne'
    have hwide : (line.widen k).text.toList.head? = some ' ' := by
      rw [widen, String.toList_ofList, Text.widen, ← Grammar.leading, hn]
      rfl
    simp [isHeader, hspace, hwide]

end Line

end Codesheet
