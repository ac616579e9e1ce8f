import Codesheet.Proofs.Scan.Ahead
import Codesheet.Proofs.Scan.Endings

/-! The scanner of numbers, result by result. It reads a decimal numeral or a marked hexadecimal one of any
length up to its last digit. The value is that of all its digits, and there is a fault exactly where a
marker has no digits or a value does not fit in 32 bits. -/

namespace Codesheet

open LineGrammar

/-! ### Numerals at the start of a text -/

namespace LineGrammar

/-- No digit of a base comes next. -/
def NoDigit (base : Nat) (rest : List Char) : Prop := ∀ d ∈ rest.head?, ∀ n, ¬ IsDigit base d n

/-- A numeral of any size in front of the rest of a text, as long as it can be. A zero in front of the mark
of a hexadecimal numeral is no decimal numeral. -/
structure LongestNumeral (radix : Text.Radix) (word rest : List Char) (value : Nat) : Prop where
  numeral : IsUnbounded radix.base word value
  longest : NoDigit radix.base rest
  unmarked : radix = .decimal → ¬ IsMarker ((word ++ rest).take 2)

theorem noDigit_iff {rest : List Char} : NoDigit 10 rest ↔ Apart Char.isDigit rest := by
  have h : Apart Text.Radix.decimal.isDigit rest ↔ NoDigit Text.Radix.decimal.base rest :=
    Text.Radix.apart_iff_not_isDigit
  exact h.symm

end LineGrammar

namespace Text.Radix

variable {radix : Radix} {cs : List Char}

theorem ofText_eq_none_iff : ofText cs = none ↔ NoDigit 10 cs := by
  rw [noDigit_iff]
  constructor
  · intro h d hd hdigit
    obtain ⟨rest, rfl⟩ := List.head?_eq_some_iff.1 hd
    obtain ⟨radix, hradix, -⟩ := Scan.exists_radix_of_isDigit hdigit rest
    cases hradix.symm.trans h
  · exact ofText_of_not_isDigit

theorem ofText_of_isMarker {marker : List Char} (h : IsMarker marker) (rest : List Char) :
    ofText (marker ++ rest) = some hexadecimal := by
  obtain ⟨_, rfl, rfl | rfl⟩ := h <;> rfl

theorem ofText_eq_hexadecimal_iff : ofText cs = some hexadecimal ↔ IsMarker (cs.take 2) := by
  constructor
  · intro h
    obtain ⟨mark, rest, rfl, hmark⟩ := hexadecimal_of_ofText h
    exact ⟨mark, rfl, hmark⟩
  · intro h
    rw [← List.take_append_drop 2 cs]
    exact ofText_of_isMarker h _

/-- A text without a marker in front is read in the base ten. -/
theorem ofText_eq_decimal (hdigit : ¬ NoDigit 10 cs) (hmarker : ¬ IsMarker (cs.take 2)) :
    ofText cs = some decimal := by
  cases h : ofText cs with
  | none => exact absurd (ofText_eq_none_iff.1 h) hdigit
  | some radix =>
    cases radix with
    | decimal => rfl
    | hexadecimal => exact absurd (ofText_eq_hexadecimal_iff.1 h) hmarker

end Text.Radix

/-! ### What is passed over -/

namespace Scan

variable {radix : Text.Radix} {c c' : Cursor} {digits marker word : List Char} {value : Nat}

/-- From one position to the other there are the marker of a radix and the longest run of its digits. -/
structure Spans (radix : Text.Radix) (c : Cursor) (digits : List Char) (c' : Cursor) : Prop where
  shown : Text.Radix.ofText c.rest = some radix
  passed : c.Passes (c.rest.take radix.markerLength ++ digits) c'
  digits : ∀ d ∈ digits, radix.isDigit d
  longest : Apart radix.isDigit c'.rest

theorem exists_spans (h : Text.Radix.ofText c.rest = some radix) : ∃ digits c', Spans radix c digits c' := by
  refine ⟨(c.skip radix.markerLength).rest.takeWhile radix.isDigit,
    (c.skip radix.markerLength).skipWhile radix.isDigit, h, ?_, ?_, ?_⟩
  · exact (Cursor.Passes.skip c _).trans (.skipWhile _ _)
  · exact fun d hd => List.mem_takeWhile_imp hd
  · exact apart_dropWhile _ _

theorem number?_of_spans (h : Spans radix c digits c') :
    number? c =
      if digits = [] then .error (c'.fault .hexDigits) c'
      else if radix.value digits < 2 ^ 32 then .ok (some (.ofNat (radix.value digits))) c'
      else .error (c.fault (.fittingNumeral radix)) c' := by
  have hmarker : (c.rest.take radix.markerLength).length = radix.markerLength :=
    List.length_take_of_le (Text.Radix.markerLength_le h.shown)
  rw [number?_of_some h.shown, bind_apply, numeral_of_passes h.passed hmarker h.digits h.longest]
  split_ifs <;> rfl

theorem number?_cases (c : Cursor) :
    (number? c = .ok none c ∧ NoDigit 10 c.rest) ∨ ∃ radix digits c', Spans radix c digits c' := by
  cases hradix : Text.Radix.ofText c.rest with
  | none => exact .inl ⟨number?_of_none hradix, Text.Radix.ofText_eq_none_iff.1 hradix⟩
  | some radix => exact .inr ⟨radix, exists_spans hradix⟩

/-! ### Runs and numerals -/

theorem Spans.longestNumeral (h : Spans radix c digits c') (hne : digits ≠ []) :
    LongestNumeral radix (c.rest.take radix.markerLength ++ digits) c'.rest (radix.value digits) where
  numeral := isUnbounded_of_ofText h.shown hne h.digits
  longest := Text.Radix.apart_iff_not_isDigit.1 h.longest
  unmarked hdecimal hmarker := by
    rw [← h.passed.rest, ← Text.Radix.ofText_eq_hexadecimal_iff, h.shown, hdecimal] at hmarker
    cases hmarker

theorem exists_spans_of_longestNumeral (hpassed : c.Passes word c')
    (h : LongestNumeral radix word c'.rest value) :
    ∃ digits, Spans radix c digits c' ∧ digits ≠ [] ∧ radix.value digits = value := by
  have hlongest := Text.Radix.apart_iff_not_isDigit.2 h.longest
  cases radix with
  | decimal =>
    have hword : IsUnbounded 10 word value := h.numeral
    obtain ⟨hnumeral⟩ := hword
    have hdecimal : IsNumeral Text.Radix.decimal.base word value := hnumeral
    obtain ⟨hne, hdigits, hvalue⟩ := Text.Radix.isNumeral_iff.1 hdecimal
    have hdigit : ¬ NoDigit 10 c.rest := by
      obtain ⟨d, ds, rfl⟩ := List.exists_cons_of_ne_nil hne
      rw [noDigit_iff, hpassed.rest]
      exact fun hapart => hapart d rfl (hdigits d List.mem_cons_self)
    have hmarker : ¬ IsMarker (c.rest.take 2) := by
      rw [hpassed.rest]
      exact h.unmarked rfl
    exact ⟨word, ⟨Text.Radix.ofText_eq_decimal hdigit hmarker, hpassed, hdigits, hlongest⟩, hne, hvalue⟩
  | hexadecimal =>
    have hword : IsUnbounded 16 word value := h.numeral
    obtain - | @⟨mark, digits, _, hm, hnumeral⟩ := hword
    have hhexadecimal : IsNumeral Text.Radix.hexadecimal.base digits value := hnumeral
    obtain ⟨hne, hdigits, hvalue⟩ := Text.Radix.isNumeral_iff.1 hhexadecimal
    have hmarker : c.rest.take 2 = ['0', mark] := by
      rw [hpassed.rest]
      rfl
    refine ⟨digits, ⟨?_, ?_, hdigits, hlongest⟩, hne, hvalue⟩
    · exact Text.Radix.ofText_eq_hexadecimal_iff.2 ⟨mark, hmarker, hm⟩
    · rw [Text.Radix.markerLength, hmarker]
      exact hpassed

/-! ### Markers without digits -/

theorem Spans.isMarker (h : Spans radix c [] c') :
    radix = .hexadecimal ∧ ∃ marker, IsMarker marker ∧ c.Passes marker c' := by
  have hpassed := h.passed
  rw [List.append_nil] at hpassed
  rcases Text.Radix.exists_of_ofText h.shown with ⟨rfl, d, more, hmore, hd⟩ | ⟨rfl, -⟩
  · -- a decimal numeral has its first digit
    have hrest : c'.rest = d :: more := hpassed.rest.symm.trans hmore
    exact absurd hd (h.longest d (by rw [hrest]; rfl))
  · exact ⟨rfl, _, Text.Radix.ofText_eq_hexadecimal_iff.1 h.shown, hpassed⟩

theorem spans_of_isMarker (h : IsMarker marker) (hpassed : c.Passes marker c') (hnone : NoDigit 16 c'.rest) :
    Spans .hexadecimal c [] c' where
  shown := by
    rw [hpassed.rest]
    exact Text.Radix.ofText_of_isMarker h _
  passed := by
    have htake : c.rest.take 2 = marker := by
      obtain ⟨_, rfl, -⟩ := h
      rw [hpassed.rest]
      rfl
    rw [List.append_nil, Text.Radix.markerLength, htake]
    exact hpassed
  digits := nofun
  longest := by
    have hdigits : NoDigit Text.Radix.hexadecimal.base c'.rest := hnone
    exact Text.Radix.apart_iff_not_isDigit.2 hdigits

theorem fault_of_isMarker (h : IsMarker marker) (hpassed : c.Passes marker c') (expected : Expected) :
    c'.fault expected = .grammar 0 (c.column + 2) expected c.text := by
  obtain ⟨_, rfl, -⟩ := h
  rw [Cursor.fault, hpassed.column, hpassed.text]
  rfl

/-! ### Results -/

theorem number?_eq_none_iff : number? c = .ok none c' ↔ c' = c ∧ NoDigit 10 c.rest := by
  constructor
  · intro h
    rcases number?_cases c with ⟨hnone, hdigit⟩ | ⟨radix, digits, _, hspans⟩
    · exact ⟨(EStateM.Result.ok.inj (h.symm.trans hnone)).2, hdigit⟩
    · rw [number?_of_spans hspans] at h
      split_ifs at h
      cases (EStateM.Result.ok.inj h).1
  · rintro ⟨rfl, hdigit⟩
    exact number?_of_none (Text.Radix.ofText_eq_none_iff.2 hdigit)

theorem number?_eq_some_iff {value : UInt32} : number? c = .ok (some value) c' ↔
    ∃ radix word, c.Passes word c' ∧ LongestNumeral radix word c'.rest value.toNat := by
  constructor
  · intro h
    rcases number?_cases c with ⟨hnone, -⟩ | ⟨radix, digits, _, hspans⟩
    · cases h.symm.trans hnone
    · rw [number?_of_spans hspans] at h
      split_ifs at h with hempty hfits
      obtain ⟨hvalue, rfl⟩ := EStateM.Result.ok.inj h
      refine ⟨radix, _, hspans.passed, ?_⟩
      rw [← Option.some.inj hvalue, UInt32.toNat_ofNat_of_lt' hfits]
      exact hspans.longestNumeral hempty
  · rintro ⟨radix, word, hpassed, hnumeral⟩
    obtain ⟨digits, hspans, hne, hvalue⟩ := exists_spans_of_longestNumeral hpassed hnumeral
    rw [number?_of_spans hspans, if_neg hne, hvalue, if_pos value.toNat_lt, UInt32.ofNat_toNat]

theorem number?_eq_error_iff {fault : Fault} : number? c = .error fault c' ↔
    (∃ marker, IsMarker marker ∧ c.Passes marker c' ∧ NoDigit 16 c'.rest ∧
      fault = .grammar 0 (c.column + 2) .hexDigits c.text) ∨
    ∃ radix word value, c.Passes word c' ∧ LongestNumeral radix word c'.rest value ∧ 2 ^ 32 ≤ value ∧
      fault = .grammar 0 c.column (.fittingNumeral radix) c.text := by
  constructor
  · intro h
    rcases number?_cases c with ⟨hnone, -⟩ | ⟨radix, digits, _, hspans⟩
    · cases h.symm.trans hnone
    · rw [number?_of_spans hspans] at h
      split_ifs at h with hempty hfits
      · obtain ⟨rfl, rfl⟩ := EStateM.Result.error.inj h
        subst hempty
        obtain ⟨rfl, marker, hmarker, hpassed⟩ := hspans.isMarker
        have hnone := Text.Radix.apart_iff_not_isDigit.1 hspans.longest
        exact .inl ⟨marker, hmarker, hpassed, hnone, fault_of_isMarker hmarker hpassed _⟩
      · obtain ⟨rfl, rfl⟩ := EStateM.Result.error.inj h
        exact .inr ⟨radix, _, _, hspans.passed, hspans.longestNumeral hempty, Nat.le_of_not_lt hfits, rfl⟩
  · rintro (⟨marker, hmarker, hpassed, hnone, rfl⟩ | ⟨radix, word, value, hpassed, hnumeral, hlarge, rfl⟩)
    · rw [number?_of_spans (spans_of_isMarker hmarker hpassed hnone), if_pos rfl,
        fault_of_isMarker hmarker hpassed]
    · obtain ⟨digits, hspans, hne, rfl⟩ := exists_spans_of_longestNumeral hpassed hnumeral
      rw [number?_of_spans hspans, if_neg hne, if_neg (Nat.not_lt.2 hlarge)]
      rfl

/-- Wherever the scanner stands, nothing is read and nothing is passed over exactly if no decimal digit
comes next. A value below 2 ^ 32 is read exactly from the longest numeral that comes next, and that numeral
is passed over. There is a fault exactly at a marker without digits, in the column behind the marker, and
at a numeral with a value that does not fit, in the column of its first character. -/
theorem number?_exact (c : Cursor) :
    (∀ c', number? c = .ok none c' ↔ c' = c ∧ NoDigit 10 c.rest) ∧
    (∀ value c', number? c = .ok (some value) c' ↔
      ∃ radix word, c.Passes word c' ∧ LongestNumeral radix word c'.rest value.toNat) ∧
    ∀ fault c', number? c = .error fault c' ↔
      (∃ marker, IsMarker marker ∧ c.Passes marker c' ∧ NoDigit 16 c'.rest ∧
        fault = .grammar 0 (c.column + 2) .hexDigits c.text) ∨
      ∃ radix word value, c.Passes word c' ∧ LongestNumeral radix word c'.rest value ∧ 2 ^ 32 ≤ value ∧
        fault = .grammar 0 c.column (.fittingNumeral radix) c.text :=
  ⟨fun _ => number?_eq_none_iff, fun _ _ => number?_eq_some_iff, fun _ _ => number?_eq_error_iff⟩

/-- Zeros in front and capitals change nothing, and a mark belongs to a zero alone. -/
example : answer (number? ⟨['-'], "0X000fF.".toList⟩) = .ok (some 255) ∧
    answer (number? ⟨['-'], "00xff".toList⟩) = .ok (some 0) := by
  decide +kernel

end Scan

end Codesheet
