import Codesheet.Proofs.Grammar.LineGrammar
import Codesheet.Proofs.Scan.Moves
import Mathlib.Data.List.Induction
import Mathlib.Tactic.IntervalCases

/-! The words that scanners take are those of the grammar. -/

namespace Codesheet

open LineGrammar

/-! ### Characters -/

namespace Text.Radix

variable {radix : Radix} {c : Char} {digits : List Char}

/-- A character is known by its code. -/
theorem exists_code (low high : Nat) (hl : low ≤ c.toNat) (hh : c.toNat ≤ high) :
    ∃ k, low ≤ k ∧ k ≤ high ∧ c = Char.ofNat k :=
  ⟨c.toNat, hl, hh, (Char.ofNat_toNat c).symm⟩

theorem isDigit_iff (radix : Radix) {n : Nat} : IsDigit radix.base c n ↔ radix.isDigit c ∧ digitValue c = n := by
  constructor
  · rintro ⟨hn, hc⟩
    cases radix
    · have hlt : n < 10 := hn
      interval_cases n <;> rcases hc with rfl | rfl <;> decide
    · have hlt : n < 16 := hn
      interval_cases n <;> rcases hc with rfl | rfl <;> decide
  · rintro ⟨hd, rfl⟩
    have hrange : ('0' ≤ c ∧ c ≤ '9') ∨
        radix = hexadecimal ∧ (('a' ≤ c ∧ c ≤ 'f') ∨ ('A' ≤ c ∧ c ≤ 'F')) := by
      cases radix
      · exact .inl (by simpa [isDigit, Char.isDigit, Char.le_def] using hd)
      · simpa [isDigit, Char.isDigit, Char.le_def, or_assoc] using hd
    rcases hrange with ⟨hl, hh⟩ | ⟨rfl, ⟨hl, hh⟩ | ⟨hl, hh⟩⟩
    · -- the three ranges have 22 characters in all, so each is looked at
      obtain ⟨k, hlk, hkh, rfl⟩ := exists_code 48 57 hl hh
      cases radix <;> interval_cases k <;> exact ⟨by decide, by decide⟩
    · obtain ⟨k, hlk, hkh, rfl⟩ := exists_code 97 102 hl hh
      interval_cases k <;> exact ⟨by decide, by decide⟩
    · obtain ⟨k, hlk, hkh, rfl⟩ := exists_code 65 70 hl hh
      interval_cases k <;> exact ⟨by decide, by decide⟩

theorem isNumeral_iff {n : Nat} :
    IsNumeral radix.base digits n ↔ digits ≠ [] ∧ (∀ d ∈ digits, radix.isDigit d) ∧ radix.value digits = n := by
  constructor
  · intro h
    induction h with
    | @digit c n h =>
      obtain ⟨hd, rfl⟩ := (isDigit_iff _).1 h
      exact ⟨List.cons_ne_nil _ _, List.forall_mem_singleton.2 hd, by simp [value]⟩
    | concat front last ih =>
      obtain ⟨-, hdigits, rfl⟩ := ih
      obtain ⟨hd, rfl⟩ := (isDigit_iff _).1 last
      refine ⟨by simp, ?_, value_concat radix _ _⟩
      exact List.forall_mem_append.2 ⟨hdigits, List.forall_mem_singleton.2 hd⟩
  · rintro ⟨hne, hdigits, rfl⟩
    induction digits using List.reverseRecOn with
    | nil => exact absurd rfl hne
    | append_singleton front c ih =>
      obtain ⟨hfront, hc⟩ := List.forall_mem_append.1 hdigits
      have hlast := (isDigit_iff _).2 ⟨hc c List.mem_cons_self, rfl⟩
      rw [value_concat]
      by_cases hnil : front = []
      · subst hnil
        simpa [value] using IsNumeral.digit hlast
      · exact .concat (ih hnil hfront) hlast

theorem ofText_of_isDigit {cs : List Char} (hc : c.isDigit) (hx : cs.head? ≠ some 'x')
    (hX : cs.head? ≠ some 'X') : ofText (c :: cs) = some decimal := by
  unfold ofText
  split
  · next heq => simp [(List.cons.inj heq).2] at hx
  · next heq => simp [(List.cons.inj heq).2] at hX
  · next heq =>
    obtain ⟨rfl, -⟩ := List.cons.inj heq
    rw [if_pos hc]
  · next heq => cases heq

theorem ofText_of_not_isDigit {cs : List Char} (hc : Apart Char.isDigit cs) : ofText cs = none := by
  unfold ofText
  split
  · exact absurd rfl (hc '0' rfl)
  · exact absurd rfl (hc '0' rfl)
  · exact if_neg (hc _ rfl)
  · rfl

theorem hexadecimal_of_ofText {cs : List Char} (h : ofText cs = some hexadecimal) :
    ∃ mark rest, cs = '0' :: mark :: rest ∧ (mark = 'x' ∨ mark = 'X') := by
  unfold ofText at h
  split at h
  · exact ⟨'x', _, rfl, .inl rfl⟩
  · exact ⟨'X', _, rfl, .inr rfl⟩
  · split_ifs at h
    cases h
  · cases h

end Text.Radix

namespace LineGrammar

variable {c : Char} {cs word : List Char}

theorem isLetter_iff : IsLetter c ↔ c.isAlpha := by
  unfold Char.isAlpha Char.isUpper Char.isLower
  simp [IsLetter, Char.le_def]

theorem exists_isDigit_iff : (∃ n, IsDigit 10 c n) ↔ c.isDigit := by
  have hdecimal : ∀ n, IsDigit 10 c n ↔ c.isDigit ∧ Text.digitValue c = n :=
    fun n => Text.Radix.isDigit_iff .decimal
  simp [hdecimal]

theorem isNameStart_iff : Scan.isNameStart c ↔ IsLetter c ∨ c = '_' := by
  simp [Scan.isNameStart, isLetter_iff]

theorem isNameChar_iff : Scan.isNameChar c ↔ IsLetter c ∨ (∃ n, IsDigit 10 c n) ∨ c = '_' := by
  simp [Scan.isNameChar, Char.isAlphanum, isLetter_iff, exists_isDigit_iff, or_assoc]

theorem isNameChar_of_isNameStart (h : Scan.isNameStart c) : Scan.isNameChar c := by
  rw [isNameStart_iff] at h
  rw [isNameChar_iff]
  exact h.imp_right .inr

/-- A name in the terms of the scanner. -/
theorem isName_iff :
    IsName word ↔ ∃ c cs, word = c :: cs ∧ Scan.isNameStart c ∧ ∀ d ∈ cs, Scan.isNameChar d := by
  simp only [isNameStart_iff, isNameChar_iff]
  constructor
  · rintro ⟨start, more⟩
    exact ⟨_, _, rfl, start, more⟩
  · rintro ⟨c, cs, rfl, start, more⟩
    exact ⟨start, more⟩

theorem isLetters_iff : IsLetters word ↔ ∃ c cs, word = c :: cs ∧ c.isAlpha ∧ ∀ d ∈ cs, d.isAlpha := by
  simp only [IsLetters, isLetter_iff]
  cases word with
  | nil => simp
  | cons c cs => simp

end LineGrammar

namespace Scan

variable {word rest : List Char}

/-! ### Names -/

theorem takes_name? : Takes name? fun word _ found =>
    match found with
    | none => word = []
    | some name => name = String.ofList word ∧ IsName word := by
  refine (takes_run? fun _ => isNameChar_of_isNameStart).mono fun word rest found h => ?_
  cases found with
  | none => exact h
  | some name => exact ⟨h.1, isName_iff.2 h.2⟩

theorem reads_name? (h : IsName word) (hrest : Apart isNameChar rest) :
    Reads name? word rest (some (String.ofList word)) := by
  obtain ⟨c, cs, rfl, hc, hcs⟩ := isName_iff.1 h
  exact reads_run? hc (isNameChar_of_isNameStart hc) hcs hrest

theorem takes_name (expected : Expected) :
    Takes (orFail name? expected) fun word _ name => name = String.ofList word ∧ IsName word :=
  takes_name?.orFail expected

theorem reads_name (h : IsName word) (hrest : Apart isNameChar rest) (expected : Expected) :
    Reads (orFail name? expected) word rest (String.ofList word) :=
  (reads_name? h hrest).orFail expected

theorem head?_of_isName (h : IsName word) {c : Char} (hc : ¬ isNameStart c) (more : List Char) :
    (word ++ more).head? ≠ some c := by
  obtain ⟨d, ds, rfl, hd, -⟩ := isName_iff.1 h
  rintro heq
  exact hc (Option.some.inj heq ▸ hd)

theorem takes_letters (expected : Expected) :
    Takes (orFail letters? expected) fun word _ func => func = String.ofList word ∧ IsLetters word := by
  refine ((takes_run? fun _ => id).orFail expected).mono fun word rest func h => ?_
  exact ⟨h.1, isLetters_iff.2 h.2⟩

theorem reads_letters (h : IsLetters word) (hrest : Apart Char.isAlpha rest) (expected : Expected) :
    Reads (orFail letters? expected) word rest (String.ofList word) := by
  obtain ⟨c, cs, rfl, hc, hcs⟩ := isLetters_iff.1 h
  exact (reads_run? hc hc hcs hrest).orFail expected

/-! ### Numbers -/

/-- The digits behind the marker of a radix. -/
theorem outcome_numeral (radix : Text.Radix) (c : Cursor) {marker : List Char}
    (hmarker : c.rest.take radix.markerLength = marker) :
    Outcome (fun word _ value => ∃ digits, word = marker ++ digits ∧
      IsNumeral radix.base digits value.toNat) c (numeral radix c) := by
  rw [numeral_apply]
  dsimp only
  set start := c.skip radix.markerLength
  have hstart : c.Passes marker start := hmarker ▸ .skip c _
  have hstop := hstart.trans (.skipWhile start radix.isDigit)
  set digits := start.rest.takeWhile radix.isDigit with hdigits
  have hcolumn := hstop.column
  split_ifs with hempty hfits
  · rw [Cursor.fault, hstop.text]
    exact .misfit hstop (by omega) (Nat.le_refl _)
  · refine .ok hstop ⟨digits, rfl, Text.Radix.isNumeral_iff.2 ⟨by simpa using hempty, ?_, ?_⟩⟩
    · intro d hd
      rw [hdigits] at hd
      exact List.mem_takeWhile_imp hd
    · rw [UInt32.toNat_ofNat_of_lt' hfits]
  · exact .misfit hstop (Nat.le_refl _) (by omega)

theorem takes_number? : Takes number? fun word _ found =>
    match found with
    | none => word = []
    | some value => IsNumber word value := by
  intro c
  rw [number?, bind_of_ok (get_apply c)]
  cases hradix : Text.Radix.ofText c.rest with
  | none => exact .ok (.refl c) rfl
  | some radix =>
    have hnumeral := outcome_numeral radix c rfl
    refine (hnumeral.bind fun value => takes_pure (some value)).mono ?_
    rintro _ rest found ⟨u, v, value, rfl, ⟨digits, rfl, hdigits⟩, rfl, rfl⟩
    rw [List.append_nil]
    cases radix with
    | decimal => exact .decimal hdigits
    | hexadecimal =>
      obtain ⟨mark, more, hmore, hmark⟩ := Text.Radix.hexadecimal_of_ofText hradix
      rw [hmore]
      exact .hexadecimal hmark hdigits

/-- The result of a numeral hangs on its digits alone. -/
theorem numeral_of_passes {radix : Text.Radix} {c c' : Cursor} {marker digits : List Char}
    (h : c.Passes (marker ++ digits) c') (hmarker : marker.length = radix.markerLength)
    (hdigits : ∀ d ∈ digits, radix.isDigit d) (hapart : Apart radix.isDigit c'.rest) :
    numeral radix c =
      if digits = [] then .error (c'.fault .hexDigits) c'
      else if radix.value digits < 2 ^ 32 then .ok (.ofNat (radix.value digits)) c'
      else .error (c.fault (.fittingNumeral radix)) c' := by
  have hstart : c.skip radix.markerLength = ⟨marker.reverse ++ c.before, digits ++ c'.rest⟩ := by
    simp [Cursor.skip, h.rest, ← hmarker]
  have hstop : c' = ⟨digits.reverse ++ (marker.reverse ++ c.before), c'.rest⟩ := by
    rw [← List.append_assoc, ← List.reverse_append, ← h.before]
  have hsize : UInt32.size = 2 ^ 32 := rfl
  rw [numeral_apply]
  simp only [hstart, (takeWhile_of_apart hdigits hapart).1, skipWhile_of_apart hdigits hapart, ← hstop, hsize,
    List.isEmpty_iff]

theorem reads_numeral (radix : Text.Radix) (marker : List Char) {digits : List Char}
    (hmarker : marker.length = radix.markerLength) {value : UInt32}
    (h : IsNumeral radix.base digits value.toNat) (hrest : Apart radix.isDigit rest) :
    Reads (numeral radix) (marker ++ digits) rest value := by
  intro before
  obtain ⟨hne, hdigits, hvalue⟩ := Text.Radix.isNumeral_iff.1 h
  have hpassed : (Cursor.mk before (marker ++ digits ++ rest)).Passes (marker ++ digits)
      ⟨(marker ++ digits).reverse ++ before, rest⟩ := ⟨rfl, rfl⟩
  rw [numeral_of_passes hpassed hmarker hdigits hrest, if_neg hne, hvalue, if_pos value.toNat_lt,
    UInt32.ofNat_toNat]

theorem isNameChar_of_isDigit {radix : Text.Radix} {c : Char} (h : radix.isDigit c) : isNameChar c := by
  cases radix with
  | decimal => simp_all [Text.Radix.isDigit, isNameChar, Char.isAlphanum]
  | hexadecimal =>
    rw [isNameChar_iff, exists_isDigit_iff]
    simp only [Text.Radix.isDigit, Bool.or_eq_true, Bool.and_eq_true, decide_eq_true_eq] at h
    rcases h with (hdigit | ⟨hl, hh⟩) | ⟨hl, hh⟩
    · exact .inr (.inl hdigit)
    · exact .inl (.inr ⟨hl, Char.le_trans hh (by decide)⟩)
    · exact .inl (.inl ⟨hl, Char.le_trans hh (by decide)⟩)

theorem not_isDigit_of_isNameStart {c : Char} (h : isNameStart c) : ¬ c.isDigit := by
  obtain h | rfl : c.isAlpha ∨ c = '_' := by simpa [isNameStart] using h
  · unfold Char.isAlpha Char.isUpper Char.isLower at h
    unfold Char.isDigit
    grind
  · decide

/-- A numeral without a marker is a decimal one. -/
theorem ofText_of_isNumeral {n : Nat} (h : IsNumeral 10 word n) (hrest : Apart isNameChar rest) :
    Text.Radix.ofText (word ++ rest) = some .decimal := by
  have hnumeral : IsNumeral Text.Radix.decimal.base word n := h
  obtain ⟨hne, hdigits, -⟩ := Text.Radix.isNumeral_iff.1 hnumeral
  obtain ⟨c, cs, rfl⟩ := List.exists_cons_of_ne_nil hne
  obtain ⟨hc, hcs⟩ := List.forall_mem_cons.1 hdigits
  -- behind the first digit comes a digit or the end of the numeral, never the mark of a base
  have hnext : ∀ x : Char, ¬ x.isDigit → isNameChar x → (cs ++ rest).head? ≠ some x := by
    intro x hx hname heq
    cases cs with
    | nil => exact hrest x heq hname
    | cons d ds =>
      obtain rfl := Option.some.inj heq
      exact hx (hcs d List.mem_cons_self)
  exact Text.Radix.ofText_of_isDigit hc (hnext 'x' (by decide) (by decide))
    (hnext 'X' (by decide) (by decide))

theorem reads_number? {value : UInt32} (h : IsNumber word value) (hrest : Apart isNameChar rest) :
    Reads number? word rest (some value) := by
  have hapart : ∀ radix : Text.Radix, Apart radix.isDigit rest :=
    fun radix => hrest.mono fun _ => isNameChar_of_isDigit
  refine reads_get fun c hc => ?_
  rw [hc]
  cases h with
  | decimal h =>
    have hread := reads_numeral .decimal [] rfl h (hapart _)
    rw [ofText_of_isNumeral h hrest]
    exact hread.bind_pure some
  | @hexadecimal mark digits _ hm h =>
    have hread := reads_numeral .hexadecimal ['0', mark] rfl h (hapart _)
    have hradix : Text.Radix.ofText ('0' :: mark :: digits ++ rest) = some .hexadecimal := by
      rcases hm with rfl | rfl <;> rfl
    rw [hradix]
    exact hread.bind_pure some

theorem reads_number?_of_apart (h : Apart Char.isDigit rest) : Reads number? [] rest none := by
  refine reads_get fun c hc => ?_
  have hnone : Text.Radix.ofText ([] ++ rest) = none := Text.Radix.ofText_of_not_isDigit h
  rw [hc, hnone]
  exact reads_pure none rest

theorem head?_of_isNumber {value : UInt32} (h : IsNumber word value) {c : Char} (hc : ¬ c.isDigit)
    (more : List Char) : (word ++ more).head? ≠ some c := by
  rintro heq
  cases h with
  | decimal h =>
    have hnumeral : IsNumeral Text.Radix.decimal.base word value.toNat := h
    obtain ⟨hne, hdigits, -⟩ := Text.Radix.isNumeral_iff.1 hnumeral
    obtain ⟨d, ds, rfl⟩ := List.exists_cons_of_ne_nil hne
    exact hc (Option.some.inj heq ▸ hdigits d List.mem_cons_self)
  | hexadecimal hm h => exact hc (Option.some.inj heq ▸ by decide)

theorem takes_number : Takes number fun word _ value => IsNumber word value := takes_number?.orFail _

theorem reads_number {value : UInt32} (h : IsNumber word value) (hrest : Apart isNameChar rest) :
    Reads number word rest value :=
  (reads_number? h hrest).orFail _

/-! ### Paths -/

/-- A segment is put behind the path with its dot. -/
theorem append_dot (path : String) (name more : List Char) :
    path ++ "." ++ String.ofList name ++ String.ofList more = path ++ String.ofList ('.' :: (name ++ more)) := by
  have hdot : "." = String.ofList ['.'] := rfl
  rw [hdot, String.append_assoc, String.append_assoc, ← String.ofList_append, ← String.ofList_append]
  rfl

theorem takes_segments (n : Nat) (path : String) : Takes (segments n path) fun word _ longer =>
    longer = path ++ String.ofList word ∧ ∃ names, Many IsSegment word names := by
  induction n generalizing path with
  | zero =>
    refine (takes_pure path).mono ?_
    rintro _ rest longer ⟨rfl, rfl⟩
    exact ⟨by simp, [], .nil⟩
  | succ n ih =>
    refine (takes_ifMatch '.' ((takes_name .segment).bind fun segment => ih _) (takes_pure path)).mono ?_
    rintro _ rest longer (⟨v, rfl, name, more, _, rfl, ⟨rfl, hname⟩, rfl, names, hmore⟩ | ⟨rfl, rfl⟩)
    · exact ⟨append_dot path name more, name :: names, .cons ⟨rfl, hname⟩ hmore⟩
    · exact ⟨by simp, [], .nil⟩

theorem apart_of_segments {names : List (List Char)} (h : Many IsSegment word names)
    (hrest : Apart isNameChar rest) : Apart isNameChar (word ++ rest) := by
  cases h with
  | nil => exact hrest
  | cons first more =>
    obtain ⟨rfl, -⟩ := first
    exact (follows_cons (List.mem_singleton_self '.') _).apart (by decide)

/-- A segment takes a dot at least, so the length of the word is a bound that is large enough. -/
theorem reads_segments {names : List (List Char)} (h : Many IsSegment word names) {n : Nat}
    (hn : word.length ≤ n) (hrest : Apart isNameChar rest) (hdot : rest.head? ≠ some '.')
    (path : String) : Reads (segments n path) word rest (path ++ String.ofList word) := by
  induction h generalizing n path with
  | nil =>
    rw [String.ofList_nil, String.append_empty]
    cases n with
    | zero => exact reads_pure path rest
    | succ n => exact reads_ifMatch_of_ne hdot (reads_pure path rest)
  | @cons _ words name names first more ih =>
    obtain ⟨rfl, hname⟩ := first
    cases n with
    | zero => simp at hn
    | succ n =>
      have hwords : words.length ≤ n := by
        rw [List.length_append, List.length_cons] at hn
        omega
      have hsegment := reads_name hname (apart_of_segments more hrest) .segment
      rw [List.cons_append, ← append_dot]
      exact reads_ifMatch '.' (hsegment.bind (ih hwords _))

theorem takes_path? : Takes path? fun word _ found =>
    match found with
    | none => word = []
    | some path => path = String.ofList word ∧ IsPath word := by
  refine (takes_name?.bind (N := fun found word rest path => match found with
    | none => word = [] ∧ path = none
    | some name => ∃ longer, (longer = name ++ String.ofList word ∧ ∃ names, Many IsSegment word names) ∧
        path = some longer) fun found => ?_).mono ?_
  · cases found with
    | none => exact takes_pure none
    | some name => exact takes_get fun _ => (takes_segments _ name).bind_pure some
  · rintro _ rest found ⟨u, v, name, rfl, hname, hmore⟩
    cases name with
    | none =>
      obtain ⟨rfl, rfl⟩ := hmore
      exact hname.symm ▸ rfl
    | some name =>
      obtain ⟨rfl, hname⟩ := hname
      obtain ⟨_, ⟨rfl, names, hnames⟩, rfl⟩ := hmore
      exact ⟨String.ofList_append.symm, u, v, names, rfl, hname, hnames⟩

theorem reads_path? (h : IsPath word) (hrest : Apart isNameChar rest) (hdot : rest.head? ≠ some '.') :
    Reads path? word rest (some (String.ofList word)) := by
  obtain ⟨name, more, names, rfl, hname, hmore⟩ := h
  rw [String.ofList_append]
  refine (reads_name? hname (apart_of_segments hmore hrest)).bind (reads_get fun c hc => ?_)
  have hn : more.length ≤ c.rest.length := by
    rw [hc, List.length_append]
    exact Nat.le_add_right _ _
  exact (reads_segments hmore hn hrest hdot _).bind_pure some

theorem head?_of_isPath (h : IsPath word) {c : Char} (hc : ¬ isNameStart c) (more : List Char) :
    (word ++ more).head? ≠ some c := by
  obtain ⟨name, rest, names, rfl, hname, hrest⟩ := h
  rw [List.append_assoc]
  exact head?_of_isName hname hc _

/-! ### Targets -/

theorem takes_target (expected : Expected) :
    Takes (target expected) fun word _ t => IsTarget word t := by
  refine (takes_ifMatch '@' ((takes_name .addressName).bind_pure Target.address)
    (takes_number?.bind (N := fun found word _ t =>
      (∃ value, found = some value ∧ word = [] ∧ t = .literal value) ∨
        found = none ∧ ∃ path, (path = String.ofList word ∧ IsPath word) ∧ t = .path path)
      fun found => ?_)).mono ?_
  · cases found with
    | some value => exact (takes_pure _).mono fun _ _ _ h => .inl ⟨value, rfl, h.1, h.2⟩
    | none =>
      refine ((takes_path?.orFail expected).bind_pure Target.path).mono fun _ _ _ h => .inr ⟨rfl, ?_⟩
      exact h
  · rintro _ rest t (⟨v, rfl, _, ⟨rfl, hname⟩, rfl⟩ | ⟨u, v, _, rfl, hfound, ht⟩)
    · exact .address hname
    · rcases ht with ⟨value, rfl, rfl, rfl⟩ | ⟨rfl, _, ⟨rfl, hpath⟩, rfl⟩
      · rw [List.append_nil]
        exact .literal hfound
      · obtain rfl : u = [] := hfound
        exact .path hpath

theorem reads_target {t : Target} (h : IsTarget word t) (hrest : Apart isNameChar rest)
    (hdot : rest.head? ≠ some '.') (expected : Expected) : Reads (target expected) word rest t := by
  cases h with
  | address hname => exact reads_ifMatch '@' ((reads_name hname hrest _).bind_pure Target.address)
  | literal hnumber =>
    refine reads_ifMatch_of_ne (head?_of_isNumber hnumber (by decide) rest) ?_
    rw [← List.append_nil word]
    exact (reads_number? hnumber hrest).bind (reads_pure _ rest)
  | path hpath =>
    have hdigit : Apart Char.isDigit (word ++ rest) :=
      fun c hc hd => head?_of_isPath hpath (fun hs => not_isDigit_of_isNameStart hs hd) rest hc
    have hnone := reads_number?_of_apart hdigit
    exact reads_ifMatch_of_ne (head?_of_isPath hpath (by decide) rest)
      (hnone.bind (((reads_path? hpath hrest hdot).orFail expected).bind_pure Target.path))

end Scan

end Codesheet
