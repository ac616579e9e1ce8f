import Codesheet.Proofs.Scan.Terms

/-! Where scanners end. A scanner that stops at a misfit has passed over characters that can be continued to
a word of its language, and one that stops at a number that does not fit has passed over numbers that do. -/

namespace Codesheet

open LineGrammar

variable {α β : Type}

/-! ### Numerals of a line -/

namespace Text.Radix

variable {radix : Radix}

theorem apart_iff_not_isDigit {rest : List Char} :
    Apart radix.isDigit rest ↔ ∀ d ∈ rest.head?, ∀ n, ¬ IsDigit radix.base d n := by
  constructor
  · intro h d hd n hn
    exact h d hd ((isDigit_iff radix).1 hn).1
  · intro h d hd hdigit
    exact h d hd _ ((isDigit_iff radix).2 ⟨hdigit, rfl⟩)

/-- A numeral starts with a digit, or with a zero and the mark of its base. -/
theorem exists_of_ofText {cs : List Char} (h : ofText cs = some radix) :
    (radix = decimal ∧ ∃ d more, cs = d :: more ∧ d.isDigit) ∨
      radix = hexadecimal ∧ ∃ mark more, cs = '0' :: mark :: more ∧ (mark = 'x' ∨ mark = 'X') := by
  cases radix with
  | hexadecimal => exact .inr ⟨rfl, hexadecimal_of_ofText h⟩
  | decimal =>
    unfold ofText at h
    split at h
    · cases h
    · cases h
    · next d more _ _ =>
      split_ifs at h with hd
      exact .inl ⟨rfl, d, more, rfl, hd⟩
    · cases h

/-- A numeral has room for its marker. -/
theorem markerLength_le {cs : List Char} (h : ofText cs = some radix) : radix.markerLength ≤ cs.length := by
  rcases exists_of_ofText h with ⟨rfl, -⟩ | ⟨rfl, mark, more, rfl, -⟩
  · exact Nat.zero_le _
  · exact Nat.le_add_left _ _

end Text.Radix

namespace LineGrammar

variable {text word : List Char} {base place value : Nat}

/-- A word that can be continued to one of a language. -/
def Viable {α : Type} (L : List Char → α → Prop) (word : List Char) : Prop := ∃ more a, L (word ++ more) a

theorem viable_of_word {L : List Char → α → Prop} {a : α} (h : L word a) : Viable L word :=
  ⟨[], a, by rwa [List.append_nil]⟩

theorem Viable.left {L : List Char → α → Prop} {u v : List Char} (h : Viable L (u ++ v)) : Viable L u := by
  obtain ⟨more, a, hword⟩ := h
  exact ⟨v ++ more, a, by rwa [← List.append_assoc]⟩

theorem viable_many_of_first {L : List Char → α → Prop} (h : Viable L word) : Viable (Many L) word := by
  obtain ⟨more, a, hword⟩ := h
  have hmany := Many.cons hword .nil
  rw [List.append_nil] at hmany
  exact ⟨more, [a], hmany⟩

theorem viable_many_of_more {L : List Char → α → Prop} {a : α} {u v : List Char} (hu : L u a)
    (hv : Viable (Many L) v) : Viable (Many L) (u ++ v) := by
  obtain ⟨more, as, hmore⟩ := hv
  refine ⟨more, a :: as, ?_⟩
  rw [List.append_assoc]
  exact .cons hu hmore

theorem isName_letter : IsName ['a'] := .intro (.inl (.inr ⟨by decide, by decide⟩)) nofun

theorem isNumber_zero : IsNumber ['0'] 0 := .decimal (.digit ⟨by decide, .inl rfl⟩)

/-- In front of the digits of a hexadecimal numeral there is its marker. -/
def IsMarker (word : List Char) : Prop := ∃ mark, word = ['0', mark] ∧ (mark = 'x' ∨ mark = 'X')

theorem viable_number (h : word = [] ∨ IsMarker word) : Viable IsNumber word := by
  refine ⟨['0'], 0, ?_⟩
  rcases h with rfl | ⟨mark, rfl, hm⟩
  · exact isNumber_zero
  · exact .hexadecimal hm (.digit ⟨by decide, .inl rfl⟩)

theorem exists_isDigit_of_isUnbounded (h : IsUnbounded base word value) :
    ∃ d digits, word = d :: digits ∧ d.isDigit := by
  cases h with
  | decimal h =>
    have hdecimal : IsNumeral Text.Radix.decimal.base word value := h
    obtain ⟨hne, hdigits, -⟩ := Text.Radix.isNumeral_iff.1 hdecimal
    obtain ⟨d, digits, rfl⟩ := List.exists_cons_of_ne_nil hne
    exact ⟨d, digits, rfl, hdigits d List.mem_cons_self⟩
  | hexadecimal hm h => exact ⟨'0', _, rfl, by decide⟩

/-- A numeral in the terms of a place that cuts the text in two. -/
theorem numeralAt_iff : NumeralAt text place value ↔
    (∀ c ∈ (text.take place).getLast?, ¬ Scan.isNameChar c) ∧
      ∃ base word after, text.drop place = word ++ after ∧ IsUnbounded base word value ∧
        ∀ c ∈ after.head?, ∀ n, ¬ IsDigit base c n := by
  simp only [isNameChar_iff]
  constructor
  · rintro ⟨rfl, rfl, hword, hbefore, hafter⟩
    rw [List.append_assoc, List.take_left, List.drop_left]
    exact ⟨hbefore, _, _, _, rfl, hword, hafter⟩
  · rintro ⟨hbefore, base, word, after, hdrop, hword, hafter⟩
    have hplace : (text.take place).length = place := by
      obtain ⟨d, digits, rfl, -⟩ := exists_isDigit_of_isUnbounded hword
      have hlength := congrArg List.length hdrop
      simp only [List.length_drop, List.length_append, List.length_cons] at hlength
      simp only [List.length_take]
      omega
    refine ⟨?_, hplace, hword, hbefore, hafter⟩
    rw [List.append_assoc, ← hdrop, List.take_append_drop]

end LineGrammar

namespace Cursor

variable {c c' c'' : Cursor} {word : List Char}

theorem toList_text (c : Cursor) : c.text.toList = c.before.reverse ++ c.rest := String.toList_ofList

/-- No character of a name is right in front of the position. -/
def Fresh (c : Cursor) : Prop := ∀ d ∈ c.before.head?, ¬ Scan.isNameChar d

theorem fresh_start (text : String) : (start text).Fresh := nofun

theorem Passes.fresh (h : c.Passes word c') (hlast : ∀ d ∈ word.getLast?, ¬ Scan.isNameChar d)
    (hc : word = [] → c.Fresh) : c'.Fresh := by
  intro d hd
  rw [h.before, List.head?_append, List.head?_reverse] at hd
  cases hword : word.getLast? with
  | none =>
    rw [hword, Option.none_or] at hd
    exact hc (List.getLast?_eq_none_iff.1 hword) d hd
  | some e =>
    rw [hword, Option.some_or] at hd
    exact hlast d (hword.trans hd)

theorem Passes.fresh_singleton {x : Char} (h : c.Passes [x] c') (hx : ¬ Scan.isNameChar x) : c'.Fresh := by
  refine h.fresh (fun d hd => ?_) nofun
  obtain rfl := Option.some.inj hd
  exact hx

theorem numeralAt_before_iff {value : Nat} : NumeralAt c.text.toList c.before.length value ↔
    c.Fresh ∧ ∃ base word after, c.rest = word ++ after ∧ IsUnbounded base word value ∧
      ∀ d ∈ after.head?, ∀ n, ¬ IsDigit base d n := by
  rw [numeralAt_iff, toList_text, ← List.length_reverse, List.take_left, List.drop_left,
    List.getLast?_reverse]
  rfl

/-- Every numeral between two positions is below 2 ^ 32. -/
def Spares (c c' : Cursor) : Prop :=
  ∀ place, c.before.length ≤ place → place < c'.before.length →
    ∀ value, NumeralAt c.text.toList place value → value < 2 ^ 32

theorem Spares.refl (c : Cursor) : c.Spares c := fun place hle hlt => absurd hlt (by omega)

theorem Spares.trans (h : c.Spares c') (htext : c'.text = c.text) (h' : c'.Spares c'') : c.Spares c'' := by
  intro place hle hlt value hvalue
  by_cases hplace : place < c'.before.length
  · exact h place hle hplace value hvalue
  · exact h' place (by omega) hlt value (htext ▸ hvalue)

/-- A word cut at a place behind its start. -/
theorem Passes.cut (h : c.Passes word c') {place : Nat} (hle : c.before.length ≤ place)
    (hlt : place < c'.before.length) :
    ∃ u d v, word = u ++ d :: v ∧ place = c.before.length + u.length ∧
      c.text.toList.take place = c.before.reverse ++ u ∧ c.text.toList.drop place = d :: v ++ c'.rest := by
  have hlength : c'.before.length = c.before.length + word.length := by
    rw [h.before, List.length_append, List.length_reverse, Nat.add_comm]
  obtain ⟨j, rfl⟩ := Nat.exists_eq_add_of_le hle
  have hj : j < word.length := by omega
  refine ⟨word.take j, word[j], word.drop (j + 1), ?_, ?_, ?_, ?_⟩
  · rw [List.getElem_cons_drop, List.take_append_drop]
  · rw [List.length_take]
    omega
  · rw [toList_text, h.rest, List.take_append, List.length_reverse, List.take_of_length_le (by simp)]
    simp [List.take_append_of_le_length hj.le]
  · rw [List.getElem_cons_drop, toList_text, h.rest, List.drop_append, List.length_reverse,
      List.drop_of_length_le (by simp)]
    simp [List.drop_append_of_le_length hj.le]

theorem Passes.spares_of_not_isDigit (h : c.Passes word c') (hword : ∀ d ∈ word, ¬ d.isDigit) :
    c.Spares c' := by
  intro place hle hlt value hvalue
  obtain ⟨u, d, v, rfl, -, -, hdrop⟩ := h.cut hle hlt
  obtain ⟨-, base, word, after, hnumeral, hunbounded, -⟩ := numeralAt_iff.1 hvalue
  obtain ⟨e, digits, rfl, he⟩ := exists_isDigit_of_isUnbounded hunbounded
  rw [hdrop] at hnumeral
  obtain ⟨rfl, -⟩ := List.cons.inj hnumeral
  exact absurd he (hword d (by simp))

theorem Passes.spares_singleton {x : Char} (h : c.Passes [x] c') (hx : ¬ Scan.isNameChar x) : c.Spares c' := by
  apply h.spares_of_not_isDigit
  intro d hd hdigit
  obtain rfl := List.mem_singleton.1 hd
  have hdecimal : Text.Radix.decimal.isDigit d := hdigit
  exact hx (Scan.isNameChar_of_isDigit hdecimal)

theorem Passes.spares_blanks {n : Nat} (h : c.Passes (LineGrammar.blanks n) c') : c.Spares c' := by
  apply h.spares_of_not_isDigit
  intro d hd
  obtain rfl := List.eq_of_mem_replicate hd
  decide

/-- Behind blanks no name is open, if none was open in front of them. -/
theorem Passes.fresh_blanks {n : Nat} (h : c.Passes (LineGrammar.blanks n) c') (hc : c.Fresh) :
    c'.Fresh := by
  refine h.fresh (fun d hd => ?_) fun _ => hc
  obtain rfl := List.eq_of_mem_replicate (List.mem_of_getLast? hd)
  decide

/-- A numeral can only start where a run of characters of names starts. -/
theorem Passes.spares_of_isNameChar (h : c.Passes word c') (hword : ∀ d ∈ word, Scan.isNameChar d)
    (hfirst : ∀ value, NumeralAt c.text.toList c.before.length value → value < 2 ^ 32) : c.Spares c' := by
  intro place hle hlt value hvalue
  obtain ⟨u, d, v, rfl, hplace, htake, -⟩ := h.cut hle hlt
  obtain ⟨hbefore, -⟩ := numeralAt_iff.1 hvalue
  cases u using List.reverseRecOn with
  | nil =>
    obtain rfl : place = c.before.length := hplace
    exact hfirst value hvalue
  | append_singleton front last =>
    rw [htake, ← List.append_assoc, List.getLast?_concat] at hbefore
    exact absurd (hword last (by simp)) (hbefore last rfl)

theorem not_numeralAt_of_apart (h : Apart Char.isDigit c.rest) (value : Nat) :
    ¬ NumeralAt c.text.toList c.before.length value := by
  rw [numeralAt_before_iff]
  rintro ⟨-, base, word, after, hrest, hword, -⟩
  obtain ⟨d, digits, rfl, hd⟩ := exists_isDigit_of_isUnbounded hword
  exact h d (by rw [hrest]; rfl) hd

/-- Where a numeral starts there is no other one that is larger. -/
theorem value_of_numeralAt {radix : Text.Radix} (hradix : Text.Radix.ofText c.rest = some radix) {value : Nat}
    (h : NumeralAt c.text.toList c.before.length value) :
    value ≤ radix.value ((c.rest.drop radix.markerLength).takeWhile radix.isDigit) := by
  obtain ⟨-, base, word, after, hrest, hword, hafter⟩ := numeralAt_before_iff.1 h
  rw [hrest] at hradix ⊢
  cases hword with
  | decimal hnumeral =>
    have hdecimal : IsNumeral Text.Radix.decimal.base word value := hnumeral
    obtain ⟨hne, hdigits, rfl⟩ := Text.Radix.isNumeral_iff.1 hdecimal
    have hapart : Apart Text.Radix.decimal.isDigit after := Text.Radix.apart_iff_not_isDigit.2 hafter
    have htake := (Scan.takeWhile_of_apart hdigits hapart).1
    cases radix with
    | decimal => exact (congrArg _ htake.symm).le
    | hexadecimal =>
      -- then the digits are the zero of the marker alone
      obtain ⟨mark, more, hmore, hm⟩ := Text.Radix.hexadecimal_of_ofText hradix
      have hmark : ¬ Text.Radix.decimal.isDigit mark := by rcases hm with rfl | rfl <;> decide
      rw [hmore, List.takeWhile_cons_of_pos (by decide), List.takeWhile_cons_of_neg hmark] at htake
      rw [← htake]
      exact Nat.zero_le _
  | @hexadecimal mark digits _ hm hnumeral =>
    have hhexadecimal : IsNumeral Text.Radix.hexadecimal.base digits value := hnumeral
    obtain ⟨-, hdigits, rfl⟩ := Text.Radix.isNumeral_iff.1 hhexadecimal
    have hapart : Apart Text.Radix.hexadecimal.isDigit after := Text.Radix.apart_iff_not_isDigit.2 hafter
    obtain rfl : radix = .hexadecimal := by rcases hm with rfl | rfl <;> exact (Option.some.inj hradix).symm
    exact (congrArg _ (Scan.takeWhile_of_apart hdigits hapart).1.symm).le

end Cursor

namespace Scan

variable {P Q : Cursor → Prop} {V W : List Char → Prop} {c c' : Cursor} {scan : Scan α} {u word rest : List Char}

/-- How a run ends: at some position up to which all numbers fit, at a misfit behind a word that is viable, or
in front of the first number that does not fit, behind a word that is viable. -/
inductive Ending (V : List Char → Prop) (c : Cursor) : EStateM.Result Fault Cursor α → Prop where
  | ok {a : α} {c' : Cursor} (spared : c.Spares c') : Ending V c (.ok a c')
  | misfit {expected : Expected} {word : List Char} {c' : Cursor} (passed : c.Passes word c')
    (viable : V word) (other : ∀ radix, expected ≠ .fittingNumeral radix) :
    Ending V c (.error (c'.fault expected) c')
  | overflow {radix : Text.Radix} {value : Nat} {word : List Char} {c' c'' : Cursor}
    (passed : c.Passes word c') (viable : V word) (spared : c.Spares c')
    (numeral : NumeralAt c.text.toList c'.before.length value) (large : 2 ^ 32 ≤ value) :
    Ending V c (.error (c'.fault (.fittingNumeral radix)) c'')

/-- How a scanner ends from every position of some kind. -/
def Ends (P : Cursor → Prop) (scan : Scan α) (V : List Char → Prop) : Prop := ∀ c, P c → Ending V c (scan c)

def anywhere (_ : Cursor) : Prop := True

theorem Ends.mono (h : Ends P scan V) (hV : ∀ word, V word → W word) : Ends P scan W := by
  intro c hc
  have hend := h c hc
  generalize scan c = result at hend
  cases hend with
  | ok spared => exact .ok spared
  | misfit passed viable other => exact .misfit passed (hV _ viable) other
  | overflow passed viable spared numeral large => exact .overflow passed (hV _ viable) spared numeral large

/-- A run behind a word that has been passed over. -/
theorem Ending.after {result : EStateM.Result Fault Cursor α} (h : Ending W c' result)
    (passed : c.Passes u c') (spared : c.Spares c') (hV : ∀ v, W v → V (u ++ v)) : Ending V c result := by
  cases h with
  | ok spared' => exact .ok (spared.trans passed.text spared')
  | misfit passed' viable other => exact .misfit (passed.trans passed') (hV _ viable) other
  | overflow passed' viable spared' numeral large =>
    exact .overflow (passed.trans passed') (hV _ viable) (spared.trans passed.text spared')
      (passed.text ▸ numeral) large

/-- A sequence ends within its first part, or behind a whole word of it and within the second part. -/
theorem Ends.bind {next : α → Scan β} {L : List Char → List Char → α → Prop} {W : α → List Char → Prop}
    (h : Ends P scan V) (ht : Takes scan L) (hn : ∀ a, Ends Q (next a) (W a))
    (hQ : ∀ {c c' : Cursor} {u : List Char} {a : α}, P c → c.Passes u c' → L u c'.rest a → Q c') :
    Ends P (scan >>= next) fun word =>
      V word ∨ ∃ u v rest a, word = u ++ v ∧ L u rest a ∧ W a v := by
  intro c hc
  have hend := h c hc
  have houtcome := ht c
  rw [bind_apply]
  generalize scan c = result at hend houtcome
  cases hend with
  | misfit passed viable other => exact .misfit passed (.inl viable) other
  | overflow passed viable spared numeral large => exact .overflow passed (.inl viable) spared numeral large
  | @ok a c' spared =>
    cases houtcome with
    | ok passed read =>
      refine (hn a c' (hQ hc passed read)).after passed spared fun v hv => ?_
      exact .inr ⟨_, v, _, a, rfl, read, hv⟩

theorem Ends.bind_anywhere {next : α → Scan β} {L : List Char → List Char → α → Prop}
    {W : α → List Char → Prop} (h : Ends P scan V) (ht : Takes scan L)
    (hn : ∀ a, Ends anywhere (next a) (W a)) :
    Ends P (scan >>= next) fun word =>
      V word ∨ ∃ u v rest a, word = u ++ v ∧ L u rest a ∧ W a v :=
  h.bind ht hn fun _ _ _ => trivial

theorem Ending.bind_pure (h : Ending V c (scan c)) (f : α → β) :
    Ending V c ((scan >>= fun a => pure (f a)) c) := by
  rw [bind_apply]
  generalize scan c = result at h
  cases h with
  | ok spared => exact .ok spared
  | misfit passed viable other => exact .misfit passed viable other
  | overflow passed viable spared numeral large => exact .overflow passed viable spared numeral large

theorem Ends.bind_pure (h : Ends P scan V) (f : α → β) : Ends P (scan >>= fun a => pure (f a)) V :=
  fun c hc => (h c hc).bind_pure f

theorem ends_pure (a : α) (P : Cursor → Prop) (V : List Char → Prop) : Ends P (pure a) V :=
  fun c _ => .ok (.refl c)

theorem ends_fail (expected : Expected) (h : ∀ radix, expected ≠ .fittingNumeral radix)
    (P : Cursor → Prop) : Ends P (fail expected : Scan α) (· = []) :=
  fun c _ => .misfit (.refl c) rfl h

/-- A scanner may ask how much is left of its line. -/
theorem ends_get {next : Cursor → Scan α} (h : ∀ c, Ends P (next c) V) : Ends P (get >>= next) V :=
  fun c hc => h c c hc

/-- A scanner may go on in two ways, one of them behind a character that is no part of a name. -/
theorem ends_ifMatch {x : Char} (hx : ¬ isNameChar x) {yes no : Scan α} (hyes : Ends Cursor.Fresh yes V)
    (hno : Ends P no W) : Ends P (matchChar x >>= fun found => if found then yes else no) fun word =>
      (∃ v, word = x :: v ∧ V v) ∨ W word := by
  intro c hc
  by_cases hpeek : c.peek? = some x
  · have hmatch : matchChar x c = .ok true (c.skip 1) := if_pos hpeek
    obtain ⟨more, hmore⟩ := List.head?_eq_some_iff.1 hpeek
    have hpassed : c.Passes [x] (c.skip 1) := by simpa [hmore] using Cursor.Passes.skip c 1
    rw [bind_of_ok hmatch]
    refine (hyes _ (hpassed.fresh_singleton hx)).after hpassed (hpassed.spares_singleton hx) ?_
    exact fun v hv => .inl ⟨v, rfl, hv⟩
  · have hmatch : matchChar x c = .ok false c := if_neg hpeek
    rw [bind_of_ok hmatch]
    exact (hno c hc).after (.refl c) (.refl c) fun v hv => .inr hv

theorem ends_expectChar {x : Char} (hx : ¬ isNameChar x) (P : Cursor → Prop) :
    Ends P (expectChar x) (· = []) := by
  refine (ends_ifMatch hx (ends_pure () _ fun _ => False) (ends_fail (.character x) nofun P)).mono ?_
  rintro word (⟨v, -, hnever⟩ | rfl)
  · exact hnever.elim
  · rfl

theorem ends_expectEnd (P : Cursor → Prop) : Ends P expectEnd (· = []) := by
  refine ends_get fun c => ?_
  cases hend : c.isAtEnd
  · exact ends_fail .lineEnd nofun P
  · exact ends_pure () P _

/-- A scanner may go on behind a character that has to be there and is no part of a name. -/
theorem Ends.behindChar {x : Char} (hx : ¬ isNameChar x) {next : Scan α} (hn : Ends Cursor.Fresh next W)
    (P : Cursor → Prop) : Ends P (expectChar x >>= fun _ => next) fun word =>
      word = [] ∨ ∃ v, word = x :: v ∧ W v := by
  refine ((ends_expectChar hx P).bind (takes_expectChar x) (fun _ => hn) fun _ hpassed hread => ?_).mono ?_
  · exact (hread ▸ hpassed).fresh_singleton hx
  · rintro _ (rfl | ⟨_, v, _, _, rfl, rfl, hv⟩)
    · exact .inl rfl
    · exact .inr ⟨v, rfl, hv⟩

/-- A scanner may go on behind blanks. -/
theorem Ends.behindBlanks {next : Scan α} (hn : Ends Q next W)
    (hQ : ∀ {c c' : Cursor} {n : Nat}, P c → c.Passes (LineGrammar.blanks n) c' → Q c') :
    Ends P (blanks >>= fun _ => next) fun word => ∃ n v, word = LineGrammar.blanks n ++ v ∧ W v := by
  intro c hc
  have hblanks : c.rest.takeWhile (· = ' ') = LineGrammar.blanks (c.rest.takeWhile (· = ' ')).length :=
    List.eq_replicate_of_mem fun d hd => by simpa using List.mem_takeWhile_imp hd
  have hpassed := Cursor.Passes.skipWhile c (· = ' ')
  rw [hblanks] at hpassed
  exact (hn _ (hQ hc hpassed)).after hpassed hpassed.spares_blanks fun v hv => ⟨_, v, rfl, hv⟩

theorem ends_orFail {scan : Scan (Option α)} {L : List Char → List Char → Option α → Prop}
    (h : Ends P scan V) (ht : Takes scan L) (hnone : ∀ word rest, L word rest none → word = [])
    (expected : Expected) (he : ∀ radix, expected ≠ .fittingNumeral radix) :
    Ends P (orFail scan expected) fun word => V word ∨ word = [] := by
  refine (h.bind_anywhere (W := fun found word => found = none ∧ word = []) ht fun found => ?_).mono ?_
  · cases found with
    | none => exact (ends_fail expected he anywhere).mono fun word hword => ⟨rfl, hword⟩
    | some a => exact ends_pure a anywhere _
  · rintro _ (hV | ⟨u, v, rest, _, rfl, hread, rfl, rfl⟩)
    · exact .inl hV
    · exact .inr (by rw [hnone u rest hread, List.append_nil])

/-! ### Names -/

/-- The characters of a name hold no numeral. -/
theorem ends_run? {start p : Char → Bool} (hstart : ∀ d, start d → ¬ d.isDigit)
    (hp : ∀ d, p d → isNameChar d) (P : Cursor → Prop) (V : List Char → Prop) : Ends P (run? start p) V := by
  intro c _
  rw [run?_apply]
  split_ifs with hc
  · obtain ⟨d, hd, hdstart⟩ := (Option.any_eq_true _ _).1 hc
    refine .ok ((Cursor.Passes.skipWhile c p).spares_of_isNameChar ?_ ?_)
    · exact fun e he => hp e (List.mem_takeWhile_imp he)
    · have hapart : Apart Char.isDigit c.rest := by
        intro e he
        obtain rfl := Option.some.inj (hd.symm.trans he)
        exact hstart d hdstart
      exact fun value hvalue => absurd hvalue (Cursor.not_numeralAt_of_apart hapart value)
  · exact .ok (.refl c)

/-- A run that has to be there is not there at all, or it is whole. -/
theorem ends_run {start p : Char → Bool} (hstart : ∀ d, start d → ¬ d.isDigit) (hsub : ∀ d, start d → p d)
    (hp : ∀ d, p d → isNameChar d) (expected : Expected) (he : ∀ radix, expected ≠ .fittingNumeral radix)
    (P : Cursor → Prop) : Ends P (orFail (run? start p) expected) (· = []) := by
  refine (ends_orFail (V := fun _ => False) (ends_run? hstart hp P _) (takes_run? hsub) ?_ expected he).mono ?_
  · exact fun word rest hword => hword
  · rintro word (hnever | hword)
    · exact hnever.elim
    · exact hword

theorem ends_name (expected : Expected) (he : ∀ radix, expected ≠ .fittingNumeral radix) (P : Cursor → Prop) :
    Ends P (orFail name? expected) (· = []) :=
  ends_run (fun _ => not_isDigit_of_isNameStart) (fun _ => isNameChar_of_isNameStart) (fun _ => id) expected he P

theorem ends_letters (expected : Expected) (he : ∀ radix, expected ≠ .fittingNumeral radix)
    (P : Cursor → Prop) : Ends P (orFail letters? expected) (· = []) := by
  refine ends_run (fun d hd => not_isDigit_of_isNameStart ?_) (fun _ => id) (fun d hd => ?_) expected he P
  · simp [isNameStart, hd]
  · simp [isNameChar, Char.isAlphanum, hd]

/-! ### Numbers -/

theorem isUnbounded_of_ofText {radix : Text.Radix} {cs digits : List Char}
    (h : Text.Radix.ofText cs = some radix) (hne : digits ≠ []) (hdigits : ∀ d ∈ digits, radix.isDigit d) :
    IsUnbounded radix.base (cs.take radix.markerLength ++ digits) (radix.value digits) := by
  have hnumeral := Text.Radix.isNumeral_iff.2 ⟨hne, hdigits, rfl⟩
  rcases Text.Radix.exists_of_ofText h with ⟨rfl, -⟩ | ⟨rfl, mark, more, rfl, hm⟩
  · exact .decimal hnumeral
  · exact .hexadecimal hm hnumeral

theorem isNameChar_of_isUnbounded {base value : Nat} (h : IsUnbounded base word value) :
    ∀ d ∈ word, isNameChar d := by
  cases h with
  | decimal h =>
    have hdecimal : IsNumeral Text.Radix.decimal.base word value := h
    exact fun d hd => isNameChar_of_isDigit ((Text.Radix.isNumeral_iff.1 hdecimal).2.1 d hd)
  | @hexadecimal mark digits _ hm h =>
    have hhexadecimal : IsNumeral Text.Radix.hexadecimal.base digits value := h
    have hmark : isNameChar mark := by rcases hm with rfl | rfl <;> decide
    refine List.forall_mem_cons.2 ⟨by decide, List.forall_mem_cons.2 ⟨hmark, ?_⟩⟩
    exact fun d hd => isNameChar_of_isDigit ((Text.Radix.isNumeral_iff.1 hhexadecimal).2.1 d hd)

theorem ending_numeral {radix : Text.Radix} (hradix : Text.Radix.ofText c.rest = some radix) (hc : c.Fresh) :
    Ending (fun word => word = [] ∨ IsMarker word) c (numeral radix c) := by
  rw [numeral_apply]
  dsimp only
  set start := c.skip radix.markerLength
  set digits := start.rest.takeWhile radix.isDigit with hdigits
  have hstart : c.Passes (c.rest.take radix.markerLength) start := .skip c _
  have hstop := hstart.trans (.skipWhile start radix.isDigit)
  have hlargest : ∀ value, NumeralAt c.text.toList c.before.length value → value ≤ radix.value digits :=
    fun value hvalue => Cursor.value_of_numeralAt hradix hvalue
  have hunbounded : digits ≠ [] →
      IsUnbounded radix.base (c.rest.take radix.markerLength ++ digits) (radix.value digits) :=
    fun hne => isUnbounded_of_ofText hradix hne fun d hd => List.mem_takeWhile_imp hd
  split_ifs with hempty hfits
  · have hnil : digits = [] := List.isEmpty_iff.1 hempty
    rw [← hdigits, hnil, List.append_nil] at hstop
    refine .misfit hstop (.inr ?_) nofun
    rcases Text.Radix.exists_of_ofText hradix with ⟨rfl, d, more, hmore, hd⟩ | ⟨rfl, mark, more, hmore, hm⟩
    · have hdigit : Text.Radix.decimal.isDigit d := hd
      have hrest : start.rest = d :: more := hmore
      rw [hdigits, hrest, List.takeWhile_cons_of_pos hdigit] at hnil
      cases hnil
    · rw [hmore]
      exact ⟨mark, rfl, hm⟩
  · have hne : digits ≠ [] := fun hnil => hempty (List.isEmpty_iff.2 hnil)
    refine .ok (hstop.spares_of_isNameChar (isNameChar_of_isUnbounded (hunbounded hne)) ?_)
    exact fun value hvalue => (hlargest value hvalue).trans_lt hfits
  · have hne : digits ≠ [] := fun hnil => hempty (List.isEmpty_iff.2 hnil)
    refine .overflow (.refl c) (.inl rfl) (.refl c) ?_ (Nat.le_of_not_lt hfits)
    refine Cursor.numeralAt_before_iff.2 ⟨hc, radix.base, _, _, hstop.rest, hunbounded hne, ?_⟩
    exact Text.Radix.apart_iff_not_isDigit.1 (apart_dropWhile _ _)

theorem ends_number? : Ends Cursor.Fresh number? fun word => word = [] ∨ IsMarker word := by
  intro c hc
  rw [number?, bind_of_ok (get_apply c)]
  cases hradix : Text.Radix.ofText c.rest with
  | none => exact .ok (.refl c)
  | some radix => exact (ending_numeral hradix hc).bind_pure some

theorem ends_number : Ends Cursor.Fresh number fun word => word = [] ∨ IsMarker word := by
  refine (ends_orFail ends_number? takes_number? (fun _ _ hword => hword) .number nofun).mono ?_
  rintro word (hword | rfl)
  · exact hword
  · exact .inl rfl

/-! ### Paths -/

theorem viable_segment : Viable IsSegment ['.'] := ⟨['a'], ['a'], rfl, isName_letter⟩

theorem ends_segments (n : Nat) (path : String) (P : Cursor → Prop) :
    Ends P (segments n path) (Viable (Many IsSegment)) := by
  induction n generalizing path P with
  | zero => exact ends_pure path P _
  | succ n ih =>
    refine (ends_ifMatch (by decide) (((ends_name .segment nofun _).bind_anywhere
      (takes_name _) fun _ => ih _ _)) (ends_pure path P fun _ => False)).mono ?_
    rintro _ (⟨_, rfl, rfl | ⟨name, v, _, _, rfl, ⟨-, hname⟩, hv⟩⟩ | hnever)
    · exact viable_many_of_first viable_segment
    · exact viable_many_of_more (a := name) ⟨rfl, hname⟩ hv
    · exact hnever.elim

theorem ends_path? (P : Cursor → Prop) : Ends P path? fun word => ∃ more, IsPath (word ++ more) := by
  refine ((ends_run? (fun _ => not_isDigit_of_isNameStart) (fun _ hd => hd) P fun _ => False).bind_anywhere
    (W := fun found word => found ≠ none ∧ Viable (Many IsSegment) word) takes_name? fun found => ?_).mono ?_
  · cases found with
    | none => exact ends_pure none anywhere _
    | some first =>
      refine ends_get fun c => ((ends_segments _ first anywhere).bind_pure some).mono fun word hword => ?_
      exact ⟨nofun, hword⟩
  · rintro _ (hnever | ⟨name, v, rest, found, rfl, hname, hfound, more, names, hmore⟩)
    · exact hnever.elim
    · cases found with
      | none => exact absurd rfl hfound
      | some first => exact ⟨more, name, v ++ more, names, List.append_assoc _ _ _, hname.2, hmore⟩

/-! ### Targets -/

theorem viable_target_nil : Viable IsTarget [] := ⟨['0'], _, .literal isNumber_zero⟩

theorem ends_target (expected : Expected) (he : ∀ radix, expected ≠ .fittingNumeral radix) :
    Ends Cursor.Fresh (target expected) (Viable IsTarget) := by
  refine (ends_ifMatch (x := '@') (by decide) ((ends_name .addressName nofun _).bind_pure Target.address)
    (ends_number?.bind_anywhere (W := fun found word => found = none ∧ Viable IsTarget word) takes_number?
      fun found => ?_)).mono ?_
  · cases found with
    | some value => exact ends_pure _ anywhere _
    | none =>
      refine ((ends_orFail (ends_path? anywhere) takes_path? (fun _ _ hword => hword) expected he).bind_pure
        Target.path).mono ?_
      rintro word (⟨more, hpath⟩ | rfl)
      · exact ⟨rfl, more, _, .path hpath⟩
      · exact ⟨rfl, viable_target_nil⟩
  · rintro _ (⟨_, rfl, rfl⟩ | hnumber | ⟨u, v, rest, _, rfl, hnone, rfl, hv⟩)
    · exact ⟨['a'], _, .address isName_letter⟩
    · obtain ⟨more, value, hvalue⟩ := viable_number hnumber
      exact ⟨more, _, .literal hvalue⟩
    · obtain rfl : u = [] := hnone
      exact hv

/-! ### Series -/

/-- A run stops in front of a target with blanks around it, within the target, or behind both. -/
theorem ends_spaced (expected : Expected) (he : ∀ radix, expected ≠ .fittingNumeral radix)
    {next : Target → Scan α} {N : Target → List Char → Prop} (hn : ∀ t, Ends anywhere (next t) (N t)) :
    Ends Cursor.Fresh (do blanks; let t ← target expected; blanks; next t) fun word =>
      (∃ i v, word = LineGrammar.blanks i ++ v ∧ Viable IsTarget v) ∨
        ∃ i u t j v, word = LineGrammar.blanks i ++ u ++ LineGrammar.blanks j ++ v ∧ IsTarget u t ∧ N t v := by
  refine (((ends_target expected he).bind_anywhere (takes_target expected) fun t =>
    (hn t).behindBlanks fun _ _ => trivial).behindBlanks fun hc hpassed => hpassed.fresh_blanks hc).mono ?_
  rintro _ ⟨i, _, rfl, hv | ⟨u, _, _, t, rfl, hu, j, v, rfl, hv⟩⟩
  · exact .inl ⟨i, _, rfl, hv⟩
  · refine .inr ⟨i, u, t, j, v, ?_, hu, hv⟩
    simp only [List.append_assoc]

theorem viable_signed {sign : Sign} {i : Nat} {v : List Char} (hv : Viable IsTarget v) :
    Viable IsSigned (sign.symbol :: (LineGrammar.blanks i ++ v)) := by
  obtain ⟨more, t, ht⟩ := hv
  have hsigned := IsSigned.intro sign i ht 0
  refine ⟨more, ⟨some sign, t⟩, ?_⟩
  simpa [LineGrammar.blanks] using hsigned

theorem ends_moreTerms (n : Nat) (s : Series) (P : Cursor → Prop) :
    Ends P (moreTerms n s) (Viable (Many IsSigned)) := by
  induction n generalizing s P with
  | zero => exact ends_pure s P _
  | succ n ih =>
    intro c _
    rw [moreTerms, bind_of_ok (get_apply c)]
    cases hsign : c.peek?.bind Sign.ofSymbol? with
    | none => exact .ok (.refl c)
    | some sign =>
      obtain ⟨d, hd, hsymbol⟩ := Option.bind_eq_some_iff.1 hsign
      obtain rfl := Sign.ofSymbol?_eq_some_iff.1 hsymbol
      obtain ⟨behind, hbehind⟩ := List.head?_eq_some_iff.1 hd
      have hpassed : c.Passes [sign.symbol] (c.skip 1) := by simpa [hbehind] using Cursor.Passes.skip c 1
      have hsymbol : ¬ isNameChar sign.symbol := by cases sign <;> decide
      have hend := ends_spaced (.referenceAfter sign) (by simp) (fun t => ih (s.push sign t) anywhere)
        (c.skip 1) (hpassed.fresh_singleton hsymbol)
      dsimp only
      rw [bind_of_ok (modify_apply _ c)]
      refine hend.after hpassed (hpassed.spares_singleton hsymbol) ?_
      rintro _ (⟨i, v, rfl, hv⟩ | ⟨i, u, t, j, v, rfl, hu, hv⟩)
      · exact viable_many_of_first (viable_signed hv)
      · have hsigned := viable_many_of_more (IsSigned.intro sign i hu j) hv
        rwa [List.cons_append] at hsigned

theorem ends_series : Ends Cursor.Fresh series (Viable IsSeries) := by
  refine (ends_spaced .reference nofun fun head => ends_get fun c =>
    ends_moreTerms c.rest.length (.single head) anywhere).mono ?_
  rintro _ (⟨i, v, rfl, more, t, ht⟩ | ⟨i, u, t, j, v, rfl, hu, more, terms, hmore⟩)
  · have hseries := IsSeries.intro i ht 0 .nil
    refine ⟨more, [⟨none, t⟩], ?_⟩
    simpa [LineGrammar.blanks] using hseries
  · refine ⟨more, ⟨none, t⟩ :: terms, ?_⟩
    rw [List.append_assoc]
    exact .intro i hu j hmore

end Scan

end Codesheet
