import Codesheet.Proofs.Scan.Numerals

/-! Scanners that have the whole text and an index into it. Nothing in their type keeps the index inside the
text: a move adds to it, and a look behind the end gives NUL, which texts may have as a character too. Each
of them does what the scanner of that name does, so no move passes the end and no slice is out of range. -/

namespace Codesheet

open LineGrammar

variable {α β : Type}

/-! ### Places -/

/-- An index into a text that nothing keeps inside the text. -/
structure Place where
  chars : List Char
  index : Nat

namespace Place

def start (text : String) : Place := ⟨text.toList, 0⟩

def isAtEnd (p : Place) : Bool := p.chars.length ≤ p.index

/-- The character some places ahead, or NUL behind the end. -/
def ahead (p : Place) (n : Nat) : Char := p.chars.getD (p.index + n) '\x00'

def peek (p : Place) : Char := p.ahead 0

/-- Moves on, whatever is left. -/
def move (p : Place) (n : Nat) : Place := { p with index := p.index + n }

def fault (p : Place) (expected : Expected) : Fault :=
  .grammar 0 (p.index + 1) expected (String.ofList p.chars)

/-- The characters between two indices, if these are in order and in range. -/
def slice? (p : Place) (first : Nat) : Option (List Char) :=
  if first ≤ p.index ∧ p.index ≤ p.chars.length then some ((p.chars.drop first).take (p.index - first))
  else none

theorem lt_of_peek {p : Place} (h : p.peek ≠ '\x00') : p.index < p.chars.length := by
  by_contra hle
  have hnone : p.chars[p.index]? = none := List.getElem?_eq_none (Nat.le_of_not_lt hle)
  simp [peek, ahead, List.getD_eq_getElem?_getD, hnone] at h

/-- Moves over spaces. There is no look at the end, which the index would pass if NUL were a space. -/
def pastBlanks (p : Place) : Place := if p.peek = ' ' then (p.move 1).pastBlanks else p
termination_by p.chars.length - p.index
decreasing_by
  rename_i h
  have hlt : p.index < p.chars.length := lt_of_peek (by rw [h]; decide)
  simp only [move]
  omega

/-- Moves over the longest run of characters with a property. -/
def pastWhile (q : Char → Bool) (p : Place) : Place :=
  if !p.isAtEnd && q p.peek then (p.move 1).pastWhile q else p
termination_by p.chars.length - p.index
decreasing_by
  rename_i h
  simp only [isAtEnd, Bool.and_eq_true, Bool.not_eq_true', decide_eq_false_iff_not, Nat.not_le] at h
  simp only [move]
  omega

theorem lt_iff_isAtEnd {p : Place} : p.index < p.chars.length ↔ p.isAtEnd = false := by
  simp [isAtEnd]

/-- The look at the end makes no difference to spaces. -/
theorem pastBlanks_eq (p : Place) : p.pastBlanks = p.pastWhile (· = ' ') := by
  fun_induction pastBlanks p with
  | case1 p h ih =>
    have hend := lt_iff_isAtEnd.1 (lt_of_peek (by rw [h]; decide))
    rw [ih, pastWhile.eq_def _ p]
    simp [hend, h]
  | case2 p h =>
    rw [pastWhile]
    simp [h]

end Place

/-! ### Scanners by index -/

/-- Why a scanner stops: it has a fault, or it has asked for a slice that is out of range. -/
inductive Halt where
  | fault (fault : Fault)
  | outOfRange

abbrev Walk := EStateM Halt Place

namespace Walk

open Scan (isNameStart isNameChar)

theorem bind_apply (walk : Walk α) (next : α → Walk β) (p : Place) :
    (walk >>= next) p =
      match walk p with
      | .ok a p => next a p
      | .error halt p => .error halt p := by
  change EStateM.bind walk next p = _
  unfold EStateM.bind
  cases walk p <;> rfl

def fail (expected : Expected) : Walk α := fun p => .error (.fault (p.fault expected)) p

def matchChar (expected : Char) : Walk Bool := fun p =>
  if p.isAtEnd || p.peek ≠ expected then .ok false p else .ok true (p.move 1)

def expectChar (expected : Char) : Walk Unit := do
  unless ← matchChar expected do fail (.character expected)

def expectEnd : Walk Unit := do
  unless (← get).isAtEnd do fail .lineEnd

def takeWhile (q : Char → Bool) : Walk (List Char) := fun p =>
  match (p.pastWhile q).slice? p.index with
  | some cs => .ok cs (p.pastWhile q)
  | none => .error .outOfRange (p.pastWhile q)

def blanks : Walk Unit := fun p => .ok () p.pastBlanks

def spaces : Walk Nat := fun p => .ok (p.pastBlanks.index - p.index) p.pastBlanks

def run? (start q : Char → Bool) : Walk (Option String) := do
  if start (← get).peek then return some (String.ofList (← takeWhile q)) else return none

def name? : Walk (Option String) := run? isNameStart isNameChar

def letters? : Walk (Option String) := run? Char.isAlpha Char.isAlpha

def orFail (walk : Walk (Option α)) (expected : Expected) : Walk α := do
  match ← walk with
  | some a => return a
  | none => fail expected

def numeral (radix : Text.Radix) : Walk UInt32 := do
  let start ← get
  modify (·.move radix.markerLength)
  let digits ← takeWhile radix.isDigit
  if digits.isEmpty then fail .hexDigits
  let value := radix.value digits
  if value < UInt32.size then return UInt32.ofNat value
  else throw (.fault (start.fault (.fittingNumeral radix)))

def number? : Walk (Option UInt32) := do
  let p ← get
  if !p.peek.isDigit then return none
  else if p.peek = '0' ∧ (p.ahead 1 = 'x' ∨ p.ahead 1 = 'X') then return some (← numeral .hexadecimal)
  else return some (← numeral .decimal)

def number : Walk UInt32 := orFail number? .number

def segments : Nat → String → Walk String
  | 0, path => pure path
  | n + 1, path => do
    if ← matchChar '.' then
      let segment ← orFail name? .segment
      segments n (path ++ "." ++ segment)
    else return path

def path? : Walk (Option String) := do
  match ← name? with
  | some first =>
    let p ← get
    return some (← segments (p.chars.length - p.index) first)
  | none => return none

def target (expected : Expected) : Walk Target := do
  if ← matchChar '@' then
    return .address (← orFail name? .addressName)
  match ← number? with
  | some value => return .literal value
  | none => return .path (← orFail path? expected)

def moreTerms : Nat → Series → Walk Series
  | 0, series => pure series
  | n + 1, series => do
    match Sign.ofSymbol? (← get).peek with
    | none => return series
    | some sign =>
      modify (·.move 1)
      blanks
      let term ← target (.referenceAfter sign)
      blanks
      moreTerms n (series.push sign term)

def series : Walk Series := do
  blanks
  let head ← target .reference
  blanks
  let p ← get
  moreTerms (p.chars.length - p.index) (.single head)

end Walk

/-! ### Positions as places -/

namespace Cursor

variable {c c' : Cursor} {word : List Char}

/-- The place of a position has as many characters before it. -/
def place (c : Cursor) : Place := ⟨c.before.reverse ++ c.rest, c.before.length⟩

theorem isAtEnd_place (c : Cursor) : c.place.isAtEnd = c.isAtEnd := by
  cases h : c.rest <;> simp [place, Place.isAtEnd, isAtEnd, h]

theorem ahead_place (c : Cursor) (n : Nat) : c.place.ahead n = c.rest[n]?.getD '\x00' := by
  simp [place, Place.ahead, List.getD_eq_getElem?_getD, List.getElem?_append_right]

theorem peek_place (c : Cursor) : c.place.peek = c.peek?.getD '\x00' := by
  rw [Place.peek, ahead_place, peek?, List.head?_eq_getElem?]

/-- A class of characters without NUL holds of the next character in both views. -/
theorem any_peek? {p : Char → Bool} (h : p '\x00' = false) (c : Cursor) : c.peek?.any p = p c.place.peek := by
  rw [peek_place]
  cases c.peek? with
  | none => exact h.symm
  | some d => rfl

theorem length_place (c : Cursor) : c.place.chars.length - c.place.index = c.rest.length := by
  simp [place]

theorem Passes.place (h : c.Passes word c') : c'.place = c.place.move word.length := by
  simp [Cursor.place, Place.move, h.rest, h.before, Nat.add_comm]

/-- A move within the rest of the text is one of the position. -/
theorem move_place {n : Nat} (h : n ≤ c.rest.length) : c.place.move n = (c.skip n).place := by
  rw [(Passes.skip c n).place, List.length_take_of_le h]

/-- What is passed over is in range. -/
theorem Passes.slice? (h : c.Passes word c') : c'.place.slice? c.place.index = some word := by
  have hstart : c.place.chars.drop c.place.index = word ++ c'.rest := by
    simp [Cursor.place, h.rest]
  have hrange : c.place.index + word.length ≤ c.place.chars.length := by
    simp [Cursor.place, h.rest]
  rw [h.place, Place.slice?, Place.move, if_pos ⟨Nat.le_add_right _ _, hrange⟩, hstart, Nat.add_sub_cancel_left,
    List.take_left]

theorem index_le_length (c : Cursor) : c.place.index ≤ c.text.toList.length := by
  rw [toList_text]
  simp [place]

/-- What is left is what the text has from the place on. -/
theorem drop_place (c : Cursor) : c.text.toList.drop c.place.index = c.rest := by
  rw [toList_text]
  simp [place]

/-- What is passed over is what the text has between the two places. -/
theorem Passes.between (h : c.Passes word c') : (c.text.toList.take c'.place.index).drop c.place.index = word := by
  have hindex : c'.place.index = c.place.index + word.length := by rw [h.place, Place.move]
  rw [hindex, List.drop_take, drop_place, h.rest, Nat.add_sub_cancel_left, List.take_left]

theorem pastWhile_place (q : Char → Bool) (c : Cursor) : c.place.pastWhile q = (c.skipWhile q).place := by
  obtain ⟨before, rest⟩ := c
  induction rest generalizing before with
  | nil =>
    rw [Place.pastWhile]
    simp [isAtEnd_place, isAtEnd, skipWhile]
  | cons d rest ih =>
    have hend : (Cursor.mk before (d :: rest)).place.isAtEnd = false := isAtEnd_place _
    have hpeek : (Cursor.mk before (d :: rest)).place.peek = d := peek_place _
    have hmove := move_place (c := ⟨before, d :: rest⟩) (n := 1) (by simp)
    rw [Place.pastWhile, hend, hpeek, hmove]
    by_cases hd : q d
    · have hskip := ih (d :: before)
      simpa [hd, skip, skipWhile] using hskip
    · simp [hd, skipWhile]

end Cursor

/-! ### The two views agree -/

namespace Scan

/-- A result, with places for positions. It never is that a slice is out of range. -/
def placed : EStateM.Result Fault Cursor α → EStateM.Result Halt Place α
  | .ok a c => .ok a c.place
  | .error fault c => .error (.fault fault) c.place

/-- The indexed scanner does at the place of every position what the scanner does at the position. -/
def Mirrors (walk : Walk α) (scan : Scan α) : Prop := ∀ c : Cursor, walk c.place = placed (scan c)

variable {walk : Walk α} {scan : Scan α}

theorem mirrors_pure (a : α) : Mirrors (pure a) (pure a) := fun _ => rfl

theorem mirrors_fail (expected : Expected) : Mirrors (Walk.fail expected : Walk α) (fail expected) := fun _ => rfl

theorem bind_place {next : α → Walk β} {next' : α → Scan β} {c : Cursor} (h : walk c.place = placed (scan c))
    (hn : ∀ a, Mirrors (next a) (next' a)) : (walk >>= next) c.place = placed ((scan >>= next') c) := by
  rw [Walk.bind_apply, bind_apply, h]
  cases scan c with
  | ok a c' => exact hn a c'
  | error fault c' => rfl

theorem Mirrors.bind {next : α → Walk β} {next' : α → Scan β} (h : Mirrors walk scan)
    (hn : ∀ a, Mirrors (next a) (next' a)) : Mirrors (walk >>= next) (scan >>= next') :=
  fun c => bind_place (h c) hn

theorem get_place {next : Place → Walk α} {next' : Cursor → Scan α} {c : Cursor}
    (h : next c.place c.place = placed (next' c c)) : (get >>= next) c.place = placed ((get >>= next') c) :=
  h

theorem move_place {n : Nat} {c : Cursor} (h : n ≤ c.rest.length) :
    (modify (·.move n) : Walk PUnit) c.place = placed ((modify (·.skip n) : Scan PUnit) c) := by
  rw [modify_apply, placed, ← Cursor.move_place h]
  rfl

theorem mirrors_matchChar (x : Char) : Mirrors (Walk.matchChar x) (matchChar x) := by
  intro c
  rw [Walk.matchChar, matchChar, Cursor.isAtEnd_place, Cursor.peek_place]
  cases hrest : c.rest with
  | nil => simp [Cursor.isAtEnd, Cursor.peek?, hrest, placed]
  | cons d rest =>
    have hmove := Cursor.move_place (c := c) (n := 1) (by simp [hrest])
    by_cases hd : d = x
    · simp [Cursor.isAtEnd, Cursor.peek?, hrest, hd, hmove, placed]
    · simp [Cursor.isAtEnd, Cursor.peek?, hrest, hd, placed]

theorem mirrors_ifMatch (x : Char) {yes no : Walk α} {yes' no' : Scan α} (hyes : Mirrors yes yes')
    (hno : Mirrors no no') :
    Mirrors (Walk.matchChar x >>= fun found => if found then yes else no)
      (matchChar x >>= fun found => if found then yes' else no') := by
  refine (mirrors_matchChar x).bind fun found => ?_
  cases found
  · exact hno
  · exact hyes

theorem mirrors_expectChar (x : Char) : Mirrors (Walk.expectChar x) (expectChar x) :=
  mirrors_ifMatch x (mirrors_pure ()) (mirrors_fail (.character x))

theorem mirrors_expectEnd : Mirrors Walk.expectEnd expectEnd := by
  refine fun c => get_place ?_
  rw [Cursor.isAtEnd_place]
  cases c.isAtEnd <;> rfl

theorem mirrors_takeWhile (q : Char → Bool) : Mirrors (Walk.takeWhile q) (takeWhile q) := by
  intro c
  rw [Walk.takeWhile, Cursor.pastWhile_place, (Cursor.Passes.skipWhile c q).slice?]
  rfl

theorem mirrors_blanks : Mirrors Walk.blanks blanks := by
  intro c
  rw [Walk.blanks, Place.pastBlanks_eq, Cursor.pastWhile_place]
  rfl

theorem mirrors_spaces : Mirrors Walk.spaces spaces := by
  intro c
  have hlength : (c.skipWhile (· = ' ')).place.index - c.place.index = (c.rest.takeWhile (· = ' ')).length := by
    rw [(Cursor.Passes.skipWhile c _).place]
    exact Nat.add_sub_cancel_left _ _
  rw [Walk.spaces, Place.pastBlanks_eq, Cursor.pastWhile_place, hlength, spaces_apply]
  rfl

theorem mirrors_run? {start : Char → Bool} (h : start '\x00' = false) (q : Char → Bool) :
    Mirrors (Walk.run? start q) (run? start q) := by
  refine fun c => get_place ?_
  rw [Cursor.any_peek? h]
  cases start c.place.peek
  · rfl
  · exact (mirrors_takeWhile q).bind (fun cs => mirrors_pure _) c

theorem mirrors_name? : Mirrors Walk.name? name? := mirrors_run? rfl _

theorem mirrors_letters? : Mirrors Walk.letters? letters? := mirrors_run? rfl _

theorem Mirrors.orFail {walk : Walk (Option α)} {scan : Scan (Option α)} (h : Mirrors walk scan)
    (expected : Expected) : Mirrors (Walk.orFail walk expected) (orFail scan expected) := by
  refine h.bind fun found => ?_
  cases found with
  | none => exact mirrors_fail expected
  | some a => exact mirrors_pure a

/-! ### Numbers -/

/-- A marker that is there is no longer than the rest of the text. -/
theorem numeral_place {radix : Text.Radix} {c : Cursor} (h : radix.markerLength ≤ c.rest.length) :
    Walk.numeral radix c.place = placed (numeral radix c) := by
  refine get_place (bind_place (move_place h) fun _ => (mirrors_takeWhile _).bind fun digits => ?_)
  have hvalue : Mirrors
      (if radix.value digits < UInt32.size then pure (UInt32.ofNat (radix.value digits))
        else throw (.fault (c.place.fault (.fittingNumeral radix))))
      (if radix.value digits < UInt32.size then pure (UInt32.ofNat (radix.value digits))
        else throw (c.fault (.fittingNumeral radix))) := by
    split
    · exact mirrors_pure _
    · exact fun _ => rfl
  split
  · exact (mirrors_fail .hexDigits).bind fun _ => hvalue
  · exact hvalue

/-- The marker of a numeral shows in the next two characters. -/
theorem isMarker_iff_ahead {c : Cursor} : IsMarker (c.rest.take 2) ↔
    c.place.peek = '0' ∧ (c.place.ahead 1 = 'x' ∨ c.place.ahead 1 = 'X') := by
  rw [Place.peek, Cursor.ahead_place, Cursor.ahead_place]
  rcases c.rest with _ | ⟨a, _ | ⟨b, rest⟩⟩ <;> simp [IsMarker, and_comm]

theorem mirrors_number? : Mirrors Walk.number? number? := by
  refine fun c => get_place ?_
  have hdigit : NoDigit 10 c.rest ↔ c.place.peek.isDigit = false := by
    rw [noDigit_iff, ← Cursor.any_peek? (p := Char.isDigit) rfl, Cursor.peek?]
    cases c.rest <;> simp [Apart]
  cases hradix : Text.Radix.ofText c.rest with
  | none =>
    rw [hdigit.1 (Text.Radix.ofText_eq_none_iff.1 hradix)]
    rfl
  | some radix =>
    have hnone : ¬ NoDigit 10 c.rest := fun h => by cases hradix.symm.trans (Text.Radix.ofText_eq_none_iff.2 h)
    have hsome : c.place.peek.isDigit = true := by simpa using mt hdigit.2 hnone
    have hlength := Text.Radix.markerLength_le hradix
    have hnumeral := bind_place (numeral_place hlength) fun value => mirrors_pure (some value)
    have hmarker : radix = .hexadecimal ↔ c.place.peek = '0' ∧ (c.place.ahead 1 = 'x' ∨ c.place.ahead 1 = 'X') := by
      rw [← isMarker_iff_ahead, ← Text.Radix.ofText_eq_hexadecimal_iff, hradix, Option.some.injEq]
    rw [hsome]
    cases radix with
    | decimal => rwa [if_neg (mt hmarker.2 (by decide))]
    | hexadecimal => rwa [if_pos (hmarker.1 rfl)]

theorem mirrors_number : Mirrors Walk.number number := mirrors_number?.orFail _

/-! ### Targets and series -/

theorem mirrors_segments (n : Nat) (path : String) : Mirrors (Walk.segments n path) (segments n path) := by
  induction n generalizing path with
  | zero => exact mirrors_pure path
  | succ n ih =>
    exact mirrors_ifMatch '.' ((mirrors_name?.orFail .segment).bind fun segment => ih _) (mirrors_pure path)

theorem mirrors_path? : Mirrors Walk.path? path? := by
  refine mirrors_name?.bind fun found => ?_
  cases found with
  | none => exact mirrors_pure none
  | some first =>
    refine fun c => get_place ?_
    rw [Cursor.length_place]
    exact (mirrors_segments _ first).bind (fun path => mirrors_pure _) c

theorem mirrors_target (expected : Expected) : Mirrors (Walk.target expected) (target expected) := by
  refine mirrors_ifMatch '@' ((mirrors_name?.orFail .addressName).bind fun name => mirrors_pure _)
    (mirrors_number?.bind fun found => ?_)
  cases found with
  | some value => exact mirrors_pure _
  | none => exact (mirrors_path?.orFail expected).bind fun path => mirrors_pure _

theorem mirrors_spaced (expected : Expected) {next : Target → Walk α} {next' : Target → Scan α}
    (hn : ∀ t, Mirrors (next t) (next' t)) :
    Mirrors (do Walk.blanks; let t ← Walk.target expected; Walk.blanks; next t)
      (do blanks; let t ← target expected; blanks; next' t) :=
  mirrors_blanks.bind fun _ => (mirrors_target expected).bind fun t => mirrors_blanks.bind fun _ => hn t

theorem mirrors_moreTerms (n : Nat) (s : Series) : Mirrors (Walk.moreTerms n s) (moreTerms n s) := by
  induction n generalizing s with
  | zero => exact mirrors_pure s
  | succ n ih =>
    refine fun c => get_place ?_
    have hsign : c.peek?.bind Sign.ofSymbol? = Sign.ofSymbol? c.place.peek := by
      rw [Cursor.peek_place]
      cases c.peek? <;> rfl
    rw [hsign]
    cases hfound : Sign.ofSymbol? c.place.peek with
    | none => rfl
    | some sign =>
      -- NUL is no sign, so there is a character to move over
      have hlength : 1 ≤ c.rest.length := by
        rw [Nat.one_le_iff_ne_zero, ne_eq, List.length_eq_zero_iff]
        intro hnil
        simp [Cursor.peek?, hnil, hfound] at hsign
      exact bind_place (move_place hlength) fun _ => mirrors_spaced _ fun t => ih _

theorem mirrors_series : Mirrors Walk.series series := by
  refine mirrors_spaced .reference fun head c => get_place ?_
  rw [Cursor.length_place]
  exact mirrors_moreTerms _ _ c

end Scan

end Codesheet
