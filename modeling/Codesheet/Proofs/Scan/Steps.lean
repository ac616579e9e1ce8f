import Codesheet.Proofs.Scan.Indexed

/-! Scanners that are asked one thing after the other, also after faults. Their position goes forward and
stays in the text, what is not found leaves it where it is, a word that is found is the longest one that
stands there, and a fault has its column between the two positions of its step. -/

namespace Codesheet.Scan

open LineGrammar

/-! ### Steps -/

/-- What a scanner can be asked for. -/
inductive Step where
  | column
  | isAtEnd
  | peek
  | fail (expected : Expected)
  | matchChar (expected : Char)
  | expectChar (expected : Char)
  | expectEnd
  | spaces
  | blanks
  | name?
  | letters?
  | number?
  | number
  | path?
  | target (expected : Expected)
  | series

namespace Step

def Answer : Step → Type
  | column => Nat
  | isAtEnd => Bool
  | peek => Char
  | fail _ => Unit
  | matchChar _ => Bool
  | expectChar _ => Unit
  | expectEnd => Unit
  | spaces => Nat
  | blanks => Unit
  | name? => Option String
  | letters? => Option String
  | number? => Option UInt32
  | number => UInt32
  | path? => Option String
  | target _ => Target
  | series => Series

def scan : (step : Step) → Scan step.Answer
  | column => do return (← get).column
  | isAtEnd => do return (← get).isAtEnd
  | peek => do return (← get).peek?.getD '\x00'
  | fail expected => Scan.fail expected
  | matchChar expected => Scan.matchChar expected
  | expectChar expected => Scan.expectChar expected
  | expectEnd => Scan.expectEnd
  | spaces => Scan.spaces
  | blanks => Scan.blanks
  | name? => Scan.name?
  | letters? => Scan.letters?
  | number? => Scan.number?
  | number => Scan.number
  | path? => Scan.path?
  | target expected => Scan.target expected
  | series => Scan.series

def walk : (step : Step) → Walk step.Answer
  | column => do return (← get).index + 1
  | isAtEnd => do return (← get).isAtEnd
  | peek => do return (← get).peek
  | fail expected => Walk.fail expected
  | matchChar expected => Walk.matchChar expected
  | expectChar expected => Walk.expectChar expected
  | expectEnd => Walk.expectEnd
  | spaces => Walk.spaces
  | blanks => Walk.blanks
  | name? => Walk.name?
  | letters? => Walk.letters?
  | number? => Walk.number?
  | number => Walk.number
  | path? => Walk.path?
  | target expected => Walk.target expected
  | series => Walk.series

/-- The answers that say that something is not there. -/
def IsNothing : (step : Step) → step.Answer → Prop
  | matchChar _, found => found = false
  | name?, found => found = none
  | letters?, found => found = none
  | number?, found => found = none
  | path?, found => found = none
  | _, _ => False

/-- The steps that fail where they start. -/
def FailsAtOnce : Step → Prop
  | fail _ => True
  | expectChar _ => True
  | expectEnd => True
  | _ => False

/-- A word that is given as it stands in the text. -/
def word? : (step : Step) → step.Answer → Option String
  | name?, found => found
  | letters?, found => found
  | path?, found => found
  | _, _ => none

/-- The words that are looked for. -/
def IsWord : Step → List Char → Prop
  | name? => IsName
  | letters? => IsLetters
  | path? => IsPath
  | _ => fun _ => False

/-- The place where a scanner has stopped. -/
def halt {α : Type} : EStateM.Result Halt Place α → Place
  | .ok _ p => p
  | .error _ p => p

theorem halt_placed {α : Type} (result : EStateM.Result Fault Cursor α) :
    halt (placed result) = (stop result).place := by
  cases result <;> rfl

/-! ### One step -/

theorem mirrors (step : Step) : Mirrors step.walk step.scan := by
  cases step with
  | column => exact fun _ => rfl
  | isAtEnd => exact fun c => get_place (by rw [Cursor.isAtEnd_place]; rfl)
  | peek => exact fun c => get_place (by rw [Cursor.peek_place]; rfl)
  | fail expected => exact mirrors_fail expected
  | matchChar expected => exact mirrors_matchChar expected
  | expectChar expected => exact mirrors_expectChar expected
  | expectEnd => exact mirrors_expectEnd
  | spaces => exact mirrors_spaces
  | blanks => exact mirrors_blanks
  | name? => exact mirrors_name?
  | letters? => exact mirrors_letters?
  | number? => exact mirrors_number?
  | number => exact mirrors_number
  | path? => exact mirrors_path?
  | target expected => exact mirrors_target expected
  | series => exact mirrors_series

/-- Every step goes over some word or stops at a misfit. -/
theorem takes (step : Step) : ∃ L, Takes step.scan L := by
  cases step with
  | column => exact ⟨fun _ _ _ => True, fun c => .ok (.refl c) trivial⟩
  | isAtEnd => exact ⟨fun _ _ _ => True, fun c => .ok (.refl c) trivial⟩
  | peek => exact ⟨fun _ _ _ => True, fun c => .ok (.refl c) trivial⟩
  | fail expected => exact ⟨_, takes_fail expected fun _ _ _ => False⟩
  | matchChar expected => exact ⟨_, takes_matchChar expected⟩
  | expectChar expected => exact ⟨_, takes_expectChar expected⟩
  | expectEnd => exact ⟨_, takes_expectEnd⟩
  | spaces => exact ⟨fun _ _ _ => True, fun c => .ok (.skipWhile c _) trivial⟩
  | blanks => exact ⟨_, takes_blanks⟩
  | name? => exact ⟨_, takes_name?⟩
  | letters? => exact ⟨_, takes_run? fun _ => id⟩
  | number? => exact ⟨_, takes_number?⟩
  | number => exact ⟨_, takes_number⟩
  | path? => exact ⟨_, takes_path?⟩
  | target expected => exact ⟨_, takes_target expected⟩
  | series => exact ⟨_, takes_series⟩

end Step

/-! ### The longest words -/

variable {α : Type} {scan : Scan α} {c c' : Cursor} {word : String}

/-- A word is passed over, and no longer word of the language stands there. -/
structure TakesLongest (L : List Char → Prop) (c : Cursor) (word : String) (c' : Cursor) : Prop where
  passed : c.Passes word.toList c'
  member : L word.toList
  longest : ∀ other, L other → other <+: c.rest → other.length ≤ word.length

/-- The longest word of a language is found, or nothing is found and nothing is passed over. -/
structure Finds (L : List Char → Prop) (scan : Scan (Option String)) : Prop where
  some : ∀ {c c' : Cursor} {word : String}, scan c = .ok (some word) c' → TakesLongest L c word c'
  none : ∀ {c c' : Cursor}, scan c = .ok none c' → c' = c

/-- A word of characters of one class does not go on where the next character is of another class. -/
theorem takesLongest_of_apart {L : List Char → Prop} {p : Char → Bool} (hp : ∀ other, L other → ∀ d ∈ other, p d)
    (hpassed : c.Passes word.toList c') (hword : L word.toList) (hapart : Apart p c'.rest) :
    TakesLongest L c word c' where
  passed := hpassed
  member := hword
  longest other hother hprefix := by
    obtain ⟨more, hmore⟩ := hprefix
    rw [hpassed.rest] at hmore
    rw [← String.length_toList]
    rcases List.append_eq_append_iff.1 hmore with ⟨v, hv, -⟩ | ⟨v, hv, hrest⟩
    · rw [hv, List.length_append]
      exact Nat.le_add_right _ _
    · -- a longer word would go on with the character that is next
      cases v with
      | nil => simp [hv]
      | cons d v => exact absurd (hp other hother d (by simp [hv])) (hapart d (by simp [hrest]))

theorem finds_run? {L : List Char → Prop} {start p : Char → Bool} (hsub : ∀ d, start d → p d)
    (hL : ∀ {word}, L word ↔ ∃ d ds, word = d :: ds ∧ start d ∧ ∀ e ∈ ds, p e) : Finds L (run? start p) where
  some {c c' word} h := by
    obtain ⟨hstart, rfl, rfl⟩ := run?_eq_some h
    obtain ⟨d, hd, hds⟩ := (Option.any_eq_true _ _).1 hstart
    obtain ⟨rest, hrest⟩ := List.head?_eq_some_iff.1 hd
    refine takesLongest_of_apart (p := p) ?_ ?_ ?_ (apart_dropWhile p _)
    · intro other hother
      obtain ⟨e, es, rfl, he, hes⟩ := hL.1 hother
      exact List.forall_mem_cons.2 ⟨hsub e he, hes⟩
    · rw [String.toList_ofList]
      exact .skipWhile c p
    · rw [String.toList_ofList, hrest, List.takeWhile_cons_of_pos (hsub d hds), hL]
      exact ⟨d, _, rfl, hds, fun e he => List.mem_takeWhile_imp he⟩
  none {c c'} h := by
    rw [run?_apply] at h
    split_ifs at h
    · cases (EStateM.Result.ok.inj h).1
    · exact (EStateM.Result.ok.inj h).2.symm

theorem finds_name? : Finds IsName name? := finds_run? (fun _ => isNameChar_of_isNameStart) isName_iff

theorem finds_letters? : Finds IsLetters letters? := finds_run? (fun _ => id) isLetters_iff

/-! ### Paths -/

/-- Paths have the characters of names and dots. -/
def isPathChar (d : Char) : Bool := isNameChar d || d = '.'

theorem isPathChar_of_isName {name : List Char} (h : IsName name) : ∀ d ∈ name, isPathChar d := by
  obtain ⟨c, cs, rfl, hc, hcs⟩ := isName_iff.1 h
  have hsub : ∀ d, isNameChar d → isPathChar d := fun d hd => by simp [isPathChar, hd]
  exact List.forall_mem_cons.2 ⟨hsub c (isNameChar_of_isNameStart hc), fun d hd => hsub d (hcs d hd)⟩

theorem isPathChar_of_isPath {path : List Char} (h : IsPath path) : ∀ d ∈ path, isPathChar d := by
  obtain ⟨name, more, names, rfl, hname, hmore⟩ := h
  refine List.forall_mem_append.2 ⟨isPathChar_of_isName hname, ?_⟩
  clear hname
  induction hmore with
  | nil => exact nofun
  | cons first more ih =>
    obtain ⟨rfl, hsegment⟩ := first
    exact List.forall_mem_append.2 ⟨List.forall_mem_cons.2 ⟨rfl, isPathChar_of_isName hsegment⟩, ih⟩

theorem matchChar_eq_false {x : Char} (h : matchChar x c = .ok false c') : c' = c ∧ c.peek? ≠ some x := by
  rw [matchChar] at h
  split_ifs at h with hx
  · cases (EStateM.Result.ok.inj h).1
  · exact ⟨(EStateM.Result.ok.inj h).2.symm, hx⟩

/-- Under a bound that is large enough, the segments stop where a path cannot go on. -/
theorem apart_of_segments_eq_ok {n : Nat} {path longer : String} (h : segments n path c = .ok longer c')
    (hn : c.rest.length ≤ n) (hc : Apart isNameChar c.rest) : Apart isPathChar c'.rest := by
  induction n generalizing path c with
  | zero =>
    have hnil := List.eq_nil_of_length_eq_zero (Nat.le_zero.1 hn)
    rw [segments_of_nil hnil] at h
    obtain ⟨-, rfl⟩ := EStateM.Result.ok.inj h
    rw [hnil]
    exact nofun
  | succ n ih =>
    obtain ⟨found, c₁, hfound, hnext⟩ := bind_eq_ok h
    cases found with
    | false =>
      obtain ⟨rfl, hdot⟩ := matchChar_eq_false hfound
      obtain ⟨-, rfl⟩ := EStateM.Result.ok.inj hnext
      intro d hd hpath
      have hne : d ≠ '.' := by
        rintro rfl
        exact hdot hd
      have hname : isNameChar d := by simpa [isPathChar, hne] using hpath
      exact hc d hd hname
    | true =>
      -- the dot is passed over, so the bound is still large enough
      have hlength := matchChar_eq_true hfound
      obtain ⟨segment, c₂, hsegment, hmore⟩ := bind_eq_ok hnext
      have hle := ((local_run? isNameStart isNameChar).orFail .segment).length_le hsegment
      obtain ⟨-, -, rfl⟩ := run?_eq_some (orFail_eq_ok hsegment)
      exact ih hmore (by omega) (apart_dropWhile _ _)

theorem finds_path? : Finds IsPath path? where
  some {c c' word} h := by
    obtain ⟨_, hpassed, rfl, hpath⟩ := takes_path?.of_ok h
    refine takesLongest_of_apart (fun _ => isPathChar_of_isPath) ?_ ?_ ?_
    · rwa [String.toList_ofList]
    · rwa [String.toList_ofList]
    · obtain ⟨found, c₁, hfound, h⟩ := bind_eq_ok h
      cases found with
      | none => cases (EStateM.Result.ok.inj h).1
      | some first =>
        obtain ⟨_, _, hget, h⟩ := bind_eq_ok h
        obtain ⟨rfl, rfl⟩ := EStateM.Result.ok.inj hget
        obtain ⟨longer, c₂, hlonger, h⟩ := bind_eq_ok h
        obtain ⟨-, rfl⟩ := EStateM.Result.ok.inj h
        obtain ⟨-, -, rfl⟩ := run?_eq_some hfound
        exact apart_of_segments_eq_ok hlonger le_rfl (apart_dropWhile _ _)
  none {c c'} h := by
    obtain ⟨_, hpassed, rfl⟩ := takes_path?.of_ok h
    exact hpassed.eq_of_nil

/-! ### What a step may do -/

theorem expectChar_eq_error {x : Char} {fault : Fault} (h : expectChar x c = .error fault c') : c' = c := by
  rcases bind_eq_error h with h | ⟨found, c₁, hfound, h⟩
  · rw [matchChar] at h
    split_ifs at h
  · cases found with
    | true => cases h
    | false =>
      obtain ⟨-, rfl⟩ := EStateM.Result.error.inj h
      exact (matchChar_eq_false hfound).1

theorem expectEnd_eq_error {fault : Fault} (h : expectEnd c = .error fault c') : c' = c := by
  rcases bind_eq_error h with h | ⟨c₁, c₂, hget, h⟩
  · cases h
  · obtain ⟨rfl, rfl⟩ := EStateM.Result.ok.inj hget
    cases hend : c.isAtEnd with
    | true =>
      rw [hend] at h
      cases h
    | false =>
      rw [hend] at h
      exact (EStateM.Result.error.inj h).2.symm

namespace Step

variable {step : Step}

theorem eq_of_isNothing {a : step.Answer} (h : step.scan c = .ok a c') (hnothing : step.IsNothing a) : c' = c := by
  cases step with
  | matchChar expected =>
    obtain rfl : a = false := hnothing
    exact (matchChar_eq_false h).1
  | name? =>
    obtain rfl : a = none := hnothing
    exact finds_name?.none h
  | letters? =>
    obtain rfl : a = none := hnothing
    exact finds_letters?.none h
  | number? =>
    obtain rfl : a = none := hnothing
    exact (number?_eq_none_iff.1 h).1
  | path? =>
    obtain rfl : a = none := hnothing
    exact finds_path?.none h
  | _ => exact hnothing.elim

theorem eq_of_failsAtOnce {fault : Fault} (h : step.scan c = .error fault c') (hfails : step.FailsAtOnce) :
    c' = c := by
  cases step with
  | fail expected => exact (EStateM.Result.error.inj h).2.symm
  | expectChar expected => exact expectChar_eq_error h
  | expectEnd => exact expectEnd_eq_error h
  | _ => exact hfails.elim

theorem takesLongest_of_word? {a : step.Answer} (h : step.scan c = .ok a c') (hword : step.word? a = some word) :
    TakesLongest step.IsWord c word c' := by
  cases step with
  | name? =>
    obtain rfl : a = some word := hword
    exact finds_name?.some h
  | letters? =>
    obtain rfl : a = some word := hword
    exact finds_letters?.some h
  | path? =>
    obtain rfl : a = some word := hword
    exact finds_path?.some h
  | _ => cases hword

/-! ### Runs -/

/-- The position after some steps, also after those that fail. -/
def after (steps : List Step) (c : Cursor) : Cursor := steps.foldl (fun c step => stop (step.scan c)) c

/-- The place after some steps. -/
def afterPlace (steps : List Step) (p : Place) : Place := steps.foldl (fun p step => halt (step.walk p)) p

theorem passes_step (step : Step) (c : Cursor) : ∃ word, c.Passes word (stop (step.scan c)) := by
  obtain ⟨L, hL⟩ := step.takes
  exact hL.forward c

theorem passes_after (steps : List Step) (c : Cursor) : ∃ word, c.Passes word (after steps c) := by
  induction steps generalizing c with
  | nil => exact ⟨[], .refl c⟩
  | cons step steps ih =>
    obtain ⟨u, hu⟩ := step.passes_step c
    obtain ⟨v, hv⟩ := ih (stop (step.scan c))
    exact ⟨u ++ v, hu.trans hv⟩

theorem afterPlace_place (steps : List Step) (c : Cursor) : afterPlace steps c.place = (after steps c).place := by
  induction steps generalizing c with
  | nil => rfl
  | cons step steps ih =>
    have hstep : halt (step.walk c.place) = (stop (step.scan c)).place := by
      rw [step.mirrors c, halt_placed]
    rw [afterPlace, List.foldl_cons, hstep]
    exact ih _

/-- After any steps on a text, the scanner and the one by index stand at one place and do the same, which is
never to ask for a slice out of range. The text stays, and the place goes forward and no further than the
end. Where something is said not to be there, and where a step fails at once, the place stays. A word that is
given is what stands between the two places, and the longest one that stands there. A fault is a misfit in a
column between that of the first place and that of the second one. -/
theorem stays_in_text (text : String) (steps : List Step) (step : Step) :
    let c := after steps (.start text)
    (afterPlace steps (.start text) = c.place ∧ step.walk c.place = placed (step.scan c)) ∧
    ((stop (step.scan c)).text = text ∧ c.place.index ≤ (stop (step.scan c)).place.index ∧
      (stop (step.scan c)).place.index ≤ text.length) ∧
    (∀ a c', step.scan c = .ok a c' → step.IsNothing a → c' = c) ∧
    (∀ fault c', step.scan c = .error fault c' → step.FailsAtOnce → c' = c) ∧
    (∀ a c' word, step.scan c = .ok a c' → step.word? a = some word →
      word.toList = (text.toList.take c'.place.index).drop c.place.index ∧ step.IsWord word.toList ∧
        ∀ other, step.IsWord other → other <+: text.toList.drop c.place.index → other.length ≤ word.length) ∧
    ∀ fault c', step.scan c = .error fault c' → ∃ column expected, fault = .grammar 0 column expected text ∧
      c.place.index + 1 ≤ column ∧ column ≤ c'.place.index + 1 := by
  intro c
  obtain ⟨before, hbefore⟩ := passes_after steps (.start text)
  obtain ⟨moved, hmoved⟩ := step.passes_step c
  have htext : c.text = text := hbefore.text.trans (Cursor.text_start text)
  refine ⟨⟨afterPlace_place steps (.start text), step.mirrors c⟩, ⟨hmoved.text.trans htext, ?_, ?_⟩,
    fun a c' => eq_of_isNothing, fun fault c' => eq_of_failsAtOnce, fun a c' word h hword => ?_,
    fun fault c' h => ?_⟩
  · rw [hmoved.place]
    exact Nat.le_add_right _ _
  · have hle := (stop (step.scan c)).index_le_length
    rwa [hmoved.text.trans htext, String.length_toList] at hle
  · obtain ⟨hpassed, hmember, hlongest⟩ := takesLongest_of_word? h hword
    rw [← htext, hpassed.between, Cursor.drop_place]
    exact ⟨rfl, hmember, hlongest⟩
  · obtain ⟨L, hL⟩ := step.takes
    obtain ⟨column, expected, rfl, hlower, hupper⟩ := hL.of_error h
    exact ⟨column, expected, by rw [htext], hlower, hupper⟩

/-- A path that ends with its dot fails behind the dot, and the next step goes on there. A NUL is matched
where the text has one and not at the end. -/
theorem stays_in_text_with_nul :
    let text := String.ofList ['a', '.', '\x00']
    let c := Cursor.start text
    let nul : Step := .matchChar '\x00'
    (∀ other, IsName other → other <+: text.toList → other.length ≤ 1) ∧
    after [expectEnd] c = c ∧
    (∃ column, path?.scan c = .error (.grammar 0 column .segment text) (after [path?] c) ∧
      1 ≤ column ∧ column ≤ (after [path?] c).place.index + 1) ∧
    (after [path?, nul] c).place.index = text.length ∧
    after [path?, nul, nul] c = after [path?, nul] c := by
  intro text c nul
  have hstart : c = ⟨[], ['a', '.', '\x00']⟩ := congrArg _ String.toList_ofList
  have hname : name?.scan c = .ok (some (String.ofList ['a'])) (after [name?] c) := by
    rw [hstart]
    rfl
  have hend : expectEnd.scan c = .error (c.fault .lineEnd) (after [expectEnd] c) := by
    rw [hstart]
    rfl
  have hpath : path?.scan c = .error (.grammar 0 3 .segment text) (after [path?] c) := by
    rw [hstart]
    rfl
  have hnul : nul.scan (after [path?, nul] c) = .ok false (after [path?, nul, nul] c) := by
    rw [hstart]
    rfl
  obtain ⟨-, -, -, -, hword, -⟩ := stays_in_text text [] name?
  obtain ⟨-, -, -, hfails, -⟩ := stays_in_text text [] expectEnd
  obtain ⟨-, -, -, -, -, hfault⟩ := stays_in_text text [] path?
  obtain ⟨-, -, hnothing, -⟩ := stays_in_text text [path?, nul] nul
  obtain ⟨_, _, hcolumn, hbounds⟩ := hfault _ _ hpath
  obtain ⟨-, rfl, -⟩ := Fault.grammar.inj hcolumn
  refine ⟨(hword _ _ _ hname rfl).2.2, hfails _ _ hend trivial, ⟨3, hpath, hbounds⟩, ?_, hnothing _ _ hnul rfl⟩
  rw [hstart, String.length_ofList]
  rfl

end Step

end Codesheet.Scan
