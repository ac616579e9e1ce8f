import Codesheet.Proofs.Scan.Terms

/-! Scanners look one character ahead. Where a scanner stops in front of a character, it stops there whatever
comes behind that character, so a text that it refuses is refused with every other end. The scanners that
bound their steps by the length of the rest look at that length alone, and a bound that is large enough is
no bound. -/

namespace Codesheet

namespace Scan

variable {α β : Type} {scan : Scan α} {word rest : List Char}

/-- The position where a scanner has stopped. -/
def stop : EStateM.Result Fault Cursor α → Cursor
  | .ok _ c => c
  | .error _ c => c

/-- The same answer, or a fault in both, in front of the two rests. -/
inductive Same (rest rest' : List Char) : EStateM.Result Fault Cursor α → EStateM.Result Fault Cursor α → Prop
  where
  | ok (a : α) (before : List Char) : Same rest rest' (.ok a ⟨before, rest⟩) (.ok a ⟨before, rest'⟩)
  | error (fault fault' : Fault) (before : List Char) :
    Same rest rest' (.error fault ⟨before, rest⟩) (.error fault' ⟨before, rest'⟩)

/-- A scanner goes forward, and where it stops in front of a character it has looked at none behind it. -/
structure Local (scan : Scan α) : Prop where
  forward : ∀ c : Cursor, ∃ word, c.Passes word (stop (scan c))
  same : ∀ {before word : List Char} {next : Char} {rest : List Char},
    (stop (scan ⟨before, word ++ next :: rest⟩)).rest = next :: rest → ∀ rest',
      Same (next :: rest) (next :: rest') (scan ⟨before, word ++ next :: rest⟩)
        (scan ⟨before, word ++ next :: rest'⟩)

theorem Outcome.forward {L : List Char → List Char → α → Prop} {c : Cursor}
    {result : EStateM.Result Fault Cursor α} (h : Outcome L c result) : ∃ word, c.Passes word (stop result) := by
  cases h with
  | ok passed _ => exact ⟨_, passed⟩
  | misfit passed _ _ => exact ⟨_, passed⟩

theorem Takes.forward {L : List Char → List Char → α → Prop} (h : Takes scan L) (c : Cursor) :
    ∃ word, c.Passes word (stop (scan c)) :=
  (h c).forward

/-! ### Sequences -/

theorem Local.bind {next : α → Scan β} (hs : Local scan) (hn : ∀ a, Local (next a)) :
    Local (scan >>= next) := by
  constructor
  · intro c
    obtain ⟨word, hword⟩ := hs.forward c
    rw [bind_apply]
    cases hscan : scan c with
    | error fault c' =>
      rw [hscan] at hword
      exact ⟨word, hword⟩
    | ok a c' =>
      rw [hscan] at hword
      obtain ⟨more, hmore⟩ := (hn a).forward c'
      exact ⟨word ++ more, hword.trans hmore⟩
  · intro before word d rest hstop rest'
    obtain ⟨u, hu⟩ := hs.forward ⟨before, word ++ d :: rest⟩
    rw [bind_apply] at hstop ⊢
    rw [bind_apply]
    cases hscan : scan ⟨before, word ++ d :: rest⟩ with
    | error fault c' =>
      rw [hscan] at hstop
      have hsame := hs.same (by rw [hscan]; exact hstop) rest'
      rw [hscan] at hsame
      generalize scan ⟨before, word ++ d :: rest'⟩ = result at hsame ⊢
      cases hsame with
      | error _ fault' before' => exact .error fault fault' before'
    | ok a c' =>
      rw [hscan] at hstop hu
      obtain ⟨v, hv⟩ := (hn a).forward c'
      -- what the first scanner has left starts with the same character in both texts
      have hrest : c'.rest = v ++ d :: rest := by rw [hv.rest, hstop]
      have hword : word = u ++ v := by
        have happend : word ++ d :: rest = u ++ c'.rest := hu.rest
        rw [hrest, ← List.append_assoc] at happend
        exact List.append_cancel_right happend
      obtain ⟨e, more, more', hmore, hmore'⟩ : ∃ e more more', v ++ d :: rest = e :: more ∧
          v ++ d :: rest' = e :: more' := by
        cases v with
        | nil => exact ⟨d, rest, rest', rfl, rfl⟩
        | cons e v => exact ⟨e, _, _, rfl, rfl⟩
      have hfirst : scan ⟨before, u ++ e :: more⟩ = .ok a c' := by
        rw [← hmore, ← List.append_assoc, ← hword, hscan]
      have hsame := hs.same (by rw [hfirst, ← hmore, ← hrest]; rfl) more'
      rw [hword, List.append_assoc, hmore']
      rw [hfirst] at hsame
      generalize scan ⟨before, u ++ e :: more'⟩ = result at hsame ⊢
      cases hsame with
      | ok _ before' =>
        have hstop' : (stop (next a ⟨before', v ++ d :: rest⟩)).rest = d :: rest := by rw [hmore]; exact hstop
        have hsecond := (hn a).same hstop' rest'
        rw [hmore, hmore'] at hsecond
        exact hsecond

theorem local_pure (a : α) : Local (pure a) := by
  refine ⟨(takes_pure a).forward, fun {before word d rest} hstop rest' => ?_⟩
  obtain rfl : word = [] := by simpa [stop] using hstop
  exact .ok a before

theorem local_fail (expected : Expected) : Local (fail expected : Scan α) := by
  refine ⟨(takes_fail expected fun _ _ _ => True).forward, fun {before word d rest} hstop rest' => ?_⟩
  obtain rfl : word = [] := by simpa [stop, fail] using hstop
  exact .error _ _ before

theorem local_throw (fault : Fault) : Local (throw fault : Scan α) := by
  refine ⟨fun c => ⟨[], .refl c⟩, fun {before word d rest} hstop rest' => ?_⟩
  obtain rfl : word = [] := by simpa [stop] using hstop
  exact .error _ _ before

theorem Local.orFail {scan : Scan (Option α)} (h : Local scan) (expected : Expected) :
    Local (orFail scan expected) := by
  refine h.bind fun found => ?_
  cases found with
  | none => exact local_fail expected
  | some a => exact local_pure a

/-- A scanner may look at the next character. -/
theorem local_peek {next : Cursor → Scan α} (hpeek : ∀ c c' : Cursor, c.peek? = c'.peek? → next c = next c')
    (h : ∀ c, Local (next c)) : Local (get >>= next) := by
  refine ⟨fun c => (h c).forward c, fun {before word d rest} hstop rest' => ?_⟩
  have hsame := (h ⟨before, word ++ d :: rest⟩).same hstop rest'
  have hnext : next ⟨before, word ++ d :: rest⟩ = next ⟨before, word ++ d :: rest'⟩ := by
    apply hpeek
    cases word <;> rfl
  rw [bind_of_ok (get_apply _), bind_of_ok (get_apply _), ← hnext]
  exact hsame

/-- A scanner may bound its steps by the length of the rest, if it does the same under every larger bound. -/
theorem local_bounded (next : Nat → Scan α) (h : ∀ n, Local (next n))
    (hlarge : ∀ {n m : Nat} {c : Cursor}, c.rest.length ≤ n → c.rest.length ≤ m → next n c = next m c) :
    Local (get >>= fun c => next c.rest.length) := by
  have hbound : ∀ n c, c.rest.length ≤ n → (get >>= fun c => next c.rest.length : Scan α) c = next n c :=
    fun n c hn => (bind_of_ok (get_apply c) _).trans (hlarge le_rfl hn)
  refine ⟨fun c => (h c.rest.length).forward c, fun {before word d rest} hstop rest' => ?_⟩
  set n := (word ++ d :: rest).length + (word ++ d :: rest').length
  rw [hbound n _ (Nat.le_add_right _ _)] at hstop ⊢
  rw [hbound n _ (Nat.le_add_left _ _)]
  exact (h n).same hstop rest'

/-! ### Characters -/

theorem local_skip (n : Nat) : Local (modify (·.skip n)) := by
  refine ⟨fun c => ⟨_, .skip c n⟩, fun {before word d rest} hstop rest' => ?_⟩
  have hdrop : (word ++ d :: rest).drop n = d :: rest := hstop
  obtain rfl : n = word.length := by
    have hlength := congrArg List.length hdrop
    simp only [List.length_drop, List.length_append, List.length_cons] at hlength
    omega
  have hskip : ∀ more, (Cursor.mk before (word ++ more)).skip word.length = ⟨word.reverse ++ before, more⟩ := by
    simp [Cursor.skip]
  rw [modify_apply, modify_apply, hskip, hskip]
  exact .ok _ _

theorem local_matchChar (x : Char) : Local (matchChar x) := by
  refine ⟨(takes_matchChar x).forward, fun {before word d rest} hstop rest' => ?_⟩
  cases word with
  | nil =>
    by_cases hx : d = x
    · simp [matchChar, Cursor.peek?, hx, stop, Cursor.skip] at hstop
    · simp only [matchChar, Cursor.peek?, List.nil_append, List.head?_cons, Option.some.injEq, hx, if_false]
      exact .ok false before
  | cons y word =>
    by_cases hx : y = x
    · simp only [matchChar, Cursor.peek?, List.cons_append, List.head?_cons, hx, if_true, stop, Cursor.skip,
        List.drop_succ_cons, List.drop_zero, List.append_left_eq_self] at hstop
      subst hstop
      simp only [matchChar, Cursor.peek?, List.cons_append, List.head?_cons, hx, if_true]
      exact .ok true (x :: before)
    · simp only [matchChar, Cursor.peek?, List.cons_append, List.head?_cons, Option.some.injEq, hx, if_false, stop]
        at hstop
      have hlength := congrArg List.length hstop
      simp at hlength
      omega

/-- A scanner may go on in two ways, one of them behind a character. -/
theorem local_ifMatch (x : Char) {yes no : Scan α} (hyes : Local yes) (hno : Local no) :
    Local (matchChar x >>= fun found => if found then yes else no) := by
  refine (local_matchChar x).bind fun found => ?_
  cases found
  · exact hno
  · exact hyes

theorem local_expectChar (x : Char) : Local (expectChar x) :=
  local_ifMatch x (local_pure ()) (local_fail (.character x))

/-- A run that ends in front of a character has all of the word and not that character. -/
theorem run_of_dropWhile {p : Char → Bool} {d : Char}
    (h : (word ++ d :: rest).dropWhile p = d :: rest) : (∀ c ∈ word, p c) ∧ ∀ rest', Apart p (d :: rest') := by
  have htake : (word ++ d :: rest).takeWhile p = word := by
    have happend := List.takeWhile_append_dropWhile (p := p) (l := word ++ d :: rest)
    rw [h] at happend
    exact List.append_cancel_right happend
  refine ⟨fun c hc => List.mem_takeWhile_imp (htake.symm ▸ hc), fun rest' c hc => ?_⟩
  obtain rfl := Option.some.inj hc
  have hhead := List.head?_dropWhile_not p (word ++ d :: rest)
  rw [h] at hhead
  simpa using hhead

theorem local_takeWhile (p : Char → Bool) : Local (takeWhile p) := by
  refine ⟨fun c => ⟨_, .skipWhile c p⟩, fun {before word d rest} hstop rest' => ?_⟩
  obtain ⟨hword, hapart⟩ := run_of_dropWhile hstop
  have hrun : ∀ more, takeWhile p ⟨before, word ++ d :: more⟩ = .ok word ⟨word.reverse ++ before, d :: more⟩ := by
    intro more
    rw [takeWhile, skipWhile_of_apart hword (hapart more), (takeWhile_of_apart hword (hapart more)).1]
  rw [hrun, hrun]
  exact .ok word _

theorem local_blanks : Local blanks := (local_takeWhile (· = ' ')).bind fun _ => local_pure ()

theorem local_spaces : Local spaces := (local_takeWhile (· = ' ')).bind fun _ => local_pure _

theorem local_run? (start p : Char → Bool) : Local (run? start p) := by
  refine local_peek (fun c c' hpeek => by rw [hpeek]) fun c => ?_
  cases c.peek?.any start
  · exact local_pure none
  · exact (local_takeWhile p).bind fun cs => local_pure _

theorem local_expectEnd : Local expectEnd := by
  refine local_peek (fun c c' hpeek => ?_) fun c => ?_
  · have hend : ∀ c : Cursor, c.isAtEnd = c.peek?.isNone := by
      rintro ⟨before, rest⟩
      cases rest <;> rfl
    rw [hend, hend, hpeek]
  · cases c.isAtEnd
    · exact local_fail .lineEnd
    · exact local_pure ()

/-! ### Numbers -/

theorem stop_numeral (radix : Text.Radix) (c : Cursor) :
    stop (numeral radix c) = (c.skip radix.markerLength).skipWhile radix.isDigit := by
  rw [numeral_apply]
  dsimp only
  split_ifs <;> rfl

/-- A numeral that ends in front of a character has its marker and then digits alone. -/
theorem digits_of_stop {radix : Text.Radix} {before : List Char} {d : Char}
    (h : (stop (numeral radix ⟨before, word ++ d :: rest⟩)).rest = d :: rest) :
    radix.markerLength ≤ word.length ∧ (∀ c ∈ word.drop radix.markerLength, radix.isDigit c) ∧
      ∀ rest', Apart radix.isDigit (d :: rest') := by
  rw [stop_numeral] at h
  have hdrop : ((word ++ d :: rest).drop radix.markerLength).dropWhile radix.isDigit = d :: rest := h
  have hmarker : radix.markerLength ≤ word.length := by
    have hle := (List.dropWhile_suffix radix.isDigit (l := (word ++ d :: rest).drop radix.markerLength)).length_le
    rw [hdrop] at hle
    simp only [List.length_drop, List.length_append, List.length_cons] at hle
    omega
  rw [List.drop_append_of_le_length hmarker] at hdrop
  exact ⟨hmarker, run_of_dropWhile hdrop⟩

theorem local_numeral (radix : Text.Radix) : Local (numeral radix) := by
  refine ⟨fun c => (outcome_numeral radix c rfl).forward, fun {before word d rest} hstop rest' => ?_⟩
  obtain ⟨hmarker, hdigits, hapart⟩ := digits_of_stop hstop
  have hstart : ∀ more, (Cursor.mk before (word ++ d :: more)).skip radix.markerLength =
      ⟨(word.take radix.markerLength).reverse ++ before, word.drop radix.markerLength ++ d :: more⟩ := by
    intro more
    rw [Cursor.skip, List.take_append_of_le_length hmarker, List.drop_append_of_le_length hmarker]
  have hword : (word.drop radix.markerLength).reverse ++ ((word.take radix.markerLength).reverse ++ before) =
      word.reverse ++ before := by
    rw [← List.append_assoc, ← List.reverse_append, List.take_append_drop]
  simp only [numeral_apply, hstart, (takeWhile_of_apart hdigits (hapart _)).1,
    skipWhile_of_apart hdigits (hapart _), hword]
  split_ifs
  · exact .error _ _ _
  · exact .ok _ _
  · exact .error _ _ _

/-- The radix of a numeral shows in its first two characters. -/
theorem ofText_append (hword : word ≠ []) (d : Char) (rest rest' : List Char) :
    Text.Radix.ofText (word ++ d :: rest) = Text.Radix.ofText (word ++ d :: rest') := by
  have htwo : ∀ (a b : Char) (more : List Char), Text.Radix.ofText (a :: b :: more) = Text.Radix.ofText [a, b] := by
    intro a b more
    by_cases hx : a = '0' ∧ (b = 'x' ∨ b = 'X')
    · obtain ⟨rfl, rfl | rfl⟩ := hx <;> rfl
    · have hplain : ∀ more, Text.Radix.ofText (a :: b :: more) = if a.isDigit then some .decimal else none := by
        intro more
        unfold Text.Radix.ofText
        split <;> simp_all
      rw [hplain, hplain]
  obtain ⟨a, word, rfl⟩ := List.exists_cons_of_ne_nil hword
  cases word with
  | nil => exact (htwo a d rest).trans (htwo a d rest').symm
  | cons b word => exact (htwo a b _).trans (htwo a b _).symm

theorem exists_radix_of_isDigit {d : Char} (h : d.isDigit) (rest : List Char) :
    ∃ radix, Text.Radix.ofText (d :: rest) = some radix ∧ radix.isDigit d := by
  have hall : ∀ radix : Text.Radix, radix.isDigit d := by
    intro radix
    cases radix <;> simp [Text.Radix.isDigit, h]
  cases hradix : Text.Radix.ofText (d :: rest) with
  | some radix => exact ⟨radix, rfl, hall radix⟩
  | none =>
    unfold Text.Radix.ofText at hradix
    split at hradix <;> simp_all

theorem number?_of_some {radix : Text.Radix} {c : Cursor} (h : Text.Radix.ofText c.rest = some radix) :
    number? c = (numeral radix >>= fun value => pure (some value)) c :=
  (bind_of_ok (get_apply c) _).trans (by rw [h])

theorem number?_of_none {c : Cursor} (h : Text.Radix.ofText c.rest = none) :
    number? c = (pure none : Scan (Option UInt32)) c :=
  (bind_of_ok (get_apply c) _).trans (by rw [h])

/-- What a number starts with shows where the scanner stops, since it would have taken a digit there. -/
theorem ofText_of_stop {before : List Char} {d : Char}
    (h : (stop (number? ⟨before, word ++ d :: rest⟩)).rest = d :: rest) (rest' : List Char) :
    Text.Radix.ofText (word ++ d :: rest) = Text.Radix.ofText (word ++ d :: rest') := by
  cases word with
  | cons a word => exact ofText_append (List.cons_ne_nil a word) d rest rest'
  | nil =>
    by_cases hd : d.isDigit
    · obtain ⟨radix, hradix, hdigit⟩ := exists_radix_of_isDigit hd rest
      have hnumber : number? ⟨before, [] ++ d :: rest⟩ = _ := number?_of_some hradix
      have hstop : (stop (numeral radix ⟨before, [] ++ d :: rest⟩)).rest = d :: rest := by
        rw [hnumber, bind_apply] at h
        revert h
        cases numeral radix ⟨before, [] ++ d :: rest⟩ <;> exact id
      exact absurd hdigit ((digits_of_stop hstop).2.2 rest d rfl)
    · have hapart : ∀ more, Apart Char.isDigit (d :: more) := by
        intro more c hc
        obtain rfl := Option.some.inj hc
        exact hd
      have hnone := fun more => Text.Radix.ofText_of_not_isDigit (hapart more)
      exact (hnone rest).trans (hnone rest').symm

theorem local_number? : Local number? := by
  refine ⟨takes_number?.forward, fun {before word d rest} hstop rest' => ?_⟩
  have hsame := ofText_of_stop hstop rest'
  cases hradix : Text.Radix.ofText (word ++ d :: rest) with
  | none =>
    have hfirst : number? ⟨before, word ++ d :: rest⟩ = _ := number?_of_none hradix
    have hother : number? ⟨before, word ++ d :: rest'⟩ = _ := number?_of_none (hsame.symm.trans hradix)
    rw [hfirst] at hstop ⊢
    rw [hother]
    exact (local_pure none).same hstop rest'
  | some radix =>
    have hfirst : number? ⟨before, word ++ d :: rest⟩ = _ := number?_of_some hradix
    have hother : number? ⟨before, word ++ d :: rest'⟩ = _ := number?_of_some (hsame.symm.trans hradix)
    rw [hfirst] at hstop ⊢
    rw [hother]
    exact ((local_numeral radix).bind fun value => local_pure (some value)).same hstop rest'

/-! ### Paths -/

theorem local_segments (n : Nat) (path : String) : Local (segments n path) := by
  induction n generalizing path with
  | zero => exact local_pure path
  | succ n ih => exact local_ifMatch '.' (((local_run? _ _).orFail _).bind fun _ => ih _) (local_pure path)

theorem bind_congr_of_ok {next next' : α → Scan β} {c : Cursor}
    (h : ∀ a c', scan c = .ok a c' → next a c' = next' a c') : (scan >>= next) c = (scan >>= next') c := by
  rw [bind_apply, bind_apply]
  cases hscan : scan c with
  | ok a c' => exact h a c' hscan
  | error fault c' => rfl

/-- A scanner leaves no more than it was given. -/
theorem Local.length_le (h : Local scan) {c c' : Cursor} {a : α} (hok : scan c = .ok a c') :
    c'.rest.length ≤ c.rest.length := by
  obtain ⟨word, hword⟩ := h.forward c
  rw [hok] at hword
  have happend : c.rest = word ++ c'.rest := hword.rest
  simp [happend]

theorem matchChar_eq_true {x : Char} {c c' : Cursor} (h : matchChar x c = .ok true c') :
    c.rest.length = c'.rest.length + 1 := by
  rw [matchChar] at h
  split_ifs at h with hx
  · obtain ⟨more, hmore⟩ := List.head?_eq_some_iff.1 hx
    obtain ⟨-, rfl⟩ := EStateM.Result.ok.inj h
    simp [Cursor.skip, hmore]
  · cases (EStateM.Result.ok.inj h).1

theorem segments_of_nil {c : Cursor} (h : c.rest = []) (n : Nat) (path : String) :
    segments n path c = .ok path c := by
  cases n with
  | zero => rfl
  | succ n =>
    have hmatch : matchChar '.' c = .ok false c := if_neg (by simp [Cursor.peek?, h])
    rw [segments, bind_of_ok hmatch]
    rfl

theorem segments_congr {n m : Nat} {c : Cursor} (hn : c.rest.length ≤ n) (hm : c.rest.length ≤ m)
    (path : String) : segments n path c = segments m path c := by
  induction n generalizing m c path with
  | zero =>
    have hnil := List.eq_nil_of_length_eq_zero (Nat.le_zero.1 hn)
    rw [segments_of_nil hnil, segments_of_nil hnil]
  | succ n ih =>
    cases m with
    | zero =>
      have hnil := List.eq_nil_of_length_eq_zero (Nat.le_zero.1 hm)
      rw [segments_of_nil hnil, segments_of_nil hnil]
    | succ m =>
      apply bind_congr_of_ok
      intro found c' hfound
      cases found with
      | false => rfl
      | true =>
        have hlength := matchChar_eq_true hfound
        apply bind_congr_of_ok
        intro segment c'' hsegment
        have hle := ((local_run? isNameStart isNameChar).orFail .segment).length_le hsegment
        exact ih (by omega) (by omega) _

theorem local_path? : Local path? := by
  refine (local_run? _ _).bind fun found => ?_
  cases found with
  | none => exact local_pure none
  | some first =>
    exact local_bounded (fun n => segments n first >>= fun path => pure (some path))
      (fun n => (local_segments n first).bind fun _ => local_pure _) fun hn hm => by
        rw [bind_apply, bind_apply, segments_congr hn hm]

/-! ### Series -/

theorem local_target (expected : Expected) : Local (target expected) := by
  refine local_ifMatch '@' (((local_run? _ _).orFail .addressName).bind fun _ => local_pure _)
    (local_number?.bind fun found => ?_)
  cases found with
  | some value => exact local_pure _
  | none => exact (local_path?.orFail expected).bind fun _ => local_pure _

theorem local_spaced (expected : Expected) {next : Target → Scan α} (h : ∀ t, Local (next t)) :
    Local (do blanks; let t ← target expected; blanks; next t) :=
  local_blanks.bind fun _ => (local_target expected).bind fun t => local_blanks.bind fun _ => h t

theorem local_moreTerms (n : Nat) (s : Series) : Local (moreTerms n s) := by
  induction n generalizing s with
  | zero => exact local_pure s
  | succ n ih =>
    refine local_peek (fun c c' hpeek => by rw [hpeek]) fun c => ?_
    cases c.peek?.bind Sign.ofSymbol? with
    | none => exact local_pure s
    | some sign => exact (local_skip 1).bind fun _ => local_spaced _ fun _ => ih _

theorem moreTerms_of_nil {c : Cursor} (h : c.rest = []) (n : Nat) (s : Series) :
    moreTerms n s c = .ok s c := by
  cases n with
  | zero => rfl
  | succ n =>
    rw [moreTerms, bind_of_ok (get_apply c), Cursor.peek?, h]
    rfl

/-- The sign of a further term is taken, so less is left than there was. -/
theorem moreTerms_congr {n m : Nat} {c : Cursor} (hn : c.rest.length ≤ n) (hm : c.rest.length ≤ m)
    (s : Series) : moreTerms n s c = moreTerms m s c := by
  induction n generalizing m c s with
  | zero =>
    have hnil := List.eq_nil_of_length_eq_zero (Nat.le_zero.1 hn)
    rw [moreTerms_of_nil hnil, moreTerms_of_nil hnil]
  | succ n ih =>
    cases m with
    | zero =>
      have hnil := List.eq_nil_of_length_eq_zero (Nat.le_zero.1 hm)
      rw [moreTerms_of_nil hnil, moreTerms_of_nil hnil]
    | succ m =>
      rw [moreTerms, moreTerms, bind_of_ok (get_apply c), bind_of_ok (get_apply c)]
      cases hsign : c.peek?.bind Sign.ofSymbol? with
      | none => rfl
      | some sign =>
        obtain ⟨d, hd, -⟩ := Option.bind_eq_some_iff.1 hsign
        obtain ⟨more, hmore⟩ := List.head?_eq_some_iff.1 hd
        have hskip : (c.skip 1).rest.length + 1 = c.rest.length := by simp [Cursor.skip, hmore]
        dsimp only
        rw [bind_of_ok (modify_apply _ c), bind_of_ok (modify_apply _ c)]
        apply bind_congr_of_ok
        intro _ c₁ h₁
        apply bind_congr_of_ok
        intro t c₂ h₂
        apply bind_congr_of_ok
        intro _ c₃ h₃
        have hle₁ := local_blanks.length_le h₁
        have hle₂ := (local_target _).length_le h₂
        have hle₃ := local_blanks.length_le h₃
        exact ih (by omega) (by omega) _

theorem local_series : Local series :=
  local_spaced .reference fun head =>
    local_bounded (moreTerms · (.single head)) (fun n => local_moreTerms n _) fun hn hm => moreTerms_congr hn hm _

end Scan

end Codesheet
