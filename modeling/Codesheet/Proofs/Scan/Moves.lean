import Codesheet.Proofs.Grammar.Lines

/-! How scanners move over a line. From wherever it starts, a scanner passes over a word and stops behind
it, or it stops at a misfit that is no further back than its start. What it takes is stated of the word and
of the text behind the word; in return, a word that has to be taken is taken. -/

namespace Codesheet

variable {α β : Type} {c c' c'' : Cursor} {u v word rest : List Char}

/-! ### Positions -/

/-- The second position is behind a word that starts at the first one. -/
structure Cursor.Passes (c : Cursor) (word : List Char) (c' : Cursor) : Prop where
  rest : c.rest = word ++ c'.rest
  before : c'.before = word.reverse ++ c.before

namespace Cursor.Passes

theorem refl (c : Cursor) : c.Passes [] c := ⟨rfl, rfl⟩

theorem trans (h : c.Passes u c') (h' : c'.Passes v c'') : c.Passes (u ++ v) c'' := by
  refine ⟨?_, ?_⟩
  · rw [h.rest, h'.rest, List.append_assoc]
  · rw [h'.before, h.before, List.reverse_append, List.append_assoc]

theorem text (h : c.Passes word c') : c'.text = c.text := by
  simp [Cursor.text, h.rest, h.before]

theorem column (h : c.Passes word c') : c'.column = c.column + word.length := by
  simp only [Cursor.column, h.before, List.length_append, List.length_reverse]
  omega

theorem eq_of_nil (h : c.Passes [] c') : c' = c := by
  obtain ⟨before, rest⟩ := c
  obtain ⟨before', rest'⟩ := c'
  have hrest : rest = rest' := h.rest
  have hbefore : before' = before := h.before
  rw [hrest, hbefore]

theorem skip (c : Cursor) (n : Nat) : c.Passes (c.rest.take n) (c.skip n) :=
  ⟨(List.take_append_drop n c.rest).symm, rfl⟩

theorem skipWhile (c : Cursor) (p : Char → Bool) : c.Passes (c.rest.takeWhile p) (c.skipWhile p) :=
  ⟨List.takeWhile_append_dropWhile.symm, rfl⟩

end Cursor.Passes

/-- No character with a property comes next. -/
def Apart (p : Char → Bool) (rest : List Char) : Prop := ∀ c ∈ rest.head?, ¬ p c

theorem Apart.mono {p q : Char → Bool} (h : Apart p rest) (hq : ∀ c, q c → p c) : Apart q rest :=
  fun c hc hqc => h c hc (hq c hqc)

/-- The text is at its end, or one of some characters comes next. -/
def Follows (chars rest : List Char) : Prop := ∀ c ∈ rest.head?, c ∈ chars

theorem Follows.apart {chars : List Char} (h : Follows chars rest) {p : Char → Bool}
    (hp : chars.any p = false) : Apart p rest :=
  fun c hc => List.any_eq_false.1 hp c (h c hc)

theorem Follows.head?_ne {chars : List Char} (h : Follows chars rest) {c : Char} (hc : c ∉ chars) :
    rest.head? ≠ some c :=
  fun heq => hc (h c heq)

theorem follows_nil (chars : List Char) : Follows chars [] := nofun

theorem follows_cons {chars : List Char} {c : Char} (h : c ∈ chars) (rest : List Char) :
    Follows chars (c :: rest) := by
  intro d hd
  obtain rfl := Option.some.inj hd
  exact h

theorem Follows.replicate {chars : List Char} (h : Follows chars rest) (c : Char) (n : Nat) :
    Follows (c :: chars) (List.replicate n c ++ rest) := by
  cases n with
  | zero => exact fun d hd => List.mem_cons_of_mem _ (h d hd)
  | succ n => exact follows_cons List.mem_cons_self _

namespace Scan

/-! ### What a scanner takes -/

/-- A word that is passed over with what it is read as, or a misfit on the way. -/
inductive Outcome (L : List Char → List Char → α → Prop) (c : Cursor) : EStateM.Result Fault Cursor α → Prop
  where
  | ok {a : α} {word : List Char} {c' : Cursor} (passed : c.Passes word c') (read : L word c'.rest a) :
    Outcome L c (.ok a c')
  | misfit {column : Nat} {expected : Expected} {word : List Char} {c' : Cursor} (passed : c.Passes word c')
    (lower : c.column ≤ column) (upper : column ≤ c'.column) :
    Outcome L c (.error (.grammar 0 column expected c.text) c')

/-- Wherever the scanner starts, it takes a word of a language or stops at a misfit. Whether a word is
taken may hang on the text behind it. -/
def Takes (scan : Scan α) (L : List Char → List Char → α → Prop) : Prop := ∀ c, Outcome L c (scan c)

variable {scan : Scan α} {L M : List Char → List Char → α → Prop}

theorem Outcome.mono {result : EStateM.Result Fault Cursor α} (h : Outcome L c result)
    (hL : ∀ word rest a, L word rest a → M word rest a) : Outcome M c result := by
  cases h with
  | ok passed read => exact .ok passed (hL _ _ _ read)
  | misfit passed lower upper => exact .misfit passed lower upper

theorem Takes.mono (h : Takes scan L) (hL : ∀ word rest a, L word rest a → M word rest a) :
    Takes scan M :=
  fun c => (h c).mono hL

theorem Takes.of_ok {a : α} (h : Takes scan L) (hok : scan c = .ok a c') :
    ∃ word, c.Passes word c' ∧ L word c'.rest a := by
  have hc := h c
  rw [hok] at hc
  cases hc with
  | ok passed read => exact ⟨_, passed, read⟩

theorem Takes.of_error {fault : Fault} (h : Takes scan L) (herror : scan c = .error fault c') :
    ∃ column expected, fault = .grammar 0 column expected c.text ∧ c.column ≤ column ∧ column ≤ c'.column := by
  have hc := h c
  rw [herror] at hc
  cases hc with
  | misfit passed lower upper => exact ⟨_, _, rfl, lower, upper⟩

theorem takes_pure (a : α) : Takes (pure a) fun word _ b => word = [] ∧ b = a :=
  fun c => .ok (.refl c) ⟨rfl, rfl⟩

theorem Outcome.bind {next : α → Scan β} {N : α → List Char → List Char → β → Prop}
    (h : Outcome L c (scan c)) (hn : ∀ a, Takes (next a) (N a)) :
    Outcome (fun word rest b => ∃ u v a, word = u ++ v ∧ L u (v ++ rest) a ∧ N a v rest b) c
      ((scan >>= next) c) := by
  rw [bind_apply]
  generalize scan c = result at h
  cases h with
  | misfit passed lower upper => exact .misfit passed lower upper
  | @ok a u c' passed read =>
    have hnext := hn a c'
    dsimp only
    generalize next a c' = result' at hnext
    cases hnext with
    | ok passed' read' =>
      rw [passed'.rest] at read
      exact .ok (passed.trans passed') ⟨u, _, a, rfl, read, read'⟩
    | misfit passed' lower upper =>
      rw [passed.text]
      have hle := passed.column
      exact .misfit (passed.trans passed') (by omega) upper

theorem Takes.bind {next : α → Scan β} {N : α → List Char → List Char → β → Prop} (h : Takes scan L)
    (hn : ∀ a, Takes (next a) (N a)) :
    Takes (scan >>= next) fun word rest b =>
      ∃ u v a, word = u ++ v ∧ L u (v ++ rest) a ∧ N a v rest b :=
  fun c => (h c).bind hn

theorem Takes.bind_pure (h : Takes scan L) (f : α → β) :
    Takes (scan >>= fun a => pure (f a)) fun word rest b => ∃ a, L word rest a ∧ b = f a := by
  refine (h.bind fun a => takes_pure (f a)).mono ?_
  rintro _ rest b ⟨u, _, a, rfl, hread, rfl, rfl⟩
  rw [List.append_nil]
  exact ⟨a, hread, rfl⟩

/-- A scanner may ask how much is left of its line. -/
theorem takes_get {next : Cursor → Scan α} (h : ∀ c, Takes (next c) L) : Takes (get >>= next) L :=
  fun c => h c c

theorem takes_fail (expected : Expected) (L : List Char → List Char → α → Prop) : Takes (fail expected) L :=
  fun c => .misfit (.refl c) (Nat.le_refl _) (Nat.le_refl _)

theorem takes_matchChar (x : Char) :
    Takes (matchChar x) fun word _ found => word = if found then [x] else [] := by
  intro c
  rw [matchChar]
  split_ifs with h
  · have hword : c.rest.take 1 = [x] := by
      obtain ⟨rest, hrest⟩ := List.head?_eq_some_iff.1 h
      rw [hrest]
      rfl
    exact .ok (.skip c 1) hword
  · exact .ok (.refl c) rfl

/-- A scanner may go on in two ways, one of them behind a character. -/
theorem takes_ifMatch (x : Char) {yes no : Scan α} (hyes : Takes yes L) (hno : Takes no M) :
    Takes (matchChar x >>= fun found => if found then yes else no) fun word rest a =>
      (∃ v, word = x :: v ∧ L v rest a) ∨ M word rest a := by
  refine ((takes_matchChar x).bind
    (N := fun found word rest a => if found then L word rest a else M word rest a) fun found => ?_).mono ?_
  · cases found
    · exact hno
    · exact hyes
  · rintro _ rest a ⟨u, v, found, rfl, rfl, hread⟩
    cases found
    · exact .inr hread
    · exact .inl ⟨v, rfl, hread⟩

theorem takes_expectChar (x : Char) : Takes (expectChar x) fun word _ _ => word = [x] := by
  refine (takes_ifMatch x (takes_pure ()) (takes_fail (.character x) fun _ _ _ => False)).mono ?_
  rintro word rest _ (⟨v, rfl, rfl, -⟩ | hnever)
  · rfl
  · exact hnever.elim

theorem takes_expectEnd : Takes expectEnd fun word rest _ => word = [] ∧ rest = [] := by
  intro c
  have happly : expectEnd c = if c.isAtEnd then .ok () c else .error (c.fault .lineEnd) c := by
    rw [expectEnd, bind_of_ok (get_apply c)]
    cases c.isAtEnd <;> rfl
  rw [happly]
  split_ifs with h
  · exact .ok (.refl c) ⟨rfl, List.isEmpty_iff.1 h⟩
  · exact .misfit (.refl c) (Nat.le_refl _) (Nat.le_refl _)

theorem takes_blanks : Takes blanks fun word _ _ => ∃ n, word = List.replicate n ' ' := by
  intro c
  refine .ok (.skipWhile c _) ⟨(c.rest.takeWhile (· = ' ')).length, ?_⟩
  exact List.eq_replicate_of_mem fun d hd => by simpa using List.mem_takeWhile_imp hd

/-- A run starts in its own way and has characters of one class alone. -/
theorem takes_run? {start p : Char → Bool} (hp : ∀ d, start d → p d) :
    Takes (run? start p) fun word _ found =>
      match found with
      | none => word = []
      | some name => name = String.ofList word ∧
        ∃ d ds, word = d :: ds ∧ start d ∧ ∀ e ∈ ds, p e := by
  intro c
  rw [run?_apply]
  split_ifs with h
  · refine .ok (.skipWhile c p) ⟨rfl, ?_⟩
    obtain ⟨d, hd, hstart⟩ := (Option.any_eq_true _ _).1 h
    obtain ⟨ds, hds⟩ := List.head?_eq_some_iff.1 hd
    rw [hds, List.takeWhile_cons_of_pos (hp d hstart)]
    exact ⟨d, _, rfl, hstart, fun e he => List.mem_takeWhile_imp he⟩
  · exact .ok (.refl c) rfl

theorem Takes.orFail {scan : Scan (Option α)} {L : List Char → List Char → Option α → Prop}
    (h : Takes scan L) (expected : Expected) :
    Takes (orFail scan expected) fun word rest a => L word rest (some a) := by
  refine (h.bind (N := fun found word _ a => found = some a ∧ word = []) fun found => ?_).mono ?_
  · cases found with
    | none => exact takes_fail _ _
    | some a => exact (takes_pure a).mono fun _ _ _ h => ⟨by rw [h.2], h.1⟩
  · rintro _ rest a ⟨u, v, _, rfl, hread, rfl, rfl⟩
    rwa [List.append_nil]

/-! ### What a scanner has to take -/

/-- In front of some text the scanner takes a word, whatever comes before the word. -/
def Reads (scan : Scan α) (word rest : List Char) (a : α) : Prop :=
  ∀ before, scan ⟨before, word ++ rest⟩ = .ok a ⟨word.reverse ++ before, rest⟩

theorem reads_pure (a : α) (rest : List Char) : Reads (pure a) [] rest a := fun _ => rfl

theorem Reads.bind {next : α → Scan β} {a : α} {b : β} (h : Reads scan u (v ++ rest) a)
    (hn : Reads (next a) v rest b) : Reads (scan >>= next) (u ++ v) rest b := by
  intro before
  rw [List.append_assoc, bind_of_ok (h before), hn, List.reverse_append, List.append_assoc]

theorem Reads.bind_pure {a : α} (h : Reads scan word rest a) (f : α → β) :
    Reads (scan >>= fun a => pure (f a)) word rest (f a) := by
  intro before
  rw [bind_of_ok (h before), pure_apply]

theorem reads_get {next : Cursor → Scan α} {a : α}
    (h : ∀ c : Cursor, c.rest = word ++ rest → Reads (next c) word rest a) :
    Reads (get >>= next) word rest a :=
  fun before => h _ rfl before

theorem reads_skip (word rest : List Char) : Reads (modify (·.skip word.length)) word rest ⟨⟩ := by
  intro before
  simp [Cursor.skip]

theorem reads_matchChar (x : Char) (rest : List Char) : Reads (matchChar x) [x] rest true :=
  fun _ => if_pos rfl

theorem reads_matchChar_of_ne {x : Char} (h : rest.head? ≠ some x) : Reads (matchChar x) [] rest false :=
  fun _ => if_neg h

theorem reads_ifMatch (x : Char) {yes no : Scan α} {a : α} (h : Reads yes word rest a) :
    Reads (matchChar x >>= fun found => if found then yes else no) (x :: word) rest a :=
  (reads_matchChar x _).bind (u := [x]) h

theorem reads_ifMatch_of_ne {x : Char} {yes no : Scan α} {a : α} (hx : (word ++ rest).head? ≠ some x)
    (h : Reads no word rest a) : Reads (matchChar x >>= fun found => if found then yes else no) word rest a :=
  (reads_matchChar_of_ne hx).bind (u := []) h

theorem reads_expectChar (x : Char) (rest : List Char) : Reads (expectChar x) [x] rest () := by
  intro before
  rw [expectChar, bind_of_ok (reads_matchChar x rest before)]
  rfl

theorem reads_expectEnd : Reads expectEnd [] [] () := fun _ => rfl

theorem takeWhile_of_apart {p : Char → Bool} (hword : ∀ c ∈ word, p c) (h : Apart p rest) :
    (word ++ rest).takeWhile p = word ∧ (word ++ rest).dropWhile p = rest := by
  rw [List.takeWhile_append_of_pos hword, List.dropWhile_append_of_pos hword]
  cases rest with
  | nil => exact ⟨List.append_nil word, rfl⟩
  | cons c rest =>
    have hc : ¬ p c := h c rfl
    rw [List.takeWhile_cons_of_neg hc, List.dropWhile_cons_of_neg hc]
    exact ⟨List.append_nil word, rfl⟩

theorem skipWhile_of_apart {p : Char → Bool} (hword : ∀ c ∈ word, p c) (h : Apart p rest)
    (before : List Char) :
    Cursor.skipWhile ⟨before, word ++ rest⟩ p = ⟨word.reverse ++ before, rest⟩ := by
  obtain ⟨htake, hdrop⟩ := takeWhile_of_apart hword h
  rw [Cursor.skipWhile, htake, hdrop]

/-- What is left behind the longest run does not go on with it. -/
theorem apart_dropWhile (p : Char → Bool) (cs : List Char) : Apart p (cs.dropWhile p) := by
  intro d hd hp
  have hstop := List.head?_dropWhile_not p cs
  rw [hd] at hstop
  simp [hp] at hstop

theorem reads_blanks (n : Nat) (h : rest.head? ≠ some ' ') :
    Reads blanks (List.replicate n ' ') rest () := by
  intro before
  have hapart : Apart (fun c => decide (c = ' ')) rest := by
    intro c hc heq
    rw [of_decide_eq_true heq] at hc
    exact h hc
  have hword : ∀ c ∈ List.replicate n ' ', decide (c = ' ') :=
    fun c hc => decide_eq_true (List.eq_of_mem_replicate hc)
  rw [blanks, skipWhile_of_apart hword hapart]

theorem reads_run? {start p : Char → Bool} {d : Char} {ds : List Char} (hstart : start d) (hd : p d)
    (hds : ∀ e ∈ ds, p e) (h : Apart p rest) :
    Reads (run? start p) (d :: ds) rest (some (String.ofList (d :: ds))) := by
  intro before
  have hword : ∀ e ∈ d :: ds, p e := List.forall_mem_cons.2 ⟨hd, hds⟩
  have hany : (Cursor.mk before (d :: ds ++ rest)).peek?.any start := hstart
  rw [run?_apply, if_pos hany, (takeWhile_of_apart hword h).1, skipWhile_of_apart hword h]

theorem Reads.orFail {scan : Scan (Option α)} {a : α} (h : Reads scan word rest (some a))
    (expected : Expected) : Reads (orFail scan expected) word rest a := by
  intro before
  rw [Scan.orFail, bind_of_ok (h before)]
  rfl

/-! ### Whole texts -/

/-- A result without the position where the scanner stopped. -/
def answer : EStateM.Result Fault Cursor α → Except Fault α
  | .ok a _ => .ok a
  | .error fault _ => .error fault

/-- What becomes of a text by a language: it is accepted as the one thing that it is read as, or it has a
misfit and is not in the language. -/
inductive Decided (L : α → Prop) (text : String) : Except Fault α → Prop where
  | accepted {a : α} (read : L a) (only : ∀ b, L b → b = a) : Decided L text (.ok a)
  | rejected (column : Nat) (expected : Expected) (none : ∀ a, ¬ L a) :
    Decided L text (.error (.grammar 0 column expected text))

namespace Decided

variable {L : α → Prop} {text : String} {result : Except Fault α}

theorem ok_iff (h : Decided L text result) (a : α) : result = .ok a ↔ L a := by
  cases h with
  | accepted read only =>
    constructor
    · rintro heq
      exact Except.ok.inj heq ▸ read
    · intro ha
      rw [only a ha]
  | rejected column expected none => exact ⟨nofun, fun ha => absurd ha (none a)⟩

theorem misfit_iff (h : Decided L text result) :
    (∃ column expected, result = .error (.grammar 0 column expected text)) ↔ ∀ a, ¬ L a := by
  cases h with
  | accepted read only => exact ⟨nofun, fun hnone => absurd read (hnone _)⟩
  | rejected column expected none => exact ⟨fun _ => none, fun _ => ⟨column, expected, rfl⟩⟩

end Decided

/-- A scanner that takes a text up to its end accepts the words of a language and nothing else. -/
theorem Takes.decided {L : List Char → α → Prop} (h : Takes scan fun word rest a => rest = [] ∧ L word a)
    (hread : ∀ word a, L word a → Reads scan word [] a) (c : Cursor) :
    Decided (L c.rest) c.text (answer (scan c)) := by
  have hok : ∀ a, L c.rest a → ∃ c', scan c = .ok a c' := by
    intro a ha
    have hrun := hread c.rest a ha c.before
    rw [List.append_nil] at hrun
    exact ⟨_, hrun⟩
  have hc := h c
  generalize scan c = result at hc hok
  cases hc with
  | @ok a word c' passed read =>
    obtain ⟨hend, hword⟩ := read
    rw [← List.append_nil word, ← hend, ← passed.rest] at hword
    refine .accepted hword fun b hb => ?_
    obtain ⟨_, heq⟩ := hok b hb
    exact (EStateM.Result.ok.inj heq).1.symm
  | misfit passed lower upper =>
    refine .rejected _ _ fun a ha => ?_
    obtain ⟨_, heq⟩ := hok a ha
    cases heq

end Scan

end Codesheet
