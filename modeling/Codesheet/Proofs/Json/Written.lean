import Codesheet.Json.Reading
import Mathlib.Tactic.IntervalCases
import Mathlib.Tactic.SplitIfs

/-! Written documents read back. A written document has one token for each of its parts, with
white space between some of them, and these tokens are read as the document that was written.
Numbers come back because a written document never goes on with a character of a number. -/

namespace Codesheet

/-! ### Numerals -/

theorem Text.decimal_cons_zero {n : Nat} {digits : List Char} (h : decimal n = '0' :: digits) :
    digits = [] := by
  induction n using Nat.strongRecOn generalizing digits with
  | ind n ih =>
    rw [decimal, Nat.toDigits_eq_if (by decide)] at h
    split_ifs at h with hn
    · exact (List.cons.inj h).2.symm
    · cases hd : decimal (n / 10) with
      | nil => exact absurd hd Nat.toDigits_ne_nil
      | cons first rest =>
        rw [decimal] at hd
        rw [hd] at h
        obtain ⟨rfl, -⟩ := List.cons.inj h
        obtain rfl := ih (n / 10) (by omega) hd
        -- the leading digits would be those of zero
        have hvalue := value_decimal (n / 10)
        rw [decimal, hd] at hvalue
        have hzero : Radix.decimal.value ['0'] = 0 := rfl
        omega

namespace Json

theorem isDigit_of_mem_decimal {n : Nat} {c : Char} (h : c ∈ Text.decimal n) : c.isDigit :=
  Nat.isDigit_of_mem_toDigits (by decide) (by decide) h

theorem exists_decimal_eq_cons (n : Nat) :
    ∃ first digits, Text.decimal n = first :: digits ∧ first.isDigit := by
  obtain ⟨first, digits, hd⟩ := List.exists_cons_of_ne_nil (l := Text.decimal n) Nat.toDigits_ne_nil
  refine ⟨first, digits, hd, isDigit_of_mem_decimal (n := n) ?_⟩
  rw [hd]
  exact List.mem_cons_self

/-- No number goes on at the start of a text. -/
def Ends (rest : List Char) : Prop :=
  ∀ c ∈ rest.head?, c.isDigit = false ∧ c ≠ '.' ∧ c ≠ 'e' ∧ c ≠ 'E'

theorem ends_nil : Ends [] := nofun

theorem digits?_decimal (n : Nat) {rest : List Char} (h : Ends rest) :
    digits? (Text.decimal n ++ rest) = some (Text.decimal n, rest) := by
  have hall : ∀ c ∈ Text.decimal n, c.isDigit := fun c hm => isDigit_of_mem_decimal hm
  have hstop : rest.takeWhile Char.isDigit = [] ∧ rest.dropWhile Char.isDigit = rest := by
    cases rest with
    | nil => exact ⟨rfl, rfl⟩
    | cons c rest => simp [(h c rfl).1]
  rw [digits?, List.takeWhile_append_of_pos hall, List.dropWhile_append_of_pos hall, hstop.1, hstop.2,
    List.append_nil]
  obtain ⟨first, digits, hd, -⟩ := exists_decimal_eq_cons n
  rw [hd]

theorem number?_decimal (n : Nat) {rest : List Char} (h : Ends rest) :
    number? (Text.decimal n ++ rest) = some (some n, rest) := by
  have hwhole : whole? (Text.decimal n ++ rest) = some (Text.decimal n, rest) := by
    rw [whole?, digits?_decimal n h]
    split
    · next hzero =>
      have hdigits := congrArg Prod.fst (Option.some.inj hzero)
      exact absurd (Text.decimal_cons_zero hdigits) (List.cons_ne_nil _ _)
    · rfl
  have hfraction : fraction? rest = some (false, rest) := by
    unfold fraction?
    split
    · next rest => exact absurd rfl (h '.' rfl).2.1
    · rfl
  have hexponent : exponent? rest = some (false, rest) := by
    cases rest with
    | nil => rfl
    | cons c rest => simp [exponent?, (h c rfl).2.2]
  have hsign : ∀ rest', Text.decimal n ++ rest ≠ '-' :: rest' := by
    intro rest' heq
    obtain ⟨first, digits, hd, hdigit⟩ := exists_decimal_eq_cons n
    rw [hd] at heq
    obtain ⟨rfl, -⟩ := List.cons.inj heq
    exact absurd hdigit (by decide)
  unfold number?
  split
  next negative cs heq =>
    split at heq
    · next rest' hminus => exact absurd hminus (hsign rest')
    · obtain ⟨rfl, rfl⟩ := Prod.mk.inj heq
      simp [hwhole, hfraction, hexponent, Text.value_decimal]

/-! ### Strings -/

/-- A letter after a backslash is one piece. -/
theorem pieces_letter {letter c : Char} (h : Piece.ofLetter? letter = some c) (cs : List Char) :
    pieces ('\\' :: letter :: cs) = (pieces cs).map fun (more, rest) => (.char c :: more, rest) := by
  have hu : letter ≠ 'u' := by
    rintro rfl
    cases h
  cases hp : pieces cs <;> simp [pieces, h, hu, hp]

theorem pieces_unit {a b c d : Char} {n : Nat} (h : Piece.ofDigits? [a, b, c, d] = some (.unit n))
    (cs : List Char) :
    pieces ('\\' :: 'u' :: a :: b :: c :: d :: cs) =
      (pieces cs).map fun (more, rest) => (.unit n :: more, rest) := by
  simp only [pieces, h]
  cases pieces cs <;> rfl

theorem pieces_plain {c : Char} (hq : c ≠ '"') (hb : c ≠ '\\') (hc : ¬ c.toNat < 0x20)
    (cs : List Char) :
    pieces (c :: cs) = (pieces cs).map fun (more, rest) => (.char c :: more, rest) := by
  simp [pieces, hb, hc]

theorem textOf?_char (c : Char) (more : List Piece) :
    textOf? (.char c :: more) = (textOf? more).map (c :: ·) := by
  rw [textOf?]

/-- A unit below the surrogates is a character of its own. -/
theorem textOf?_unit {n : Nat} (h : n < 0xD800) (more : List Piece) :
    textOf? (.unit n :: more) = (textOf? more).map (Char.ofNat n :: ·) := by
  have hhigh : isHighSurrogate n = false := by simp [isHighSurrogate]; omega
  have hlow : isLowSurrogate n = false := by simp [isLowSurrogate]; omega
  cases more with
  | nil => simp [textOf?, hhigh, hlow]
  | cons next more => cases next <;> simp [textOf?, hhigh, hlow]

theorem ofDigits?_control {n : Nat} (h : n < 0x20) :
    Piece.ofDigits? ['0', '0', Nat.digitChar (n / 16), Nat.digitChar (n % 16)] = some (.unit n) := by
  interval_cases n <;> decide

/-- The form in which a character is written stands for one piece, and the piece for it. -/
theorem exists_piece (c : Char) : ∃ p : Piece,
    (∀ cs, pieces (escape c ++ cs) = (pieces cs).map fun (more, rest) => (p :: more, rest)) ∧
      ∀ more, textOf? (p :: more) = (textOf? more).map (c :: ·) := by
  unfold escape
  split
  iterate 7 exact ⟨_, pieces_letter rfl, textOf?_char _⟩
  next hq hb _ _ _ _ _ =>
    split_ifs with hc
    · refine ⟨.unit c.toNat, pieces_unit (ofDigits?_control hc), fun more => ?_⟩
      rw [textOf?_unit (by omega), Char.ofNat_toNat]
    · exact ⟨.char c, pieces_plain hq hb hc, textOf?_char c⟩

theorem pieces_escape (cs rest : List Char) :
    ∃ ps, pieces (cs.flatMap escape ++ '"' :: rest) = some (ps, rest) ∧ textOf? ps = some cs := by
  induction cs with
  | nil => exact ⟨[], rfl, rfl⟩
  | cons c cs ih =>
    obtain ⟨ps, hps, htext⟩ := ih
    obtain ⟨p, hp, hc⟩ := exists_piece c
    refine ⟨p :: ps, ?_, ?_⟩
    · rw [List.flatMap_cons, List.append_assoc, hp, hps, Option.map_some]
    · rw [hc, htext, Option.map_some]

theorem read?_putString (text : String) (rest : List Char) :
    Token.read? (putString text rest) = some (.string (some text), rest) := by
  obtain ⟨ps, hps, htext⟩ := pieces_escape text.toList rest
  simp [putString, Token.read?, hps, htext]

/-! ### Tokens -/

/-- The white space of a style is white space. -/
structure Style.IsBlank (style : Style) : Prop where
  gap : ∀ depth, ∀ c ∈ style.gap depth, isSpace c
  afterColon : ∀ c ∈ style.afterColon, isSpace c

theorem isBlank_compact : Style.compact.IsBlank := ⟨nofun, nofun⟩

theorem isBlank_pretty : Style.pretty.IsBlank := by
  constructor
  · intro depth c hm
    rcases List.mem_cons.1 hm with rfl | hm
    · rfl
    · obtain rfl := List.eq_of_mem_replicate hm
      rfl
  · intro c hm
    obtain rfl := List.mem_singleton.1 hm
    rfl

mutual

/-- The tokens of a written document. -/
def written : Json → List Token
  | .null => [.null]
  | .bool b => [.bool b]
  | .number n => [.number (some n)]
  | .string text => [.string (some text)]
  | .array [] => [.openArray, .closeArray]
  | .array (item :: items) => .openArray :: (written item ++ writtenItems items)
  | .object [] => [.openObject, .closeObject]
  | .object ((key, value) :: members) =>
    .openObject :: .string (some key) :: .colon :: (written value ++ writtenMembers members)

/-- The tokens from the end of an item on. -/
def writtenItems : List Json → List Token
  | [] => [.closeArray]
  | item :: items => .comma :: (written item ++ writtenItems items)

/-- The tokens from the end of a member on. -/
def writtenMembers : List (String × Json) → List Token
  | [] => [.closeObject]
  | (key, value) :: members =>
    .comma :: .string (some key) :: .colon :: (written value ++ writtenMembers members)

end

/-- A text starts with some tokens, none of them empty, which another text follows. -/
structure Spells (cs : List Char) (ts : List Token) (rest : List Char) : Prop where
  tokens : ∀ n, tokensUpTo (n + ts.length) cs = ts ++ tokensUpTo n rest
  length : ts.length + rest.length ≤ cs.length

theorem Spells.append {cs middle rest : List Char} {ts us : List Token} (h : Spells cs ts middle)
    (h' : Spells middle us rest) : Spells cs (ts ++ us) rest := by
  constructor
  · intro n
    rw [List.length_append, Nat.add_comm ts.length, ← Nat.add_assoc, h.tokens, h'.tokens,
      List.append_assoc]
  · have := h.length
    have := h'.length
    rw [List.length_append]
    omega

theorem Spells.gap {gap cs rest : List Char} {ts : List Token} (h : Spells cs ts rest)
    (hgap : ∀ c ∈ gap, isSpace c) : Spells (gap ++ cs) ts rest := by
  constructor
  · intro n
    rw [← h.tokens n]
    cases n + ts.length with
    | zero => rfl
    | succ n => rw [tokensUpTo, tokensUpTo, List.dropWhile_append_of_pos hgap]
  · have := h.length
    rw [List.length_append]
    omega

theorem spells_token {cs rest : List Char} {token : Token}
    (h : Token.read? cs = some (token, rest)) (hs : ∀ c ∈ cs.head?, isSpace c = false)
    (hl : rest.length < cs.length) : Spells cs [token] rest := by
  constructor
  · intro n
    cases cs with
    | nil => cases h
    | cons c cs => simp [tokensUpTo, hs c rfl, h]
  · rw [List.length_singleton]
    omega

/-- A token of one character. -/
theorem spells_mark {c : Char} {rest : List Char} {token : Token}
    (h : Token.read? (c :: rest) = some (token, rest)) (hs : isSpace c = false) :
    Spells (c :: rest) [token] rest :=
  spells_token h (by rintro c ⟨⟩; exact hs) (Nat.lt_succ_self _)

theorem spells_string (text : String) (rest : List Char) :
    Spells (putString text rest) [.string (some text)] rest := by
  refine spells_token (read?_putString text rest) (by rintro c ⟨⟩; rfl) ?_
  simp only [putString, List.length_cons, List.length_append]
  omega

theorem read?_decimal (n : Nat) {rest : List Char} (h : Ends rest) :
    Token.read? (Text.decimal n ++ rest) = some (.number (some n), rest) := by
  have hnumber := number?_decimal n h
  obtain ⟨first, digits, hd, hdigit⟩ := exists_decimal_eq_cons n
  have hne : ∀ c : Char, c.isDigit = false → first ≠ c := by
    rintro c hc rfl
    rw [hc] at hdigit
    cases hdigit
  rw [hd, List.cons_append] at hnumber ⊢
  unfold Token.read?
  split
  iterate 10
    next heq => exact absurd (List.cons.inj heq).1 (hne _ rfl)
  rw [hnumber, Option.map_some]

theorem ends_of_isSpace {c : Char} (h : isSpace c) (rest : List Char) : Ends (c :: rest) := by
  intro d hd
  obtain rfl := Option.some.inj hd
  simp only [isSpace, Bool.or_eq_true, decide_eq_true_eq] at h
  rcases h with ((rfl | rfl) | rfl) | rfl <;> decide

theorem spells_number {rest : List Char} (h : Ends rest) (n : Nat) :
    Spells (Text.decimal n ++ rest) [.number (some n)] rest := by
  obtain ⟨first, digits, hd, hdigit⟩ := exists_decimal_eq_cons n
  have hlength : rest.length < (Text.decimal n ++ rest).length := by
    rw [hd, List.length_append, List.length_cons]
    omega
  refine spells_token (read?_decimal n h) (fun c hc => ?_) hlength
  rw [hd] at hc
  obtain rfl := Option.some.inj hc
  by_contra hspace
  have hnot := ((ends_of_isSpace (by simpa using hspace) []) first rfl).1
  rw [hnot] at hdigit
  cases hdigit

theorem ends_gap {gap : List Char} (h : ∀ c ∈ gap, isSpace c) {c : Char} (hc : Ends [c])
    (rest : List Char) : Ends (gap ++ c :: rest) := by
  cases gap with
  | nil => exact hc
  | cons first gap => exact ends_of_isSpace (h first List.mem_cons_self) _

variable {style : Style}

theorem ends_putItems (hs : style.IsBlank) (depth : Nat) (items : List Json) (rest : List Char) :
    Ends (putItems style depth items rest) := by
  cases items with
  | nil =>
    rw [putItems]
    exact ends_gap (hs.gap depth) (by rintro c ⟨⟩; decide) rest
  | cons item items =>
    rw [putItems]
    rintro c ⟨⟩
    decide

theorem ends_putMembers (hs : style.IsBlank) (depth : Nat) (members : List (String × Json))
    (rest : List Char) : Ends (putMembers style depth members rest) := by
  cases members with
  | nil =>
    rw [putMembers]
    exact ends_gap (hs.gap depth) (by rintro c ⟨⟩; decide) rest
  | cons first members =>
    obtain ⟨key, value⟩ := first
    rw [putMembers]
    rintro c ⟨⟩
    decide

/-- A key and its value, up to what follows the value. -/
theorem spells_member (hs : style.IsBlank) (key : String) {cs rest : List Char} {ts : List Token}
    (h : Spells cs ts rest) (depth : Nat) :
    Spells (style.gap depth ++ putString key (':' :: (style.afterColon ++ cs)))
      (.string (some key) :: .colon :: ts) rest := by
  have hcolon : Spells (':' :: (style.afterColon ++ cs)) [.colon] (style.afterColon ++ cs) :=
    spells_mark rfl rfl
  have hvalue := hcolon.append (h.gap hs.afterColon)
  exact ((spells_string key _).append hvalue).gap (hs.gap depth)

mutual

/-- A written document has its tokens, and then goes on with what follows it. -/
theorem spells_put (hs : style.IsBlank) (depth : Nat) : ∀ (j : Json) {rest : List Char}, Ends rest →
    Spells (j.put style depth rest) (written j) rest
  | .null, rest, h => spells_token rfl (by rintro c ⟨⟩; rfl) (by simp [put]; omega)
  | .bool true, rest, h => spells_token rfl (by rintro c ⟨⟩; rfl) (by simp [put]; omega)
  | .bool false, rest, h => spells_token rfl (by rintro c ⟨⟩; rfl) (by simp [put]; omega)
  | .number n, rest, h => spells_number h n
  | .string text, rest, h => spells_string text rest
  | .array [], rest, h => by
    have hopen : Spells ((Json.array []).put style depth rest) [.openArray] (']' :: rest) :=
      spells_mark rfl rfl
    exact hopen.append (spells_mark rfl rfl)
  | .array (item :: items), rest, h => by
    have hopen : Spells ((Json.array (item :: items)).put style depth rest) [.openArray] _ :=
      spells_mark rfl rfl
    have hitem := spells_put hs (depth + 1) item (ends_putItems hs depth items rest)
    have hitems := spells_putItems hs depth items rest
    exact hopen.append ((hitem.append hitems).gap (hs.gap (depth + 1)))
  | .object [], rest, h => by
    have hopen : Spells ((Json.object []).put style depth rest) [.openObject] ('}' :: rest) :=
      spells_mark rfl rfl
    exact hopen.append (spells_mark rfl rfl)
  | .object ((key, value) :: members), rest, h => by
    have hopen : Spells ((Json.object ((key, value) :: members)).put style depth rest)
        [.openObject] _ := spells_mark rfl rfl
    have hvalue := spells_put hs (depth + 1) value (ends_putMembers hs depth members rest)
    have hmembers := spells_putMembers hs depth members rest
    exact hopen.append (spells_member hs key (hvalue.append hmembers) (depth + 1))

theorem spells_putItems (hs : style.IsBlank) (depth : Nat) : ∀ (items : List Json) (rest : List Char),
    Spells (putItems style depth items rest) (writtenItems items) rest
  | [], rest => by
    have hclose : Spells (']' :: rest) [.closeArray] rest := spells_mark rfl rfl
    exact hclose.gap (hs.gap depth)
  | item :: items, rest => by
    have hcomma : Spells (putItems style depth (item :: items) rest) [.comma] _ :=
      spells_mark rfl rfl
    have hitem := spells_put hs (depth + 1) item (ends_putItems hs depth items rest)
    have hitems := spells_putItems hs depth items rest
    exact hcomma.append ((hitem.append hitems).gap (hs.gap (depth + 1)))

theorem spells_putMembers (hs : style.IsBlank) (depth : Nat) :
    ∀ (members : List (String × Json)) (rest : List Char),
      Spells (putMembers style depth members rest) (writtenMembers members) rest
  | [], rest => by
    have hclose : Spells ('}' :: rest) [.closeObject] rest := spells_mark rfl rfl
    exact hclose.gap (hs.gap depth)
  | (key, value) :: members, rest => by
    have hcomma : Spells (putMembers style depth ((key, value) :: members) rest) [.comma] _ :=
      spells_mark rfl rfl
    have hvalue := spells_put hs (depth + 1) value (ends_putMembers hs depth members rest)
    have hmembers := spells_putMembers hs depth members rest
    exact hcomma.append (spells_member hs key (hvalue.append hmembers) (depth + 1))

end

theorem tokens_put (hs : style.IsBlank) (j : Json) : tokens (j.put style 0 []) = written j := by
  have h := spells_put hs 0 j ends_nil
  have hlength := h.length
  obtain ⟨n, hn⟩ := Nat.exists_eq_add_of_le' (Nat.le_of_add_right_le hlength)
  have hend : tokensUpTo n [] = [] := by cases n <;> rfl
  rw [tokens, hn, h.tokens, hend, List.append_nil]

/-! ### Documents -/

mutual

/-- What a document is read as. -/
def reading : Json → Reading
  | .null => .null
  | .bool b => .bool b
  | .number n => .number (some n)
  | .string text => .string (some text)
  | .array items => .array (readings items)
  | .object members => .object (memberReadings members)

def readings : List Json → List Reading
  | [] => []
  | item :: items => reading item :: readings items

def memberReadings : List (String × Json) → List (Option String × Reading)
  | [] => []
  | (key, value) :: members => (some key, reading value) :: memberReadings members

end

theorem reading_array (items : List Json) : reading (.array items) = .array (items.map reading) := by
  rw [reading]
  congr 1
  induction items with
  | nil => rfl
  | cons item items ih => rw [readings, ih, List.map_cons]

theorem reading_object (members : List (String × Json)) :
    reading (.object members) =
      .object (members.map fun member => (some member.1, reading member.2)) := by
  rw [reading]
  congr 1
  induction members with
  | nil => rfl
  | cons member members ih =>
    obtain ⟨key, value⟩ := member
    rw [memberReadings, ih, List.map_cons]

theorem written_ne_closeArray (j : Json) (ts : List Token) :
    (written j ++ ts).head? ≠ some .closeArray := by
  unfold written
  split <;> simp

theorem value_openArray {ts : List Token} (h : ts.head? ≠ some .closeArray) (frames : List Frame) :
    Reading.value frames (.openArray :: ts) = Reading.value (.array [] :: frames) ts := by
  rw [Reading.value]
  rintro rest rfl
  exact h rfl

mutual

/-- The tokens of a document are read as it, whatever is open around it. -/
theorem value_written : ∀ (j : Json) (frames : List Frame) (ts : List Token),
    Reading.value frames (written j ++ ts) = Reading.after frames (reading j) ts
  | .null, frames, ts => by rw [written, reading, List.singleton_append, Reading.value]
  | .bool b, frames, ts => by rw [written, reading, List.singleton_append, Reading.value]
  | .number n, frames, ts => by rw [written, reading, List.singleton_append, Reading.value]
  | .string text, frames, ts => by rw [written, reading, List.singleton_append, Reading.value]
  | .array [], frames, ts => by
    rw [written, reading, readings, List.cons_append, List.singleton_append, Reading.value]
  | .array (item :: items), frames, ts => by
    rw [written, List.cons_append, List.append_assoc, value_openArray (written_ne_closeArray item _),
      value_written item, after_writtenItems items, reading, readings, List.reverse_nil, List.nil_append]
  | .object [], frames, ts => by
    rw [written, reading, memberReadings, List.cons_append, List.singleton_append, Reading.value]
  | .object ((key, value) :: members), frames, ts => by
    rw [written, List.cons_append, List.cons_append, List.cons_append, List.append_assoc, Reading.value,
      value_written value, after_writtenMembers members, reading, memberReadings, List.reverse_nil,
      List.nil_append]

theorem after_writtenItems : ∀ (items : List Json) (before : List Reading) (frames : List Frame)
    (read : Reading) (ts : List Token),
    Reading.after (.array before :: frames) read (writtenItems items ++ ts) =
      Reading.after frames (.array (before.reverse ++ read :: readings items)) ts
  | [], before, frames, read, ts => by
    rw [writtenItems, List.singleton_append, Reading.after, Reading.ofArray, List.reverse_cons, readings]
  | item :: items, before, frames, read, ts => by
    rw [writtenItems, List.cons_append, List.append_assoc, Reading.after, value_written item,
      after_writtenItems items, readings, List.reverse_cons, List.append_assoc, List.singleton_append]

theorem after_writtenMembers : ∀ (members : List (String × Json))
    (before : List (Option String × Reading)) (key : Option String) (frames : List Frame)
    (read : Reading) (ts : List Token),
    Reading.after (.object before key :: frames) read (writtenMembers members ++ ts) =
      Reading.after frames (.object (before.reverse ++ (key, read) :: memberReadings members)) ts
  | [], before, key, frames, read, ts => by
    rw [writtenMembers, List.singleton_append, Reading.after, Reading.ofObject, List.reverse_cons,
      memberReadings]
  | (next, value) :: members, before, key, frames, read, ts => by
    rw [writtenMembers, List.cons_append, List.cons_append, List.cons_append, List.append_assoc,
      Reading.after, value_written value, after_writtenMembers members, memberReadings,
      List.reverse_cons, List.append_assoc, List.singleton_append]

end

/-- A document that was written in either form is read back. -/
theorem ofText_put {style : Style} (hs : style.IsBlank) (j : Json) :
    Reading.ofText (String.ofList (j.put style 0 [])) = (reading j, []) := by
  have hvalue := value_written j [] []
  rw [List.append_nil, Reading.after] at hvalue
  rw [Reading.ofText, String.toList_ofList, tokens_put hs, hvalue]

end Json

end Codesheet
