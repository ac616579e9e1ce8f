import Codesheet.Proofs.Interchange.ReadBack

/-! Decoding again what was decoded. A text may give the fields of a record in any order, or their
values alone, and hold more than the record does. The document that is written for the decoded value is
another form of it, which its decoder takes too, and which opens no more arrays and objects inside
each other than the text did. -/

namespace Codesheet

namespace Json

variable {ε α β γ : Type}

/-! ### Parts -/

theorem Part.map_eq_value {f : α → β} {x : Part ε α} {b : β} (h : f <$> x = .value b) :
    ∃ a, x = .value a ∧ f a = b := by
  cases x with
  | value a => exact ⟨a, rfl, Part.value.inj h⟩
  | fault place flaw => cases h

theorem Part.seq_eq_value {f : Part ε (α → β)} {x : Part ε α} {b : β} (h : f <*> x = .value b) :
    ∃ g a, f = .value g ∧ x = .value a ∧ g a = b := by
  cases f with
  | value g =>
    cases x with
    | value a => exact ⟨g, a, rfl, rfl, Part.value.inj h⟩
    | fault place flaw => cases h
  | fault place flaw =>
    cases x with
    | value a => cases h
    | fault other flaw' =>
      change (if place ≤ other then Part.fault place flaw else Part.fault other flaw') = .value b at h
      split_ifs at h

namespace Members

variable {ms : Members} {key : String} {d : Decoder ε α} {a : α}

/-- The first value that is given under a key. -/
def value? (ms : Members) (key : String) : Option Reading := (ms.find key).head?.map Prod.snd

theorem fieldOr_eq_value {missing : Option α} (h : ms.fieldOr key missing d = .value a) :
    missing = some a ∨ ∃ read, ms.value? key = some read ∧ d ms.levels read = .ok a := by
  unfold fieldOr at h
  split at h
  · left
    cases missing with
    | none => cases h
    | some b => rw [Part.value.inj h]
  · next place read more hfind =>
    right
    have hread : ms.value? key = some read := by rw [value?, hfind, List.head?_cons, Option.map_some]
    cases hd : d ms.levels read with
    | error flaw =>
      rw [hd] at h
      cases h
    | ok b =>
      rw [hd] at h
      cases more with
      | nil => exact ⟨read, hread, by rw [hd, Part.value.inj h]⟩
      | cons second more => cases h

theorem field_eq_value (h : ms.field key d = .value a) :
    ∃ read, ms.value? key = some read ∧ d ms.levels read = .ok a :=
  (fieldOr_eq_value h).resolve_left nofun

end Members

/-- The members of a record, under their own keys or in the order of the keys. -/
def Reading.members (keys : List String) (listing : Listing) : Reading → List (Option String × Reading)
  | .object members => members
  | .array items => (Members.ofList 0 keys listing items).list
  | _ => []

/-- A record opens a level, and is what its fields are. -/
theorem record_eq_ok {keys : List String} {listing : Listing} {fields : Members → Part ε α} {levels : Nat}
    {read : Reading} {a : α} (h : Decoder.record keys listing fields levels read = .ok a) :
    ∃ ms : Members, levels = ms.levels + 1 ∧ ms.list = read.members keys listing ∧ fields ms = .value a := by
  have hgather : ∀ ms : Members, Decoder.record.gather keys fields ms = .ok a → fields ms = .value a := by
    intro ms hms
    unfold Decoder.record.gather at hms
    cases hp : ((fun _ a => a) <$> ms.others keys <*> fields ms : Part ε α) with
    | fault place flaw =>
      rw [hp] at hms
      cases hms
    | value b =>
      rw [hp] at hms
      obtain rfl := Except.ok.inj hms
      obtain ⟨g, c, hg, hfields, rfl⟩ := Part.seq_eq_value hp
      obtain ⟨_, -, rfl⟩ := Part.map_eq_value hg
      exact hfields
  unfold Decoder.record at h
  split at h
  · next n members => exact ⟨⟨n, members⟩, rfl, rfl, hgather _ h⟩
  · next n items => exact ⟨.ofList n keys listing items, rfl, rfl, hgather _ h⟩
  · cases h

/-! ### Stable decoders -/

namespace Decoder

/-- What is decoded is decoded again at the same levels, from the document that is written for it. -/
def Stable (d : Decoder ε α) (toJson : α → Json) : Prop :=
  ∀ levels read a, d levels read = .ok a → d levels (reading (toJson a)) = .ok a

variable {d : Decoder ε α} {toJson : α → Json}

theorem stable_bool : Stable (bool : Decoder ε Bool) .bool := by
  intro levels read b h
  rfl

theorem stable_string : Stable (string : Decoder ε String) .string := by
  intro levels read text h
  rfl

theorem string_eq_ok {levels : Nat} {read : Reading} {text : String}
    (h : (string levels read : Except (Flaw ε) String) = .ok text) : read = .string (some text) := by
  unfold string at h
  split at h
  · rw [Except.ok.inj h]
  · cases h

theorem stable_word : Stable (word : Decoder ε UInt32) fun value => .number value.toNat :=
  fun levels _ value _ => word_toNat value levels

theorem count_lt {levels n : Nat} {read : Reading} (h : (count levels read : Except (Flaw ε) Nat) = .ok n) :
    n < UInt64.size := by
  unfold count naturalBelow at h
  split at h
  · next m =>
    split_ifs at h with hm
    rwa [← Except.ok.inj h]
  · cases h

theorem stable_count : Stable (count : Decoder ε Nat) .number :=
  fun levels _ _ h => count_of_lt (count_lt h) levels

theorem stable_named {values : List (String × α)} {name : α → String}
    (h : ∀ a, values.lookup (name a) = some a) :
    Stable (named values : Decoder ε α) fun a => .string (name a) := by
  intro levels read a _
  rw [reading, named, h]

/-- A value that stands for nothing is written as null, which no other one is. -/
theorem Stable.optional (hd : Stable d toJson) (hnull : ∀ levels a, d levels .null ≠ .ok a) :
    Stable (optional d) fun found => found.elim .null toJson := by
  intro levels read found h
  cases found with
  | none => rfl
  | some a =>
    have ha : d levels (reading (toJson a)) = .ok a := by
      unfold Decoder.optional at h
      split at h
      · cases h
      · cases hr : d levels read with
        | error flaw =>
          rw [hr] at h
          cases h
        | ok b =>
          rw [hr] at h
          obtain rfl : b = a := Option.some.inj (Except.ok.inj h)
          exact hd levels read b hr
    show Decoder.optional d levels (reading (toJson a)) = .ok (some a)
    rw [Decoder.optional, ha]
    · rfl
    · intro hread
      rw [hread] at ha
      exact hnull levels a ha

theorem list_eq_ok {levels : Nat} {read : Reading} {as : List α} (h : list d levels read = .ok as) :
    ∃ n items, levels = n + 1 ∧ read = .array items ∧
      List.Forall₂ (fun item a => d n item = .ok a) items as := by
  unfold list at h
  split at h
  · next n items => exact ⟨n, items, rfl, rfl, mapM_eq_ok.1 h⟩
  · cases h

/-- A member of a list is decoded from one of the items. -/
theorem exists_item {levels : Nat} {read : Reading} {as : List α} (h : list d levels read = .ok as) :
    ∃ n, levels = n + 1 ∧ ∀ a ∈ as, ∃ item, d n item = .ok a := by
  obtain ⟨n, items, hlevels, -, hitems⟩ := list_eq_ok h
  refine ⟨n, hlevels, fun a hm => ?_⟩
  obtain ⟨item, -, hitem⟩ := exists_of_forall₂_right hitems hm
  exact ⟨item, hitem⟩

theorem Stable.list (hd : Stable d toJson) : Stable (list d) fun as => .array (as.map toJson) := by
  intro levels read as h
  obtain ⟨n, rfl, hitems⟩ := exists_item h
  refine list_of_ok fun a hm => ?_
  obtain ⟨item, hitem⟩ := hitems a hm
  exact hd n item a hitem

theorem meaning_eq_ok {f : α → Except ε β} {levels : Nat} {read : Reading} {b : β} :
    meaning d f levels read = .ok b ↔ ∃ a, d levels read = .ok a ∧ f a = .ok b := by
  unfold meaning
  cases d levels read with
  | error flaw => simp [bind, Except.bind]
  | ok a => cases hf : f a <;> simp [bind, Except.bind, hf]

/-- A value with a meaning is written as what means it. -/
theorem Stable.meaning (hd : Stable d toJson) {f : α → Except ε β} {g : β → α}
    (hf : ∀ a b, f a = .ok b ↔ a = g b) : Stable (meaning d f) fun b => toJson (g b) := by
  intro levels read b h
  obtain ⟨a, hread, hfa⟩ := meaning_eq_ok.1 h
  obtain rfl := (hf a b).1 hfa
  exact meaning_eq_ok.2 ⟨_, hd levels read _ hread, hfa⟩

variable {keys : List String} {key : String} {members : List (String × Json)} {i : Nat} {a : α}

theorem Stable.fieldOr (hd : Stable d toJson) {missing : Option α}
    (hmissing : ∀ levels a, missing = some a → d levels (reading (toJson a)) = .ok a) {ms : Members}
    (hvalue : ms.fieldOr key missing d = .value a) (hn : keys.Nodup) (hkeys : members.map Prod.fst = keys)
    (h : members[i]? = some (key, toJson a)) :
    (Members.written ms.levels members).fieldOr key missing d = .value a := by
  rw [Members.fieldOr_written hn hkeys h]
  rcases Members.fieldOr_eq_value hvalue with hm | ⟨read, -, hread⟩
  · rw [hmissing ms.levels a hm]
    rfl
  · rw [hd ms.levels read a hread]
    rfl

/-- A field that was decoded is decoded again from its own member. -/
theorem Stable.field (hd : Stable d toJson) {ms : Members} (hvalue : ms.field key d = .value a)
    (hn : keys.Nodup) (hkeys : members.map Prod.fst = keys) (h : members[i]? = some (key, toJson a)) :
    (Members.written ms.levels members).field key d = .value a := by
  show (Members.written ms.levels members).fieldOr key none d = .value a
  exact hd.fieldOr (fun _ _ h => by cases h) hvalue hn hkeys h

/-- A record of two fields is written with both. -/
theorem Stable.record₂ {d₁ : Decoder ε α} {d₂ : Decoder ε β} {toJson₁ : α → Json} {toJson₂ : β → Json}
    (h₁ : Stable d₁ toJson₁) (h₂ : Stable d₂ toJson₂) {first second : String} (hne : first ≠ second)
    {mk : α → β → γ} {toJson : γ → Json}
    (hjson : ∀ a b, toJson (mk a b) = .object [(first, toJson₁ a), (second, toJson₂ b)]) :
    Stable (record [first, second] .complete fun ms => mk <$> ms.field first d₁ <*> ms.field second d₂)
      toJson := by
  intro levels read c h
  obtain ⟨ms, rfl, -, hfields⟩ := record_eq_ok h
  obtain ⟨_, b, hfirst, hb, rfl⟩ := Part.seq_eq_value hfields
  obtain ⟨a, ha, rfl⟩ := Part.map_eq_value hfirst
  have hn : [first, second].Nodup := List.nodup_cons.2 ⟨by simpa using hne, List.nodup_singleton second⟩
  rw [hjson, record_written (by rfl), h₁.field ha hn (by rfl) (i := 0) (by rfl),
    h₂.field hb hn (by rfl) (i := 1) (by rfl)]
  rfl

/-! ### Texts -/

theorem text_eq_ok {text : String} (h : d.text text = .ok a) : d 127 (Reading.ofText text).1 = .ok a := by
  unfold Decoder.text at h
  cases hd : d 127 (Reading.ofText text).1 with
  | error flaw => simp [hd, bind, Except.bind] at h
  | ok b =>
    simp only [hd, bind, Except.bind] at h
    split_ifs at h
    exact h

/-- What is read from a text is read again from the text that is written for it, on one line or with one
value on a line. -/
def Reencodes (d : Decoder ε α) (toJson : α → Json) : Prop :=
  ∀ text a, d.text text = .ok a → d.text (toJson a).compact = .ok a ∧ d.text (toJson a).pretty = .ok a

theorem Stable.reencodes (hd : Stable d toJson) : Reencodes d toJson := by
  intro text a h
  have hagain := hd 127 _ a (text_eq_ok h)
  constructor
  · rw [text_compact, hagain]
  · rw [text_pretty, hagain]

end Decoder

end Json

open Json Json.Decoder

/-! ### Plain records -/

theorem Line.stable_decoder : Stable Line.decoder Line.toJson :=
  stable_count.record₂ stable_string (by decide) fun _ _ => rfl

theorem Kind.stable_decoder : Stable Kind.decoder Kind.toJson :=
  stable_named fun kind => by cases kind <;> rfl

theorem Link.stable_decoder : Stable Link.decoder Link.toJson :=
  stable_string.record₂ stable_bool (by decide) fun _ _ => rfl

theorem Evaluation.stable_decoder : Stable Evaluation.decoder Evaluation.toJson :=
  stable_word.record₂ Link.stable_decoder.list (by decide) fun _ _ => rfl

theorem BitField.stable_decoder : Stable BitField.decoder BitField.toJson :=
  stable_string.record₂ stable_word (by decide) fun _ _ => rfl

/-! ### Series -/

/-- A target opens a level for its kind. -/
theorem Target.stable_decoder : Stable Target.decoder Target.toJson := by
  intro levels read target h
  cases levels with
  | zero => cases h
  | succ levels => exact target.decoder_toJson levels

theorem signs_stable :
    Stable (named Term.signs : DataDecoder (Option Sign)) fun sign => .string (Term.signName sign) :=
  stable_named fun sign => by
    cases sign with
    | none => rfl
    | some sign => cases sign <;> rfl

theorem Term.stable_decoder : Stable Term.decoder Term.toJson :=
  Target.stable_decoder.record₂ signs_stable (by decide) fun _ _ => rfl

namespace Series

theorem terms_of_foldlM_push? {s s' : Series} {terms : List Term} (h : terms.foldlM push? s = .ok s') :
    s'.terms = s.terms ++ terms := by
  induction terms generalizing s with
  | nil =>
    obtain rfl := Except.ok.inj h
    exact (List.append_nil _).symm
  | cons term terms ih =>
    obtain ⟨sign, target⟩ := term
    cases sign with
    | none => cases h
    | some sign =>
      have hrest : terms.foldlM push? (s.push sign target) = .ok s' := h
      rw [ih hrest, terms_push, List.append_assoc, List.singleton_append]

/-- The lists of terms that make up a series are those that a series has. -/
theorem ofTerms?_eq_ok_iff {terms : List Term} {s : Series} : ofTerms? terms = .ok s ↔ terms = s.terms := by
  constructor
  · intro h
    cases terms with
    | nil => cases h
    | cons head rest =>
      obtain ⟨sign, target⟩ := head
      cases sign with
      | some sign => cases h
      | none =>
        have hrest : rest.foldlM push? (single target) = .ok s := h
        rw [terms_of_foldlM_push? hrest]
        rfl
  · rintro rfl
    exact ofTerms?_terms s

theorem stable_decoder : Stable Series.decoder Series.toJson :=
  Term.stable_decoder.list.meaning fun _ _ => ofTerms?_eq_ok_iff

end Series

/-! ### Constants -/

/-- A child is decoded with two levels less than its parent, in the text as in the document. -/
theorem Node.stable_decoder : Stable Node.decoder Node.toJson := by
  intro levels
  induction levels using Nat.twoStepInduction with
  | zero => intro read n h; cases h
  | one => intro read n h; cases h
  | more levels ih _ =>
    intro read n h
    have hchildren : Stable (fun _ => Node.decoder levels) Node.toJson := fun _ => ih
    obtain ⟨ms, hlevels, -, hfields⟩ := record_eq_ok h
    obtain ⟨_, fields, hthird, hbits, rfl⟩ := Part.seq_eq_value hfields
    obtain ⟨_, children, hsecond, hnodes, rfl⟩ := Part.seq_eq_value hthird
    obtain ⟨_, value, hfirst, hvalue, rfl⟩ := Part.seq_eq_value hsecond
    obtain ⟨name, hname, rfl⟩ := Part.map_eq_value hfirst
    have hn : ["name", "value", "children", "bit_fields"].Nodup := by decide
    have hms : ms.levels = levels + 1 := by omega
    rw [Node.toJson, Node.allToJson_eq_map, Node.decoder, record_written (by rfl), ← hms,
      stable_string.field hname hn (by rfl) (i := 0) (by rfl),
      stable_word.field hvalue hn (by rfl) (i := 1) (by rfl),
      hchildren.list.field hnodes hn (by rfl) (i := 2) (by rfl),
      BitField.stable_decoder.list.field hbits hn (by rfl) (i := 3) (by rfl)]
    rfl

theorem Forest.stable_decoder : Stable Forest.decoder Forest.toJson := by
  intro levels read f h
  obtain ⟨ms, rfl, -, hfields⟩ := record_eq_ok h
  obtain ⟨roots, hroots, rfl⟩ := Part.map_eq_value hfields
  have hn : ["roots"].Nodup := by decide
  rw [Forest.toJson, Forest.decoder, record_written (by rfl),
    Node.stable_decoder.list.field hroots hn (by rfl) (i := 0) (by rfl)]
  rfl

/-! ### Programs -/

theorem Entry.stable_decoder : Stable Entry.decoder Entry.toJson := by
  intro levels read e h
  obtain ⟨ms, rfl, -, hfields⟩ := record_eq_ok h
  obtain ⟨_, line, hsecond, hline, rfl⟩ := Part.seq_eq_value hfields
  obtain ⟨_, series, hfirst, hseries, rfl⟩ := Part.seq_eq_value hsecond
  obtain ⟨name, hname, rfl⟩ := Part.map_eq_value hfirst
  have hn : ["name", "value", "line"].Nodup := by decide
  rw [Entry.toJson, Entry.decoder, record_written (by rfl),
    stable_string.field hname hn (by rfl) (i := 0) (by rfl),
    Series.stable_decoder.field hseries hn (by rfl) (i := 1) (by rfl),
    stable_count.field hline hn (by rfl) (i := 2) (by rfl)]
  rfl

/-- A tag that is left out is written as null. -/
theorem Instruction.stable_decoder : Stable Instruction.decoder Instruction.toJson := by
  intro levels read i h
  obtain ⟨ms, rfl, -, hfields⟩ := record_eq_ok h
  obtain ⟨_, line, hfourth, hline, rfl⟩ := Part.seq_eq_value hfields
  obtain ⟨_, level, hthird, hlevel, rfl⟩ := Part.seq_eq_value hfourth
  obtain ⟨_, args, hsecond, hargs, rfl⟩ := Part.seq_eq_value hthird
  obtain ⟨_, func, hfirst, hfunc, rfl⟩ := Part.seq_eq_value hsecond
  obtain ⟨tag, htag, rfl⟩ := Part.map_eq_value hfirst
  have hn : ["tag", "func", "args", "indent", "line"].Nodup := by decide
  have hoptional : Stable (optional string : DataDecoder (Option String)) fun tag => tag.elim .null .string :=
    stable_string.optional nofun
  have hmissing : ∀ levels (tag : Option String), some none = some tag →
      (optional string : DataDecoder (Option String)) levels (reading (tag.elim .null .string)) = .ok tag := by
    rintro levels _ ⟨⟩
    rfl
  rw [Instruction.toJson, Instruction.decoder, record_written (by rfl),
    hoptional.fieldOr hmissing htag hn (by rfl) (i := 0) (by rfl),
    stable_string.field hfunc hn (by rfl) (i := 1) (by rfl),
    Series.stable_decoder.list.field hargs hn (by rfl) (i := 2) (by rfl),
    stable_count.field hlevel hn (by rfl) (i := 3) (by rfl),
    stable_count.field hline hn (by rfl) (i := 4) (by rfl)]
  rfl

theorem Program.stable_decoder : Stable Program.decoder Program.toJson := by
  intro levels read p h
  obtain ⟨ms, rfl, -, hfields⟩ := record_eq_ok h
  obtain ⟨_, instructions, hsecond, hinstructions, rfl⟩ := Part.seq_eq_value hfields
  obtain ⟨_, table, hfirst, htable, rfl⟩ := Part.seq_eq_value hsecond
  obtain ⟨constants, hconstants, rfl⟩ := Part.map_eq_value hfirst
  have hn : ["constants", "table", "instructions"].Nodup := by decide
  rw [Program.toJson, Program.decoder, record_written (by rfl),
    Forest.stable_decoder.field hconstants hn (by rfl) (i := 0) (by rfl),
    Entry.stable_decoder.list.field htable hn (by rfl) (i := 1) (by rfl),
    Instruction.stable_decoder.list.field hinstructions hn (by rfl) (i := 2) (by rfl)]
  rfl

/-- Whatever text a value is read from, the text that is written for the value is read as that value, for
every type of data. The lists of terms that are read as a series are those that series are written as. -/
theorem data_reencodes :
    Reencodes Line.decoder Line.toJson ∧ Reencodes Link.decoder Link.toJson ∧
      Reencodes Evaluation.decoder Evaluation.toJson ∧ Reencodes Kind.decoder Kind.toJson ∧
      Reencodes BitField.decoder BitField.toJson ∧ Reencodes Term.decoder Term.toJson ∧
      Reencodes Series.decoder Series.toJson ∧ Reencodes Node.decoder Node.toJson ∧
      Reencodes Forest.decoder Forest.toJson ∧ Reencodes Entry.decoder Entry.toJson ∧
      Reencodes Instruction.decoder Instruction.toJson ∧ Reencodes Program.decoder Program.toJson ∧
      ∀ terms s, Series.ofTerms? terms = .ok s ↔ terms = s.terms :=
  ⟨Line.stable_decoder.reencodes, Link.stable_decoder.reencodes, Evaluation.stable_decoder.reencodes,
    Kind.stable_decoder.reencodes, BitField.stable_decoder.reencodes, Term.stable_decoder.reencodes,
    Series.stable_decoder.reencodes, Node.stable_decoder.reencodes, Forest.stable_decoder.reencodes,
    Entry.stable_decoder.reencodes, Instruction.stable_decoder.reencodes, Program.stable_decoder.reencodes,
    fun _ _ => Series.ofTerms?_eq_ok_iff⟩

/-- An instruction whose fields are turned round, with one that is no field, without a tag, with an escape
in its name and with a sign as an object. -/
theorem instruction_reencodes :
    let text := "\x7b\"line\":4, \"note\":[\x7b\x7d], \"indent\":1, \"func\":\"N\\u004fP\", " ++
      "\"args\":[[[\x7b\"Literal\":1\x7d,\"None\"],[\x7b\"Address\":\"s\"\x7d,\x7b\"Add\":null\x7d]]]\x7d"
    let i : Instruction := ⟨none, "NOP", [⟨.literal 1, [(.plus, .address "s")]⟩], 1, 4⟩
    Instruction.decoder.text text = .ok i ∧ Instruction.decoder.text i.toJson.compact = .ok i ∧
      Instruction.decoder.text i.toJson.pretty = .ok i := by
  intro text i
  have htext : Instruction.decoder.text text = .ok i := by decide +kernel
  obtain ⟨-, -, -, -, -, -, -, -, -, -, hinstruction, -⟩ := data_reencodes
  exact ⟨htext, hinstruction text i htext⟩

end Codesheet
