import Codesheet.Interchange.Decode
import Codesheet.Proofs.Constants.Steps
import Codesheet.Proofs.Json.Written
import Codesheet.Proofs.Keys

/-! Decoded documents of data. What a decoder makes of the document of a value is that value, if
the document does not open more arrays and objects than the decoder may. Only the nodes of
constants nest without a bound, and a program with a node that is too deep is refused. -/

namespace Codesheet

namespace Json

variable {ε α β : Type}

/-! ### Records -/

/-- A part that is decoded, or not, at some place. -/
def Part.at (place : Nat) : Except (Flaw ε) α → Part ε α
  | .ok a => .value a
  | .error flaw => .fault place flaw

namespace Members

/-- The members of a written object. -/
def written (levels : Nat) (members : List (String × Json)) : Members :=
  ⟨levels, members.map fun member => (some member.1, reading member.2)⟩

variable {levels i : Nat} {members : List (String × Json)} {keys : List String} {key : String}
  {j : Json}

theorem find_written (hn : keys.Nodup) (hkeys : members.map Prod.fst = keys)
    (h : members[i]? = some (key, j)) : (written levels members).find key = [(i, reading j)] := by
  have hplaced : ((written levels members).list.zipIdx.map fun member => member.1.1).Nodup := by
    have hsame : (written levels members).list.zipIdx.map (fun member => member.1.1) =
        (written levels members).list.map Prod.fst := by
      conv_rhs => rw [← List.zipIdx_map_fst 0 (written levels members).list, List.map_map]
      rfl
    have hlist : (written levels members).list.map Prod.fst = keys.map some := by
      rw [← hkeys, written, List.map_map, List.map_map]
      rfl
    rw [hsame, hlist]
    exact hn.map (Option.some_injective _)
  have hmem : ((some key, reading j), i) ∈ (written levels members).list.zipIdx := by
    rw [List.mk_mem_zipIdx_iff_getElem?, written, List.getElem?_map, h, Option.map_some]
  have hfind : (written levels members).find key =
      ((written levels members).list.zipIdx.filter (·.1.1 = some key)).filterMap
        (some ∘ fun member => (member.2, member.1.2)) := by
    rw [List.filterMap_filter]
    exact List.filterMap_congr fun member _ => by simp [decide_eq_true_eq]
  rw [hfind, filter_key_eq_singleton hplaced hmem]
  rfl

/-- A field is decoded from its own member. -/
theorem fieldOr_written (hn : keys.Nodup) (hkeys : members.map Prod.fst = keys)
    (h : members[i]? = some (key, j)) (missing : Option α) (d : Decoder ε α) :
    (written levels members).fieldOr key missing d = .at i (d levels (reading j)) := by
  unfold fieldOr
  rw [find_written hn hkeys h]
  cases hd : d levels (reading j) <;> simp only [written, hd, Part.at]

theorem field_written (hn : keys.Nodup) (hkeys : members.map Prod.fst = keys)
    (h : members[i]? = some (key, j)) (d : Decoder ε α) :
    (written levels members).field key d = .at i (d levels (reading j)) :=
  fieldOr_written hn hkeys h none d

theorem others_written (hkeys : members.map Prod.fst = keys) :
    ((written levels members).others keys : Part ε Unit) = .value () := by
  rw [others, List.findIdx?_eq_none_iff.2]
  rintro ⟨other, read⟩ hm
  obtain ⟨member, hmember, heq⟩ := List.mem_map.1 hm
  obtain ⟨rfl, -⟩ := Prod.mk.inj heq
  have hkey : member.1 ∈ keys := hkeys ▸ List.mem_map_of_mem hmember
  simp [hkey]

end Members

/-- A written record with its keys and no others is what its fields are. -/
theorem record_written {keys : List String} {members : List (String × Json)}
    (hkeys : members.map Prod.fst = keys) (listing : Listing) (fields : Members → Part ε α)
    (levels : Nat) :
    Decoder.record keys listing fields (levels + 1) (reading (.object members)) =
      (fields (.written levels members)).result := by
  have hothers : ((Members.written levels members).others keys : Part ε Unit) = .value () :=
    Members.others_written hkeys
  have hmembers : (⟨levels, members.map fun member => (some member.1, reading member.2)⟩ : Members) =
      .written levels members := rfl
  rw [reading_object, Decoder.record, Decoder.record.gather, hmembers, hothers]
  cases fields (.written levels members) <;> rfl

/-! ### Lists -/

theorem list_of_ok {d : Decoder ε α} {toJson : α → Json} {levels : Nat} {as : List α}
    (h : ∀ a ∈ as, d levels (reading (toJson a)) = .ok a) :
    Decoder.list d (levels + 1) (reading (.array (as.map toJson))) = .ok as := by
  rw [reading_array, Decoder.list, List.map_map]
  induction as with
  | nil => rfl
  | cons a as ih =>
    obtain ⟨ha, has⟩ := List.forall_mem_cons.1 h
    rw [List.map_cons, List.mapM_cons, ih has, Function.comp_apply, ha]
    rfl

/-- The first item that is refused is the fault. -/
theorem list_of_error {d : Decoder ε α} {toJson : α → Json} {levels : Nat} {as : List α}
    {flaw : Flaw ε} (h : ∀ a ∈ as, d levels (reading (toJson a)) = .ok a ∨
      d levels (reading (toJson a)) = .error flaw)
    (hex : ∃ a ∈ as, d levels (reading (toJson a)) = .error flaw) :
    Decoder.list d (levels + 1) (reading (.array (as.map toJson))) = .error flaw := by
  rw [reading_array, Decoder.list, List.map_map]
  induction as with
  | nil =>
    obtain ⟨_, hm, -⟩ := hex
    cases hm
  | cons a as ih =>
    obtain ⟨ha, has⟩ := List.forall_mem_cons.1 h
    rw [List.map_cons, List.mapM_cons, Function.comp_apply]
    rcases ha with ha | ha
    · obtain ⟨b, hb, hfault⟩ := hex
      have hrest : ∃ b ∈ as, d levels (reading (toJson b)) = .error flaw := by
        rcases List.mem_cons.1 hb with rfl | hb
        · rw [ha] at hfault
          cases hfault
        · exact ⟨b, hb, hfault⟩
      rw [ha, ih has hrest]
      rfl
    · rw [ha]
      rfl

/-- A list of values, each of which is or is not decoded, is decoded if all of them are. -/
theorem list_of_cases (d : Decoder ε α) (levels : Nat) {toJson : α → Json} {as : List α}
    {flaw : Flaw ε} {P : α → Prop} (h : ∀ a ∈ as, (P a → d levels (reading (toJson a)) = .ok a) ∧
      (¬ P a → d levels (reading (toJson a)) = .error flaw)) :
    ((∀ a ∈ as, P a) → Decoder.list d (levels + 1) (reading (.array (as.map toJson))) = .ok as) ∧
      ((¬ ∀ a ∈ as, P a) →
        Decoder.list d (levels + 1) (reading (.array (as.map toJson))) = .error flaw) := by
  constructor
  · intro hall
    exact list_of_ok fun a hm => (h a hm).1 (hall a hm)
  · intro hnot
    push Not at hnot
    obtain ⟨a, hm, ha⟩ := hnot
    refine list_of_error (fun b hb => ?_) ⟨a, hm, (h a hm).2 ha⟩
    by_cases hP : P b
    · exact .inl ((h b hb).1 hP)
    · exact .inr ((h b hb).2 hP)

theorem word_toNat (value : UInt32) (levels : Nat) :
    (Decoder.word levels (reading (.number value.toNat)) : Except (Flaw ε) UInt32) = .ok value := by
  rw [reading, Decoder.word, Decoder.naturalBelow, if_pos value.toNat_lt, Except.map, UInt32.ofNat_toNat]

theorem count_of_lt {n : Nat} (h : n < UInt64.size) (levels : Nat) :
    (Decoder.count levels (reading (.number n)) : Except (Flaw ε) Nat) = .ok n := by
  rw [reading, Decoder.count, Decoder.naturalBelow, if_pos h]

/-- A written text is decoded as the document that was written. -/
theorem text_put {style : Style} (hs : style.IsBlank) (d : Decoder ε α) (j : Json) :
    d.text (String.ofList (j.put style 0 [])) = d 127 (reading j) := by
  rw [Decoder.text, ofText_put hs]
  dsimp only
  cases d 127 (reading j) <;> rfl

theorem text_compact (d : Decoder ε α) (j : Json) : d.text j.compact = d 127 (reading j) :=
  text_put isBlank_compact d j

theorem text_pretty (d : Decoder ε α) (j : Json) : d.text j.pretty = d 127 (reading j) :=
  text_put isBlank_pretty d j

end Json

open Json Json.Decoder Json.Members

/-! ### Series -/

theorem Target.decoder_toJson (target : Target) (levels : Nat) :
    Target.decoder (levels + 1) (reading target.toJson) = .ok target := by
  cases target with
  | address name => rfl
  | path text => rfl
  | literal value =>
    have hword := word_toNat (ε := SeriesFault) value levels
    rw [Target.toJson, reading_object, Target.decoder]
    simp only [List.map_cons, List.map_nil, tagged, hword]
    rfl

theorem signs_decoder (sign : Option Sign) (levels : Nat) :
    (named Term.signs levels (reading (.string (Term.signName sign))) : Except (Flaw SeriesFault) _) =
      .ok sign := by
  cases sign with
  | none => rfl
  | some sign => cases sign <;> rfl

theorem Term.decoder_toJson (term : Term) (levels : Nat) :
    Term.decoder (levels + 2) (reading term.toJson) = .ok term := by
  have hn : ["target", "op"].Nodup := by decide
  rw [Term.toJson, Term.decoder, record_written (by rfl),
    field_written (i := 0) hn (by rfl) (by rfl), field_written (i := 1) hn (by rfl) (by rfl),
    Target.decoder_toJson, signs_decoder]
  rfl

theorem Series.decoder_toJson (s : Series) (levels : Nat) :
    Series.decoder (levels + 3) (reading s.toJson) = .ok s := by
  have hterms : list Term.decoder (levels + 3) (reading s.toJson) = .ok s.terms :=
    list_of_ok fun term _ => Term.decoder_toJson term levels
  simp only [Series.decoder, meaning, hterms, bind, Except.bind, Series.ofTerms?_terms]

/-! ### Constants -/

theorem BitField.decoder_toJson (field : BitField) (levels : Nat) :
    BitField.decoder (levels + 1) (reading field.toJson) = .ok field := by
  have hn : ["name", "size"].Nodup := by decide
  rw [BitField.toJson, BitField.decoder, record_written (by rfl),
    field_written (i := 0) hn (by rfl) (by rfl), field_written (i := 1) hn (by rfl) (by rfl),
    word_toNat]
  rfl

/-- The bit fields of a node are one level below it, so they need one if there are any. -/
theorem BitField.list_decoder_toJson (fields : List BitField) (levels : Nat) :
    list BitField.decoder (levels + 1) (reading (.array (fields.map BitField.toJson))) =
      if fields = [] ∨ 0 < levels then .ok fields else .error .malformed := by
  cases levels with
  | zero =>
    cases fields with
    | nil => rfl
    | cons field fields =>
      rw [if_neg (by simp)]
      exact list_of_error (fun field _ => .inr rfl) ⟨field, List.mem_cons_self, rfl⟩
  | succ levels =>
    rw [if_pos (.inr levels.succ_pos)]
    exact list_of_ok fun field _ => BitField.decoder_toJson field levels

namespace Node

/-- Every node opens two levels below those of the nodes above it, and one more for its bit
fields, which a decoder of so many levels may open. -/
def Within (levels : Nat) (n : Node) : Prop :=
  ∀ path m, n.at? path = some m →
    2 * path.length + 2 ≤ levels ∧ (m.bitFields ≠ [] → 2 * path.length + 3 ≤ levels)

theorem two_le_of_within {levels : Nat} {n : Node} (h : n.Within levels) : 2 ≤ levels := by
  have := (h [] n rfl).1
  simpa using this

theorem within_add_two {levels : Nat} {n : Node} :
    n.Within (levels + 2) ↔
      (∀ child ∈ n.children, child.Within levels) ∧ (n.bitFields = [] ∨ 0 < levels) := by
  constructor
  · intro h
    refine ⟨fun child hm path m hpath => ?_, ?_⟩
    · obtain ⟨i, hi⟩ := List.getElem?_of_mem hm
      have hbelow := h (i :: path) m (by rw [at?_cons, hi, Option.bind_some, hpath])
      rw [List.length_cons] at hbelow
      exact ⟨by omega, fun hfields => by have := hbelow.2 hfields; omega⟩
    · have hhere := (h [] n rfl).2
      rw [List.length_nil] at hhere
      by_cases hfields : n.bitFields = []
      · exact .inl hfields
      · exact .inr (by have := hhere hfields; omega)
  · rintro ⟨hchildren, hfields⟩ path m hpath
    cases path with
    | nil =>
      obtain rfl := Option.some.inj hpath
      rw [List.length_nil]
      refine ⟨by omega, fun hne => ?_⟩
      have := hfields.resolve_left hne
      omega
    | cons i path =>
      rw [at?_cons] at hpath
      obtain ⟨child, hchild, hpath⟩ := Option.bind_eq_some_iff.1 hpath
      obtain ⟨hlevels, hnext⟩ := hchildren child (List.mem_of_getElem? hchild) path m hpath
      rw [List.length_cons]
      exact ⟨by omega, fun hne => by have := hnext hne; omega⟩

theorem decoder_eq (levels : Nat) (n : Node) :
    Node.decoder (levels + 2) (reading n.toJson) =
      (Node.mk n.name n.value <$>
        Part.at 2 (list (fun _ => Node.decoder levels) (levels + 1)
          (reading (.array (n.children.map Node.toJson)))) <*>
        Part.at 3 (list BitField.decoder (levels + 1)
          (reading (.array (n.bitFields.map BitField.toJson))))).result := by
  have hn : ["name", "value", "children", "bit_fields"].Nodup := by decide
  obtain ⟨name, value, children, fields⟩ := n
  rw [Node.toJson, allToJson_eq_map, Node.decoder, record_written (by rfl),
    field_written (i := 0) hn (by rfl) (by rfl), field_written (i := 1) hn (by rfl) (by rfl),
    field_written (i := 2) hn (by rfl) (by rfl), field_written (i := 3) hn (by rfl) (by rfl),
    word_toNat]
  rfl

/-- A node is read back exactly if it and the nodes below it fit into the levels. -/
theorem decoder_toJson (levels : Nat) (n : Node) :
    (n.Within levels → Node.decoder levels (reading n.toJson) = .ok n) ∧
      (¬ n.Within levels → Node.decoder levels (reading n.toJson) = .error .malformed) := by
  -- A child has two levels less: one goes to the object, one to the list that it stands in.
  induction levels using Nat.twoStepInduction generalizing n with
  | zero => exact ⟨fun h => absurd (two_le_of_within h) (by omega), fun _ => rfl⟩
  | one => exact ⟨fun h => absurd (two_le_of_within h) (by omega), fun _ => rfl⟩
  | more levels ih _ =>
    obtain ⟨hok, hfault⟩ := list_of_cases (fun _ => Node.decoder levels) levels
      fun child (_ : child ∈ n.children) => ih child
    rw [within_add_two, decoder_eq, BitField.list_decoder_toJson]
    by_cases hchildren : ∀ child ∈ n.children, child.Within levels
    · rw [hok hchildren]
      split_ifs with hfields
      · exact ⟨fun _ => by cases n; rfl, fun h => absurd ⟨hchildren, hfields⟩ h⟩
      · exact ⟨fun h => absurd h.2 hfields, fun _ => rfl⟩
    · rw [hfault hchildren]
      refine ⟨fun h => absurd h.1 hchildren, fun _ => ?_⟩
      split_ifs <;> rfl

end Node

/-- All trees of a forest fit into the levels. -/
def Forest.Within (levels : Nat) (f : Forest) : Prop := ∀ root ∈ f.roots, root.Within levels

theorem Forest.decoder_toJson (levels : Nat) (f : Forest) :
    (f.Within levels → Forest.decoder (levels + 2) (reading f.toJson) = .ok f) ∧
      (¬ f.Within levels → Forest.decoder (levels + 2) (reading f.toJson) = .error .malformed) := by
  have hn : ["roots"].Nodup := by decide
  obtain ⟨hok, hfault⟩ := list_of_cases Node.decoder levels fun root (_ : root ∈ f.roots) =>
    Node.decoder_toJson levels root
  rw [Forest.toJson, Forest.decoder, record_written (by rfl),
    field_written (i := 0) hn (by rfl) (by rfl)]
  constructor
  · intro h
    rw [hok h]
    rfl
  · intro h
    rw [hfault h]
    rfl

/-! ### Programs -/

theorem Entry.decoder_toJson {e : Entry} (h : e.line < UInt64.size) (levels : Nat) :
    Entry.decoder (levels + 4) (reading e.toJson) = .ok e := by
  have hn : ["name", "value", "line"].Nodup := by decide
  rw [Entry.toJson, Entry.decoder, record_written (by rfl),
    field_written (i := 0) hn (by rfl) (by rfl), field_written (i := 1) hn (by rfl) (by rfl),
    field_written (i := 2) hn (by rfl) (by rfl), Series.decoder_toJson, count_of_lt h]
  rfl

theorem Instruction.decoder_toJson {i : Instruction} (hlevel : i.level < UInt64.size)
    (hline : i.line < UInt64.size) (levels : Nat) :
    Instruction.decoder (levels + 5) (reading i.toJson) = .ok i := by
  have hn : ["tag", "func", "args", "indent", "line"].Nodup := by decide
  have htag : ∀ levels, (optional string levels (reading (i.tag.elim .null .string)) :
      Except (Flaw SeriesFault) _) = .ok i.tag := by
    intro levels
    cases i.tag <;> rfl
  have hargs : list Series.decoder (levels + 4) (reading (.array (i.args.map Series.toJson))) =
      .ok i.args := list_of_ok fun s _ => Series.decoder_toJson s levels
  rw [Instruction.toJson, Instruction.decoder, record_written (by rfl),
    fieldOr_written (i := 0) hn (by rfl) (by rfl), field_written (i := 1) hn (by rfl) (by rfl),
    field_written (i := 2) hn (by rfl) (by rfl), field_written (i := 3) hn (by rfl) (by rfl),
    field_written (i := 4) hn (by rfl) (by rfl), htag, hargs, count_of_lt hlevel, count_of_lt hline]
  rfl

namespace Program

/-- The numbers of a program are words. -/
structure Counted (p : Program) : Prop where
  table : ∀ e ∈ p.table, e.line < UInt64.size
  instructions : ∀ i ∈ p.instructions, i.level < UInt64.size ∧ i.line < UInt64.size

variable {p : Program}

theorem decoder_toJson (h : p.Counted) (levels : Nat) :
    (p.constants.Within (levels + 4) → Program.decoder (levels + 7) (reading p.toJson) = .ok p) ∧
      (¬ p.constants.Within (levels + 4) →
        Program.decoder (levels + 7) (reading p.toJson) = .error .malformed) := by
  have hn : ["constants", "table", "instructions"].Nodup := by decide
  have htable : list Entry.decoder (levels + 6) (reading (.array (p.table.map Entry.toJson))) =
      .ok p.table := list_of_ok fun e hm => Entry.decoder_toJson (h.table e hm) (levels + 1)
  have hinstructions : list Instruction.decoder (levels + 6)
      (reading (.array (p.instructions.map Instruction.toJson))) = .ok p.instructions := by
    refine list_of_ok fun i hm => ?_
    obtain ⟨hlevel, hline⟩ := h.instructions i hm
    exact Instruction.decoder_toJson hlevel hline levels
  obtain ⟨hok, hfault⟩ := Forest.decoder_toJson (levels + 4) p.constants
  rw [Program.toJson, Program.decoder, record_written (by rfl),
    field_written (i := 0) hn (by rfl) (by rfl), field_written (i := 1) hn (by rfl) (by rfl),
    field_written (i := 2) hn (by rfl) (by rfl), htable, hinstructions]
  constructor
  · intro hin
    rw [hok hin]
    rfl
  · intro hout
    rw [hfault hout]
    rfl

/-- A program is read back from its own text exactly if its constants fit into the levels that
are left for them. -/
theorem ofText?_toText (h : p.Counted) :
    (p.constants.Within 124 → Program.ofText? p.toText = .ok p) ∧
      (¬ p.constants.Within 124 → Program.ofText? p.toText = .error .malformed) := by
  obtain ⟨hok, hfault⟩ := decoder_toJson h 120
  rw [Program.ofText?, Program.toText, text_pretty]
  exact ⟨hok, hfault⟩

end Program

end Codesheet
