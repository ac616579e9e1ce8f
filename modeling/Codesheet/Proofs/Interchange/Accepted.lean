import Codesheet.Proofs.Interchange.Reencoded
import Codesheet.Proofs.Program.Names

/-! The programs that texts are read as. Of a series it is checked that it is one, and of numbers and
trees only that they fit: the programs that some text is read as are those with numbers that are words and
with trees that are not too deep. No name is compared with another: the roots of a program that is read have
distinct names only if the text gives them distinct names, and so have the children of a node. -/

namespace Codesheet

open Json Json.Decoder

/-! ### Series -/

/-- There are terms, and all of them but the first one have a sign. -/
def Series.Headed (terms : List Term) : Prop :=
  ∃ head rest, terms = head :: rest ∧ head.sign = none ∧ ∀ term ∈ rest, term.sign ≠ none

theorem Series.headed_terms (s : Series) : Headed s.terms := by
  refine ⟨⟨none, s.head⟩, _, rfl, rfl, fun term hm => ?_⟩
  obtain ⟨⟨sign, target⟩, -, rfl⟩ := List.mem_map.1 hm
  exact Option.some_ne_none sign

theorem Series.exists_terms_of_headed {terms : List Term} (h : Headed terms) :
    ∃ s : Series, terms = s.terms := by
  obtain ⟨⟨_, target⟩, rest, rfl, rfl, hrest⟩ := h
  induction rest using List.reverseRecOn with
  | nil => exact ⟨single target, rfl⟩
  | append_singleton rest term ih =>
    rw [List.forall_mem_append, List.forall_mem_singleton] at hrest
    obtain ⟨s, hs⟩ := ih hrest.1
    obtain ⟨sign, hsign⟩ := Option.ne_none_iff_exists'.1 hrest.2
    obtain ⟨_, last⟩ := term
    obtain rfl := hsign
    exact ⟨s.push sign last, by rw [terms_push, ← hs]; rfl⟩

theorem Series.decoder_eq_ok_iff {levels : Nat} {read : Reading} {s : Series} :
    Series.decoder levels read = .ok s ↔ list Term.decoder levels read = .ok s.terms := by
  rw [Series.decoder, meaning_eq_ok]
  simp only [ofTerms?_eq_ok_iff]
  constructor
  · rintro ⟨_, hterms, rfl⟩
    exact hterms
  · intro hterms
    exact ⟨s.terms, hterms, rfl⟩

/-! ### Numbers -/

theorem Entry.line_lt_of_decoder {levels : Nat} {read : Reading} {e : Entry}
    (h : Entry.decoder levels read = .ok e) : e.line < UInt64.size := by
  obtain ⟨ms, -, -, hfields⟩ := record_eq_ok h
  obtain ⟨_, line, hseries, hline, rfl⟩ := Part.seq_eq_value hfields
  obtain ⟨_, series, hname, -, rfl⟩ := Part.seq_eq_value hseries
  obtain ⟨name, -, rfl⟩ := Part.map_eq_value hname
  obtain ⟨_, -, hcount⟩ := Members.field_eq_value hline
  exact count_lt hcount

theorem Instruction.counted_of_decoder {levels : Nat} {read : Reading} {i : Instruction}
    (h : Instruction.decoder levels read = .ok i) : i.level < UInt64.size ∧ i.line < UInt64.size := by
  obtain ⟨ms, -, -, hfields⟩ := record_eq_ok h
  obtain ⟨_, line, hfourth, hline, rfl⟩ := Part.seq_eq_value hfields
  obtain ⟨_, level, hthird, hlevel, rfl⟩ := Part.seq_eq_value hfourth
  obtain ⟨_, args, hsecond, -, rfl⟩ := Part.seq_eq_value hthird
  obtain ⟨_, func, hfirst, -, rfl⟩ := Part.seq_eq_value hsecond
  obtain ⟨tag, -, rfl⟩ := Part.map_eq_value hfirst
  obtain ⟨_, -, hlevel⟩ := Members.field_eq_value hlevel
  obtain ⟨_, -, hline⟩ := Members.field_eq_value hline
  exact ⟨count_lt hlevel, count_lt hline⟩

namespace Program

variable {p : Program}

theorem counted_of_decoder {levels : Nat} {read : Reading} (h : Program.decoder levels read = .ok p) :
    p.Counted := by
  obtain ⟨ms, -, -, hfields⟩ := record_eq_ok h
  obtain ⟨_, instructions, hsecond, hinstructions, rfl⟩ := Part.seq_eq_value hfields
  obtain ⟨_, table, hfirst, htable, rfl⟩ := Part.seq_eq_value hsecond
  obtain ⟨constants, -, rfl⟩ := Part.map_eq_value hfirst
  obtain ⟨_, -, htable⟩ := Members.field_eq_value htable
  obtain ⟨_, -, hinstructions⟩ := Members.field_eq_value hinstructions
  obtain ⟨_, -, hentries⟩ := exists_item htable
  obtain ⟨_, -, hitems⟩ := exists_item hinstructions
  constructor
  · intro e hm
    obtain ⟨item, hitem⟩ := hentries e hm
    exact Entry.line_lt_of_decoder hitem
  · intro i hm
    obtain ⟨item, hitem⟩ := hitems i hm
    exact Instruction.counted_of_decoder hitem

/-! ### Programs -/

/-- The range of reading: some text is read as a program exactly if its numbers are words and its trees are
not too deep. -/
theorem exists_ofText?_iff : (∃ text, ofText? text = .ok p) ↔ p.Counted ∧ p.constants.Within 124 := by
  constructor
  · rintro ⟨text, h⟩
    have hread := text_eq_ok h
    have hcounted := counted_of_decoder hread
    refine ⟨hcounted, by_contra fun hdeep => ?_⟩
    have hagain := Program.stable_decoder 127 _ p hread
    rw [(decoder_toJson hcounted 120).2 hdeep] at hagain
    cases hagain
  · rintro ⟨hcounted, hwithin⟩
    exact ⟨p.toText, (ofText?_toText hcounted).1 hwithin⟩

end Program

/-! ### Names -/

namespace Json.Reading

/-- What a text gives a record under a key, or in its place. -/
def value? (keys : List String) (key : String) (read : Reading) : Option Reading :=
  Members.value? ⟨0, read.members keys .complete⟩ key

def itemsAt (keys : List String) (key : String) (read : Reading) : List Reading :=
  match read.value? keys key with
  | some (.array items) => items
  | _ => []

def nodeName? : Reading → Option Reading := value? ["name", "value", "children", "bit_fields"] "name"

def children : Reading → List Reading := itemsAt ["name", "value", "children", "bit_fields"] "children"

/-- The nodes that a text gives a program as its roots. -/
def roots (read : Reading) : List Reading :=
  ((read.value? ["constants", "table", "instructions"] "constants").map (itemsAt ["roots"] "roots")).getD []

/-- Nodes are given with names that are distinct among siblings. -/
inductive Distinct : List Reading → Prop where
  | nodes {items : List Reading} (here : (items.map nodeName?).Nodup)
    (kept : ∀ item ∈ items, Distinct item.children) : Distinct items

theorem distinct_iff {items : List Reading} :
    Distinct items ↔ (items.map nodeName?).Nodup ∧ ∀ item ∈ items, Distinct item.children :=
  ⟨fun | .nodes here kept => ⟨here, kept⟩, fun ⟨here, kept⟩ => .nodes here kept⟩

variable {ε α : Type} {keys : List String} {key : String} {d : Decoder ε α} {ms : Members} {read : Reading}

/-- A field is decoded from what the text gives under its key. -/
theorem exists_value {a : α} (hms : ms.list = read.members keys .complete) (h : ms.field key d = .value a) :
    ∃ value, read.value? keys key = some value ∧ d ms.levels value = .ok a := by
  obtain ⟨value, hvalue, hd⟩ := Members.field_eq_value h
  refine ⟨value, ?_, hd⟩
  rw [← hvalue, value?, Members.value?, Members.find, ← hms]
  rfl

theorem forall₂_itemsAt {as : List α} (hms : ms.list = read.members keys .complete)
    (h : ms.field key (list d) = .value as) :
    ∃ n, ms.levels = n + 1 ∧ List.Forall₂ (fun item a => d n item = .ok a) (read.itemsAt keys key) as := by
  obtain ⟨value, hvalue, hlist⟩ := exists_value hms h
  obtain ⟨n, items, hlevels, rfl, hitems⟩ := list_eq_ok hlist
  refine ⟨n, hlevels, ?_⟩
  rwa [itemsAt, hvalue]

end Json.Reading

open Json.Reading

theorem Node.named_iff {P : List String → Prop} {n : Node} :
    n.Named P ↔ P (n.children.map (·.name)) ∧ ∀ child ∈ n.children, child.Named P :=
  ⟨fun h => ⟨h.here, fun _ => h.child⟩, fun ⟨here, kept⟩ => .node here kept⟩

/-- A node is decoded under the name that the text gives it, with children decoded from those of the text. -/
theorem Node.decoder_eq_ok {levels : Nat} {read : Reading} {n : Node} (h : Node.decoder levels read = .ok n) :
    read.nodeName? = some (.string (some n.name)) ∧ ∃ below, below < levels ∧
      List.Forall₂ (fun item child => Node.decoder below item = .ok child) read.children n.children := by
  obtain _ | _ | levels := levels
  · cases h
  · cases h
  · obtain ⟨ms, hlevels, hms, hfields⟩ := record_eq_ok h
    obtain ⟨_, fields, hthird, -, rfl⟩ := Part.seq_eq_value hfields
    obtain ⟨_, children, hsecond, hchildren, rfl⟩ := Part.seq_eq_value hthird
    obtain ⟨_, value, hfirst, -, rfl⟩ := Part.seq_eq_value hsecond
    obtain ⟨name, hname, rfl⟩ := Part.map_eq_value hfirst
    obtain ⟨given, hgiven, hstring⟩ := exists_value hms hname
    obtain ⟨n, -, hitems⟩ := forall₂_itemsAt hms hchildren
    exact ⟨hgiven.trans (congrArg some (string_eq_ok hstring)), levels, by omega, hitems⟩

/-- Nodes that are decoded have names that are distinct among siblings exactly if the text gives them
such names. -/
theorem Node.named_iff_distinct {levels : Nat} {items : List Reading} {nodes : List Node}
    (h : List.Forall₂ (fun item n => Node.decoder levels item = .ok n) items nodes) :
    ((nodes.map (·.name)).Nodup ∧ ∀ n ∈ nodes, n.Named List.Nodup) ↔ Distinct items := by
  induction levels using Nat.strongRecOn generalizing items nodes with
  | _ levels ih =>
    have hnames : items.map nodeName? = (nodes.map (·.name)).map fun name => some (.string (some name)) := by
      rw [List.map_map, ← List.forall₂_eq_eq_eq, List.forall₂_map_left_iff, List.forall₂_map_right_iff]
      exact h.imp fun _ _ hn => (decoder_eq_ok hn).1
    have hinjective : Function.Injective fun name : String => some (Reading.string (some name)) := by
      intro name other heq
      simpa using heq
    -- The children are decoded with fewer levels, so the claim holds for their lists.
    have hkept : (∀ item ∈ items, Distinct item.children) ↔ ∀ n ∈ nodes, n.Named List.Nodup := by
      refine forall_mem_iff_of_forall₂ h fun hn => ?_
      obtain ⟨-, below, hbelow, hchildren⟩ := decoder_eq_ok hn
      rw [named_iff, ih below hbelow hchildren]
    rw [distinct_iff, hnames, List.nodup_map_iff hinjective, hkept]

namespace Program

/-- The series of the entries and those of the instructions. -/
def series (p : Program) : List Series := p.table.map (·.series) ++ p.instructions.flatMap (·.args)

/-- A program that is read has distinct names exactly if the text gives its trees distinct names. Its
series are well formed whatever the text gives. -/
theorem named_iff_distinct_of_text (text : String) (p : Program) (h : ofText? text = .ok p) :
    (p.constants.Named List.Nodup ↔ Distinct (Reading.ofText text).1.roots) ∧
      ∀ s ∈ p.series, Series.Headed s.terms := by
  refine ⟨?_, fun s _ => s.headed_terms⟩
  obtain ⟨ms, -, hms, hfields⟩ := record_eq_ok (text_eq_ok h)
  obtain ⟨_, instructions, hsecond, -, rfl⟩ := Part.seq_eq_value hfields
  obtain ⟨_, table, hfirst, -, rfl⟩ := Part.seq_eq_value hsecond
  obtain ⟨constants, hconstants, rfl⟩ := Part.map_eq_value hfirst
  obtain ⟨given, hgiven, hforest⟩ := exists_value hms hconstants
  obtain ⟨ms', -, hms', hfields'⟩ := record_eq_ok hforest
  obtain ⟨roots, hroots, rfl⟩ := Part.map_eq_value hfields'
  obtain ⟨n, -, hitems⟩ := forall₂_itemsAt hms' hroots
  rw [Reading.roots, hgiven, Option.map_some, Option.getD_some, ← Node.named_iff_distinct hitems]
  exact ⟨fun h => ⟨h.roots, h.trees⟩, fun ⟨hnames, htrees⟩ => ⟨hnames, htrees⟩⟩

/-- A name that a root and a child have is no name of siblings. -/
theorem named_iff_distinct_of_two_roots :
    let text := "[[[[\"r\",0,[[\"a\",1,[],[]],[\"b\",2,[],[]]],[]],[\"a\",3,[],[]]]],[],[]]"
    ∃ p, ofText? text = .ok p ∧ p.constants.Named List.Nodup ∧ Distinct (Reading.ofText text).1.roots := by
  intro text
  let r : Node := ⟨"r", 0, [.leaf "a" 1, .leaf "b" 2], []⟩
  have htext : ofText? text = .ok ⟨⟨[r, .leaf "a" 3]⟩, [], []⟩ := by decide +kernel
  have hleaf : ∀ name value, (Node.leaf name value).Named List.Nodup := Node.named_leaf List.nodup_nil
  have hr : r.Named List.Nodup :=
    .node (by decide) (List.forall_mem_cons.2 ⟨hleaf "a" 1, List.forall_mem_singleton.2 (hleaf "b" 2)⟩)
  have hnamed : (⟨[r, .leaf "a" 3]⟩ : Forest).Named List.Nodup :=
    ⟨by decide, List.forall_mem_cons.2 ⟨hr, List.forall_mem_singleton.2 (hleaf "a" 3)⟩⟩
  exact ⟨_, htext, hnamed, (named_iff_distinct_of_text text _ htext).1.1 hnamed⟩

/-- Two roots of one name are read, and two children of one name below the first of them. -/
theorem not_distinct_of_text :
    let text := "[[[[\"r\",0,[[\"a\",1,[],[]],[\"a\",2,[],[]]],[]],[\"r\",3,[],[]]]],[],[]]"
    ∃ p, ofText? text = .ok p ∧ ¬ (p.constants.roots.map (·.name)).Nodup ∧
      ¬ ∀ root ∈ p.constants.roots, root.Named List.Nodup := by
  intro text
  let r : Node := ⟨"r", 0, [.leaf "a" 1, .leaf "a" 2], []⟩
  have htext : ofText? text = .ok ⟨⟨[r, .leaf "r" 3]⟩, [], []⟩ := by decide +kernel
  refine ⟨_, htext, by decide, fun h => ?_⟩
  have hchildren := (h r List.mem_cons_self).here
  exact absurd hchildren (by decide)

end Program

end Codesheet
