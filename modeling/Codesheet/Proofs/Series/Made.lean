import Codesheet.Proofs.Grammar.Derived
import Codesheet.Proofs.Interchange.Accepted

/-! The ways to make a series. The type of series admits no list of terms but those with one unsigned head,
and here it is said which of these lists each way gives: a head alone, terms pushed behind it, a list of
terms that is checked, a text, and a document. Terms that cannot be pushed are refused and leave no trace. -/

namespace Codesheet.Series

open LineGrammar Scan Json Json.Decoder

variable {s : Series} {term : Term} {terms : List Term}

/-! ### Pushes -/

/-- Pushes terms one after the other, also after one that is refused. -/
def pushEach (s : Series) : List Term → List (Except SeriesFault Unit) × Series
  | [] => ([], s)
  | term :: terms =>
    let (pushed, done) := join term s
    let (answers, last) := pushed.pushEach terms
    (done :: answers, last)

/-- What is answered to a term that is pushed. -/
def answer (term : Term) : Except SeriesFault Unit :=
  if term.sign = none then .error (.unsigned term.target) else .ok ()

theorem join_of_unsigned (h : term.sign = none) (s : Series) :
    join term s = (s, .error (.unsigned term.target)) := by
  rw [join, h]

theorem join_of_signed (h : term.sign ≠ none) (s : Series) :
    ∃ pushed, join term s = (pushed, .ok ()) ∧ pushed.terms = s.terms ++ [term] := by
  obtain ⟨sign, target⟩ := term
  obtain ⟨sign, rfl⟩ := Option.ne_none_iff_exists'.1 h
  exact ⟨s.push sign target, rfl, terms_push s sign target⟩

/-- Of the terms that are pushed, those with a sign are behind the others in the end. -/
theorem pushEach_eq (s : Series) (attempts : List Term) :
    (s.pushEach attempts).1 = attempts.map answer ∧
      (s.pushEach attempts).2.terms = s.terms ++ attempts.filter (·.sign ≠ none) := by
  induction attempts generalizing s with
  | nil => exact ⟨rfl, (List.append_nil _).symm⟩
  | cons term attempts ih =>
    by_cases h : term.sign = none
    · obtain ⟨hanswers, hterms⟩ := ih s
      rw [pushEach, join_of_unsigned h, List.map_cons, answer, if_pos h, List.filter_cons_of_neg (by simpa using h)]
      exact ⟨congrArg _ hanswers, hterms⟩
    · obtain ⟨pushed, hpushed, hone⟩ := join_of_signed h s
      obtain ⟨hanswers, hterms⟩ := ih pushed
      rw [pushEach, hpushed, List.map_cons, answer, if_neg h, List.filter_cons_of_pos (by simpa using h)]
      refine ⟨congrArg _ hanswers, hterms.trans ?_⟩
      rw [hone, List.append_assoc, List.singleton_append]

/-- A run of pushes that has to succeed is the run that goes on, up to the first term that is refused. -/
theorem foldlM_push?_eq (s : Series) (attempts : List Term) :
    attempts.foldlM push? s =
      match attempts.find? (·.sign = none) with
      | some term => .error (.unsigned term.target)
      | none => .ok (s.pushEach attempts).2 := by
  induction attempts generalizing s with
  | nil => rfl
  | cons term attempts ih =>
    by_cases h : term.sign = none
    · rw [List.foldlM_cons, push?, join_of_unsigned h, List.find?_cons_of_pos (by simpa using h)]
      rfl
    · obtain ⟨pushed, hpushed, -⟩ := join_of_signed h s
      rw [List.foldlM_cons, push?, hpushed, List.find?_cons_of_neg (by simpa using h), pushEach, hpushed]
      exact ih pushed

/-! ### Lists of terms -/

theorem ofTerms?_of_headed (h : Headed terms) : ∃ s, ofTerms? terms = .ok s := by
  obtain ⟨s, hs⟩ := exists_terms_of_headed h
  exact ⟨s, ofTerms?_eq_ok_iff.2 hs⟩

theorem headed_of_ofTerms? (h : ofTerms? terms = .ok s) : Headed terms :=
  ofTerms?_eq_ok_iff.1 h ▸ s.headed_terms

/-- A list of terms is checked by pushing all of them but the head. -/
theorem ofTerms?_cons {head : Term} (h : head.sign = none) (rest : List Term) :
    ofTerms? (head :: rest) =
      match rest.find? (·.sign = none) with
      | some term => .error (.unsigned term.target)
      | none => .ok ((single head.target).pushEach rest).2 := by
  rw [← foldlM_push?_eq, ofTerms?, h]

theorem headed_of_isSeries {word : List Char} (h : IsSeries word terms) : Headed terms := by
  obtain ⟨s, rfl⟩ := exists_terms_of_isSeries h
  exact s.headed_terms

/-- Every series has an unsigned head, and then terms that all have a sign. A new one has its head alone. Of
the terms that are pushed onto a series, those without a sign are refused and the others are behind its own
terms, in order. A push that is refused leaves the series as it was. A list of terms is a series exactly if
it has that form; the series then has these terms and no others, and it is its head with the rest pushed
behind it. If the head is unsigned and some later term is, the list is refused as the first such term is. A
text and a document are read as the series of the terms that they stand for. -/
theorem headed_however_made :
    (∀ s : Series, Headed s.terms ∧ s.terms[0]? = some ⟨none, s.head⟩ ∧ s.terms.isEmpty = false) ∧
    (∀ head, (single head).terms = [⟨none, head⟩]) ∧
    (∀ (s : Series) attempts,
      (s.pushEach attempts).1 = attempts.map answer ∧
        (s.pushEach attempts).2.terms = s.terms ++ attempts.filter (·.sign ≠ none) ∧
        ∀ term refused fault, join term s = (refused, .error fault) → term.sign = none ∧ refused = s) ∧
    (∀ terms, ((∃ s, ofTerms? terms = .ok s) ↔ Headed terms) ∧
      ∀ s, ofTerms? terms = .ok s → s.terms = terms) ∧
    (∀ head rest, head.sign = none →
      ofTerms? (head :: rest) =
        match rest.find? (·.sign = none) with
        | some term => .error (.unsigned term.target)
        | none => .ok ((single head.target).pushEach rest).2) ∧
    (∀ text s, ofText? text = .ok s ↔
      ∃ terms, IsSeries text.toList terms ∧ Headed terms ∧ ofTerms? terms = .ok s) ∧
    ∀ levels read s, decoder levels read = .ok s ↔
      ∃ terms, list Term.decoder levels read = .ok terms ∧ Headed terms ∧ ofTerms? terms = .ok s := by
  refine ⟨fun s => ⟨s.headed_terms, rfl, rfl⟩, fun _ => rfl, fun s attempts => ?_, fun terms => ?_,
    fun head rest h => ofTerms?_cons h rest, fun text s => ?_, fun levels read s => ?_⟩
  · obtain ⟨hanswers, hterms⟩ := s.pushEach_eq attempts
    refine ⟨hanswers, hterms, fun term refused fault hfault => ?_⟩
    by_cases hsign : term.sign = none
    · rw [join_of_unsigned hsign] at hfault
      exact ⟨hsign, (congrArg Prod.fst hfault).symm⟩
    · obtain ⟨_, hpushed, -⟩ := join_of_signed hsign s
      cases hpushed.symm.trans hfault
  · exact ⟨⟨fun ⟨_, h⟩ => headed_of_ofTerms? h, ofTerms?_of_headed⟩,
      fun s h => (ofTerms?_eq_ok_iff.1 h).symm⟩
  · rw [ofText?_eq_ok_iff]
    constructor
    · exact fun h => ⟨s.terms, h, headed_of_isSeries h, ofTerms?_terms s⟩
    · rintro ⟨terms, hterms, -, hs⟩
      exact ofTerms?_eq_ok_iff.1 hs ▸ hterms
  · rw [decoder_eq_ok_iff]
    constructor
    · exact fun h => ⟨s.terms, h, s.headed_terms, ofTerms?_terms s⟩
    · rintro ⟨terms, hterms, -, hs⟩
      exact ofTerms?_eq_ok_iff.1 hs ▸ hterms

/-- A refused push between two others, and the list of the terms that are left. -/
theorem headed_however_made_of_three :
    let s : Series := single (.address "int")
    let attempts : List Term := [⟨some .minus, .literal 1⟩, ⟨none, .path "a.b"⟩, ⟨some .plus, .literal 2⟩]
    let terms : List Term := [⟨none, .address "int"⟩, ⟨some .minus, .literal 1⟩, ⟨some .plus, .literal 2⟩]
    (s.pushEach attempts).1 = [.ok (), .error (.unsigned (.path "a.b")), .ok ()] ∧
      (s.pushEach attempts).2.terms = terms ∧ (join ⟨none, .path "a.b"⟩ s).1 = s ∧
      (∃ made, ofTerms? terms = .ok made) ∧
      ofTerms? (⟨none, .address "int"⟩ :: attempts) = .error (.unsigned (.path "a.b")) := by
  intro s attempts terms
  obtain ⟨-, -, hpush, hterms, hlist, -⟩ := headed_however_made
  obtain ⟨hanswers, hpushed, hrefused⟩ := hpush s attempts
  have hheaded : Headed terms := ⟨⟨none, .address "int"⟩, _, rfl, rfl, by decide⟩
  obtain ⟨-, hsame⟩ := hrefused ⟨none, .path "a.b"⟩ _ _ rfl
  exact ⟨hanswers, hpushed, hsame, (hterms terms).1.2 hheaded, hlist ⟨none, .address "int"⟩ attempts rfl⟩

end Codesheet.Series
