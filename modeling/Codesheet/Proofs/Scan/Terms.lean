import Codesheet.Proofs.Scan.Words

/-! Series are taken up to the first character that can be no part of them, and the terms that are read are
those of the derivation. A text is accepted as a series exactly if it is one. -/

namespace Codesheet

open LineGrammar

theorem Series.terms_injective : Function.Injective Series.terms := by
  intro s t h
  have hs := ofTerms?_terms s
  rw [h, ofTerms?_terms] at hs
  exact (Except.ok.inj hs).symm

namespace Scan

variable {α : Type} {word words rest : List Char} {t : Target} {terms : List Term} {a : α}

/-! ### A target with blanks around it -/

theorem head?_of_isTarget (h : IsTarget word t) (more : List Char) : (word ++ more).head? ≠ some ' ' := by
  cases h with
  | address _ => exact fun heq => absurd (Option.some.inj heq) (by decide)
  | path h => exact head?_of_isPath h (by decide) more
  | literal h => exact head?_of_isNumber h (by decide) more

theorem takes_spaced (expected : Expected) {next : Target → Scan α}
    {N : Target → List Char → List Char → α → Prop} (hn : ∀ t, Takes (next t) (N t)) :
    Takes (do blanks; let t ← target expected; blanks; next t) fun word rest a =>
      ∃ i u t j v, word = LineGrammar.blanks i ++ u ++ LineGrammar.blanks j ++ v ∧ IsTarget u t ∧ N t v rest a := by
  refine (takes_blanks.bind fun _ => (takes_target expected).bind fun t =>
    takes_blanks.bind fun _ => hn t).mono ?_
  rintro _ rest a ⟨_, _, -, rfl, ⟨i, rfl⟩, u, _, t, rfl, hu, _, v, -, rfl, ⟨j, rfl⟩, hv⟩
  refine ⟨i, u, t, j, v, ?_, hu, hv⟩
  simp only [LineGrammar.blanks, List.append_assoc]

/-- Behind the target and its blanks there is a sign or the end of the series. -/
theorem reads_spaced {next : Target → Scan α} (i : Nat) (h : IsTarget word t) (j : Nat)
    (hfollow : Follows ['+', '-', ',', ')'] (words ++ rest)) (hn : Reads (next t) words rest a)
    (expected : Expected) :
    Reads (do blanks; let t ← target expected; blanks; next t)
      (LineGrammar.blanks i ++ word ++ LineGrammar.blanks j ++ words) rest a := by
  have hbehind := hfollow.replicate ' ' j
  rw [← List.append_assoc] at hbehind
  have htail : Reads (blanks >>= fun _ => next t) (List.replicate j ' ' ++ words) rest a :=
    (reads_blanks j (hfollow.head?_ne (by decide))).bind hn
  have htarget : Reads (target expected >>= fun t => blanks >>= fun _ => next t)
      (word ++ (List.replicate j ' ' ++ words)) rest a :=
    (reads_target h (hbehind.apart (by decide)) (hbehind.head?_ne (by decide)) expected).bind htail
  have hhead : (word ++ (List.replicate j ' ' ++ words) ++ rest).head? ≠ some ' ' := by
    rw [List.append_assoc]
    exact head?_of_isTarget h _
  simp only [LineGrammar.blanks, List.append_assoc]
  refine Reads.bind (reads_blanks i hhead) ?_
  exact htarget

/-! ### Terms -/

theorem outcome_skip (c : Cursor) (n : Nat) :
    Outcome (fun word _ _ => word = c.rest.take n) c ((modify (·.skip n) : Scan PUnit) c) :=
  .ok (.skip c n) rfl

theorem takes_moreTerms (n : Nat) (s : Series) : Takes (moreTerms n s) fun word _ longer =>
    ∃ terms, Many IsSigned word terms ∧ longer.terms = s.terms ++ terms := by
  -- a bound that is too small only ends the series early, which is no matter here
  induction n generalizing s with
  | zero =>
    refine (takes_pure s).mono ?_
    rintro _ rest longer ⟨rfl, rfl⟩
    exact ⟨[], .nil, (List.append_nil _).symm⟩
  | succ n ih =>
    intro c
    rw [moreTerms, bind_of_ok (get_apply c)]
    cases hsign : c.peek?.bind Sign.ofSymbol? with
    | none => exact .ok (.refl c) ⟨[], .nil, (List.append_nil _).symm⟩
    | some sign =>
      obtain ⟨d, hd, hsymbol⟩ := Option.bind_eq_some_iff.1 hsign
      obtain rfl := Sign.ofSymbol?_eq_some_iff.1 hsymbol
      obtain ⟨behind, hbehind⟩ := List.head?_eq_some_iff.1 hd
      refine ((outcome_skip c 1).bind fun _ =>
        takes_spaced (.referenceAfter sign) fun t => ih (s.push sign t)).mono ?_
      rintro _ rest longer ⟨_, _, -, rfl, rfl, i, u, t, j, v, rfl, hu, terms, hmore, hterms⟩
      rw [hbehind, List.take_succ_cons, List.take_zero, List.singleton_append, ← List.cons_append]
      refine ⟨_ :: terms, .cons (.intro sign i hu j) hmore, ?_⟩
      rw [hterms, Series.terms_push, List.append_assoc, List.singleton_append]

theorem follows_of_isSigned (h : Many IsSigned word terms) (hrest : Follows [',', ')'] rest) :
    Follows ['+', '-', ',', ')'] (word ++ rest) := by
  cases h with
  | nil => exact fun c hc => List.mem_cons_of_mem _ (List.mem_cons_of_mem _ (hrest c hc))
  | cons first more =>
    obtain ⟨sign, _, _, _⟩ := first
    cases sign <;> exact follows_cons (by decide) _

/-- A term takes its sign at least, so the length of the word is a bound that is large enough. -/
theorem reads_moreTerms (h : Many IsSigned word terms) {n : Nat} (hn : word.length ≤ n)
    (hrest : Follows [',', ')'] rest) (s : Series) :
    ∃ longer, longer.terms = s.terms ++ terms ∧ Reads (moreTerms n s) word rest longer := by
  induction h generalizing n s with
  | nil =>
    refine ⟨s, (List.append_nil _).symm, ?_⟩
    cases n with
    | zero => exact reads_pure s rest
    | succ n =>
      refine reads_get fun c hc => ?_
      have hnone : c.peek?.bind Sign.ofSymbol? = none := by
        rw [Option.bind_eq_none_iff]
        intro d hd
        rw [Cursor.peek?, hc, List.nil_append] at hd
        have hmem := hrest d hd
        simp only [List.mem_cons, List.not_mem_nil, or_false] at hmem
        rcases hmem with rfl | rfl <;> rfl
      rw [hnone]
      exact reads_pure s rest
  | @cons _ words _ terms first more ih =>
    obtain ⟨sign, i, hu, j⟩ := first
    rename_i u t
    cases n with
    | zero => simp at hn
    | succ n =>
      have hwords : words.length ≤ n := by
        simp only [List.length_append, List.length_cons] at hn
        omega
      obtain ⟨longer, hterms, hread⟩ := ih hwords (s.push sign t)
      refine ⟨longer, ?_, reads_get fun c hc => ?_⟩
      · rw [hterms, Series.terms_push, List.append_assoc, List.singleton_append]
      · have hsign : c.peek?.bind Sign.ofSymbol? = some sign := by
          rw [Cursor.peek?, hc]
          exact Sign.ofSymbol?_eq_some_iff.2 rfl
        rw [hsign]
        refine (reads_skip [sign.symbol] _).bind (reads_spaced i hu j ?_ ?_ _)
        · exact follows_of_isSigned more hrest
        · exact hread

/-! ### Series -/

theorem takes_series : Takes series fun word _ s => IsSeries word s.terms := by
  refine (takes_spaced .reference fun head => takes_get fun c =>
    takes_moreTerms c.rest.length (.single head)).mono ?_
  rintro _ rest s ⟨i, u, t, j, v, rfl, hu, terms, hmore, hterms⟩
  rw [hterms]
  exact .intro i hu j hmore

/-- What is derived is a series, and it is taken if the series ends where the word does. -/
theorem exists_reads_series (h : IsSeries word terms) (hrest : Follows [',', ')'] rest) :
    ∃ s : Series, s.terms = terms ∧ Reads series word rest s := by
  obtain ⟨i, hu, j, more⟩ := h
  rename_i u t v terms
  obtain ⟨s, hs, hread⟩ := reads_moreTerms more (Nat.le_add_right v.length rest.length) hrest (.single t)
  refine ⟨s, hs, reads_spaced i hu j (follows_of_isSigned more hrest) (reads_get fun c hc => ?_) .reference⟩
  rwa [hc, List.length_append]

theorem exists_terms_of_isSeries (h : IsSeries word terms) : ∃ s : Series, s.terms = terms := by
  obtain ⟨s, hs, -⟩ := exists_reads_series h (follows_nil _)
  exact ⟨s, hs⟩

theorem reads_series {s : Series} (h : IsSeries word s.terms) (hrest : Follows [',', ')'] rest) :
    Reads series word rest s := by
  obtain ⟨t, ht, hread⟩ := exists_reads_series h hrest
  rwa [Series.terms_injective ht] at hread

end Scan

end Codesheet
