import Codesheet.Proofs.Lookup.Strict
import Mathlib.Algebra.GroupWithZero.Nat
import Mathlib.Algebra.Group.Int.Defs
import Mathlib.Tactic.SplitIfs

/-! What a series evaluates to. The value wraps at every term, which comes to the sum of all amounts with
their signs modulo 2 ^ 32, and a series fails with the fault of the first term that has one. -/

namespace Codesheet

namespace Scope

variable {s : Scope} {path name : String} {term : Term} {fault : Fault}

/-! ### Terms -/

/-- An address is known unless it is checked against symbols that it is none of. -/
def Known (s : Scope) (name : String) : Prop :=
  s.options.checkAddresses = false ∨ s.symbols = none ∨ ∃ symbols ∈ s.symbols, name ∈ symbols

instance (s : Scope) (name : String) : Decidable (s.Known name) :=
  inferInstanceAs (Decidable (s.options.checkAddresses = false ∨ s.symbols = none ∨
    ∃ symbols ∈ s.symbols, name ∈ symbols))

/-- What is wrong with a target. -/
inductive AtFault (s : Scope) : Target → Fault → Prop where
  | ambiguous {path : String} {roots : List String} (strict : s.options.rootLookup = .requireUnique)
    (result : (s.resolve path).result = .error (.ambiguous path roots)) :
    AtFault s (.path path) (.ambiguous path roots)
  | notFound {path : String} (strict : s.options.unresolved = .error)
    (result : (s.resolve path).result = .error (.notFound path)) : AtFault s (.path path) (.notFound path)
  | unknown {name : String} (strict : s.options.unresolved = .error) (other : ¬ s.Known name) :
    AtFault s (.address name) (.notFound ("@" ++ name))

/-- A literal has its value as its amount, and a path that of the node that it resolves to. -/
def amount (s : Scope) : Target → Nat
  | .literal value => value.toNat
  | .path path =>
    match (s.resolve path).result with
    | .ok node => node.value.toNat
    | .error _ => 0
  | .address _ => 0

/-- The sum of the amounts that are not under a minus. -/
def added (s : Scope) (terms : List Term) : Nat :=
  ((terms.filter (·.sign ≠ some .minus)).map fun term => s.amount term.target).sum

def subtracted (s : Scope) (terms : List Term) : Nat :=
  ((terms.filter (·.sign = some .minus)).map fun term => s.amount term.target).sum

/-- The known addresses among some terms. -/
def linksOf (s : Scope) (terms : List Term) : List Link :=
  terms.filterMap fun term =>
    match term.target with
    | .address name => if s.Known name then some ⟨name, term.sign = some .minus⟩ else none
    | _ => none

/-! ### One target -/

theorem result_valueOf_of_ok {node : Node} (h : (s.resolve path).result = .ok node) :
    (s.valueOf path).result = .ok node.value := by
  rw [valueOf, h]
  exact Logged.result_bind_eq_ok.2 ⟨node, h, rfl⟩

theorem result_valueOf_of_error (h : (s.resolve path).result = .error fault)
    (hother : s.options.unresolved = .error ∨ fault ≠ .notFound path) : (s.valueOf path).result = .error fault := by
  rw [valueOf]
  split
  · next reference hfound hz =>
    have hfault : fault = .notFound path := by
      rcases resolve_eq_error h with hfault | ⟨-, roots, rfl⟩
      · exact hfault
      · cases h.symm.trans hfound
    rw [hz] at hother
    simp [hfault] at hother
  · exact Logged.result_bind_eq_error.2 (.inl h)

theorem result_valueOf_of_notFound (hz : s.options.unresolved = .zero)
    (h : (s.resolve path).result = .error (.notFound path)) : (s.valueOf path).result = .ok 0 := by
  rw [valueOf, h, hz]

theorem result_valueOf_of_sound (h : ∀ fault, ¬ s.AtFault (.path path) fault) :
    ∃ value : UInt32, (s.valueOf path).result = .ok value ∧ value.toNat = s.amount (.path path) := by
  cases hr : (s.resolve path).result with
  | ok node => exact ⟨node.value, result_valueOf_of_ok hr, by rw [amount, hr]⟩
  | error fault =>
    rcases resolve_eq_error hr with rfl | ⟨hu, roots, rfl⟩
    · cases hz : s.options.unresolved with
      | error => exact absurd (.notFound hz hr) (h _)
      | zero => exact ⟨0, result_valueOf_of_notFound hz hr, by rw [amount, hr]; rfl⟩
    · exact absurd (.ambiguous hu hr) (h _)

theorem result_knowsAddress_of_known (h : s.Known name) : (s.knowsAddress name).result = .ok true := by
  unfold knowsAddress
  split
  · next symbols hsymbols hcheck =>
    rcases h with hoff | hnone | ⟨known, hknown, hm⟩
    · rw [hcheck] at hoff
      cases hoff
    · rw [hsymbols] at hnone
      cases hnone
    · obtain rfl := Option.some.inj (hsymbols.symm.trans hknown)
      rw [if_pos (List.contains_iff_mem.2 hm)]
      rfl
  · rfl

theorem result_knowsAddress_of_unknown (h : ¬ s.Known name) :
    (s.knowsAddress name).result =
      match s.options.unresolved with
      | .zero => .ok false
      | .error => .error (.notFound ("@" ++ name)) := by
  simp only [Known, not_or, Bool.not_eq_false] at h
  obtain ⟨hcheck, hsome, hother⟩ := h
  obtain ⟨symbols, hsymbols⟩ := Option.ne_none_iff_exists'.1 hsome
  have hmem : ¬ symbols.contains name := fun hm => hother ⟨symbols, hsymbols, List.contains_iff_mem.1 hm⟩
  rw [knowsAddress, hsymbols, hcheck]
  simp only [if_neg hmem]
  cases s.options.unresolved <;> rfl

/-! ### One term -/

/-- The amount of a term with its sign. -/
def signed (s : Scope) (term : Term) : Int :=
  if term.sign = some .minus then - (s.amount term.target : Int) else s.amount term.target

theorem toNat_add (e : Evaluation) (sign : Option Sign) (amount : UInt32) :
    ((e.add sign amount).value.toNat : Int) =
      (e.value.toNat + if sign = some .minus then - (amount.toNat : Int) else amount.toNat) % 2 ^ 32 := by
  have hlt := amount.toNat_lt
  have hvalue := e.value.toNat_lt
  rw [Evaluation.add]
  split_ifs
  · rw [UInt32.toNat_sub]
    omega
  · rw [UInt32.toNat_add]
    omega

/-- A term without fault adds its signed amount or is linked. -/
theorem addTerm_of_sound (h : ∀ fault, ¬ s.AtFault term.target fault) (e : Evaluation) :
    ∃ next, (s.addTerm e term).result = .ok next ∧ next.links = e.links ++ s.linksOf [term] ∧
      (next.value.toNat : Int) = (e.value.toNat + s.signed term) % 2 ^ 32 := by
  obtain ⟨sign, target⟩ := term
  cases target with
  | literal value => exact ⟨e.add sign value, rfl, (List.append_nil _).symm, toNat_add e sign value⟩
  | path path =>
    obtain ⟨value, hvalue, hamount⟩ := result_valueOf_of_sound h
    refine ⟨e.add sign value, Logged.result_bind_eq_ok.2 ⟨value, hvalue, rfl⟩, (List.append_nil _).symm, ?_⟩
    rw [toNat_add, hamount]
    rfl
  | address name =>
    have hvalue : (e.value.toNat : Int) = (e.value.toNat + s.signed ⟨sign, .address name⟩) % 2 ^ 32 := by
      have hlt := e.value.toNat_lt
      have hsigned : s.signed ⟨sign, .address name⟩ = 0 := ite_self 0
      omega
    by_cases hknown : s.Known name
    · refine ⟨e.link sign name, ?_, ?_, hvalue⟩
      · exact Logged.result_bind_eq_ok.2 ⟨true, result_knowsAddress_of_known hknown, rfl⟩
      · simp [linksOf, hknown, Evaluation.link]
    · cases hu : s.options.unresolved with
      | error => exact absurd (.unknown hu hknown) (h _)
      | zero =>
        have hresult := result_knowsAddress_of_unknown hknown
        rw [hu] at hresult
        refine ⟨e, Logged.result_bind_eq_ok.2 ⟨false, hresult, rfl⟩, ?_, hvalue⟩
        simp [linksOf, hknown]

theorem addTerm_of_atFault (h : s.AtFault term.target fault) (e : Evaluation) :
    (s.addTerm e term).result = .error fault := by
  obtain ⟨sign, target⟩ := term
  cases h with
  | ambiguous hu hr =>
    exact Logged.result_bind_eq_error.2 (.inl (result_valueOf_of_error hr (.inr nofun)))
  | notFound hu hr =>
    exact Logged.result_bind_eq_error.2 (.inl (result_valueOf_of_error hr (.inl hu)))
  | unknown hu hother =>
    have hresult := result_knowsAddress_of_unknown hother
    rw [hu] at hresult
    exact Logged.result_bind_eq_error.2 (.inl hresult)

/-! ### Series -/

theorem added_sub_subtracted_cons (term : Term) (terms : List Term) :
    (s.added (term :: terms) : Int) - s.subtracted (term :: terms) =
      s.signed term + (s.added terms - s.subtracted terms) := by
  by_cases hsign : term.sign = some .minus
  · have hadded : s.added (term :: terms) = s.added terms := by simp [added, hsign]
    have hsubtracted : s.subtracted (term :: terms) = s.amount term.target + s.subtracted terms := by
      simp [subtracted, hsign]
    rw [hadded, hsubtracted, signed, if_pos hsign]
    omega
  · have hadded : s.added (term :: terms) = s.amount term.target + s.added terms := by simp [added, hsign]
    have hsubtracted : s.subtracted (term :: terms) = s.subtracted terms := by simp [subtracted, hsign]
    rw [hadded, hsubtracted, signed, if_neg hsign]
    omega

/-- Terms without fault, from any evaluation on. -/
theorem foldlM_of_sound {terms : List Term} (h : ∀ term ∈ terms, ∀ fault, ¬ s.AtFault term.target fault)
    (e : Evaluation) :
    ∃ final, (terms.foldlM s.addTerm e).result = .ok final ∧ final.links = e.links ++ s.linksOf terms ∧
      (final.value.toNat : Int) = (e.value.toNat + (s.added terms - s.subtracted terms)) % 2 ^ 32 := by
  induction terms generalizing e with
  | nil =>
    have hlt := e.value.toNat_lt
    refine ⟨e, rfl, (List.append_nil _).symm, ?_⟩
    simp only [added, subtracted, List.filter_nil, List.map_nil, List.sum_nil]
    omega
  | cons term terms ih =>
    obtain ⟨hterm, hterms⟩ := List.forall_mem_cons.1 h
    obtain ⟨next, hnext, hlinks, hvalue⟩ := addTerm_of_sound hterm e
    obtain ⟨final, hfinal, hmore, hsum⟩ := ih hterms next
    refine ⟨final, ?_, ?_, ?_⟩
    · rw [List.foldlM_cons]
      exact Logged.result_bind_eq_ok.2 ⟨next, hnext, hfinal⟩
    · have hcons : s.linksOf (term :: terms) = s.linksOf [term] ++ s.linksOf terms :=
        List.filterMap_append (l := [term]) ..
      rw [hmore, hlinks, hcons, List.append_assoc]
    · rw [hsum, hvalue, Int.emod_add_emod, added_sub_subtracted_cons, Int.add_assoc]

theorem foldlM_of_atFault {before after : List Term} (h : ∀ term ∈ before, ∀ fault, ¬ s.AtFault term.target fault)
    (hfault : s.AtFault term.target fault) (e : Evaluation) :
    ((before ++ term :: after).foldlM s.addTerm e).result = .error fault := by
  obtain ⟨next, hnext, -⟩ := foldlM_of_sound h e
  rw [List.foldlM_append, Logged.result_bind_eq_error]
  refine .inr ⟨next, hnext, ?_⟩
  rw [List.foldlM_cons, Logged.result_bind_eq_error]
  exact .inl (addTerm_of_atFault hfault next)

/-- A series without a term at fault evaluates to the sum of its amounts with their signs, modulo 2 ^ 32,
and to its known addresses as links, in order. Any other series fails as the first term at fault does. The
addresses that a program knows where they are checked are its table's names and its tags. -/
theorem evaluate_exact (s : Scope) (series : Series) :
    ((∀ term ∈ series.terms, ∀ fault, ¬ s.AtFault term.target fault) →
      ∃ value : UInt32, (s.evaluate series).result = .ok ⟨value, s.linksOf series.terms⟩ ∧
        (value.toNat : Int) = ((s.added series.terms : Int) - s.subtracted series.terms) % 2 ^ 32) ∧
    (∀ before term after fault, series.terms = before ++ term :: after →
      (∀ earlier ∈ before, ∀ other, ¬ s.AtFault earlier.target other) → s.AtFault term.target fault →
      (s.evaluate series).result = .error fault) ∧
    ∀ (p : Program) (options : LookupOptions), options.checkAddresses →
      ∃ symbols, (ofProgram p options).symbols = some symbols ∧ ∀ name, name ∈ symbols ↔
        (∃ entry ∈ p.table, entry.name = name) ∨ ∃ instruction ∈ p.instructions, instruction.tag = some name := by
  refine ⟨fun h => ?_, fun before term after fault hterms h hfault => ?_, fun p options hcheck => ?_⟩
  · obtain ⟨⟨value, links⟩, hfinal, hlinks, hvalue⟩ := foldlM_of_sound h .zero
    obtain rfl : links = s.linksOf series.terms := hlinks
    exact ⟨value, hfinal, by simpa [Evaluation.zero] using hvalue⟩
  · rw [evaluate, hterms]
    exact foldlM_of_atFault h hfault .zero
  · exact ⟨p.symbols, if_pos hcheck, fun name => p.mem_symbols⟩

/-- A sum below zero with a link, and an unknown address in front of a path that is not found. -/
theorem evaluate_exact_below_zero :
    let s : Scope := ⟨⟨[⟨"r", 0, [.leaf "x" 3], []⟩]⟩, some ["t"], ⟨.requireUnique, .error, true⟩⟩
    (∃ value : UInt32, value.toNat = 2 ^ 32 - 1 ∧
      (s.evaluate ⟨.literal 2, [(.minus, .path "x"), (.plus, .address "t")]⟩).result = .ok ⟨value, [⟨"t", false⟩]⟩) ∧
      (s.evaluate ⟨.literal 2, [(.minus, .address "q"), (.plus, .path "y")]⟩).result = .error (.notFound "@q") := by
  intro s
  have hx : (s.resolve "x").result = .ok (.leaf "x" 3) := by decide +kernel
  refine ⟨?_, ?_⟩
  · obtain ⟨value, hresult, hvalue⟩ :=
      (evaluate_exact s ⟨.literal 2, [(.minus, .path "x"), (.plus, .address "t")]⟩).1 fun term hm fault h => by
        simp only [Series.terms, List.map_cons, List.map_nil, List.mem_cons, List.not_mem_nil, or_false] at hm
        rcases hm with rfl | rfl | rfl
        · cases h
        · cases h with
          | ambiguous _ hr => cases hx.symm.trans hr
          | notFound _ hr => cases hx.symm.trans hr
        · cases h with
          | unknown _ hother => exact hother (by decide)
    have hsum : ((s.added (Series.terms ⟨.literal 2, [(.minus, .path "x"), (.plus, .address "t")]⟩) : Int) -
        s.subtracted (Series.terms ⟨.literal 2, [(.minus, .path "x"), (.plus, .address "t")]⟩)) = -1 := by
      decide +kernel
    rw [hsum] at hvalue
    exact ⟨value, by omega, hresult⟩
  · refine (evaluate_exact s ⟨.literal 2, [(.minus, .address "q"), (.plus, .path "y")]⟩).2.1
      [⟨none, .literal 2⟩] ⟨some .minus, .address "q"⟩ [⟨some .plus, .path "y"⟩] _ rfl ?_ (.unknown rfl (by decide))
    intro earlier hm other h
    obtain rfl := List.mem_singleton.1 hm
    cases h

end Scope

end Codesheet
