import Codesheet.Lookup.Evaluation

/-! Lenient look-up beside strict look-up. A lenient run that warns of nothing has the
result of the strict run, and where it warns the strict run fails, so no option hides a
fault without a warning. -/

namespace Codesheet

namespace Logged

variable {α β : Type}

/-- Whether a run reports a warning. -/
def Warns (x : Logged α) : Prop := ∃ event ∈ x.events, event.severity = .warn

theorem result_bind_eq_error {x : Logged α} {f : α → Logged β} {fault : Fault} :
    (x >>= f).result = .error fault ↔
      x.result = .error fault ∨ ∃ a, x.result = .ok a ∧ (f a).result = .error fault := by
  cases h : x.result with
  | ok a => simp [bind_ok h]
  | error other => simp [bind_error h]

/-- Without a warning a lenient run has the result of a strict one; with a warning the
strict run fails. -/
structure Relaxes (lenient strict : Logged α) : Prop where
  silent : ¬ lenient.Warns → lenient.result = strict.result
  warned : lenient.Warns → ∃ fault, strict.result = .error fault

theorem not_warns_of_nil {x : Logged α} (h : x.events = []) : ¬ x.Warns := by
  rintro ⟨event, hm, -⟩
  rw [h] at hm
  cases hm

theorem relaxes_of_nil {x : Logged α} (h : x.events = []) : Relaxes x x :=
  ⟨fun _ => rfl, fun hw => absurd hw (not_warns_of_nil h)⟩

theorem warns_bind_of_ok {x : Logged α} {a : α} (h : x.result = .ok a) {f : α → Logged β} :
    (x >>= f).Warns ↔ x.Warns ∨ (f a).Warns := by
  simp only [Warns, bind_ok h, List.mem_append, or_and_right, exists_or]

theorem warns_bind_of_error {x : Logged α} {fault : Fault} (h : x.result = .error fault)
    {f : α → Logged β} : (x >>= f).Warns ↔ x.Warns := by
  simp only [Warns, bind_error h]

/-- Where the lenient run fails, so does the strict one. -/
theorem Relaxes.exists_error {x x' : Logged α} (h : Relaxes x x') {fault : Fault}
    (hr : x.result = .error fault) : ∃ fault, x'.result = .error fault := by
  by_cases hx : x.Warns
  · exact h.warned hx
  · exact ⟨fault, (h.silent hx).symm.trans hr⟩

theorem Relaxes.bind {x x' : Logged α} {f f' : α → Logged β} (h : Relaxes x x')
    (hf : ∀ a, Relaxes (f a) (f' a)) : Relaxes (x >>= f) (x' >>= f') := by
  by_cases hx : x.Warns
  · obtain ⟨fault, hfail⟩ := h.warned hx
    refine ⟨fun hw => absurd ?_ hw, fun _ => ⟨fault, result_bind_eq_error.2 (.inl hfail)⟩⟩
    cases hr : x.result with
    | ok a => exact (warns_bind_of_ok hr).2 (.inl hx)
    | error fault => exact (warns_bind_of_error hr).2 hx
  · have hsame := h.silent hx
    cases hr : x.result with
    | error fault =>
      have hr' : x'.result = .error fault := hsame.symm.trans hr
      refine ⟨fun _ => ?_, fun hw => absurd ((warns_bind_of_error hr).1 hw) hx⟩
      rw [bind_error hr, bind_error hr']
    | ok a =>
      have hr' : x'.result = .ok a := hsame.symm.trans hr
      constructor
      · intro hw
        rw [warns_bind_of_ok hr, not_or] at hw
        rw [bind_ok hr, bind_ok hr']
        exact (hf a).silent hw.2
      · intro hw
        obtain ⟨fault, hfault⟩ := (hf a).warned (((warns_bind_of_ok hr).1 hw).resolve_left hx)
        exact ⟨fault, result_bind_eq_error.2 (.inr ⟨a, hr', hfault⟩)⟩

theorem Relaxes.foldlM {f f' : β → α → Logged β} (h : ∀ b a, Relaxes (f b a) (f' b a))
    (as : List α) (b : β) : Relaxes (as.foldlM f b) (as.foldlM f' b) := by
  induction as generalizing b with
  | nil => exact relaxes_of_nil rfl
  | cons a as ih =>
    rw [List.foldlM_cons, List.foldlM_cons]
    exact (h b a).bind ih

/-- A fault of a fold is a fault of one of its steps. -/
theorem exists_of_foldlM_eq_error {f : β → α → Logged β} {as : List α} {b : β} {fault : Fault}
    (h : (as.foldlM f b).result = .error fault) : ∃ b' a, (f b' a).result = .error fault := by
  induction as generalizing b with
  | nil => cases h
  | cons a as ih =>
    rw [List.foldlM_cons, result_bind_eq_error] at h
    rcases h with h | ⟨b', -, h⟩
    · exact ⟨b, a, h⟩
    · exact ih h

end Logged

namespace Scope

open Logged (Relaxes relaxes_of_nil)

/-- The same look-up under the strict options. -/
def strict (s : Scope) : Scope :=
  { s with options := ⟨.requireUnique, .error, s.options.checkAddresses⟩ }

/-! ### Paths -/

/-- The node that is reached from the one of the first segment, or from a root of its
name where there is none. -/
def reached (s : Scope) (path name : String) (names : List String) (found : Option Node) :
    Except Fault Node :=
  match (found.or (if names.isEmpty then none else s.forest.root? name)).bind (·.descend names) with
  | some node => .ok node
  | none => .error (.notFound path)

theorem resolve_eq (s : Scope) (path : String) :
    ∃ name names, Text.segments path = name :: names ∧
      s.resolve path = s.first path name >>= fun found => Logged.ofExcept (s.reached path name names found) := by
  obtain ⟨name, names, h⟩ := List.exists_cons_of_ne_nil (Text.segments_ne_nil path)
  refine ⟨name, names, h, ?_⟩
  have hend : ∀ start : Option Node,
      (match start.bind (·.descend names) with
        | some node => Pure.pure node
        | none => Logged.fail (.notFound path)) =
      Logged.ofExcept (match start.bind (·.descend names) with
        | some node => .ok node
        | none => .error (.notFound path)) := by
    intro start
    cases start.bind (·.descend names) <;> rfl
  rw [resolve, h]
  refine bind_congr fun found => ?_
  cases found with
  | some node => exact (pure_bind _ _).trans (hend _)
  | none => exact (pure_bind _ _).trans (hend _)

/-! ### Strict runs -/

theorem relaxes_first (s : Scope) (path name : String) :
    Relaxes (s.first path name) (s.strict.first path name) := by
  unfold first
  simp only [strict]
  split
  · exact relaxes_of_nil rfl
  · exact relaxes_of_nil rfl
  · cases s.options.rootLookup with
    | requireUnique => exact relaxes_of_nil rfl
    | firstMatch => exact ⟨fun hw => absurd ⟨_, List.mem_cons_self, rfl⟩ hw, fun _ => ⟨_, rfl⟩⟩

theorem relaxes_resolve (s : Scope) (path : String) :
    Relaxes (s.resolve path) (s.strict.resolve path) := by
  obtain ⟨name, names, h, hs⟩ := s.resolve_eq path
  obtain ⟨name', names', h', hs'⟩ := s.strict.resolve_eq path
  obtain ⟨rfl, rfl⟩ := List.cons.inj (h.symm.trans h')
  rw [hs, hs']
  exact (relaxes_first s path name).bind fun found => relaxes_of_nil rfl

theorem relaxes_valueOf (s : Scope) (path : String) :
    Relaxes (s.valueOf path) (s.strict.valueOf path) := by
  have hstrict : s.strict.valueOf path = s.strict.resolve path >>= fun node => pure node.value := by
    rw [valueOf]
    split
    · next hu => cases hu
    · rfl
  rw [hstrict, valueOf]
  split
  · next reference hfound hu =>
    obtain ⟨fault, hfault⟩ := (relaxes_resolve s path).exists_error hfound
    refine ⟨fun hw => absurd ⟨_, List.mem_append_right _ List.mem_cons_self, rfl⟩ hw, fun _ => ?_⟩
    exact ⟨fault, Logged.result_bind_eq_error.2 (.inl hfault)⟩
  · exact (relaxes_resolve s path).bind fun node => relaxes_of_nil rfl

theorem relaxes_knowsAddress (s : Scope) (name : String) :
    Relaxes (s.knowsAddress name) (s.strict.knowsAddress name) := by
  unfold knowsAddress
  simp only [strict]
  split
  · split
    · exact relaxes_of_nil rfl
    · cases s.options.unresolved with
      | error => exact relaxes_of_nil rfl
      | zero => exact ⟨fun hw => absurd ⟨_, List.mem_cons_self, rfl⟩ hw, fun _ => ⟨_, rfl⟩⟩
  · exact relaxes_of_nil rfl

theorem relaxes_addTerm (s : Scope) (e : Evaluation) (term : Term) :
    Relaxes (s.addTerm e term) (s.strict.addTerm e term) := by
  unfold addTerm
  cases term.target with
  | literal value => exact relaxes_of_nil rfl
  | path path => exact (relaxes_valueOf s path).bind fun value => relaxes_of_nil rfl
  | address name => exact (relaxes_knowsAddress s name).bind fun known => relaxes_of_nil rfl

theorem relaxes_evaluate (s : Scope) (series : Series) :
    Relaxes (s.evaluate series) (s.strict.evaluate series) :=
  Relaxes.foldlM (relaxes_addTerm s) series.terms .zero

/-! ### Faults where unknown names are zero -/

variable {s : Scope}

theorem first_eq_error {path name : String} {fault : Fault}
    (h : (s.first path name).result = .error fault) :
    s.options.rootLookup = .requireUnique ∧ ∃ roots, fault = .ambiguous path roots := by
  unfold first at h
  split at h
  · cases h
  · cases h
  · split at h
    · cases h
    · next hlookup => exact ⟨hlookup, _, (Except.error.inj h).symm⟩

theorem resolve_eq_error {path : String} {fault : Fault} (h : (s.resolve path).result = .error fault) :
    fault = .notFound path ∨
      s.options.rootLookup = .requireUnique ∧ ∃ roots, fault = .ambiguous path roots := by
  obtain ⟨name, names, -, hs⟩ := s.resolve_eq path
  rw [hs, Logged.result_bind_eq_error] at h
  rcases h with hfirst | ⟨found, -, hreached⟩
  · exact .inr (first_eq_error hfirst)
  · rw [Logged.result_ofExcept, reached] at hreached
    split at hreached
    · cases hreached
    · exact .inl (Except.error.inj hreached).symm

/-- Only an ambiguous path has no value then. -/
theorem valueOf_eq_error (hz : s.options.unresolved = .zero) {path : String} {fault : Fault}
    (h : (s.valueOf path).result = .error fault) :
    s.options.rootLookup = .requireUnique ∧ ∃ roots, fault = .ambiguous path roots := by
  rw [valueOf] at h
  split at h
  · cases h
  · next hother =>
    rcases Logged.result_bind_eq_error.1 h with hr | ⟨node, -, hr⟩
    · exact (resolve_eq_error hr).resolve_left fun hn => hother _ (hn ▸ hr) hz
    · cases hr

theorem knowsAddress_ne_error (hz : s.options.unresolved = .zero) (name : String) (fault : Fault) :
    (s.knowsAddress name).result ≠ .error fault := by
  unfold knowsAddress
  rw [hz]
  split
  · split <;> exact nofun
  · exact nofun

theorem evaluate_eq_error (hz : s.options.unresolved = .zero) {series : Series} {fault : Fault}
    (h : (s.evaluate series).result = .error fault) :
    s.options.rootLookup = .requireUnique ∧ ∃ path roots, fault = .ambiguous path roots := by
  obtain ⟨e, ⟨sign, target⟩, hterm⟩ := Logged.exists_of_foldlM_eq_error h
  cases target with
  | literal value => cases hterm
  | path path =>
    rcases Logged.result_bind_eq_error.1 hterm with hv | ⟨value, -, hv⟩
    · obtain ⟨hlookup, roots, hroots⟩ := valueOf_eq_error hz hv
      exact ⟨hlookup, path, roots, hroots⟩
    · cases hv
  | address name =>
    rcases Logged.result_bind_eq_error.1 hterm with hk | ⟨known, -, hk⟩
    · exact absurd hk (knowsAddress_ne_error hz name fault)
    · cases hk

/-- Under any options a run that warns of nothing has the result of the strict run, and
one that warns of something is a run where the strict one fails. Where unknown names are
zero and the first root is taken no run fails, and where a root has to be unique only an
ambiguous path makes a run fail. -/
theorem evaluate_strict_or_warned (forest : Forest) (symbols : Option (List String)) (check : Bool)
    (lookup : RootLookup) (unresolved : UnresolvedPolicy) (series : Series) :
    let run := evaluate ⟨forest, symbols, ⟨lookup, unresolved, check⟩⟩ series
    let strict := evaluate ⟨forest, symbols, ⟨.requireUnique, .error, check⟩⟩ series
    ((∀ event ∈ run.events, event.severity ≠ .warn) → run.result = strict.result) ∧
      ((∃ event ∈ run.events, event.severity = .warn) → ∃ fault, strict.result = .error fault) ∧
      (lookup = .firstMatch → unresolved = .zero → ∃ value, run.result = .ok value) ∧
      (lookup = .requireUnique → unresolved = .zero →
        ∀ fault, run.result = .error fault → ∃ path roots, fault = .ambiguous path roots) := by
  intro run strict
  have hrelaxes : Relaxes run strict :=
    relaxes_evaluate ⟨forest, symbols, ⟨lookup, unresolved, check⟩⟩ series
  refine ⟨fun hquiet => ?_, hrelaxes.warned, ?_, ?_⟩
  · exact hrelaxes.silent fun ⟨event, hm, hw⟩ => hquiet event hm hw
  · rintro rfl rfl
    cases hr : run.result with
    | ok value => exact ⟨value, rfl⟩
    | error fault => cases (evaluate_eq_error rfl hr).1
  · rintro rfl rfl fault hfault
    exact (evaluate_eq_error rfl hfault).2

/-- A name below two roots, and a name below none. -/
theorem evaluate_strict_two_roots :
    let forest : Forest := ⟨[⟨"io", 0, [.leaf "ctrl" 0x40], []⟩, ⟨"mem", 0, [.leaf "ctrl" 0x80], []⟩]⟩
    let series : Series := ⟨.path "ctrl", [(.minus, .path "none")]⟩
    let run := evaluate ⟨forest, none, ⟨.firstMatch, .zero, false⟩⟩ series
    run.events = [.firstRootTaken "ctrl" "io" 2, .unresolvedZero "none"] ∧
      (∃ value, run.result = .ok value) ∧
      ∃ fault, (evaluate ⟨forest, none, ⟨.requireUnique, .error, false⟩⟩ series).result = .error fault := by
  intro forest series run
  have hevents : run.events = [.firstRootTaken "ctrl" "io" 2, .unresolvedZero "none"] := by decide +kernel
  obtain ⟨-, hwarned, hnever, -⟩ :=
    evaluate_strict_or_warned forest none false .firstMatch .zero series
  refine ⟨hevents, hnever rfl rfl, hwarned ⟨.unresolvedZero "none", ?_, rfl⟩⟩
  exact hevents ▸ List.mem_cons_of_mem _ List.mem_cons_self

end Scope

end Codesheet
