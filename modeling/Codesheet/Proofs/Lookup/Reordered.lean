import Codesheet.Proofs.Lookup.Qualified
import Mathlib.Data.List.Perm.Basic

/-! Forests with the same roots in another order, and forests with a root that a path has nothing to do with.
A look-up that has to be unique finds the same in any order, and fails alike; what a path resolves to hangs
on the roots with a child of its first name and on the first root of that name alone. -/

namespace Codesheet

/-- Faults that are the same, but for the order in which the roots of an ambiguous path are named. -/
inductive Fault.Matches : Fault → Fault → Prop where
  | same (fault : Fault) : Matches fault fault
  | ambiguous (path : String) {roots roots' : List String} (perm : roots.Perm roots') :
    Matches (.ambiguous path roots) (.ambiguous path roots')

namespace Logged

variable {α β : Type}

/-- Runs with the same events and the same value, or with the same events and faults that match. -/
inductive Matches : Logged α → Logged α → Prop where
  | same (x : Logged α) : Matches x x
  | failed (events : List Event) {fault fault' : Fault} (h : fault.Matches fault') :
    Matches ⟨events, .error fault⟩ ⟨events, .error fault'⟩

theorem Matches.after {x x' : Logged α} (h : Matches x x') (events : List Event) :
    Matches ⟨events ++ x.events, x.result⟩ ⟨events ++ x'.events, x'.result⟩ := by
  cases h with
  | same => exact .same _
  | failed more h => exact .failed (events ++ more) h

theorem Matches.bind {x x' : Logged α} (h : Matches x x') {f f' : α → Logged β} (hf : ∀ a, Matches (f a) (f' a)) :
    Matches (x >>= f) (x' >>= f') := by
  cases h with
  | same =>
    cases hx : x.result with
    | ok a =>
      rw [bind_ok hx, bind_ok hx]
      exact (hf a).after x.events
    | error fault =>
      rw [bind_error hx, bind_error hx]
      exact .same _
  | failed events h => exact .failed events h

theorem Matches.foldlM {f f' : β → α → Logged β} (h : ∀ b a, Matches (f b a) (f' b a)) (as : List α) (b : β) :
    Matches (as.foldlM f b) (as.foldlM f' b) := by
  induction as generalizing b with
  | nil => exact .same _
  | cons a as ih =>
    rw [List.foldlM_cons, List.foldlM_cons]
    exact (h b a).bind ih

end Logged

/-- Where keys are distinct, what is found under one does not hang on the order. -/
theorem find?_of_perm {α β : Type} [DecidableEq β] {key : α → β} {as bs : List α} (h : (as.map key).Nodup)
    (perm : as.Perm bs) (k : β) : as.find? (key · = k) = bs.find? (key · = k) := by
  cases ha : as.find? (key · = k) with
  | none =>
    rw [List.find?_eq_none] at ha
    exact (List.find?_eq_none.2 fun b hb => ha b (perm.mem_iff.2 hb)).symm
  | some a =>
    have hkey : key a = k := by simpa using List.find?_some ha
    have hmem : a ∈ bs := perm.mem_iff.1 (List.mem_of_find?_eq_some ha)
    rw [← hkey]
    exact (find?_key ((perm.map key).nodup_iff.1 h) hmem).symm

namespace Scope

open Logged (Matches)

variable {f f' : Forest} {symbols : Option (List String)} {options : LookupOptions}

/-! ### The same roots in another order -/

theorem candidates_of_perm (perm : f.roots.Perm f'.roots) (name : String) :
    (candidates f name).Perm (candidates f' name) :=
  perm.filterMap _

theorem matches_first (hu : options.rootLookup = .requireUnique) (perm : f.roots.Perm f'.roots)
    (path name : String) :
    Matches (first ⟨f, symbols, options⟩ path name) (first ⟨f', symbols, options⟩ path name) := by
  have hperm := candidates_of_perm perm name
  unfold first
  rw [hu]
  generalize candidates f name = found, candidates f' name = found' at hperm
  match found, found' with
  | [], _ =>
    rw [hperm.nil_eq]
    exact .same _
  | [_], _ =>
    rw [List.singleton_perm.1 hperm]
    exact .same _
  | _ :: _ :: _, [] => cases hperm.length_eq
  | _ :: _ :: _, [_] => cases hperm.length_eq
  | _ :: _ :: _, _ :: _ :: _ =>
    have hnames := hperm.map fun found : Node × Node => found.1.name
    exact .failed [] (.ambiguous path hnames)

theorem matches_resolve (hu : options.rootLookup = .requireUnique) (distinct : (f.roots.map (·.name)).Nodup)
    (perm : f.roots.Perm f'.roots) (path : String) :
    Matches (resolve ⟨f, symbols, options⟩ path) (resolve ⟨f', symbols, options⟩ path) := by
  obtain ⟨name, names, hsegments⟩ := List.exists_cons_of_ne_nil (Text.segments_ne_nil path)
  have hroot : f.root? name = f'.root? name := find?_of_perm distinct perm name
  rw [resolve_of_segments hsegments, resolve_of_segments hsegments]
  refine (matches_first hu perm path name).bind fun found => ?_
  rw [reached, reached, hroot]
  exact .same _

theorem matches_valueOf {path : String}
    (h : Matches (resolve ⟨f, symbols, options⟩ path) (resolve ⟨f', symbols, options⟩ path)) :
    Matches (valueOf ⟨f, symbols, options⟩ path) (valueOf ⟨f', symbols, options⟩ path) := by
  unfold valueOf
  generalize resolve ⟨f, symbols, options⟩ path = x, resolve ⟨f', symbols, options⟩ path = x' at h
  cases h with
  | same => exact .same _
  | failed events h =>
    cases h with
    | same => exact .same _
    | ambiguous path perm => exact .failed events (.ambiguous path perm)

theorem matches_addTerm
    (h : ∀ path, Matches (resolve ⟨f, symbols, options⟩ path) (resolve ⟨f', symbols, options⟩ path))
    (e : Evaluation) (term : Term) :
    Matches (addTerm ⟨f, symbols, options⟩ e term) (addTerm ⟨f', symbols, options⟩ e term) := by
  obtain ⟨sign, target⟩ := term
  cases target with
  | literal value => exact .same _
  | path path => exact (matches_valueOf (h path)).bind fun value => .same _
  | address name => exact .same _

/-! ### One more root -/

variable {before after : List Node} {root : Node} {name : String}

theorem candidates_insert (h : ∀ child ∈ root.children, child.name ≠ name) :
    candidates ⟨before ++ root :: after⟩ name = candidates ⟨before ++ after⟩ name := by
  simp only [candidates, List.filterMap_append, List.filterMap_cons, Node.child?_eq_none_iff.2 h, Option.map_none]

theorem root?_insert (h : root.name ≠ name) :
    Forest.root? ⟨before ++ root :: after⟩ name = Forest.root? ⟨before ++ after⟩ name := by
  simp only [Forest.root?, List.find?_append, List.find?_cons, decide_eq_false h]

/-- A look-up reads no more of a forest than this. -/
theorem resolve_congr {path : String} {names : List String} (hsegments : Text.segments path = name :: names)
    (hcandidates : candidates f name = candidates f' name) (hroot : f.root? name = f'.root? name) :
    resolve ⟨f, symbols, options⟩ path = resolve ⟨f', symbols, options⟩ path := by
  rw [resolve_of_segments hsegments, resolve_of_segments hsegments, first, first, hcandidates]
  refine bind_congr fun found => ?_
  rw [reached, reached, hroot]

/-! ### Look-ups and series -/

/-- Where a root has to be unique and the roots have distinct names, they may stand in any order: every path
resolves to the same node and every series evaluates to the same, with the same events, or else to faults that
name the same reference and the same roots. A root that does not have the first name of a path, and has no
child of that name, may stand anywhere without a change to what the path resolves to. -/
theorem resolve_of_reordered (symbols : Option (List String)) (options : LookupOptions) :
    (options.rootLookup = .requireUnique → ∀ f f' : Forest, (f.roots.map (·.name)).Nodup →
      f.roots.Perm f'.roots →
        (∀ path, Matches (resolve ⟨f, symbols, options⟩ path) (resolve ⟨f', symbols, options⟩ path)) ∧
        ∀ series, Matches (evaluate ⟨f, symbols, options⟩ series) (evaluate ⟨f', symbols, options⟩ series)) ∧
    ∀ (before after : List Node) (root : Node) (path name : String) (names : List String),
      Text.segments path = name :: names → root.name ≠ name → (∀ child ∈ root.children, child.name ≠ name) →
        resolve ⟨⟨before ++ root :: after⟩, symbols, options⟩ path =
          resolve ⟨⟨before ++ after⟩, symbols, options⟩ path := by
  constructor
  · intro hu f f' distinct perm
    have hresolve : ∀ path, Matches (resolve ⟨f, symbols, options⟩ path) (resolve ⟨f', symbols, options⟩ path) :=
      matches_resolve hu distinct perm
    exact ⟨hresolve, fun series => Matches.foldlM (matches_addTerm hresolve) series.terms .zero⟩
  · intro before after root path name names hsegments hname hchildren
    exact resolve_congr hsegments (candidates_insert hchildren) (root?_insert hname)

/-- Two roots with a child of one name in both orders, and a third root between them. -/
theorem resolve_of_two_orders :
    let io : Node := ⟨"io", 0, [.leaf "ctrl" 0x40], []⟩
    let mem : Node := ⟨"mem", 0, [.leaf "ctrl" 0x80, .leaf "base" 1], []⟩
    let options : LookupOptions := ⟨.requireUnique, .zero, true⟩
    let series : Series := ⟨.path "none", [(.minus, .path "ctrl.x"), (.plus, .path "base")]⟩
    evaluate ⟨⟨[io, mem]⟩, none, options⟩ series =
        ⟨[.unresolvedZero "none"], .error (.ambiguous "ctrl.x" ["io", "mem"])⟩ ∧
      Matches (evaluate ⟨⟨[io, mem]⟩, none, options⟩ series) (evaluate ⟨⟨[mem, io]⟩, none, options⟩ series) ∧
      resolve ⟨⟨[io, .leaf "aux" 0, mem]⟩, none, options⟩ "io.ctrl" =
        resolve ⟨⟨[io, mem]⟩, none, options⟩ "io.ctrl" := by
  intro io mem options series
  obtain ⟨horder, hmore⟩ := resolve_of_reordered none options
  refine ⟨by decide +kernel, ?_, ?_⟩
  · exact (horder rfl ⟨[io, mem]⟩ ⟨[mem, io]⟩ (by decide) (.swap mem io [])).2 series
  · exact hmore [io] [mem] (.leaf "aux" 0) "io.ctrl" "io" ["ctrl"] (by decide +kernel) (by decide) nofun

end Scope

end Codesheet
