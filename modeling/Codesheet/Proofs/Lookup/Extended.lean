import Codesheet.Proofs.Lookup.Resolved

/-! Paths that go on behind another path. Below a node one path and then the other lead to where both as
one path lead. Among the roots the longer path goes on from what the shorter one resolves to, with one
exception: the name of a root alone resolves to nothing, and yet leads to the root when a path goes on. -/

namespace Codesheet

/-- A dot between two paths joins their segments. -/
theorem Text.segments_joined (p q : String) : segments (p ++ "." ++ q) = segments p ++ segments q := by
  have hlist : (p ++ "." ++ q).toList = p.toList ++ '.' :: q.toList := by
    rw [String.toList_append, String.toList_append, List.append_assoc]
    rfl
  rw [segments, hlist, split_append_cons, List.map_append]
  rfl

namespace Node

theorem descend_append (n : Node) (names more : List String) :
    n.descend (names ++ more) = (n.descend names).bind (·.descend more) :=
  List.foldlM_append

theorem find?_joined (n : Node) (p q : String) : n.find? (p ++ "." ++ q) = (n.find? p).bind (·.find? q) := by
  rw [find?, Text.segments_joined, descend_append]
  rfl

end Node

namespace Scope

variable {s : Scope} {path longer name : String} {names more : List String} {found : Option Node}

/-! ### Where the look-up starts -/

/-- The roots decide where a look-up starts, and of a path no more than the first name matters. -/
theorem first_cases (s : Scope) (name : String) :
    (∃ found, (∀ path, (s.first path name).result = .ok found) ∧
        (found = none → ∀ root ∈ s.forest.roots, root.child? name = none)) ∨
      ∃ roots, ∀ path, (s.first path name).result = .error (.ambiguous path roots) := by
  cases hholders : s.forest.holders name with
  | nil =>
    have hnone := Forest.holders_eq_nil_iff.1 hholders
    exact .inl ⟨none, fun path => congrArg Logged.result (first_of_none hnone path), fun _ => hnone⟩
  | cons root roots =>
    obtain ⟨child, hfirst⟩ := exists_first_of_holders hholders
    cases roots with
    | nil => exact .inl ⟨some child, fun path => first_of_one hholders hfirst path, nofun⟩
    | cons other roots =>
      cases hlookup : s.options.rootLookup with
      | firstMatch =>
        exact .inl ⟨some child, fun path => first_of_lenient hlookup hholders hfirst path, nofun⟩
      | requireUnique => exact .inr ⟨_, fun path => first_of_strict hlookup hholders path⟩

theorem resolve_of_found (hsegments : Text.segments path = name :: names)
    (h : (s.first path name).result = .ok found) : (s.resolve path).result = s.reached path name names found := by
  rw [resolve_of_segments hsegments, Logged.result_bind, h]
  rfl

theorem resolve_of_ambiguous (hsegments : Text.segments path = name :: names) {roots : List String}
    (h : (s.first path name).result = .error (.ambiguous path roots)) :
    (s.resolve path).result = .error (.ambiguous path roots) := by
  rw [resolve_of_segments hsegments, Logged.result_bind, h]
  rfl

/-! ### Where it leads -/

theorem reached_eq_ok_iff {node : Node} :
    s.reached path name names found = .ok node ↔
      ∃ start, found.or (if names.isEmpty then none else s.forest.root? name) = some start ∧
        start.descend names = some node := by
  rw [← Option.bind_eq_some_iff, reached]
  split
  · next other hother => rw [hother, Except.ok.injEq, Option.some.injEq]
  · next hother =>
    rw [hother]
    refine iff_of_false (fun h => ?_) fun h => ?_ <;> cases h

theorem reached_append {node : Node} (h : s.reached path name names found = .ok node) :
    s.reached longer name (names ++ more) found =
      match node.descend more with
      | some node => .ok node
      | none => .error (.notFound longer) := by
  obtain ⟨start, hstart, hnode⟩ := reached_eq_ok_iff.1 h
  -- a root that the shorter path starts from is also there for the longer one
  have hsame : found.or (if (names ++ more).isEmpty then none else s.forest.root? name) = some start := by
    cases found with
    | some child => exact hstart
    | none => cases names <;> simp_all
  rw [reached, hsame, Option.bind_some, Node.descend_append, hnode]
  rfl

/-- Only the name of a root leads nowhere and yet further on. -/
theorem reached_of_append {node : Node} (hmore : s.reached longer name (names ++ more) found = .ok node)
    (hnot : ∀ other, s.reached path name names found ≠ .ok other) :
    names = [] ∧ found = none ∧ ∃ root, s.forest.root? name = some root ∧ root.descend more = some node := by
  obtain ⟨start, hstart, hnode⟩ := reached_eq_ok_iff.1 hmore
  rw [Node.descend_append, Option.bind_eq_some_iff] at hnode
  obtain ⟨middle, hmiddle, hnode⟩ := hnode
  have hother : found.or (if names.isEmpty then none else s.forest.root? name) ≠ some start :=
    fun hsame => hnot middle (reached_eq_ok_iff.2 ⟨start, hsame, hmiddle⟩)
  cases found with
  | some child => exact absurd hstart hother
  | none =>
    cases names with
    | cons next names => exact absurd hstart hother
    | nil =>
      obtain rfl := Option.some.inj hmiddle
      refine ⟨rfl, rfl, start, ?_, hnode⟩
      rw [Option.none_or] at hstart
      split at hstart
      · cases hstart
      · exact hstart

/-- A path below a node that goes on behind another one leads to where the two lead one after the other. If a
path resolves to a node, the longer path resolves to what the rest leads to from there, or is not found; if it
is ambiguous, the longer path is so with the same roots. And if the longer path resolves although the shorter
one does not, the shorter one is the name of a root, and no root has a child of that name. -/
theorem resolve_joined (s : Scope) (p q : String) :
    (∀ n : Node, n.find? (p ++ "." ++ q) = (n.find? p).bind (·.find? q)) ∧
    (∀ node, (s.resolve p).result = .ok node →
      (s.resolve (p ++ "." ++ q)).result =
        match node.find? q with
        | some found => .ok found
        | none => .error (.notFound (p ++ "." ++ q))) ∧
    (∀ reference roots, (s.resolve p).result = .error (.ambiguous reference roots) →
      (s.resolve (p ++ "." ++ q)).result = .error (.ambiguous (p ++ "." ++ q) roots)) ∧
    ∀ found, (s.resolve (p ++ "." ++ q)).result = .ok found → (∀ node, (s.resolve p).result ≠ .ok node) →
      '.' ∉ p.toList ∧ (∃ root, IsFirst s.forest.roots p root ∧ root.find? q = some found) ∧
        ∀ root ∈ s.forest.roots, ∀ child ∈ root.children, child.name ≠ p := by
  obtain ⟨name, names, hshort⟩ := List.exists_cons_of_ne_nil (Text.segments_ne_nil p)
  have hlong : Text.segments (p ++ "." ++ q) = name :: (names ++ Text.segments q) := by
    rw [Text.segments_joined, hshort, List.cons_append]
  refine ⟨fun n => n.find?_joined p q, ?_⟩
  obtain ⟨found, hfound, hnone⟩ | ⟨roots, hroots⟩ := first_cases s name
  · have hresult : (s.resolve p).result = s.reached p name names found := resolve_of_found hshort (hfound p)
    rw [resolve_of_found hlong (hfound _), hresult]
    refine ⟨fun node => reached_append, fun reference roots hambiguous => ?_, fun node hnode hnot => ?_⟩
    · rw [reached] at hambiguous
      split at hambiguous <;> cases hambiguous
    · obtain ⟨rfl, rfl, root, hroot, hdescend⟩ := reached_of_append hnode hnot
      have hname : p = name := by
        rw [← intercalate_segments p, hshort, String.intercalate_singleton]
      subst hname
      refine ⟨not_mem_of_mem_segments (hshort ▸ List.mem_cons_self), ⟨root, isFirst_iff.2 hroot, hdescend⟩, ?_⟩
      exact fun other ho => Node.child?_eq_none_iff.1 (hnone rfl other ho)
  · rw [resolve_of_ambiguous hlong (hroots _), resolve_of_ambiguous hshort (hroots p)]
    refine ⟨fun node hnode => ?_, fun reference others hambiguous => ?_, fun node hnode => ?_⟩
    · cases hnode
    · cases hambiguous
      rfl
    · cases hnode

/-- A path with and without a rest that is found, a root's name, and a child's name in two roots. -/
theorem resolve_joined_of_three :
    let f : Forest := ⟨[⟨"a", 0, [⟨"x", 1, [.leaf "y" 2], []⟩, .leaf "z" 3], []⟩, ⟨"b", 0, [.leaf "z" 4], []⟩]⟩
    let s : Scope := ⟨f, none, {}⟩
    (s.resolve "x.y").result = .ok (.leaf "y" 2) ∧ (s.resolve "x.z").result = .error (.notFound "x.z") ∧
      (s.resolve "z.y").result = .error (.ambiguous "z.y" ["a", "b"]) ∧
      '.' ∉ "b".toList ∧ ∃ root, IsFirst f.roots "b" root ∧ root.find? "z" = some (.leaf "z" 4) := by
  intro f s
  have hnode : (s.resolve "x").result = .ok ⟨"x", 1, [.leaf "y" 2], []⟩ := by decide +kernel
  have hroots : (s.resolve "z").result = .error (.ambiguous "z" ["a", "b"]) := by decide +kernel
  have hshort : (s.resolve "b").result = .error (.notFound "b") := by decide +kernel
  have hlong : (s.resolve "b.z").result = .ok (.leaf "z" 4) := by decide +kernel
  obtain ⟨hdots, hroot, -⟩ := (resolve_joined s "b" "z").2.2.2 _ hlong (by rw [hshort]; exact nofun)
  exact ⟨(resolve_joined s "x" "y").2.1 _ hnode, (resolve_joined s "x" "z").2.1 _ hnode,
    (resolve_joined s "z" "y").2.2.1 _ _ hroots, hdots, hroot⟩

end Scope

end Codesheet
