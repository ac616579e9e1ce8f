import Codesheet.Proofs.Constants.Recorded
import Codesheet.Proofs.Keys
import Codesheet.Proofs.Line.Cleaned
import Codesheet.Proofs.Lookup.Strict
import Codesheet.Proofs.Program.Names

/-! Paths of declared constants. In a parsed program a node is found by the names on the way
to it, after the name of its root, or without that name if no other root has a child of the
first one. -/

namespace Codesheet

namespace Text

theorem segments_append (path : String) {name : String} (h : '.' ∉ name.toList) :
    segments (name ++ "." ++ path) = name :: segments path := by
  have hlist : (name ++ "." ++ path).toList = name.toList ++ '.' :: path.toList := by
    rw [String.toList_append, String.toList_append, List.append_assoc]
    rfl
  rw [segments, hlist, split_append_cons, split_of_not_mem h, List.map_append, List.map_singleton,
    String.ofList_toList]
  rfl

/-- A dotted path of names without dots has these names as its segments. -/
theorem segments_intercalate (name : String) (names : List String)
    (h : ∀ other ∈ name :: names, '.' ∉ other.toList) :
    segments (".".intercalate (name :: names)) = name :: names := by
  induction names generalizing name with
  | nil =>
    rw [String.intercalate_singleton, segments, split_of_not_mem (h name List.mem_cons_self),
      List.map_singleton, String.ofList_toList]
  | cons next names ih =>
    rw [String.intercalate_cons_cons, segments_append _ (h name List.mem_cons_self), ih next]
    exact fun other hm => h other (List.mem_cons_of_mem name hm)

end Text

open Program (Plain)

/-! ### Nodes by their names -/

namespace Node

theorem child?_of_mem {n child : Node} (h : (n.children.map (·.name)).Nodup)
    (hm : child ∈ n.children) : n.child? child.name = some child :=
  find?_key h hm

theorem child?_eq_none_iff {n : Node} {name : String} :
    n.child? name = none ↔ ∀ child ∈ n.children, child.name ≠ name := by
  simp [child?]

theorem slot_of_getElem? {n child : Node} (h : (n.children.map (·.name)).Nodup) {i : Nat}
    (hc : n.children[i]? = some child) : n.slot child.name = i := by
  obtain ⟨hi, rfl⟩ := List.getElem?_eq_some_iff.1 hc
  refine (List.findIdx_eq hi).2 ⟨by simp, fun j hj => ?_⟩
  have hlast : i < (n.children.map (·.name)).length := by simpa using hi
  have hearlier : j < (n.children.map (·.name)).length := by omega
  have hne : (n.children.map (·.name))[j] ≠ (n.children.map (·.name))[i] := by
    rw [Ne, h.getElem_inj_iff]
    omega
  simpa using hne

section Child

variable {n child m : Node} {i : Nat} {path : List Nat} {names : List String}

/-! A child is known by its place and by its name. -/

theorem names?_of_child (hc : n.children[i]? = some child) (h : child.names? path = some names) :
    n.names? (i :: path) = some (n.name :: names) := by
  rw [names?_cons, hc, Option.bind_some, h, Option.map_some]

theorem places?_of_child (hn : (n.children.map (·.name)).Nodup) (hc : n.children[i]? = some child)
    (h : child.places? names = some path) : n.places? (child.name :: names) = some (i :: path) := by
  simp only [places?, child?_of_mem hn (List.mem_of_getElem? hc), h, slot_of_getElem? hn hc,
    Option.map_some]

theorem descend_of_child (hn : (n.children.map (·.name)).Nodup) (hm : child ∈ n.children)
    (h : child.descend names = some m) : n.descend (child.name :: names) = some m := by
  rw [descend, List.foldlM_cons, child?_of_mem hn hm]
  exact h

end Child

/-- A node at some places has names on the way, without dots, that lead back to these places. -/
theorem exists_names?_of_at? {n m : Node} {path : List Nat} (h : n.Named Plain)
    (hm : n.at? path = some m) :
    ∃ names, n.names? path = some (n.name :: names) ∧ n.places? names = some path ∧
      n.descend names = some m ∧ ∀ name ∈ names, '.' ∉ name.toList := by
  induction path generalizing n with
  | nil => exact ⟨[], rfl, rfl, hm, nofun⟩
  | cons i path ih =>
    rw [at?_cons] at hm
    obtain ⟨child, hchild, hm⟩ := Option.bind_eq_some_iff.1 hm
    have hmem := List.mem_of_getElem? hchild
    obtain ⟨names, hnames, hplaces, hdescend, hplain⟩ := ih (h.child hmem) hm
    refine ⟨child.name :: names, names?_of_child hchild hnames,
      places?_of_child h.here.distinct hchild hplaces, descend_of_child h.here.distinct hmem hdescend, ?_⟩
    exact List.forall_mem_cons.2 ⟨h.here.undotted child.name (List.mem_map_of_mem hmem), hplain⟩

end Node

/-! ### First segments -/

namespace Scope

variable {s : Scope}

theorem mem_candidates {f : Forest} {name : String} {root child : Node} :
    (root, child) ∈ candidates f name ↔ root ∈ f.roots ∧ root.child? name = some child := by
  simp only [candidates, List.mem_filterMap, Option.map_eq_some_iff, Prod.mk.injEq]
  constructor
  · rintro ⟨_, hm, _, hchild, rfl, rfl⟩
    exact ⟨hm, hchild⟩
  · rintro ⟨hm, hchild⟩
    exact ⟨root, hm, child, hchild, rfl, rfl⟩

/-- No root has a child of the name. -/
theorem first_of_none {name : String} (h : ∀ root ∈ s.forest.roots, root.child? name = none)
    (path : String) : s.first path name = pure none := by
  have hnone : candidates s.forest name = [] := by
    refine List.eq_nil_iff_forall_not_mem.2 fun ⟨root, child⟩ hm => ?_
    obtain ⟨hroot, hchild⟩ := mem_candidates.1 hm
    rw [h root hroot] at hchild
    cases hchild
  rw [first, hnone]

/-- One root alone has a child of the name. -/
theorem first_of_unique (hn : s.forest.roots.Nodup) {name : String} {root child : Node}
    (hm : root ∈ s.forest.roots) (hc : root.child? name = some child)
    (h : ∀ other ∈ s.forest.roots, other ≠ root → other.child? name = none) (path : String) :
    s.first path name = pure (some child) := by
  obtain ⟨before, after, hroots⟩ := List.append_of_mem hm
  rw [hroots, List.nodup_middle, List.nodup_cons] at hn
  have hskip : ∀ roots : List Node, (∀ other ∈ roots, other ∈ before ++ after) →
      roots.filterMap (fun root => (root.child? name).map (root, ·)) = [] := by
    intro roots hsub
    rw [List.filterMap_eq_nil_iff]
    intro other ho
    have hmem := hsub other ho
    have hother : other ∈ before ++ root :: after := by
      simp only [List.mem_append, List.mem_cons] at hmem ⊢
      tauto
    rw [h other (hroots ▸ hother) fun heq => hn.1 (heq ▸ hmem), Option.map_none]
  have hone : candidates s.forest name = [(root, child)] := by
    rw [candidates, hroots, List.filterMap_append, List.filterMap_cons, hc,
      hskip before fun _ => List.mem_append_left _, hskip after fun _ => List.mem_append_right _]
    rfl
  rw [first, hone]

/-- Two roots have children of the name, which is refused where it has to be unique. -/
theorem first_of_many (hu : s.options.rootLookup = .requireUnique) {name : String}
    {root child other child' : Node} (hm : root ∈ s.forest.roots) (hc : root.child? name = some child)
    (hm' : other ∈ s.forest.roots) (hc' : other.child? name = some child') (hne : other ≠ root)
    (path : String) :
    ∃ names, (s.first path name).result = .error (.ambiguous path names) ∧ root.name ∈ names := by
  have hfound := mem_candidates.2 ⟨hm, hc⟩
  have hfound' := mem_candidates.2 ⟨hm', hc'⟩
  rw [first]
  cases hall : candidates s.forest name with
  | nil =>
    rw [hall] at hfound
    cases hfound
  | cons found others =>
    rw [hall] at hfound hfound'
    cases others with
    | nil =>
      have hsame := (List.mem_singleton.1 hfound').trans (List.mem_singleton.1 hfound).symm
      exact absurd (congrArg Prod.fst hsame) hne
    | cons next others =>
      simp only [hu]
      exact ⟨_, rfl, List.mem_map_of_mem (f := fun found => found.1.name) hfound⟩

/-! ### Paths -/

theorem resolve_of_segments {path name : String} {names : List String}
    (h : Text.segments path = name :: names) :
    s.resolve path =
      s.first path name >>= fun found => Logged.ofExcept (s.reached path name names found) := by
  obtain ⟨name', names', h', hs⟩ := s.resolve_eq path
  obtain ⟨rfl, rfl⟩ := List.cons.inj (h.symm.trans h')
  exact hs

theorem reached_of_child {path name : String} {names : List String} {child node : Node}
    (h : child.descend names = some node) :
    s.reached path name names (some child) = .ok node := by
  rw [reached, Option.some_or, Option.bind_some, h]

/-- The name of a root leads to it where it is no child's name and not the end of the path. -/
theorem resolve_qualified (hn : (s.forest.roots.map (·.name)).Nodup) {root node : Node}
    (hm : root ∈ s.forest.roots) (hfree : ∀ other ∈ s.forest.roots, other.child? root.name = none)
    {name : String} {names : List String} (hdots : ∀ other ∈ root.name :: name :: names, '.' ∉ other.toList)
    (hd : root.descend (name :: names) = some node) :
    (s.resolve (".".intercalate (root.name :: name :: names))).result = .ok node := by
  have hroot : s.forest.root? root.name = some root := find?_key hn hm
  rw [resolve_of_segments (Text.segments_intercalate _ _ hdots), first_of_none hfree, pure_bind,
    Logged.result_ofExcept, reached, List.isEmpty_cons, if_neg Bool.false_ne_true, hroot,
    Option.none_or, Option.bind_some, hd]

theorem resolve_unqualified (hn : s.forest.roots.Nodup) {root child node : Node}
    (hm : root ∈ s.forest.roots) (hc : root.child? child.name = some child)
    (honly : ∀ other ∈ s.forest.roots, other ≠ root → other.child? child.name = none)
    {names : List String} (hdots : ∀ other ∈ child.name :: names, '.' ∉ other.toList)
    (hd : child.descend names = some node) :
    (s.resolve (".".intercalate (child.name :: names))).result = .ok node := by
  rw [resolve_of_segments (Text.segments_intercalate _ _ hdots), first_of_unique hn hm hc honly,
    pure_bind, Logged.result_ofExcept, reached_of_child hd]

/-- In a parsed program every node below a root has names on the way to it, which lead back to
its places. The name of its root and these names resolve to the node, unless that name has a dot
or is the name of a child of a root. The names alone resolve to it, unless another root has a
child of the first one, and then they are ambiguous. -/
theorem resolve_of_declared {options : ParseOptions} {text : String} {p : Program}
    (parsed : (Program.parse options text).result = .ok p) {root node : Node}
    (hroot : root ∈ p.constants.roots) {i : Nat} {path : List Nat}
    (hnode : root.at? (i :: path) = some node) :
    ∃ name names, root.names? (i :: path) = some (root.name :: name :: names) ∧
      root.places? (name :: names) = some (i :: path) ∧ ∀ lookup, let s := ofProgram p lookup
        ('.' ∉ root.name.toList →
          (∀ other ∈ p.constants.roots, ∀ child ∈ other.children, child.name ≠ root.name) →
          (s.resolve (".".intercalate (root.name :: name :: names))).result = .ok node) ∧
        ((∀ other ∈ p.constants.roots, other ≠ root → ∀ child ∈ other.children, child.name ≠ name) →
          (s.resolve (".".intercalate (name :: names))).result = .ok node) ∧
        ((∃ other ∈ p.constants.roots, other ≠ root ∧ ∃ child ∈ other.children, child.name = name) →
          lookup.rootLookup = .requireUnique →
          ∃ roots, (s.resolve (".".intercalate (name :: names))).result =
            .error (.ambiguous (".".intercalate (name :: names)) roots) ∧ root.name ∈ roots) := by
  have hforest := Program.named_of_parse parsed
  have hdistinct : p.constants.roots.Nodup := hforest.roots.of_map _
  have htree := hforest.trees root hroot
  rw [Node.at?_cons] at hnode
  obtain ⟨child, hchild, hnode⟩ := Option.bind_eq_some_iff.1 hnode
  have hmem := List.mem_of_getElem? hchild
  obtain ⟨names, hnames, hplaces, hdescend, hplain⟩ := Node.exists_names?_of_at? (htree.child hmem) hnode
  have hfound := Node.child?_of_mem htree.here.distinct hmem
  have hdots : ∀ other ∈ child.name :: names, '.' ∉ other.toList :=
    List.forall_mem_cons.2 ⟨htree.here.undotted child.name (List.mem_map_of_mem hmem), hplain⟩
  refine ⟨child.name, names, Node.names?_of_child hchild hnames,
    Node.places?_of_child htree.here.distinct hchild hplaces, fun lookup => ⟨?_, ?_, ?_⟩⟩
  · intro hdot hfree
    have hpath := Node.descend_of_child htree.here.distinct hmem hdescend
    refine resolve_qualified hforest.roots hroot ?_ (List.forall_mem_cons.2 ⟨hdot, hdots⟩) hpath
    exact fun other ho => Node.child?_eq_none_iff.2 (hfree other ho)
  · intro honly
    refine resolve_unqualified hdistinct hroot hfound ?_ hdots hdescend
    exact fun other ho hne => Node.child?_eq_none_iff.2 (honly other ho hne)
  · rintro ⟨other, ho, hne, child', hmem', hname⟩ hunique
    have hfound' := Node.child?_of_mem (hforest.trees other ho).here.distinct hmem'
    rw [hname] at hfound'
    have hmany := first_of_many (s := ofProgram p lookup) hunique hroot hfound ho hfound' hne
    obtain ⟨roots, hfault, hin⟩ := hmany (".".intercalate (child.name :: names))
    refine ⟨roots, ?_, hin⟩
    rw [resolve_of_segments (Text.segments_intercalate _ _ hdots)]
    exact Logged.result_bind_eq_error.2 (.inl hfault)

/-- Two roots with a child of one name. -/
theorem resolve_of_declared_twice :
    let text := "_a:\n  x: 1\n    y: 2\n_b:\n  x: 3\n"
    let a : Node := ⟨"a", 0, [⟨"x", 1, [.leaf "y" 2], []⟩], []⟩
    let p : Program := ⟨⟨[a, ⟨"b", 0, [.leaf "x" 3], []⟩]⟩, [], []⟩
    (Program.parse ⟨2, .collapse⟩ text).result = .ok p ∧
      (∀ lookup, ((ofProgram p lookup).resolve "a.x.y").result = .ok (.leaf "y" 2)) ∧
      ∃ roots, ((ofProgram p ⟨.requireUnique, .zero, true⟩).resolve "x.y").result =
        .error (.ambiguous "x.y" roots) ∧ "a" ∈ roots := by
  intro text a p
  have parsed : (Program.parse ⟨2, .collapse⟩ text).result = .ok p := by decide +kernel
  have hroot : a ∈ p.constants.roots := List.mem_cons_self
  have hnode : a.at? (0 :: [0]) = some (.leaf "y" 2) := rfl
  obtain ⟨name, names, hway, -, hlookup⟩ := resolve_of_declared parsed hroot hnode
  obtain ⟨-, hrest⟩ := List.cons.inj (Option.some.inj hway)
  obtain ⟨rfl, rfl⟩ := List.cons.inj hrest
  refine ⟨parsed, fun lookup => (hlookup lookup).1 (by decide) (by decide), ?_⟩
  exact (hlookup ⟨.requireUnique, .zero, true⟩).2.2 (by decide) rfl

end Scope

end Codesheet
