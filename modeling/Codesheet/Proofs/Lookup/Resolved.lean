import Codesheet.Proofs.Line.Pieces
import Codesheet.Proofs.Lookup.Qualified

/-! What a path resolves to in any forest, also in one with several nodes of one name. The roots with a
child of the first name decide where the look-up starts, and from there it follows the first child of each
further name. -/

namespace Codesheet

/-- The first node of a name among some nodes. -/
def IsFirst (nodes : List Node) (name : String) (node : Node) : Prop :=
  ∃ before after, nodes = before ++ node :: after ∧ node.name = name ∧ ∀ other ∈ before, other.name ≠ name

/-- The roots with a child of a name, in their order. -/
def Forest.holders (f : Forest) (name : String) : List Node :=
  f.roots.filter fun root => ∃ child ∈ root.children, child.name = name

/-- What is found of a path from a node on, by the names that are still to be followed. -/
inductive Followed (path : String) : Node → List String → Except Fault Node → Prop where
  | arrived (node : Node) : Followed path node [] (.ok node)
  | step {node child : Node} {name : String} {names : List String} {result : Except Fault Node}
    (first : IsFirst node.children name child) (more : Followed path child names result) :
    Followed path node (name :: names) result
  | missing {node : Node} {name : String} (names : List String)
    (none : ∀ child ∈ node.children, child.name ≠ name) :
    Followed path node (name :: names) (.error (.notFound path))

/-- What a path with a first name and further names stands for in a forest. -/
inductive Resolved (lookup : RootLookup) (f : Forest) (path name : String) (names : List String) :
    Except Fault Node → Prop where
  | one {root child : Node} {result : Except Fault Node} (holders : f.holders name = [root])
    (first : IsFirst root.children name child) (more : Followed path child names result) :
    Resolved lookup f path name names result
  | firstOfMany {root other child : Node} {roots : List Node} {result : Except Fault Node}
    (lenient : lookup = .firstMatch) (holders : f.holders name = root :: other :: roots)
    (first : IsFirst root.children name child) (more : Followed path child names result) :
    Resolved lookup f path name names result
  | ambiguous {root other : Node} {roots : List Node} (strict : lookup = .requireUnique)
    (holders : f.holders name = root :: other :: roots) :
    Resolved lookup f path name names (.error (.ambiguous path ((f.holders name).map (·.name))))
  | fromRoot {root : Node} {result : Except Fault Node} (holders : f.holders name = []) (long : names ≠ [])
    (first : IsFirst f.roots name root) (more : Followed path root names result) :
    Resolved lookup f path name names result
  | noRoot (holders : f.holders name = []) (missing : ∀ root ∈ f.roots, root.name ≠ name) :
    Resolved lookup f path name names (.error (.notFound path))
  | short (holders : f.holders name = []) (last : names = []) :
    Resolved lookup f path name names (.error (.notFound path))

variable {nodes : List Node} {node : Node} {path name : String} {names : List String} {f : Forest}

/-! ### First nodes of a name -/

theorem isFirst_iff : IsFirst nodes name node ↔ nodes.find? (·.name = name) = some node := by
  rw [List.find?_eq_some_iff_append, IsFirst]
  constructor
  · rintro ⟨before, after, rfl, hname, hbefore⟩
    exact ⟨by simpa using hname, before, after, rfl, by simpa using hbefore⟩
  · rintro ⟨hname, before, after, rfl, hbefore⟩
    exact ⟨before, after, rfl, by simpa using hname, by simpa using hbefore⟩

theorem Node.child?_eq_some_iff {child : Node} : node.child? name = some child ↔ IsFirst node.children name child :=
  isFirst_iff.symm

/-- Following names is going down by them. -/
theorem followed_iff {result : Except Fault Node} :
    Followed path node names result ↔
      result = match node.descend names with
        | some node => .ok node
        | none => .error (.notFound path) := by
  constructor
  · intro h
    induction h with
    | arrived node => rfl
    | step first more ih => rwa [Node.descend, List.foldlM_cons, Node.child?_eq_some_iff.2 first]
    | missing names none => rw [Node.descend, List.foldlM_cons, Node.child?_eq_none_iff.2 none]; rfl
  · rintro rfl
    induction names generalizing node with
    | nil => exact .arrived node
    | cons name names ih =>
      rw [Node.descend, List.foldlM_cons]
      cases hchild : node.child? name with
      | none => exact .missing names (Node.child?_eq_none_iff.1 hchild)
      | some child => exact .step (Node.child?_eq_some_iff.1 hchild) ih

/-! ### Roots with a child of the first name -/

theorem Forest.holders_eq_nil_iff : f.holders name = [] ↔ ∀ root ∈ f.roots, root.child? name = none := by
  simp [holders, Node.child?_eq_none_iff]

namespace Scope

theorem map_candidates (f : Forest) (name : String) : (candidates f name).map Prod.fst = f.holders name := by
  rw [candidates, Forest.holders]
  induction f.roots with
  | nil => rfl
  | cons root roots ih =>
    rw [List.filterMap_cons, List.filter_cons]
    cases hchild : root.child? name with
    | none =>
      have hnone := Node.child?_eq_none_iff.1 hchild
      rw [if_neg (by simpa using hnone)]
      exact ih
    | some child =>
      have hsome : ∃ child ∈ root.children, child.name = name := by
        by_contra hnone
        push Not at hnone
        rw [Node.child?_eq_none_iff.2 hnone] at hchild
        cases hchild
      rw [if_pos (by simpa using hsome)]
      exact congrArg (root :: ·) ih

variable {s : Scope} {root other child : Node} {roots : List Node}

theorem candidates_of_holders (h : f.holders name = root :: roots) (hfirst : IsFirst root.children name child) :
    ∃ others, candidates f name = (root, child) :: others ∧ others.map Prod.fst = roots := by
  have hmap := map_candidates f name
  rw [h, List.map_eq_cons_iff] at hmap
  obtain ⟨⟨root', child'⟩, others, hall, rfl, hothers⟩ := hmap
  have hmem : (root', child') ∈ candidates f name := hall ▸ List.mem_cons_self
  obtain rfl : child' = child :=
    Option.some.inj ((mem_candidates.1 hmem).2.symm.trans (Node.child?_eq_some_iff.2 hfirst))
  exact ⟨others, hall, hothers⟩

theorem exists_first_of_holders (h : f.holders name = root :: roots) :
    ∃ child, IsFirst root.children name child := by
  have hmem : root ∈ f.holders name := h ▸ List.mem_cons_self
  obtain ⟨child, hchild, hname⟩ := of_decide_eq_true (List.mem_filter.1 hmem).2
  cases hfind : root.child? name with
  | none => exact absurd hname (Node.child?_eq_none_iff.1 hfind child hchild)
  | some first => exact ⟨first, Node.child?_eq_some_iff.1 hfind⟩

/-! ### Where the look-up starts -/

theorem first_of_one (only : s.forest.holders name = [root]) (hfirst : IsFirst root.children name child)
    (path : String) : (s.first path name).result = .ok (some child) := by
  obtain ⟨others, hall, hothers⟩ := candidates_of_holders only hfirst
  obtain rfl := List.map_eq_nil_iff.1 hothers
  rw [first, hall]
  rfl

theorem first_of_lenient (hl : s.options.rootLookup = .firstMatch)
    (many : s.forest.holders name = root :: other :: roots) (hfirst : IsFirst root.children name child)
    (path : String) : (s.first path name).result = .ok (some child) := by
  obtain ⟨others, hall, hothers⟩ := candidates_of_holders many hfirst
  obtain ⟨next, others, rfl, -⟩ := List.map_eq_cons_iff.1 hothers
  rw [first, hall]
  simp only [hl]
  rfl

theorem first_of_strict (hu : s.options.rootLookup = .requireUnique)
    (many : s.forest.holders name = root :: other :: roots) (path : String) :
    (s.first path name).result = .error (.ambiguous path ((s.forest.holders name).map (·.name))) := by
  obtain ⟨child, hfirst⟩ := exists_first_of_holders many
  obtain ⟨others, hall, hothers⟩ := candidates_of_holders many hfirst
  rw [many, ← hothers]
  obtain ⟨next, others, rfl, -⟩ := List.map_eq_cons_iff.1 hothers
  rw [first, hall]
  simp only [hu, List.map_cons, List.map_map]
  rfl

/-! ### Paths -/

theorem reached_of_followed {result : Except Fault Node} (h : Followed path child names result) :
    s.reached path name names (some child) = result :=
  (followed_iff.1 h).symm

theorem reached_of_root (hnames : names ≠ []) (h : s.forest.root? name = some root) :
    s.reached path name names none = s.reached path name names (some root) := by
  rw [reached, reached, h, if_neg (by simpa using hnames)]
  rfl

theorem reached_of_no_root (h : s.forest.root? name = none) :
    s.reached path name names none = .error (.notFound path) := by
  rw [reached, h, ite_self]
  rfl

theorem resolve_of_resolved {result : Except Fault Node} (hsegments : Text.segments path = name :: names)
    (h : Resolved s.options.rootLookup s.forest path name names result) : (s.resolve path).result = result := by
  rw [resolve_of_segments hsegments, Logged.result_bind]
  cases h with
  | one holders hfirst more =>
    rw [first_of_one holders hfirst]
    exact reached_of_followed more
  | firstOfMany hl holders hfirst more =>
    rw [first_of_lenient hl holders hfirst]
    exact reached_of_followed more
  | ambiguous hu holders =>
    rw [first_of_strict hu holders]
    rfl
  | fromRoot holders long hfirst more =>
    rw [first_of_none (Forest.holders_eq_nil_iff.1 holders)]
    exact (reached_of_root long (isFirst_iff.1 hfirst)).trans (reached_of_followed more)
  | noRoot holders missing =>
    rw [first_of_none (Forest.holders_eq_nil_iff.1 holders)]
    exact reached_of_no_root (by simpa [Forest.root?] using missing)
  | short holders last =>
    rw [first_of_none (Forest.holders_eq_nil_iff.1 holders), last]
    rfl

theorem exists_resolved (lookup : RootLookup) (f : Forest) (path name : String) (names : List String) :
    ∃ result, Resolved lookup f path name names result := by
  have hfollowed : ∀ node, ∃ result, Followed path node names result := fun node => ⟨_, followed_iff.2 rfl⟩
  cases hholders : f.holders name with
  | nil =>
    by_cases hnames : names = []
    · exact ⟨_, .short hholders hnames⟩
    · cases hroot : f.root? name with
      | none => exact ⟨_, .noRoot hholders (by simpa [Forest.root?] using hroot)⟩
      | some root =>
        obtain ⟨result, hresult⟩ := hfollowed root
        exact ⟨result, .fromRoot hholders hnames (isFirst_iff.2 hroot) hresult⟩
  | cons root roots =>
    obtain ⟨child, hfirst⟩ := exists_first_of_holders hholders
    obtain ⟨result, hresult⟩ := hfollowed child
    cases roots with
    | nil => exact ⟨result, .one hholders hfirst hresult⟩
    | cons other roots =>
      cases lookup with
      | requireUnique => exact ⟨_, .ambiguous rfl hholders⟩
      | firstMatch => exact ⟨result, .firstOfMany rfl hholders hfirst hresult⟩

/-- Where a root has a child of the first name, nothing but such roots counts. -/
theorem resolved_of_same_holders {lookup : RootLookup} {f' : Forest} {result : Except Fault Node}
    (h : Resolved lookup f path name names result) (hsome : f.holders name ≠ [])
    (hsame : f'.holders name = f.holders name) : Resolved lookup f' path name names result := by
  cases h with
  | one only hfirst more => exact .one (hsame.trans only) hfirst more
  | firstOfMany hl many hfirst more => exact .firstOfMany hl (hsame.trans many) hfirst more
  | ambiguous hu many =>
    rw [← hsame]
    exact .ambiguous hu (hsame.trans many)
  | fromRoot none _ _ _ => exact absurd none hsome
  | noRoot none _ => exact absurd none hsome
  | short none _ => exact absurd none hsome

theorem intercalate_segments (path : String) : ".".intercalate (Text.segments path) = path := by
  rw [← String.toList_inj, String.toList_intercalate, Text.segments, List.map_map]
  have hlist : String.toList ∘ String.ofList = id := funext fun _ => String.toList_ofList
  rw [hlist, List.map_id]
  exact Text.intercalate_split '.' path.toList

theorem not_mem_of_mem_segments {segment : String} (h : segment ∈ Text.segments path) : '.' ∉ segment.toList := by
  obtain ⟨piece, hpiece, rfl⟩ := List.mem_map.1 h
  rw [String.toList_ofList]
  exact Text.not_mem_of_mem_split hpiece

/-- A path is cut at its dots into a first name and further names, and its look-up has the one result that
these have in the forest. Where a root has a child of the first name, every forest with the same such roots
gives the same result. -/
theorem resolve_exact (s : Scope) (path : String) :
    ∃ name names, ".".intercalate (name :: names) = path ∧ (∀ segment ∈ name :: names, '.' ∉ segment.toList) ∧
      (∀ result, (s.resolve path).result = result ↔
        Resolved s.options.rootLookup s.forest path name names result) ∧
      (s.forest.holders name ≠ [] → ∀ f : Forest, f.holders name = s.forest.holders name →
        (resolve ⟨f, s.symbols, s.options⟩ path).result = (s.resolve path).result) := by
  obtain ⟨name, names, hsegments⟩ := List.exists_cons_of_ne_nil (Text.segments_ne_nil path)
  obtain ⟨result, hresolved⟩ := exists_resolved s.options.rootLookup s.forest path name names
  have hresult := resolve_of_resolved hsegments hresolved
  refine ⟨name, names, ?_, ?_, fun other => ⟨?_, resolve_of_resolved hsegments⟩, fun hsome f hsame => ?_⟩
  · rw [← hsegments]
    exact intercalate_segments path
  · intro segment hm
    exact not_mem_of_mem_segments (hsegments ▸ hm)
  · rintro rfl
    rwa [hresult]
  · rw [hresult]
    exact resolve_of_resolved hsegments (resolved_of_same_holders hresolved hsome hsame)

/-- Two roots with a child of the first name, one alone with the whole path, and a root of that name. -/
theorem resolve_exact_of_clash :
    let f : Forest := ⟨[⟨"a", 0, [.leaf "x" 1], []⟩, ⟨"x", 0, [.leaf "y" 2], []⟩,
      ⟨"b", 0, [⟨"x", 3, [.leaf "y" 4], []⟩], []⟩]⟩
    (resolve ⟨f, none, ⟨.requireUnique, .error, false⟩⟩ "x.y").result =
      .error (.ambiguous "x.y" ["a", "b"]) := by
  intro f
  obtain ⟨name, names, hpath, hdots, hresult, -⟩ :=
    resolve_exact ⟨f, none, ⟨.requireUnique, .error, false⟩⟩ "x.y"
  have hsegments := Text.segments_intercalate name names hdots
  rw [hpath, show Text.segments "x.y" = ["x", "y"] by decide +kernel] at hsegments
  obtain ⟨rfl, rfl⟩ := List.cons.inj hsegments
  have hroots : (f.holders "x").map (·.name) = ["a", "b"] := by decide +kernel
  rw [← hroots, hresult]
  exact .ambiguous rfl rfl

end Scope

end Codesheet
