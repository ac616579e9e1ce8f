import Codesheet.Constants.Node
import Mathlib.Data.List.Induction
import Mathlib.Data.List.Nodup
import Mathlib.Tactic.SplitIfs

/-! Children that are placed one after the other. A later child of the same name
takes the place of an earlier one, so in the end every name stands where it came
first, with the child that came last. -/

namespace Codesheet.Node

/-- The last node of a name. -/
def latest? (nodes : List Node) (name : String) : Option Node :=
  nodes.reverse.find? (·.name = name)

/-- The last node of each name, in the order in which the names first come. -/
def lastOfEach (nodes : List Node) : List Node :=
  (nodes.map (·.name)).eraseDups.filterMap (latest? nodes)

/-- Nodes put over old ones: the first old node of a name gives way to the last new
one of that name, and new names follow the old nodes. -/
def overlay : List Node → List Node → List Node
  | [], new => lastOfEach new
  | child :: old, new =>
    (latest? new child.name).getD child :: overlay old (new.filter (·.name ≠ child.name))

/-! ### One more node -/

theorem latest?_concat (nodes : List Node) (node : Node) (name : String) :
    latest? (nodes ++ [node]) name = if node.name = name then some node else latest? nodes name := by
  rw [latest?, List.reverse_append, List.reverse_singleton, List.singleton_append, List.find?_cons]
  by_cases h : node.name = name <;> simp [h, latest?]

theorem name_of_latest? {nodes : List Node} {name : String} {node : Node}
    (h : latest? nodes name = some node) : node.name = name := by
  simpa using List.find?_some h

theorem exists_latest? {nodes : List Node} {name : String} (h : name ∈ nodes.map (·.name)) :
    ∃ node, latest? nodes name = some node := by
  rw [← Option.isSome_iff_exists, latest?, List.find?_isSome]
  simpa using h

/-- Placing a node among the nodes of some names. -/
theorem place_filterMap {f : String → Option Node} {names : List String}
    (hf : ∀ name ∈ names, ∃ node, f name = some node ∧ node.name = name) (hn : names.Nodup)
    (node : Node) :
    place node (names.filterMap f) =
      names.filterMap (fun name => if node.name = name then some node else f name) ++
        if node.name ∈ names then [] else [node] := by
  induction names with
  | nil => simp [place]
  | cons name names ih =>
    obtain ⟨⟨first, hfirst, hname⟩, hrest⟩ := List.forall_mem_cons.1 hf
    obtain ⟨hnot, hnodup⟩ := List.nodup_cons.1 hn
    rw [List.filterMap_cons_some hfirst, place, hname]
    by_cases h : node.name = name
    · have hother : ∀ other ∈ names, (if node.name = other then some node else f other) = f other := by
        intro other hm
        rw [if_neg]
        rintro rfl
        exact hnot (h ▸ hm)
      rw [if_pos h.symm, List.filterMap_cons, if_pos h, List.filterMap_congr hother,
        if_pos (by simp [h]), List.append_nil]
    · have hmem : node.name ∈ name :: names ↔ node.name ∈ names := by simp [h]
      rw [if_neg (Ne.symm h), ih hrest hnodup, List.filterMap_cons, if_neg h, hfirst]
      simp only [hmem, List.cons_append]

theorem eraseDups_concat (names : List String) (name : String) :
    (names ++ [name]).eraseDups = names.eraseDups ++ if name ∈ names then [] else [name] := by
  rw [List.eraseDups_append, List.removeAll]
  by_cases h : name ∈ names <;> simp [h, List.eraseDups_cons]

theorem nodup_eraseDups (names : List String) : names.eraseDups.Nodup := by
  induction names using List.reverseRecOn with
  | nil => exact List.nodup_nil
  | append_singleton names name ih =>
    rw [eraseDups_concat]
    by_cases h : name ∈ names
    · rwa [if_pos h, List.append_nil]
    · rw [if_neg h, List.nodup_append]
      refine ⟨ih, List.nodup_singleton name, ?_⟩
      intro other hm _ hname
      rintro rfl
      rw [List.mem_singleton] at hname
      exact h (hname ▸ List.mem_eraseDups.1 hm)

theorem lastOfEach_concat (nodes : List Node) (node : Node) :
    lastOfEach (nodes ++ [node]) = place node (lastOfEach nodes) := by
  have hnames : ∀ name ∈ (nodes.map (·.name)).eraseDups,
      ∃ node, latest? nodes name = some node ∧ node.name = name := by
    intro name hm
    obtain ⟨first, hfirst⟩ := exists_latest? (List.mem_eraseDups.1 hm)
    exact ⟨first, hfirst, name_of_latest? hfirst⟩
  have hlatest : latest? (nodes ++ [node]) =
      fun name => if node.name = name then some node else latest? nodes name := by
    funext name
    exact latest?_concat nodes node name
  rw [lastOfEach, lastOfEach, place_filterMap hnames (nodup_eraseDups _), List.map_append, List.map_singleton,
    eraseDups_concat, List.filterMap_append, hlatest]
  simp only [List.mem_eraseDups]
  by_cases h : node.name ∈ nodes.map (·.name)
  · simp only [if_pos h, List.filterMap_nil]
  · simp [h]

/-- One more new node is placed over what there is. -/
theorem overlay_concat (old new : List Node) (node : Node) :
    overlay old (new ++ [node]) = place node (overlay old new) := by
  induction old generalizing new with
  | nil => exact lastOfEach_concat new node
  | cons child old ih =>
    have hhead : ((latest? new child.name).getD child).name = child.name := by
      cases h : latest? new child.name with
      | none => rfl
      | some other => exact name_of_latest? h
    rw [overlay, overlay, place, hhead, latest?_concat, List.filter_append]
    by_cases h : child.name = node.name
    · simp [h]
    · simp [h, Ne.symm h, ih]

theorem overlay_nil (old : List Node) : overlay old [] = old := by
  induction old with
  | nil => rfl
  | cons child old ih => rw [overlay, List.filter_nil, ih]; rfl

theorem place_of_not_mem {node : Node} {nodes : List Node} (h : node.name ∉ nodes.map (·.name)) :
    place node nodes = nodes ++ [node] := by
  induction nodes with
  | nil => rfl
  | cons child nodes ih =>
    rw [List.map_cons, List.mem_cons, not_or] at h
    rw [place, if_neg (Ne.symm h.1), ih h.2, List.cons_append]

theorem lastOfEach_of_nodup {nodes : List Node} (h : (nodes.map (·.name)).Nodup) :
    lastOfEach nodes = nodes := by
  induction nodes using List.reverseRecOn with
  | nil => rfl
  | append_singleton nodes node ih =>
    rw [List.map_append, List.map_singleton, ← List.concat_eq_append, List.nodup_concat] at h
    rw [lastOfEach_concat, ih h.2, place_of_not_mem h.1]

/-- Without a double name among the old nodes it makes no difference which are old. -/
theorem overlay_eq_lastOfEach {old : List Node} (h : (old.map (·.name)).Nodup) (new : List Node) :
    overlay old new = lastOfEach (old ++ new) := by
  induction new using List.reverseRecOn with
  | nil => rw [overlay_nil, List.append_nil, lastOfEach_of_nodup h]
  | append_singleton new node ih => rw [overlay_concat, ih, ← List.append_assoc, lastOfEach_concat]

/-! ### Places -/

/-- Placing a node does not move the names that are there, and puts the node where its
name is sought. -/
theorem findIdx_place (node : Node) (nodes : List Node) {name : String}
    (h : name = node.name ∨ name ∈ nodes.map (·.name)) :
    (place node nodes).findIdx (·.name = name) = nodes.findIdx (·.name = name) := by
  induction nodes with
  | nil =>
    obtain rfl : name = node.name := by simpa using h
    simp [place]
  | cons child nodes ih =>
    rw [place]
    split_ifs with hc
    · simp only [List.findIdx_cons, hc]
    · rw [List.findIdx_cons, List.findIdx_cons]
      by_cases hname : child.name = name
      · simp [hname]
      · rw [ih]
        rcases h with h | h
        · exact .inl h
        · rcases List.mem_cons.1 h with h | h
          · exact absurd h.symm hname
          · exact .inr h

theorem slot_insertChild (n child : Node) : (n.insertChild child).slot child.name = n.slot child.name :=
  findIdx_place child n.children (.inl rfl)

/-- A node in the place of one of its name. -/
theorem set_place {node other : Node} (h : node.name = other.name) (nodes : List Node) :
    (place other nodes).set (nodes.findIdx (·.name = other.name)) node = place node nodes := by
  induction nodes with
  | nil => simp [place]
  | cons child nodes ih =>
    by_cases hc : child.name = other.name
    · simp [place, hc, h, List.findIdx_cons]
    · simp [place, hc, h, List.findIdx_cons, ih]

end Codesheet.Node
