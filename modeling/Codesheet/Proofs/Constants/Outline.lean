import Codesheet.Grammar.Basic
import Codesheet.Proofs.Constants.Overlay

/-! The tree that a list of lines declares by its levels. The parent of a line is the
nearest earlier line of a smaller level; no state of a builder is needed to say so.
One more line changes the nodes of the lines that are open before it, and only these. -/

namespace Codesheet.Outline

open Node

/-- The level of the line at an index. -/
def levelOf (lines : List ConstantLine) (i : Nat) : Nat := lines[i]?.elim 0 (·.level)

/-- The last of the first `n` lines that has a smaller level. -/
def nearest (lines : List ConstantLine) (n level : Nat) : Option Nat :=
  (List.range n).reverse.find? fun i => levelOf lines i < level

/-- The nearest earlier line of a smaller level; without one, the root is the parent. -/
def parentLine (lines : List ConstantLine) (i : Nat) : Option Nat := nearest lines i (levelOf lines i)

/-- The lines of a parent, in order. -/
def childLines (lines : List ConstantLine) (parent : Option Nat) : List Nat :=
  (List.range lines.length).filter (parentLine lines · = parent)

/-- A line's own node. -/
def leafOf (lines : List ConstantLine) (i : Nat) : Node :=
  lines[i]?.elim (leaf "" 0) fun line => leaf line.name line.value

theorem nearest_succ (lines : List ConstantLine) (n level : Nat) :
    nearest lines (n + 1) level = if levelOf lines n < level then some n else nearest lines n level := by
  rw [nearest, List.range_succ, List.reverse_append, List.reverse_singleton, List.singleton_append,
    List.find?_cons]
  by_cases h : levelOf lines n < level <;> simp [h, nearest]

theorem nearest_eq_some {lines : List ConstantLine} {n level i : Nat}
    (h : nearest lines n level = some i) :
    i < n ∧ levelOf lines i < level ∧ ∀ k, i < k → k < n → level ≤ levelOf lines k := by
  induction n with
  | zero => cases h
  | succ n ih =>
    rw [nearest_succ] at h
    split_ifs at h with hn
    · obtain rfl := Option.some.inj h
      exact ⟨Nat.lt_succ_self n, hn, fun k hk hk' => by omega⟩
    · obtain ⟨hi, hlevel, hbetween⟩ := ih h
      refine ⟨by omega, hlevel, fun k hk hk' => ?_⟩
      rcases Nat.lt_succ_iff_lt_or_eq.1 hk' with hk' | rfl
      · exact hbetween k hk hk'
      · omega

theorem nearest_eq_none {lines : List ConstantLine} {n level : Nat} (h : nearest lines n level = none) :
    ∀ k, k < n → level ≤ levelOf lines k := by
  intro k hk
  rw [nearest, List.find?_eq_none] at h
  simpa using h k (by simpa using hk)

/-- Whatever lies behind a line of a smaller level, the nearest one is not before it. -/
theorem le_of_nearest {lines : List ConstantLine} {n level i : Nat} (hi : i < n)
    (hl : levelOf lines i < level) : ∃ j, nearest lines n level = some j ∧ i ≤ j := by
  cases h : nearest lines n level with
  | none =>
    have := nearest_eq_none h i hi
    omega
  | some j =>
    obtain ⟨-, -, hbetween⟩ := nearest_eq_some h
    refine ⟨j, rfl, ?_⟩
    by_contra hj
    have := hbetween i (by omega) hi
    omega

theorem mem_childLines {lines : List ConstantLine} {parent : Option Nat} {i : Nat} :
    i ∈ childLines lines parent ↔ i < lines.length ∧ parentLine lines i = parent := by
  simp [childLines]

theorem lt_of_mem_childLines {lines : List ConstantLine} {i k : Nat}
    (h : k ∈ childLines lines (some i)) : i < k ∧ k < lines.length := by
  obtain ⟨hk, hparent⟩ := mem_childLines.1 h
  exact ⟨(nearest_eq_some hparent).1, hk⟩

/-- The node of a line with its descendants. -/
def declared (lines : List ConstantLine) (i : Nat) : Node :=
  { leafOf lines i with
    children := lastOfEach ((childLines lines (some i)).attach.map fun ⟨k, _⟩ => declared lines k) }
termination_by lines.length - i
decreasing_by
  next h =>
    have hk := lt_of_mem_childLines h
    omega

/-- The nodes of the lines of a parent. -/
def kids (lines : List ConstantLine) (parent : Option Nat) : List Node :=
  (childLines lines parent).map (declared lines)

theorem declared_eq (lines : List ConstantLine) (i : Nat) :
    declared lines i = { leafOf lines i with children := lastOfEach (kids lines (some i)) } := by
  rw [declared, kids]
  simp only [List.map_subtype, List.unattach_attach]

/-! ### One more line -/

variable {lines : List ConstantLine} {line : ConstantLine}

theorem levelOf_concat {i : Nat} (h : i < lines.length) :
    levelOf (lines ++ [line]) i = levelOf lines i := by
  rw [levelOf, List.getElem?_append_left h, levelOf]

theorem levelOf_length : levelOf (lines ++ [line]) lines.length = line.level := by
  simp [levelOf]

theorem leafOf_concat {i : Nat} (h : i < lines.length) : leafOf (lines ++ [line]) i = leafOf lines i := by
  rw [leafOf, List.getElem?_append_left h, leafOf]

theorem leafOf_length : leafOf (lines ++ [line]) lines.length = leaf line.name line.value := by
  simp [leafOf]

theorem nearest_concat {n : Nat} (h : n ≤ lines.length) (level : Nat) :
    nearest (lines ++ [line]) n level = nearest lines n level := by
  induction n with
  | zero => rfl
  | succ n ih => rw [nearest_succ, nearest_succ, levelOf_concat h, ih (by omega)]

theorem parentLine_concat {i : Nat} (h : i < lines.length) :
    parentLine (lines ++ [line]) i = parentLine lines i := by
  rw [parentLine, levelOf_concat h, nearest_concat (Nat.le_of_lt h), parentLine]

theorem parentLine_length :
    parentLine (lines ++ [line]) lines.length = nearest lines lines.length line.level := by
  rw [parentLine, levelOf_length, nearest_concat (Nat.le_refl _)]

theorem childLines_concat (parent : Option Nat) :
    childLines (lines ++ [line]) parent =
      childLines lines parent ++
        if nearest lines lines.length line.level = parent then [lines.length] else [] := by
  have hold : (List.range lines.length).filter (parentLine (lines ++ [line]) · = parent) =
      childLines lines parent := by
    apply List.filter_congr
    intro i hi
    rw [parentLine_concat (List.mem_range.1 hi)]
  rw [childLines, List.length_append, List.length_singleton, List.range_succ, List.filter_append, hold,
    List.filter_singleton, parentLine_length]
  by_cases h : nearest lines lines.length line.level = parent <;> simp [h]

/-- Every later line has a higher level. -/
def IsOpen (lines : List ConstantLine) (i : Nat) : Prop :=
  i < lines.length ∧ ∀ k, i < k → k < lines.length → levelOf lines i < levelOf lines k

theorem isOpen_concat {i : Nat} (h : IsOpen lines i) (hl : levelOf lines i < line.level) :
    IsOpen (lines ++ [line]) i := by
  obtain ⟨hi, hlater⟩ := h
  refine ⟨by rw [List.length_append]; omega, fun k hk hk' => ?_⟩
  rw [List.length_append, List.length_singleton] at hk'
  rw [levelOf_concat hi]
  rcases Nat.lt_succ_iff_lt_or_eq.1 hk' with hk' | rfl
  · rw [levelOf_concat hk']
    exact hlater k hk hk'
  · rwa [levelOf_length]

theorem isOpen_length : IsOpen (lines ++ [line]) lines.length := by
  refine ⟨by rw [List.length_append]; exact Nat.lt_succ_self _, fun k hk hk' => ?_⟩
  rw [List.length_append, List.length_singleton] at hk'
  omega

theorem isOpen_of_nearest {i level : Nat} (h : nearest lines lines.length level = some i) :
    IsOpen lines i := by
  obtain ⟨hi, hlevel, hbetween⟩ := nearest_eq_some h
  refine ⟨hi, fun k hk hk' => ?_⟩
  have := hbetween k hk hk'
  omega

/-- The parent of an open line is open. -/
theorem isOpen_parent {i k : Nat} (h : parentLine lines k = some i) (hk : IsOpen lines k) :
    IsOpen lines i ∧ levelOf lines i < levelOf lines k := by
  obtain ⟨hi, hlevel, hbetween⟩ := nearest_eq_some h
  obtain ⟨hlen, hlater⟩ := hk
  refine ⟨⟨by omega, fun j hj hj' => ?_⟩, hlevel⟩
  rcases Nat.lt_trichotomy j k with hjk | rfl | hjk
  · have := hbetween j hj hjk
    omega
  · exact hlevel
  · have := hlater j hjk hj'
    omega

/-- The last line of a parent is the one that may be open. -/
theorem childLines_of_isOpen {i : Nat} (h : IsOpen lines i) :
    ∃ before, childLines lines (parentLine lines i) = before ++ [i] ∧
      ∀ k ∈ before, k < lines.length ∧ ¬ IsOpen lines k := by
  obtain ⟨hi, hlater⟩ := h
  refine ⟨(List.range i).filter (parentLine lines · = parentLine lines i), ?_, ?_⟩
  · have hsplit : List.range lines.length =
        List.range (i + 1) ++ (List.range (lines.length - (i + 1))).map (i + 1 + ·) := by
      rw [← List.range_add]
      congr 1
      omega
    have hnone : ((List.range (lines.length - (i + 1))).map (i + 1 + ·)).filter
        (parentLine lines · = parentLine lines i) = [] := by
      rw [List.filter_eq_nil_iff]
      intro k hm
      obtain ⟨d, hd, rfl⟩ := List.mem_map.1 hm
      have hd' := List.mem_range.1 hd
      have hlevel := hlater (i + 1 + d) (by omega) (by omega)
      obtain ⟨j, hj, hij⟩ := @le_of_nearest lines (i + 1 + d) _ i (by omega) hlevel
      rw [decide_eq_true_eq, parentLine, hj]
      intro heq
      have hparent := (nearest_eq_some heq.symm).1
      omega
    rw [childLines, hsplit, List.filter_append, hnone, List.append_nil, List.range_succ, List.filter_append]
    simp
  · intro k hm
    obtain ⟨hk, hparent⟩ := List.mem_filter.1 hm
    have hk' := List.mem_range.1 hk
    refine ⟨by omega, fun hopen => ?_⟩
    have hlevel := hopen.2 i hk' hi
    obtain ⟨j, hj, hkj⟩ := le_of_nearest hk' hlevel
    rw [decide_eq_true_eq, parentLine, parentLine, hj] at hparent
    have := (nearest_eq_some hparent).1
    omega

/-- A line that is not open, or closed by the new line, keeps its descendants. -/
theorem declared_concat {i : Nat} (hi : i < lines.length)
    (h : IsOpen lines i → line.level ≤ levelOf lines i) :
    declared (lines ++ [line]) i = declared lines i := by
  -- Child lines come after their parent, so the induction runs from the last line back.
  induction hn : lines.length - i using Nat.strongRecOn generalizing i with
  | _ n ih =>
    have hchildren : childLines (lines ++ [line]) (some i) = childLines lines (some i) := by
      have hparent : nearest lines lines.length line.level ≠ some i := by
        intro hnear
        have hlevel := (nearest_eq_some hnear).2.1
        have := h (isOpen_of_nearest hnear)
        omega
      rw [childLines_concat, if_neg hparent, List.append_nil]
    have hkids : kids (lines ++ [line]) (some i) = kids lines (some i) := by
      rw [kids, hchildren, kids]
      apply List.map_congr_left
      intro k hm
      obtain ⟨hik, hk⟩ := lt_of_mem_childLines hm
      refine ih (lines.length - k) (by omega) hk (fun hopen => ?_) rfl
      obtain ⟨hopen', hlevel⟩ := isOpen_parent (mem_childLines.1 hm).2 hopen
      have := h hopen'
      omega
    rw [declared_eq, declared_eq, leafOf_concat hi, hkids]

/-- The new line has no descendants yet. -/
theorem declared_length : declared (lines ++ [line]) lines.length = leaf line.name line.value := by
  have hnone : childLines (lines ++ [line]) (some lines.length) = [] := by
    rw [List.eq_nil_iff_forall_not_mem]
    intro k hm
    obtain ⟨hk, hk'⟩ := lt_of_mem_childLines hm
    rw [List.length_append, List.length_singleton] at hk'
    omega
  rw [declared_eq, leafOf_length, kids, hnone]
  rfl

end Codesheet.Outline
