import Codesheet.Line.Source
import Mathlib.Data.List.DropRight
import Mathlib.Tactic.SplitIfs

/-! The cleaned lines of a text as a list, and the lines that a source still has
to deliver. Reading takes the first of these lines, and taking a line back puts it
in front again, so a source is a list of lines with its head within reach. -/

namespace Codesheet

theorem Text.trimEnd_concat (cs : List Char) {c : Char} (h : ¬ isBlank c) :
    trimEnd (cs ++ [c]) = cs ++ [c] := by
  induction cs with
  | nil => simp [trimEnd, h]
  | cons d cs ih => simp [trimEnd_cons, ih]

theorem Text.trimEnd_eq_rdropWhile (cs : List Char) : trimEnd cs = cs.rdropWhile isBlank := by
  induction cs using List.reverseRecOn with
  | nil => rfl
  | append_singleton cs c ih =>
    by_cases h : isBlank c
    · rw [trimEnd_append_blank cs [c] (by simpa using h), ih, List.rdropWhile_concat_pos _ _ _ h]
    · rw [trimEnd_concat cs h, List.rdropWhile_concat_neg _ _ _ h]

/-- Removing blanks at the end does not touch the first character that is none. -/
theorem Text.find?_trimEnd (cs : List Char) :
    (trimEnd cs).find? (fun c => !isBlank c) = cs.find? (fun c => !isBlank c) := by
  induction cs with
  | nil => rfl
  | cons c cs ih =>
    by_cases hc : isBlank c
    · by_cases he : trimEnd cs = []
      · simpa [trimEnd_cons, hc, he] using ih
      · simpa [trimEnd_cons, hc, he] using ih
    · simp [trimEnd_cons, hc]

theorem Text.head?_trimStart (cs : List Char) :
    (trimStart cs).head? = cs.find? (fun c => !isBlank c) := by
  induction cs with
  | nil => rfl
  | cons c cs ih =>
    by_cases hc : isBlank c
    · simpa [trimStart, hc] using ih
    · simp [trimStart, hc]

/-! ### Lines of a text -/

theorem Text.split_of_not_mem {sep : Char} {cs : List Char} (h : sep ∉ cs) : split sep cs = [cs] := by
  induction cs with
  | nil => rfl
  | cons c cs ih =>
    rw [List.mem_cons, not_or] at h
    rw [split_cons, if_neg (Ne.symm h.1), ih h.2, extend]

theorem Text.lines_append_cons {cs : List Char} (h : '\n' ∉ cs) (rest : List Char) :
    lines (cs ++ '\n' :: rest) = withoutReturn cs :: lines rest := by
  obtain ⟨piece, pieces, hp⟩ := List.exists_cons_of_ne_nil (split_ne_nil '\n' rest)
  rw [lines, lines, split_append_cons, split_of_not_mem h, hp]
  rfl

theorem Text.lines_of_not_mem {cs : List Char} (h : '\n' ∉ cs) :
    lines cs = if cs.isEmpty then [] else [cs] := by
  rw [lines, split_of_not_mem h, ended]

/-- Cutting into lines undoes ending each of them. -/
theorem Text.lines_flatMap {raws : List (List Char)} (h : ∀ raw ∈ raws, '\n' ∉ raw) :
    lines (raws.flatMap (· ++ ['\n'])) = raws.map withoutReturn := by
  induction raws with
  | nil => exact lines_of_not_mem List.not_mem_nil
  | cons raw raws ih =>
    rw [List.forall_mem_cons] at h
    rw [List.flatMap_cons, List.append_assoc, List.singleton_append, lines_append_cons h.1, ih h.2,
      List.map_cons]

theorem Text.length_withoutReturn_le (line : List Char) : (withoutReturn line).length ≤ line.length := by
  unfold withoutReturn
  split_ifs
  · simp
  · rfl

/-- No line is longer than the text, which has at most as many lines as characters. -/
theorem Text.lines_le (cs : List Char) :
    (lines cs).length ≤ cs.length ∧ ∀ raw ∈ lines cs, raw.length ≤ cs.length := by
  induction hn : cs.length using Nat.strongRecOn generalizing cs with
  | ind n ih =>
    by_cases h : '\n' ∈ cs
    · obtain ⟨line, rest, rfl, hline⟩ := List.eq_append_cons_of_mem h
      rw [List.length_append, List.length_cons] at hn
      obtain ⟨hcount, hlength⟩ := ih rest.length (by omega) rest rfl
      rw [lines_append_cons hline]
      constructor
      · rw [List.length_cons]
        omega
      · intro raw hm
        rcases List.mem_cons.1 hm with rfl | hm
        · have := length_withoutReturn_le line
          omega
        · have := hlength raw hm
          omega
    · rw [lines_of_not_mem h, ← hn]
      cases cs with
      | nil => simp
      | cons c cs => simp

/-- The first lines of a text are the lines of a text that it starts with. -/
theorem Text.exists_prefix_lines (n : Nat) (cs : List Char) :
    ∃ first, first <+: cs ∧ lines first = (lines cs).take n := by
  induction n generalizing cs with
  | zero => exact ⟨[], List.nil_prefix, rfl⟩
  | succ n ih =>
    by_cases h : '\n' ∈ cs
    · obtain ⟨line, rest, rfl, hline⟩ := List.eq_append_cons_of_mem h
      obtain ⟨first, hfirst, hlines⟩ := ih rest
      refine ⟨line ++ '\n' :: first, ?_, ?_⟩
      · exact (List.prefix_append_right_inj line).2 (List.cons_prefix_cons.2 ⟨rfl, hfirst⟩)
      · rw [lines_append_cons hline, lines_append_cons hline, List.take_succ_cons, hlines]
    · have hlen : (lines cs).length ≤ n + 1 := by
        rw [lines, split_of_not_mem h, ended]
        split <;> simp
      exact ⟨cs, List.prefix_rfl, (List.take_of_length_le hlen).symm⟩

/-! ### Cleaned lines -/

namespace Line

/-- Whether a raw line is neither blank nor a comment. -/
def isKept (raw : List Char) : Bool :=
  (raw.find? fun c => !Text.isBlank c).any (· ≠ commentMark)

/-- The lines of some raw lines that follow the raw line with a number: those that
are neither blank nor comments, without the blanks at their ends. -/
def cleaned (number : Nat) (raws : List (List Char)) : List Line :=
  (raws.zipIdx (number + 1)).filterMap fun (raw, number) =>
    if isKept raw then some ⟨number, String.ofList (raw.rdropWhile Text.isBlank)⟩ else none

/-- The cleaned lines of a text, numbered from 1 among all its lines. -/
def ofText (text : String) : List Line := cleaned 0 (Text.lines text.toList)

theorem clean?_eq (number : Nat) (raw : List Char) :
    clean? number raw =
      if isKept raw then some ⟨number, String.ofList (raw.rdropWhile Text.isBlank)⟩ else none := by
  have hhead : (Text.trimStart (Text.trimEnd raw)).head? = raw.find? fun c => !Text.isBlank c := by
    rw [Text.head?_trimStart, Text.find?_trimEnd]
  rw [isKept, ← hhead, ← Text.trimEnd_eq_rdropWhile]
  cases ht : Text.trimStart (Text.trimEnd raw) with
  | nil => simp [clean?, ht]
  | cons c cs => by_cases h : c = commentMark <;> simp [clean?, ht, h]

@[simp] theorem cleaned_nil (number : Nat) : cleaned number [] = [] := rfl

theorem cleaned_cons (number : Nat) (raw : List Char) (raws : List (List Char)) :
    cleaned number (raw :: raws) = (clean? (number + 1) raw).toList ++ cleaned (number + 1) raws := by
  rw [clean?_eq]
  by_cases h : isKept raw <;> simp [cleaned, h]

theorem cleaned_append (number : Nat) (before after : List (List Char)) :
    cleaned number (before ++ after) = cleaned number before ++ cleaned (number + before.length) after := by
  simp [cleaned, List.zipIdx_append, Nat.add_right_comm]

/-- A raw line that nothing is taken from. -/
structure IsClean (raw : List Char) : Prop where
  unbroken : '\n' ∉ raw
  withoutReturn : Text.withoutReturn raw = raw
  kept : isKept raw
  trimmed : raw.rdropWhile Text.isBlank = raw

theorem cleaned_of_isClean (number : Nat) {raws : List (List Char)} (h : ∀ raw ∈ raws, IsClean raw) :
    cleaned number raws =
      (raws.zipIdx (number + 1)).map fun (raw, number) => ⟨number, String.ofList raw⟩ := by
  induction raws generalizing number with
  | nil => rfl
  | cons raw raws ih =>
    obtain ⟨hraw, hraws⟩ := List.forall_mem_cons.1 h
    rw [cleaned_cons, clean?_eq, if_pos hraw.kept, hraw.trimmed, ih (number + 1) hraws]
    rfl

/-- A text written in clean lines has these lines. -/
theorem ofText_of_isClean {raws : List (List Char)} (h : ∀ raw ∈ raws, IsClean raw) :
    ofText (String.ofList (raws.flatMap (· ++ ['\n']))) =
      (raws.zipIdx 1).map fun (raw, number) => ⟨number, String.ofList raw⟩ := by
  rw [ofText, String.toList_ofList, Text.lines_flatMap fun raw hm => (h raw hm).unbroken,
    List.map_congr_left fun raw hm => (h raw hm).withoutReturn, List.map_id', cleaned_of_isClean 0 h]

theorem length_cleaned_le (number : Nat) (raws : List (List Char)) :
    (cleaned number raws).length ≤ raws.length :=
  (List.length_filterMap_le _ _).trans_eq List.length_zipIdx

theorem number_of_clean? {number : Nat} {raw : List Char} {line : Line}
    (h : clean? number raw = some line) : line.number = number := by
  rw [clean?_eq] at h
  split_ifs at h
  exact (Option.some.inj h) ▸ rfl

/-- The numbers of cleaned lines ascend, and no number is beyond the raw lines. -/
theorem numbers_cleaned_sublist (number : Nat) (raws : List (List Char)) :
    ((cleaned number raws).map (·.number)).Sublist (List.range' (number + 1) raws.length) := by
  induction raws generalizing number with
  | nil => exact List.Sublist.refl []
  | cons raw raws ih =>
    rw [cleaned_cons, List.length_cons, List.range'_succ]
    cases hc : clean? (number + 1) raw with
    | none => exact (ih (number + 1)).cons _
    | some line =>
      have hnumber := number_of_clean? hc
      simpa [hnumber] using ih (number + 1)

theorem nodup_numbers_ofText (text : String) : ((ofText text).map (·.number)).Nodup :=
  (numbers_cleaned_sublist 0 _).nodup List.nodup_range'

/-- The numbers and the texts of cleaned lines are no longer than the text they come from. -/
theorem le_of_mem_ofText {text : String} {line : Line} (h : line ∈ ofText text) :
    line.number ≤ text.length ∧ line.text.toList.length ≤ text.length := by
  obtain ⟨hcount, hlength⟩ := Text.lines_le text.toList
  rw [String.length_toList] at hcount hlength
  constructor
  · have hm := (numbers_cleaned_sublist 0 _).subset (List.mem_map_of_mem h)
    rw [List.mem_range'_1] at hm
    omega
  · obtain ⟨⟨raw, number⟩, hraw, hline⟩ := List.mem_filterMap.1 h
    dsimp only at hline
    split_ifs at hline
    obtain rfl := Option.some.inj hline
    have hprefix := (List.rdropWhile_prefix Text.isBlank raw).length_le
    have := hlength raw (List.fst_mem_of_mem_zipIdx hraw)
    rw [String.toList_ofList]
    omega

/-- Where a cleaned line stands in the text, and what is cleaned before it. -/
theorem cleaned_eq_append_cons {number : Nat} {raws : List (List Char)} {line : Line}
    {before after : List Line} (h : cleaned number raws = before ++ line :: after) :
    ∃ first raw rest, raws = first ++ raw :: rest ∧ line.number = number + first.length + 1 ∧
      isKept raw ∧ cleaned number first = before ∧ clean? line.number raw = some line := by
  induction raws generalizing number before with
  | nil => simp at h
  | cons raw raws ih =>
    rw [cleaned_cons] at h
    cases hc : clean? (number + 1) raw with
    | none =>
      rw [hc] at h
      obtain ⟨first, next, rest, rfl, hnumber, hkept, hbefore, hline⟩ := ih h
      refine ⟨raw :: first, next, rest, rfl, ?_, hkept, ?_, hline⟩
      · rw [hnumber, List.length_cons]
        omega
      · rw [cleaned_cons, hc, hbefore]
        rfl
    | some found =>
      rw [hc] at h
      cases before with
      | nil =>
        obtain ⟨rfl, -⟩ := List.cons.inj h
        have hfound := hc
        rw [clean?_eq] at hfound
        split_ifs at hfound with hkept
        obtain rfl := Option.some.inj hfound
        exact ⟨[], raw, raws, rfl, rfl, hkept, rfl, hc⟩
      | cons other before =>
        obtain ⟨rfl, hrest⟩ := List.cons.inj h
        obtain ⟨first, next, rest, rfl, hnumber, hkept, hbefore, hline⟩ := ih hrest
        refine ⟨raw :: first, next, rest, rfl, ?_, hkept, ?_, hline⟩
        · rw [hnumber, List.length_cons]
          omega
        · rw [cleaned_cons, hc, hbefore]
          rfl

theorem seek_eq_of_cleaned_nil {number : Nat} {raws : List (List Char)}
    (h : cleaned number raws = []) : seek number raws = (none, number + raws.length, []) := by
  induction raws generalizing number with
  | nil => rfl
  | cons raw raws ih =>
    rw [cleaned_cons, List.append_eq_nil_iff, Option.toList_eq_nil_iff] at h
    simp only [seek, h.1, ih h.2, List.length_cons]
    rw [Nat.add_right_comm, Nat.add_assoc]

theorem seek_eq_of_cleaned_cons {number : Nat} {raws : List (List Char)} {line : Line}
    {lines : List Line} (h : cleaned number raws = line :: lines) :
    ∃ number' rest, seek number raws = (some line, number', rest) ∧ cleaned number' rest = lines := by
  induction raws generalizing number with
  | nil => simp at h
  | cons raw raws ih =>
    rw [cleaned_cons] at h
    cases hc : clean? (number + 1) raw with
    | none =>
      rw [hc] at h
      obtain ⟨number', rest, hs, hrest⟩ := ih h
      exact ⟨number', rest, by simp [seek, hc, hs], hrest⟩
    | some first =>
      rw [hc] at h
      obtain ⟨rfl, rfl⟩ := List.cons.inj h
      exact ⟨number + 1, raws, by simp [seek, hc], rfl⟩

end Line

/-! ### Sources -/

namespace Source

/-- A line is only taken back after it was delivered. -/
def Sound (s : Source) : Prop := s.held → s.last.isSome

/-- The lines still to come. -/
def remaining (s : Source) : List Line :=
  (if s.held then s.last.toList else []) ++ Line.cleaned s.number s.pending

theorem sound_ofText (text : String) : (ofText text).Sound := nofun

@[simp] theorem remaining_ofText (text : String) : (ofText text).remaining = Line.ofText text := rfl

theorem length_remaining_le (s : Source) : s.remaining.length ≤ s.bound := by
  have hc := Line.length_cleaned_le s.number s.pending
  cases hh : s.held <;> cases hl : s.last <;> simp [remaining, bound, hh, hl] <;> omega

/-- At the end nothing is delivered, and nothing is left. -/
theorem next_of_remaining_nil {s : Source} (hs : s.Sound) (h : s.remaining = []) :
    ∃ s', s.next = (none, s') ∧ s'.Sound ∧ s'.remaining = [] := by
  obtain ⟨hheld, hrest⟩ := List.append_eq_nil_iff.1 h
  cases hh : s.held with
  | true =>
    obtain ⟨line, hl⟩ := Option.isSome_iff_exists.1 (hs hh)
    simp [hh, hl] at hheld
  | false =>
    refine ⟨⟨[], s.number + s.pending.length, s.last, false⟩, ?_, nofun, rfl⟩
    simp [next, hh, Line.seek_eq_of_cleaned_nil hrest]

/-- Otherwise the first line is delivered, and can be taken back. -/
theorem next_of_remaining_cons {s : Source} (hs : s.Sound) {line : Line} {lines : List Line}
    (h : s.remaining = line :: lines) :
    ∃ s', s.next = (some line, s') ∧ s'.Sound ∧ s'.remaining = lines ∧
      s'.putBack.Sound ∧ s'.putBack.remaining = line :: lines := by
  cases hh : s.held with
  | true =>
    obtain ⟨last, hl⟩ := Option.isSome_iff_exists.1 (hs hh)
    simp only [remaining, hh, hl, if_true, Option.toList_some, List.singleton_append] at h
    obtain ⟨rfl, rfl⟩ := List.cons.inj h
    refine ⟨{ s with held := false }, by simp [next, hh, hl], nofun, rfl, ?_, ?_⟩
    · simp [Sound, putBack, hl]
    · simp [remaining, putBack, hl]
  | false =>
    simp only [remaining, hh, Bool.false_eq_true, if_false, List.nil_append] at h
    obtain ⟨number, rest, hseek, hrest⟩ := Line.seek_eq_of_cleaned_cons h
    refine ⟨⟨rest, number, some line, false⟩, by simp [next, hh, hseek], nofun, hrest, ?_, ?_⟩
    · simp [Sound, putBack]
    · simp [remaining, putBack, hrest]

end Source

end Codesheet
