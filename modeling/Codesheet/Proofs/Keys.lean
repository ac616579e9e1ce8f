import Mathlib.Data.List.Forall2
import Mathlib.Data.List.Nodup

/-! Lists whose members have distinct keys, so that a key stands for one member, and lists that are related
member by member, as a list of results is to what they are the results of. -/

namespace Codesheet

variable {α β : Type} [DecidableEq β] {key : α → β} {as : List α}

theorem filter_key_eq_singleton (h : (as.map key).Nodup) {a : α} (ha : a ∈ as) :
    as.filter (key · = key a) = [a] := by
  induction as with
  | nil => cases ha
  | cons first as ih =>
    rw [List.map_cons, List.nodup_cons] at h
    rcases List.mem_cons.1 ha with rfl | ha
    · have hnone : as.filter (key · = key a) = [] := by
        rw [List.filter_eq_nil_iff]
        intro other hm heq
        exact h.1 (of_decide_eq_true heq ▸ List.mem_map_of_mem hm)
      rw [List.filter_cons, if_pos (decide_eq_true rfl), hnone]
    · have hne : key first ≠ key a := fun heq => h.1 (heq ▸ List.mem_map_of_mem ha)
      rw [List.filter_cons, if_neg (by simpa using hne), ih h.2 ha]

theorem find?_key (h : (as.map key).Nodup) {a : α} (ha : a ∈ as) :
    as.find? (key · = key a) = some a := by
  rw [← List.head?_filter, filter_key_eq_singleton h ha, List.head?_cons]

/-- A member in the place of one with its key is found under no other key. -/
theorem find?_set_of_ne {i : Nat} {a changed : α} {k : β} (h : as[i]? = some a) (hkey : key changed = key a)
    (hne : key a ≠ k) : (as.set i changed).find? (key · = k) = as.find? (key · = k) := by
  induction as generalizing i with
  | nil => rfl
  | cons first as ih =>
    cases i with
    | zero =>
      obtain rfl := Option.some.inj h
      simp [hkey, hne]
    | succ i => simp only [List.set_cons_succ, List.find?_cons, ih h]

omit [DecidableEq β] in
/-- A member in the place of one with its key leaves the keys. -/
theorem map_set_of_key {i : Nat} {a changed : α} (h : as[i]? = some a) (hkey : key changed = key a) :
    (as.set i changed).map key = as.map key := by
  have hi : (as.map key)[i]? = some (key changed) := by rw [List.getElem?_map, h, hkey]; rfl
  obtain ⟨hlt, hget⟩ := List.getElem?_eq_some_iff.1 hi
  rw [List.map_set, ← hget, List.set_getElem_self]

/-! ### Lists related member by member -/

theorem forall₂_append_left_iff {γ : Type} {R : α → γ → Prop} {as' : List α} {cs : List γ} :
    List.Forall₂ R (as ++ as') cs ↔
      ∃ bs bs', List.Forall₂ R as bs ∧ List.Forall₂ R as' bs' ∧ cs = bs ++ bs' := by
  induction as generalizing cs with
  | nil => simp
  | cons a as ih =>
    simp only [List.cons_append, List.forall₂_cons_left_iff, ih]
    constructor
    · rintro ⟨b, _, hb, ⟨bs, bs', hbs, hbs', rfl⟩, rfl⟩
      exact ⟨b :: bs, bs', ⟨b, bs, hb, hbs, rfl⟩, hbs', rfl⟩
    · rintro ⟨_, bs', ⟨b, bs, hb, hbs, rfl⟩, hbs', rfl⟩
      exact ⟨b, bs ++ bs', hb, ⟨bs, bs', hbs, hbs', rfl⟩, rfl⟩

theorem exists_of_forall₂_right {γ : Type} {R : α → γ → Prop} {cs : List γ}
    (h : List.Forall₂ R as cs) {c : γ} (hc : c ∈ cs) : ∃ a ∈ as, R a c := by
  induction h with
  | nil => cases hc
  | cons hfirst _ ih =>
    rcases List.mem_cons.1 hc with rfl | hc
    · exact ⟨_, List.mem_cons_self, hfirst⟩
    · obtain ⟨a, ha, hR⟩ := ih hc
      exact ⟨a, List.mem_cons_of_mem _ ha, hR⟩

theorem forall_mem_iff_of_forall₂ {γ : Type} {R : α → γ → Prop} {cs : List γ} {P : α → Prop} {Q : γ → Prop}
    (h : List.Forall₂ R as cs) (hR : ∀ {a c}, R a c → (P a ↔ Q c)) : (∀ a ∈ as, P a) ↔ ∀ c ∈ cs, Q c := by
  induction h with
  | nil => simp
  | cons hfirst _ ih => rw [List.forall_mem_cons, List.forall_mem_cons, ih, hR hfirst]

/-- A list of results has one for each member, in order. -/
theorem mapM_eq_ok {γ ε : Type} {f : α → Except ε γ} {cs : List γ} :
    as.mapM f = .ok cs ↔ List.Forall₂ (fun a c => f a = .ok c) as cs := by
  induction as generalizing cs with
  | nil => simp [pure, Except.pure, eq_comm]
  | cons a as ih =>
    rw [List.mapM_cons, List.forall₂_cons_left_iff]
    cases ha : f a with
    | error fault => simp [bind, Except.bind]
    | ok c =>
      cases has : as.mapM f with
      | error fault => simp [bind, Except.bind, ← ih, has]
      | ok rest => simp [bind, Except.bind, pure, Except.pure, ← ih, has, eq_comm]

end Codesheet
