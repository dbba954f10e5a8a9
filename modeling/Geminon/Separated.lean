import Mathlib.Data.List.Basic
import Mathlib.Algebra.BigOperators.Group.List.Basic
import Mathlib.Algebra.Order.BigOperators.Group.List
import Mathlib.Algebra.Ring.Nat
import Mathlib.Algebra.Ring.Int.Defs

namespace Separated
set_option autoImplicit true

variable {α : Type} [DecidableEq α] {sep : α}

/-- Names written one after the other with a separator between them. -/
def joined (sep : α) (names : List (List α)) : List α := [sep].intercalate names

omit [DecidableEq α] in
@[simp] theorem joined_nil : joined sep ([] : List (List α)) = [] := rfl

omit [DecidableEq α] in
@[simp] theorem joined_singleton (name : List α) : joined sep [name] = name :=
  List.intercalate_singleton

omit [DecidableEq α] in
theorem joined_cons (name : List α) (h : names ≠ []) :
    joined sep (name :: names) = name ++ sep :: joined sep names := by
  rw [joined, List.intercalate_cons_of_ne_nil h, List.append_assoc]
  rfl

omit [DecidableEq α] in
theorem joined_concat (h : names ≠ []) (name : List α) :
    joined sep (names ++ [name]) = joined sep names ++ sep :: name := by
  induction names with
  | nil => exact absurd rfl h
  | cons first names ih =>
    cases names with
    | nil => rw [List.singleton_append, joined_cons first (by simp), joined_singleton,
        joined_singleton]
    | cons second names =>
      rw [List.cons_append, joined_cons first (by simp), joined_cons first (by simp),
        ih (by simp), List.append_assoc, List.cons_append]

theorem splitOn_joined (hne : names ≠ []) (h : ∀ name ∈ names, sep ∉ name) :
    (joined sep names).splitOn sep = names :=
  List.splitOn_intercalate sep h hne

theorem splitOn_cut (sep : α) (l : List α) :
    (sep ∉ l ∧ l.splitOn sep = [l]) ∨
      ∃ name rest, sep ∉ name ∧ l = name ++ sep :: rest ∧
        l.splitOn sep = name :: rest.splitOn sep := by
  by_cases h : sep ∈ l
  · obtain ⟨name, rest, he, hn⟩ := List.eq_append_cons_of_mem h
    exact .inr ⟨name, rest, hn, he, by rw [he, List.splitOn_append_cons_self_of_not_mem hn]⟩
  · exact .inl ⟨h, List.splitOn_eq_singleton h⟩

theorem splitOn_subset {sep : α} {l : List α} (h : part ∈ l.splitOn sep) : part ⊆ l := by
  induction hn : l.length using Nat.strong_induction_on generalizing l with
  | _ n ih =>
    cases splitOn_cut sep l with
    | inl hwhole =>
      rw [hwhole.2, List.mem_singleton] at h
      rw [h]
      exact List.Subset.refl l
    | inr hcut =>
      obtain ⟨seg, rest, _, rfl, hsplit⟩ := hcut
      rw [hsplit, List.mem_cons] at h
      cases h with
      | inl hseg =>
        rw [hseg]
        exact List.subset_append_left _ _
      | inr hrest =>
        have hsub := ih rest.length (by simp at hn; omega) hrest rfl
        exact fun x hx => List.mem_append_right _ (List.mem_cons_of_mem _ (hsub hx))

/-- The room names take when a separator or an end follows each of them. -/
def width (names : List (List α)) : Nat := (names.map fun name => name.length + 1).sum

omit [DecidableEq α] in
@[simp] theorem width_nil : width ([] : List (List α)) = 0 := rfl

omit [DecidableEq α] in
@[simp] theorem width_cons (name : List α) (names : List (List α)) :
    width (name :: names) = name.length + 1 + width names := rfl

omit [DecidableEq α] in
@[simp] theorem width_append (names names' : List (List α)) :
    width (names ++ names') = width names + width names' := by
  rw [width, List.map_append, List.sum_append]
  rfl

omit [DecidableEq α] in
theorem length_lt_width {names : List (List α)} (h : name ∈ names) : name.length < width names := by
  induction names with
  | nil => cases h
  | cons name' names ih =>
    rw [width_cons]
    cases List.mem_cons.1 h with
    | inl he =>
      rw [he]
      omega
    | inr hm =>
      have hlt := ih hm
      omega

omit [DecidableEq α] in
theorem width_dropLast_le (names : List (List α)) : width names.dropLast ≤ width names := by
  cases List.eq_nil_or_concat names with
  | inl hnil => rw [hnil, List.dropLast_nil]
  | inr hcons =>
    obtain ⟨front, last, rfl⟩ := hcons
    rw [List.concat_eq_append, List.dropLast_concat, width_append]
    exact Nat.le_add_right _ _

omit [DecidableEq α] in
theorem joined_length (h : names ≠ []) : (joined sep names).length + 1 = width names := by
  induction names with
  | nil => exact absurd rfl h
  | cons name names ih =>
    by_cases hne : names = []
    · rw [hne, joined_singleton, width_cons, width_nil]
    · have hrest := ih hne
      rw [joined_cons name hne, width_cons, List.length_append, List.length_cons]
      omega

theorem joined_splitOn (sep : α) (l : List α) : joined sep (l.splitOn sep) = l :=
  List.intercalate_splitOn sep

theorem width_splitOn (sep : α) (l : List α) : width (l.splitOn sep) = l.length + 1 := by
  rw [← joined_length (List.splitOn_ne_nil sep l), joined_splitOn]

omit [DecidableEq α] in
theorem mem_joined {c : α} (h : c ∈ joined sep names) : c = sep ∨ ∃ name ∈ names, c ∈ name := by
  induction names with
  | nil => cases h
  | cons name names ih =>
    by_cases hne : names = []
    · rw [hne, joined_singleton] at h
      exact .inr ⟨name, List.mem_cons_self, h⟩
    · rw [joined_cons name hne, List.mem_append, List.mem_cons] at h
      obtain hname | hsep | hrest := h
      · exact .inr ⟨name, List.mem_cons_self, hname⟩
      · exact .inl hsep
      · cases ih hrest with
        | inl hsep => exact .inl hsep
        | inr hmem =>
          obtain ⟨name', hname', hc⟩ := hmem
          exact .inr ⟨name', List.mem_cons_of_mem _ hname', hc⟩

omit [DecidableEq α] in
theorem joined_cut (last : List α) (h : width front ≤ n) :
    (joined sep (front ++ [last])).take n =
      joined sep (front ++ [last.take (n - width front)]) := by
  by_cases hne : front = []
  · rw [hne, List.nil_append, List.nil_append, joined_singleton, joined_singleton, width_nil,
      Nat.sub_zero]
  · have hlen : (joined sep front).length + 1 = width front := joined_length hne
    obtain ⟨k, hk⟩ : ∃ k, n - (joined sep front).length = k + 1 :=
      ⟨n - width front, by omega⟩
    rw [joined_concat hne, joined_concat hne, List.take_append, hk, List.take_succ_cons,
      List.take_of_length_le (by omega), show n - width front = k by omega]

/-- Weights along a walk never sum to less than zero, however far one has walked. -/
def NeverBelow (w : β → Int) (walk : List β) : Prop :=
  ∀ steps, steps <+: walk → 0 ≤ (steps.map w).sum

theorem neverBelow_of_nonneg (w : β → Int) (h : ∀ b ∈ walk, 0 ≤ w b) : NeverBelow w walk := by
  intro steps hsteps
  apply List.sum_nonneg
  intro x hx
  obtain ⟨b, hb, rfl⟩ := List.mem_map.1 hx
  exact h b (hsteps.subset hb)

theorem NeverBelow.concat {w : β → Int} (h : NeverBelow w walk) (b : β)
    (hb : 0 ≤ (walk.map w).sum + w b) : NeverBelow w (walk ++ [b]) := by
  intro steps hsteps
  rcases List.prefix_concat_iff.1 hsteps with he | he
  · rw [he, List.map_append, List.sum_append]
    simpa using hb
  · exact h steps he

end Separated
