import Mathlib.Data.List.Basic
import Mathlib.Data.List.Infix

namespace Search
set_option autoImplicit true

variable {α : Type} [DecidableEq α] {needle l t : List α}

/-- Where a string first stands in another one. -/
def find (needle : List α) : List α → Option Nat
  | [] => if needle = [] then some 0 else none
  | c :: l => if needle <+: c :: l then some 0 else (find needle l).map (· + 1)

theorem find_eq_some : find needle l = some i ↔
    needle <+: l.drop i ∧ ∀ j, j < i → ¬ needle <+: l.drop j := by
  induction l generalizing i with
  | nil =>
    simp only [find, List.drop_nil, List.prefix_nil]
    constructor
    · intro h
      split at h
      · rename_i hn
        cases h
        exact ⟨hn, fun j hj => absurd hj (Nat.not_lt_zero j)⟩
      · cases h
    · intro hfirst
      obtain ⟨hn, hmin⟩ := hfirst
      rw [if_pos hn]
      cases i with
      | zero => rfl
      | succ i => exact absurd hn (hmin 0 (Nat.succ_pos i))
  | cons c l ih =>
    rw [find]
    by_cases hc : needle <+: c :: l
    · rw [if_pos hc]
      constructor
      · intro hnone
        cases hnone
        exact ⟨hc, fun j hj => absurd hj (Nat.not_lt_zero j)⟩
      · intro hfirst
        obtain ⟨_, hmin⟩ := hfirst
        cases i with
        | zero => rfl
        | succ i => exact absurd hc (hmin 0 (Nat.succ_pos i))
    · rw [if_neg hc, Option.map_eq_some_iff]
      constructor
      · intro hlater
        obtain ⟨k, hk, rfl⟩ := hlater
        obtain ⟨hp, hmin⟩ := ih.1 hk
        refine ⟨hp, fun j hj => ?_⟩
        cases j with
        | zero => exact hc
        | succ j => exact hmin j (Nat.lt_of_succ_lt_succ hj)
      · intro hfirst
        obtain ⟨hp, hmin⟩ := hfirst
        cases i with
        | zero => exact absurd hp hc
        | succ i => exact ⟨i, ih.2 ⟨hp, fun j hj => hmin (j + 1) (Nat.succ_lt_succ hj)⟩, rfl⟩

theorem find_eq_none (h : needle ≠ []) : find needle l = none ↔ ¬ needle <:+: l := by
  induction l with
  | nil => simp [find, h]
  | cons c l ih =>
    rw [find, List.infix_cons_iff]
    by_cases hc : needle <+: c :: l
    · simp [hc]
    · simp [hc, ih]

theorem find_le_length (h : find needle l = some i) : i + needle.length ≤ l.length := by
  induction l generalizing i with
  | nil =>
    rw [find] at h
    split at h
    · rename_i hn
      cases h
      simp [hn]
    · cases h
  | cons c l ih =>
    rw [find] at h
    split at h
    · rename_i hp
      cases h
      simpa using hp.length_le
    · obtain ⟨k, hk, rfl⟩ := Option.map_eq_some_iff.1 h
      have hle := ih hk
      rw [List.length_cons]
      omega

omit [DecidableEq α] in
theorem prefix_drop_of_append (h : needle <+: (l ++ t).drop j)
    (hlen : j + needle.length ≤ l.length) : needle <+: l.drop j := by
  rw [List.drop_append_of_le_length (by omega)] at h
  exact List.prefix_of_prefix_length_le h (List.prefix_append _ _) (by simp; omega)

theorem find_append (t : List α) (h : find needle l = some i) : find needle (l ++ t) = some i := by
  have hlen := find_le_length h
  obtain ⟨hp, hmin⟩ := find_eq_some.1 h
  apply find_eq_some.2
  constructor
  · rw [List.drop_append_of_le_length (by omega)]
    exact hp.trans (List.prefix_append _ _)
  · intro j hj hjp
    exact hmin j hj (prefix_drop_of_append hjp (by omega))

theorem find_of_append (h : find needle (l ++ t) = some i) (hlen : i + needle.length ≤ l.length) :
    find needle l = some i := by
  obtain ⟨hp, hmin⟩ := find_eq_some.1 h
  apply find_eq_some.2
  refine ⟨prefix_drop_of_append hp hlen, fun j hj hjp => hmin j hj ?_⟩
  rw [List.drop_append_of_le_length (by omega)]
  exact hjp.trans (List.prefix_append _ _)

theorem find_take : find needle (l.take m) = some i ↔
    find needle l = some i ∧ i + needle.length ≤ m := by
  constructor
  · intro h
    have hlen := find_le_length h
    rw [List.length_take] at hlen
    have hall := find_append (l.drop m) h
    rw [List.take_append_drop] at hall
    exact ⟨hall, by omega⟩
  · intro hfirst
    obtain ⟨h, hm⟩ := hfirst
    have hlen := find_le_length h
    rw [← List.take_append_drop m l] at h
    exact find_of_append h (by rw [List.length_take]; omega)

end Search
