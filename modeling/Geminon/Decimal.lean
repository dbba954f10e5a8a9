import Mathlib.Data.Nat.Digits.Defs
import Mathlib.Data.List.Basic
import Mathlib.Tactic.IntervalCases

namespace Decimal
set_option autoImplicit true

def IsDigit (c : UInt8) : Prop := 48 ≤ c ∧ c ≤ 57

instance : Decidable (IsDigit c) := inferInstanceAs (Decidable (_ ∧ _))

def digit (c : UInt8) : Nat := c.toNat - 48

/-- The number that a run of digits denotes, its most significant digit first. -/
def value (digits : List UInt8) : Nat := Nat.ofDigits 10 (digits.map digit).reverse

@[simp] theorem value_nil : value [] = 0 := rfl

theorem value_append (seen rest : List UInt8) :
    value (seen ++ rest) = value seen * 10 ^ rest.length + value rest := by
  rw [value, List.map_append, List.reverse_append, Nat.ofDigits_append, List.length_reverse,
    List.length_map, Nat.mul_comm, Nat.add_comm]
  rfl

theorem value_concat (seen : List UInt8) (c : UInt8) :
    value (seen ++ [c]) = value seen * 10 + digit c := by
  rw [value_append, List.length_singleton, Nat.pow_one]
  simp [value]

theorem value_le_append (seen rest : List UInt8) : value seen ≤ value (seen ++ rest) := by
  rw [value_append]
  have hpow : 0 < 10 ^ rest.length := Nat.pow_pos (by decide)
  exact (Nat.le_mul_of_pos_right _ hpow).trans (Nat.le_add_right _ _)

def digitOf (d : Nat) : UInt8 := 48 + UInt8.ofNat d

theorem digitOf_spec (h : d < 10) : IsDigit (digitOf d) ∧ digit (digitOf d) = d := by
  interval_cases d <;> decide

/-- Digits that denote a number, no more of them than it needs. -/
structure IsNumeral (digits : List UInt8) (n : Nat) : Prop where
  nonempty : digits ≠ []
  isDigit : ∀ c ∈ digits, IsDigit c
  shortest : digits.head? = some 48 → digits = [48]
  value_eq : value digits = n

/-- The digits of a number, the most significant one first, and none of zero. -/
def digitsOf (n : Nat) : List UInt8 := ((Nat.digits 10 n).map digitOf).reverse

theorem digitsOf_zero : digitsOf 0 = [] := by
  rw [digitsOf, Nat.digits_zero]
  rfl

theorem digitsOf_pos (h : 0 < n) : digitsOf n = digitsOf (n / 10) ++ [digitOf (n % 10)] := by
  rw [digitsOf, Nat.digits_def' (by decide) h, List.map_cons, List.reverse_cons]
  rfl

theorem IsNumeral.concat (h : IsNumeral digits n) (hpos : 0 < n) (hd : d < 10) :
    IsNumeral (digits ++ [digitOf d]) (n * 10 + d) where
  nonempty := by simp
  isDigit c hc := by
    obtain hc | hc := List.mem_append.1 hc
    · exact h.isDigit c hc
    · rw [List.mem_singleton.1 hc]
      exact (digitOf_spec hd).1
  shortest hhead := by
    rw [List.head?_append_of_ne_nil _ h.nonempty] at hhead
    have hzero := h.value_eq
    rw [h.shortest hhead] at hzero
    exact absurd hzero hpos.ne
  value_eq := by rw [value_concat, h.value_eq, (digitOf_spec hd).2]

theorem IsNumeral.digit (hd : d < 10) : IsNumeral [digitOf d] d where
  nonempty := List.cons_ne_nil _ _
  isDigit c hc := by
    rw [List.mem_singleton.1 hc]
    exact (digitOf_spec hd).1
  shortest hhead := by rw [Option.some.inj hhead]
  value_eq := by
    rw [← List.nil_append [digitOf d], value_concat, (digitOf_spec hd).2, value_nil, Nat.zero_mul,
      Nat.zero_add]

theorem digitsOf_isNumeral (h : 0 < n) : IsNumeral (digitsOf n) n := by
  induction n using Nat.strong_induction_on with
  | _ n ih =>
    have hlast : n % 10 < 10 := Nat.mod_lt n (by decide)
    rw [digitsOf_pos h]
    by_cases hsmall : n < 10
    · rw [Nat.div_eq_of_lt hsmall, Nat.mod_eq_of_lt hsmall, digitsOf_zero, List.nil_append]
      exact .digit hsmall
    · have hpos : 0 < n / 10 := Nat.div_pos (Nat.not_lt.1 hsmall) (by decide)
      have hrest := ih (n / 10) (Nat.div_lt_self h (by decide)) hpos
      have hnumeral := hrest.concat hpos hlast
      rwa [Nat.div_add_mod' n 10] at hnumeral

end Decimal
