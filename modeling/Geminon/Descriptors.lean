import Mathlib.Order.Nat
import Mathlib.Data.Nat.Find
import Mathlib.Logic.Function.Basic

namespace Descriptors
set_option autoImplicit true

/-- The open descriptors of a process and what they refer to; only finitely many are open. -/
structure FdTable (δ : Type) where
  get : Nat → Option δ
  finite : ∃ bound, ∀ fd, bound ≤ fd → get fd = none

@[ext] theorem FdTable.ext {t u : FdTable δ} (h : ∀ fd, t.get fd = u.get fd) : t = u := by
  cases t
  cases u
  congr
  exact funext h

def FdTable.empty : FdTable δ := ⟨fun _ => none, 0, fun _ _ => rfl⟩

theorem FdTable.exists_unused (t : FdTable δ) : ∃ fd, (t.get fd).isNone := by
  obtain ⟨bound, hbound⟩ := t.finite
  exact ⟨bound, by rw [hbound bound (Nat.le_refl bound)]; rfl⟩

/-- A call that opens a descriptor takes the lowest number that is not in use. -/
def FdTable.unused (t : FdTable δ) : Nat := Nat.find t.exists_unused

theorem FdTable.get_unused (t : FdTable δ) : t.get t.unused = none :=
  Option.isNone_iff_eq_none.1 (Nat.find_spec t.exists_unused)

def FdTable.set (t : FdTable δ) (fd : Nat) (d : Option δ) : FdTable δ where
  get := Function.update t.get fd d
  finite := by
    obtain ⟨bound, hbound⟩ := t.finite
    refine ⟨max bound (fd + 1), fun i hi => ?_⟩
    rw [Function.update_of_ne (by omega), hbound i (by omega)]

def FdTable.add (t : FdTable δ) (d : δ) : FdTable δ := t.set t.unused (some d)

def FdTable.close (t : FdTable δ) (fd : Nat) : FdTable δ := t.set fd none

@[simp] theorem FdTable.get_set_self (t : FdTable δ) (fd : Nat) (d : Option δ) :
    (t.set fd d).get fd = d := Function.update_self _ _ _

theorem FdTable.get_set_of_ne (t : FdTable δ) (d : Option δ) (h : fd ≠ fd') :
    (t.set fd' d).get fd = t.get fd := Function.update_of_ne h _ _

theorem FdTable.set_self (t : FdTable δ) (h : t.get fd = d) : t.set fd d = t := by
  ext1 i
  by_cases hi : i = fd
  · rw [hi, get_set_self, h]
  · rw [get_set_of_ne _ _ hi]

@[simp] theorem FdTable.set_set (t : FdTable δ) (fd : Nat) (d d' : Option δ) :
    (t.set fd d).set fd d' = t.set fd d' := by
  ext1 i
  by_cases hi : i = fd
  · rw [hi, get_set_self, get_set_self]
  · rw [get_set_of_ne _ _ hi, get_set_of_ne _ _ hi, get_set_of_ne _ _ hi]

theorem FdTable.set_comm (t : FdTable δ) (d d' : Option δ) (h : fd ≠ fd') :
    (t.set fd d).set fd' d' = (t.set fd' d').set fd d := by
  ext1 i
  by_cases hi : i = fd
  · rw [hi, get_set_of_ne _ _ h, get_set_self, get_set_self]
  by_cases hi' : i = fd'
  · rw [hi', get_set_self, get_set_of_ne _ _ (Ne.symm h), get_set_self]
  · rw [get_set_of_ne _ _ hi', get_set_of_ne _ _ hi, get_set_of_ne _ _ hi, get_set_of_ne _ _ hi']

theorem FdTable.close_add (t : FdTable δ) (d : δ) : (t.add d).close t.unused = t := by
  rw [close, add, set_set, t.set_self t.get_unused]

/-- A stretch that closes nothing it was given, and leaves something open just if it leaked. -/
structure FdTable.Grows (leaked : Prop) (t u : FdTable δ) : Prop where
  keeps : ∀ fd d, t.get fd = some d → u.get fd = some d
  sealed : ¬ leaked → u = t
  leaves : leaked → ∃ fd, t.get fd = none ∧ u.get fd ≠ none

theorem FdTable.Grows.refl (t : FdTable δ) (h : ¬ leaked) : t.Grows leaked t :=
  ⟨fun _ _ h => h, fun _ => rfl, fun hl => absurd hl h⟩

theorem FdTable.Grows.trans {t u v : FdTable δ} (h : t.Grows leaked u) (h' : u.Grows leaked' v) :
    t.Grows (leaked ∨ leaked') v where
  keeps fd d hd := h'.keeps fd d (h.keeps fd d hd)
  sealed hl := by
    rw [not_or] at hl
    rw [h'.sealed hl.2, h.sealed hl.1]
  leaves := by
    intro hleaked
    obtain hl | hl := hleaked
    · obtain ⟨fd, hnone, hsome⟩ := h.leaves hl
      obtain ⟨d, hd⟩ := Option.ne_none_iff_exists'.1 hsome
      exact ⟨fd, hnone, by rw [h'.keeps fd d hd]; simp⟩
    · obtain ⟨fd, hnone, hsome⟩ := h'.leaves hl
      refine ⟨fd, ?_, hsome⟩
      cases hd : t.get fd with
      | none => rfl
      | some d =>
        rw [h.keeps fd d hd] at hnone
        cases hnone

theorem FdTable.Grows.set {t : FdTable δ} (h : t.get fd = none) (d : δ) :
    t.Grows True (t.set fd (some d)) where
  keeps i e he := by
    rw [get_set_of_ne _ _ fun hi => by rw [hi, h] at he; cases he]
    exact he
  sealed hl := absurd trivial hl
  leaves _ := ⟨fd, h, by simp⟩

theorem FdTable.Grows.congr {t u : FdTable δ} (h : t.Grows leaked u) (hl : leaked ↔ leaked') :
    t.Grows leaked' u := by
  rwa [propext hl] at h

/-- What is open at the end is what was open at the start just if nothing leaked. -/
theorem FdTable.Grows.eq_iff {t u : FdTable δ} (h : t.Grows leaked u) : u = t ↔ ¬ leaked := by
  refine ⟨?_, h.sealed⟩
  intro heq hl
  obtain rfl := heq
  obtain ⟨fd, hnone, hsome⟩ := h.leaves hl
  exact hsome hnone

end Descriptors
