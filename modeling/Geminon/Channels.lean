import Mathlib.Data.List.Basic

namespace Channels
set_option autoImplicit true

/-- A channel that has carried some pieces, and carries none once it failed to carry one. -/
structure Channel (α : Type) where
  carried : List α
  room : Nat

/-- What becomes of a channel that is offered pieces, one after the other. -/
def Channel.offer (ch : Channel α) (pieces : List α) : Channel α :=
  ⟨ch.carried ++ pieces.take ch.room, ch.room - pieces.length⟩

@[simp] theorem Channel.offer_nil (ch : Channel α) : ch.offer [] = ch := by
  rw [offer, List.take_nil, List.append_nil]
  rfl

theorem Channel.offer_append (ch : Channel α) (pieces pieces' : List α) :
    ch.offer (pieces ++ pieces') = (ch.offer pieces).offer pieces' := by
  simp only [offer, List.length_append, List.take_append, List.append_assoc, Nat.sub_sub]

theorem Channel.offer_full {ch : Channel α} (h : ch.room = 0) (pieces : List α) :
    ch.offer pieces = ch := by
  cases ch with
  | mk carried room =>
    obtain rfl : room = 0 := h
    rw [offer, List.take_zero, List.append_nil, Nat.zero_sub]

theorem Channel.offer_cons (carried : List α) (room : Nat) (piece : α) :
    (Channel.mk carried (room + 1)).offer [piece] = ⟨carried ++ [piece], room⟩ := by
  rw [offer, List.take_succ_cons, List.take_nil]
  rfl

theorem Channel.offer_fresh (room : Nat) (pieces : List α) :
    ((Channel.mk [] room).offer pieces).carried = pieces.take room := List.nil_append _

end Channels
