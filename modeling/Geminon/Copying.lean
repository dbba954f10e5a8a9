import Mathlib.Data.List.Basic
import Mathlib.Logic.Relation

namespace Copying
set_option autoImplicit true

/-- A copy under way: what has been passed on, what is held, and what is still to come. -/
structure Relay (α : Type) where
  passed : List α
  held : List α
  coming : List α

/-- A relay takes some items that come next, as far as there is room, or passes on some. -/
inductive Step (room : Nat) : Relay α → Relay α → Prop where
  | take (piece : List α) : held.length + piece.length ≤ room →
      Step room ⟨passed, held, piece ++ coming⟩ ⟨passed, held ++ piece, coming⟩
  | pass (k : Nat) : Step room ⟨passed, held, coming⟩ ⟨passed ++ held.take k, held.drop k, coming⟩

abbrev Steps (room : Nat) : Relay α → Relay α → Prop := Relation.ReflTransGen (Step room)

variable {room : Nat} {r r' : Relay α}

theorem Step.passes (h : Step room r r') :
    ∃ out, r'.passed = r.passed ++ out ∧ out ++ (r'.held ++ r'.coming) = r.held ++ r.coming := by
  cases h with
  | take piece hroom => exact ⟨[], by simp, by simp⟩
  | @pass passed held coming k =>
    refine ⟨held.take k, rfl, ?_⟩
    rw [← List.append_assoc, List.take_append_drop]

/-- Whatever a relay does, what it passes on, what it holds and what comes make up the whole. -/
theorem Steps.passes (h : Steps room r r') :
    ∃ out, r'.passed = r.passed ++ out ∧ out ++ (r'.held ++ r'.coming) = r.held ++ r.coming := by
  induction h with
  | refl => exact ⟨[], by simp, rfl⟩
  | tail _ hstep ih =>
    obtain ⟨out, hpassed, hwhole⟩ := ih
    obtain ⟨out', hpassed', hwhole'⟩ := hstep.passes
    refine ⟨out ++ out', ?_, ?_⟩
    · rw [hpassed', hpassed, List.append_assoc]
    · rw [List.append_assoc, hwhole', hwhole]

theorem Steps.take (piece : List α) (hroom : r.held.length + piece.length ≤ room)
    (hcoming : r.coming = piece ++ rest) (h : Steps room ⟨r.passed, r.held ++ piece, rest⟩ r') :
    Steps room r r' := by
  obtain ⟨passed, held, coming⟩ := r
  change coming = _ at hcoming
  rw [hcoming]
  exact .head (.take piece hroom) h

theorem Steps.pass (k : Nat)
    (h : Steps room ⟨r.passed ++ r.held.take k, r.held.drop k, r.coming⟩ r') : Steps room r r' :=
  .head (.pass k) h

end Copying
