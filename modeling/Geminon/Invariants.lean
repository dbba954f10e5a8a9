import Geminon.LinkedList
import Geminon.Descriptors
import Mathlib.Data.Set.Card

namespace Process
open Memory LinkedList
set_option autoImplicit true

/-- A process that keeps an invariant, however it ends. -/
def Keeps (I : σ → Prop) (x : Proc σ α) : Prop :=
  ∀ s, I s → Outcome x s (fun _ s' => I s') fun _ s' => I s'

section Rules
variable {σ α β : Type} {I : σ → Prop} {x : Proc σ α} {f : α → Proc σ β}

theorem Keeps.pure (a : α) : Keeps I (pure a : Proc σ α) := fun _ h => .pure h

theorem Keeps.throw (fault : Fault) : Keeps I (throw fault : Proc σ α) := fun _ h => .throw h

theorem Keeps.get : Keeps I (get : Proc σ σ) := fun _ h => .get h

theorem Keeps.checked (x : Except Fault α) : Keeps I (checked x : Proc σ α) := fun _ h =>
  .checked (fun _ _ => h) fun _ _ => h

theorem Keeps.modify {g : σ → σ} (hg : ∀ s, I s → I (g s)) : Keeps I (modify g : Proc σ PUnit) :=
  fun s h => .modify (hg s h)

theorem Keeps.modifyGet {g : σ → α × σ} (hg : ∀ s, I s → I (g s).2) :
    Keeps I (modifyGet g : Proc σ α) := fun s h => .modifyGet (hg s h)

theorem Keeps.bind (hx : Keeps I x) (hf : ∀ a, Keeps I (f a)) : Keeps I (x >>= f) := fun s h =>
  (hx s h).andThen fun a s₁ h₁ => hf a s₁ h₁

theorem Keeps.ite {p : Prop} [Decidable p] {y : Proc σ α} (hx : Keeps I x) (hy : Keeps I y) :
    Keeps I (if p then x else y) := by
  split
  · exact hx
  · exact hy

theorem Keeps.outcome {J : σ → Prop} (hx : Keeps I x) (hs : I s) (hJ : ∀ s, I s → J s) :
    Outcome x s (fun _ s' => J s') fun _ s' => J s' :=
  (hx s hs).mono (fun _ s' h => hJ s' h) fun _ s' h => hJ s' h

/-- A loop over a chain keeps what its body keeps. -/
theorem Keeps.walk {N : Type} {next : N → Option Nat} {mem : List N}
    {body : Nat → N → Proc σ (Option β)} {atEnd stray endless : Proc σ β}
    (hbody : ∀ a node, Keeps I (body a node)) (hend : Keeps I atEnd) (hstray : Keeps I stray)
    (hendless : Keeps I endless) (fuel : Nat) (start : Option Nat) :
    Keeps I (LinkedList.walk next mem body atEnd stray endless fuel start) := by
  induction fuel generalizing start with
  | zero =>
    cases start with
    | none => exact hend
    | some a => exact hendless
  | succ fuel ih =>
    cases start with
    | none => exact hend
    | some a =>
      unfold LinkedList.walk
      split
      · exact hstray
      · refine .bind (hbody _ _) fun r => ?_
        cases r with
        | some b => exact .pure b
        | none => exact ih _

end Rules

end Process

namespace Descriptors
set_option autoImplicit true

/-- How many descriptors refer to something. -/
noncomputable def FdTable.count (t : FdTable δ) (d : δ) : Nat := {fd | t.get fd = some d}.ncard

theorem FdTable.finite_refs (t : FdTable δ) (d : δ) : {fd | t.get fd = some d}.Finite := by
  obtain ⟨bound, hbound⟩ := t.finite
  refine (Set.finite_lt_nat bound).subset fun fd hfd => ?_
  have hsome : t.get fd = some d := hfd
  by_contra hlt
  rw [hbound fd (Nat.le_of_not_lt hlt)] at hsome
  cases hsome

variable [DecidableEq δ]

theorem FdTable.count_set {t : FdTable δ} (h : t.get fd = none) (d e : δ) :
    (t.set fd (some d)).count e = t.count e + if d = e then 1 else 0 := by
  have hsame (i : Nat) (hi : i ≠ fd) : (t.set fd (some d)).get i = t.get i := get_set_of_ne _ _ hi
  by_cases he : d = e
  · have hrefs : {i | (t.set fd (some d)).get i = some e} = insert fd {i | t.get i = some e} := by
      ext i
      by_cases hi : i = fd
      · simp [hi, he]
      · simp [hi, hsame i hi]
    have hnot : fd ∉ {i | t.get i = some e} := by simp [h]
    rw [count, hrefs, Set.ncard_insert_of_notMem hnot (t.finite_refs e), if_pos he, count]
  · have hrefs : {i | (t.set fd (some d)).get i = some e} = {i | t.get i = some e} := by
      ext i
      by_cases hi : i = fd
      · simp [hi, he, h]
      · simp [hsame i hi]
    rw [count, hrefs, if_neg he, count, Nat.add_zero]

theorem FdTable.count_close {t : FdTable δ} (h : t.get fd = some d) (e : δ) :
    (t.close fd).count e + (if d = e then 1 else 0) = t.count e := by
  have hnone : (t.close fd).get fd = none := get_set_self _ _ _
  have hback : (t.close fd).set fd (some d) = t := by rw [close, set_set, set_self _ h]
  rw [← count_set hnone d e, hback]

end Descriptors
