import Geminon.Memory

namespace Process
open Memory
set_option autoImplicit true

/-- A process over a state of type `σ`; a fault ends it and leaves the state as it then was. -/
abbrev Proc (σ : Type) := EStateM Fault σ

def checked (x : Except Fault α) : Proc σ α :=
  match x with
  | .ok a => pure a
  | .error fault => throw fault

theorem modifyGet_apply (g : σ → α × σ) (s : σ) :
    (modifyGet g : Proc σ α) s = .ok (g s).1 (g s).2 := rfl

/-- What holds of a run from `s`: `Q` of its result if it returns, `E` if a fault ends it. -/
def Outcome (x : Proc σ α) (s : σ) (Q : α → σ → Prop) (E : Fault → σ → Prop) : Prop :=
  match x s with
  | .ok a s' => Q a s'
  | .error fault s' => E fault s'

section Rules
variable {σ α β : Type} {s s' : σ} {Q Q' : α → σ → Prop} {R : β → σ → Prop}
  {E E' : Fault → σ → Prop} {x : Proc σ α} {f : α → Proc σ β}

theorem Outcome.pure (h : Q a s) : Outcome (pure a) s Q E := h

theorem Outcome.throw (h : E fault s) : Outcome (throw fault : Proc σ α) s Q E := h

theorem Outcome.modify {g : σ → σ} {Q : PUnit → σ → Prop} (h : Q () (g s)) :
    Outcome (modify g) s Q E := h

theorem Outcome.modifyGet {g : σ → α × σ} (h : Q (g s).1 (g s).2) :
    Outcome (modifyGet g) s Q E := h

theorem Outcome.get {Q : σ → σ → Prop} (h : Q s s) : Outcome get s Q E := h

theorem Outcome.bind (h : Outcome x s (fun a s₁ => Outcome (f a) s₁ R E) E) :
    Outcome (x >>= f) s R E := by
  unfold Outcome at h ⊢
  change match EStateM.bind x f s with
    | .ok b s' => R b s'
    | .error fault s' => E fault s'
  unfold EStateM.bind
  cases hx : x s with
  | ok a s₁ =>
    rw [hx] at h
    exact h
  | error fault s₁ =>
    rw [hx] at h
    exact h

theorem Outcome.mono (h : Outcome x s Q E) (hQ : ∀ a s', Q a s' → Q' a s')
    (hE : ∀ fault s', E fault s' → E' fault s') : Outcome x s Q' E' := by
  unfold Outcome at h ⊢
  cases hx : x s with
  | ok a s' =>
    rw [hx] at h
    exact hQ a s' h
  | error fault s' =>
    rw [hx] at h
    exact hE fault s' h

theorem Outcome.imp (h : Outcome x s Q E) (hQ : ∀ a s', Q a s' → Q' a s') : Outcome x s Q' E :=
  h.mono hQ fun _ _ he => he

theorem Outcome.trivial (x : Proc σ α) (s : σ) :
    Outcome x s (fun _ _ => True) fun _ _ => True := by
  unfold Outcome
  split
  · exact True.intro
  · exact True.intro

theorem Outcome.sure (h : Outcome x s Q fun _ _ => False) : Outcome x s Q E :=
  h.mono (fun _ _ hq => hq) fun _ _ hf => hf.elim

theorem Outcome.and (h : Outcome x s Q E) (h' : Outcome x s Q' E') :
    Outcome x s (fun a s' => Q a s' ∧ Q' a s') fun fault s' => E fault s' ∧ E' fault s' := by
  unfold Outcome at h h' ⊢
  cases hx : x s with
  | ok a s' =>
    rw [hx] at h h'
    exact ⟨h, h'⟩
  | error fault s' =>
    rw [hx] at h h'
    exact ⟨h, h'⟩

/-- The rule of sequencing for a first part whose outcome is known. -/
theorem Outcome.andThen (h : Outcome x s Q E) (hf : ∀ a s₁, Q a s₁ → Outcome (f a) s₁ R E) :
    Outcome (x >>= f) s R E :=
  .bind (h.imp hf)

theorem Outcome.checked {x : Except Fault α} (hok : ∀ a, x = .ok a → Q a s)
    (herr : ∀ fault, x = .error fault → E fault s) : Outcome (checked x) s Q E := by
  cases x with
  | ok a => exact hok a rfl
  | error fault => exact herr fault rfl

theorem Outcome.of_run (hx : x s = .ok a s') (h : Q a s') : Outcome x s Q E := by
  unfold Outcome
  rw [hx]
  exact h

theorem Outcome.of_ok (h : Outcome x s Q E) (hx : x s = .ok a s') : Q a s' := by
  unfold Outcome at h
  rw [hx] at h
  exact h

theorem Outcome.returns (h : Outcome x s Q fun _ _ => False) : ∃ a s', x s = .ok a s' ∧ Q a s' := by
  unfold Outcome at h
  cases hx : x s with
  | ok a s' =>
    rw [hx] at h
    exact ⟨a, s', rfl, h⟩
  | error fault s' =>
    rw [hx] at h
    exact h.elim

theorem bind_ok (h : x s = .ok a s') : (x >>= f) s = f a s' := by
  change EStateM.bind x f s = _
  rw [EStateM.bind, h]

theorem get_bind {f : σ → Proc σ β} (s : σ) : (get >>= f) s = f s s := rfl

theorem bind_error (h : x s = .error fault s') : (x >>= f) s = .error fault s' := by
  change EStateM.bind x f s = _
  rw [EStateM.bind, h]

end Rules

end Process
