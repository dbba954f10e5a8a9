import Geminon.Process

namespace Process
open Memory
set_option autoImplicit true

/-- Two runs that go the same way: both return, or one and the same fault ends them. -/
def Coupled (x : Proc σ α) (s : σ) (y : Proc τ β) (t : τ) (Q : α → β → σ → τ → Prop)
    (E : σ → τ → Prop) : Prop :=
  match x s, y t with
  | .ok a s', .ok b t' => Q a b s' t'
  | .error fault s', .error fault' t' => fault = fault' ∧ E s' t'
  | _, _ => False

section Rules
variable {σ τ α β γ δ : Type} {s s' : σ} {t t' : τ} {Q Q' : α → β → σ → τ → Prop}
  {R : γ → δ → σ → τ → Prop} {E : σ → τ → Prop} {x : Proc σ α} {y : Proc τ β}
  {f : α → Proc σ γ} {g : β → Proc τ δ}

theorem Coupled.pure (h : Q a b s t) : Coupled (pure a) s (pure b) t Q E := h

theorem Coupled.throw {Q : α → β → σ → τ → Prop} (h : E s t) :
    Coupled (throw fault) s (throw fault) t Q E := ⟨rfl, h⟩

theorem Coupled.modify {k : σ → σ} {l : τ → τ} {Q : PUnit → PUnit → σ → τ → Prop}
    (h : Q () () (k s) (l t)) : Coupled (modify k) s (modify l) t Q E := h

theorem Coupled.modifyGet {k : σ → α × σ} {l : τ → β × τ}
    (h : Q (k s).1 (l t).1 (k s).2 (l t).2) :
    Coupled (modifyGet k) s (modifyGet l) t Q E := h

theorem Coupled.get {Q : σ → τ → σ → τ → Prop} (h : Q s t s t) : Coupled get s get t Q E := h

theorem Coupled.bind (h : Coupled x s y t (fun a b s' t' => Coupled (f a) s' (g b) t' R E) E) :
    Coupled (x >>= f) s (y >>= g) t R E := by
  unfold Coupled at h
  cases hx : x s with
  | ok a s' =>
    cases hy : y t with
    | ok b t' =>
      rw [hx, hy] at h
      unfold Coupled
      rw [bind_ok hx, bind_ok hy]
      exact h
    | error fault t' =>
      rw [hx, hy] at h
      exact h.elim
  | error fault s' =>
    cases hy : y t with
    | ok b t' =>
      rw [hx, hy] at h
      exact h.elim
    | error fault' t' =>
      rw [hx, hy] at h
      unfold Coupled
      rw [bind_error hx, bind_error hy]
      exact h

theorem Coupled.imp (h : Coupled x s y t Q E) (hQ : ∀ a b s' t', Q a b s' t' → Q' a b s' t') :
    Coupled x s y t Q' E := by
  unfold Coupled at h ⊢
  split at h
  · exact hQ _ _ _ _ h
  · exact h
  · exact h.elim

/-- The rule of sequencing for first parts whose runs are known. -/
theorem Coupled.andThen (h : Coupled x s y t Q E)
    (hf : ∀ a b s' t', Q a b s' t' → Coupled (f a) s' (g b) t' R E) :
    Coupled (x >>= f) s (y >>= g) t R E :=
  .bind (h.imp hf)

theorem Coupled.checked {x : Except Fault α} {Q : α → α → σ → τ → Prop}
    (hok : ∀ a, x = .ok a → Q a a s t) (herr : E s t) :
    Coupled (checked x) s (checked x) t Q E := by
  cases x with
  | ok a => exact hok a rfl
  | error fault => exact ⟨rfl, herr⟩

theorem Outcome.coupled {Q : α → σ → Prop} {Q' : β → τ → Prop}
    (h : Outcome x s Q fun _ _ => False) (h' : Outcome y t Q' fun _ _ => False) :
    Coupled x s y t (fun a b s' t' => Q a s' ∧ Q' b t') E := by
  obtain ⟨a, s', hx, ha⟩ := h.returns
  obtain ⟨b, t', hy, hb⟩ := h'.returns
  unfold Coupled
  rw [hx, hy]
  exact ⟨ha, hb⟩

/-- Two processes that are still the same go the same way. -/
theorem Outcome.alike {Q : α → σ → Prop} {E' : Fault → σ → Prop} (h : Outcome x s Q E') :
    Coupled x s x s (fun a b s' t' => b = a ∧ t' = s' ∧ Q a s') fun s' t' => t' = s' := by
  unfold Outcome at h
  unfold Coupled
  cases hx : x s with
  | ok a s' =>
    rw [hx] at h
    exact ⟨rfl, rfl, h⟩
  | error fault s' => exact ⟨rfl, rfl⟩

theorem Coupled.outcome (h : Coupled x s y t Q E) :
    Outcome x s (fun a s' => ∃ b t', y t = .ok b t' ∧ Q a b s' t')
      fun fault s' => ∃ t', y t = .error fault t' ∧ E s' t' := by
  unfold Coupled at h
  unfold Outcome
  split at h
  · rename_i a s' b t' hx hy
    rw [hx]
    exact ⟨b, t', hy, h⟩
  · rename_i fault s' fault' t' hx hy
    obtain ⟨rfl, hE⟩ := h
    rw [hx]
    exact ⟨t', hy, hE⟩
  · exact h.elim

end Rules

end Process
