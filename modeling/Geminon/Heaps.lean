import Geminon.Descriptors
import Geminon.Process

namespace Heaps
open Memory Process Descriptors
set_option autoImplicit true

abbrev Heap (β : Type) := FdTable β

theorem exists_unused_from (h : Heap β) (hint : Nat) : ∃ a, hint ≤ a ∧ (h.get a).isNone := by
  obtain ⟨bound, hbound⟩ := h.finite
  exact ⟨max hint bound, by omega, by rw [hbound _ (by omega)]; rfl⟩

def freshAddr (h : Heap β) (hint : Nat) : Nat := Nat.find (exists_unused_from h hint)

theorem get_freshAddr (h : Heap β) (hint : Nat) : h.get (freshAddr h hint) = none :=
  Option.isNone_iff_eq_none.1 (Nat.find_spec (exists_unused_from h hint)).2

/-- `malloc`, for a block that is filled at once; it fails, or finds some block. -/
def malloc (outcome : Option Nat) (b : β) : Proc (Heap β) (Option Nat) :=
  match outcome with
  | none => pure none
  | some hint => modifyGet fun h => (some (freshAddr h hint), h.set (freshAddr h hint) (some b))

def load (a : Nat) : Proc (Heap β) β := do
  match (← get).get a with
  | none => throw (.load a)
  | some b => pure b

def store (a : Nat) (b : β) : Proc (Heap β) Unit := do
  match (← get).get a with
  | none => throw (.store a)
  | some _ => modify fun h => h.set a (some b)

def free (a : Nat) : Proc (Heap β) Unit := do
  match (← get).get a with
  | none => throw (.store a)
  | some _ => modify fun h => h.close a

/-- `free`, which does nothing about a null pointer. -/
def freePtr : Option Nat → Proc (Heap β) Unit
  | none => pure ()
  | some a => free a

section Rules
variable {β : Type} {h h' : Heap β} {a : Nat} {E : Fault → Heap β → Prop}

theorem malloc_outcome {Q : Option Nat → Heap β → Prop} (hnone : outcome = none → Q none h)
    (hsome : ∀ a, outcome.isSome → h.get a = none → Q (some a) (h.set a (some b))) :
    Outcome (malloc outcome b) h Q E := by
  cases outcome with
  | none => exact .pure (hnone rfl)
  | some hint => exact .modifyGet (hsome _ rfl (get_freshAddr h hint))

theorem load_outcome {Q : β → Heap β → Prop} (ha : h.get a = some b) (hQ : Q b h) :
    Outcome (load a) h Q E := by
  apply Outcome.bind
  apply Outcome.get
  rw [ha]
  exact .pure hQ

theorem load_dangling {Q : β → Heap β → Prop} (ha : h.get a = none) (hE : E (.load a) h) :
    Outcome (load a) h Q E := by
  apply Outcome.bind
  apply Outcome.get
  rw [ha]
  exact .throw hE

theorem store_outcome {Q : Unit → Heap β → Prop} (ha : (h.get a).isSome)
    (hQ : Q () (h.set a (some b))) : Outcome (store a b) h Q E := by
  obtain ⟨b', hb'⟩ := Option.isSome_iff_exists.1 ha
  apply Outcome.bind
  apply Outcome.get
  rw [hb']
  exact .modify hQ

theorem free_outcome {Q : Unit → Heap β → Prop} (ha : (h.get a).isSome) (hQ : Q () (h.close a)) :
    Outcome (free a) h Q E := by
  obtain ⟨b', hb'⟩ := Option.isSome_iff_exists.1 ha
  apply Outcome.bind
  apply Outcome.get
  rw [hb']
  exact .modify hQ

theorem free_dangling {Q : Unit → Heap β → Prop} (ha : h.get a = none) (hE : E (.store a) h) :
    Outcome (free a) h Q E := by
  apply Outcome.bind
  apply Outcome.get
  rw [ha]
  exact .throw hE

end Rules

theorem live_set {h : Heap β} (ha : (h.get a).isSome) : ((h.set a' (some b)).get a).isSome := by
  by_cases he : a = a'
  · rw [he, FdTable.get_set_self]
    rfl
  · rwa [FdTable.get_set_of_ne _ _ he]

def release (h : Heap β) : List Nat → Heap β
  | [] => h
  | a :: as => release (h.close a) as

theorem get_release (h : Heap β) (as : List Nat) (a : Nat) :
    (release h as).get a = if a ∈ as then none else h.get a := by
  induction as generalizing h with
  | nil => simp [release]
  | cons a' as ih =>
    rw [release, ih]
    by_cases ha : a = a'
    · simp [ha, FdTable.close]
    · by_cases has : a ∈ as
      · simp [has]
      · simp [ha, has, FdTable.close, FdTable.get_set_of_ne]

theorem release_append (h : Heap β) (as as' : List Nat) :
    release h (as ++ as') = release (release h as) as' := by
  induction as generalizing h with
  | nil => rfl
  | cons a as ih => exact ih _

theorem release_comm (h : Heap β) (as as' : List Nat) :
    release h (as ++ as') = release h (as' ++ as) := by
  ext1 a
  rw [get_release, get_release]
  simp only [List.mem_append, or_comm]

theorem get_release_of_notMem (h : Heap β) (ha : a ∉ as) : (release h as).get a = h.get a := by
  rw [get_release, if_neg ha]

theorem freePtr_outcome {h : Heap β} {p : Option Nat} (hlive : ∀ a ∈ p, (h.get a).isSome) :
    Outcome (freePtr p) h (fun _ h' => h' = release h p.toList) fun _ _ => False := by
  cases p with
  | none => exact .pure rfl
  | some a => exact free_outcome (hlive a rfl) rfl

theorem release_congr {h h' : Heap β} (hm : ∀ a, a ∈ as ↔ a ∈ as')
    (hsame : ∀ a, a ∉ as → h'.get a = h.get a) : release h' as' = release h as := by
  ext1 a
  rw [get_release, get_release]
  by_cases ha : a ∈ as
  · rw [if_pos ha, if_pos ((hm a).1 ha)]
  · rw [if_neg ha, if_neg (mt (hm a).2 ha), hsame a ha]

/-- A heap is another one with new blocks, which hold these values. -/
inductive Gains : Heap β → List β → Heap β → Prop where
  | nothing (h : Heap β) : Gains h [] h
  | block : h.get a = none → Gains (h.set a (some b)) bs h' → Gains h (b :: bs) h'

theorem Gains.of_eq {h h' : Heap β} (heq : h' = h) : Gains h [] h' := heq ▸ .nothing h

theorem Gains.single {h : Heap β} (ha : h.get a = none) (b : β) :
    Gains h [b] (h.set a (some b)) := .block ha (.nothing _)

theorem Gains.trans {h h₁ h' : Heap β} (hg : Gains h bs h₁) (hg' : Gains h₁ bs' h') :
    Gains h (bs ++ bs') h' := by
  induction hg with
  | nothing h => exact hg'
  | block ha _ ih => exact .block ha (ih hg')

theorem Gains.keeps {h h' : Heap β} (hg : Gains h bs h') (hb : h.get a = some b) :
    h'.get a = some b := by
  induction hg with
  | nothing h => exact hb
  | block ha _ ih =>
    refine ih ?_
    rw [FdTable.get_set_of_ne, hb]
    rintro rfl
    rw [ha] at hb
    cases hb

theorem release_set (h : Heap β) (ha : a ∉ as) (b : Option β) :
    release (h.set a b) as = (release h as).set a b := by
  ext1 x
  rw [get_release]
  by_cases hx : x = a
  · rw [hx, if_neg ha, FdTable.get_set_self, FdTable.get_set_self]
  · rw [FdTable.get_set_of_ne _ _ hx, FdTable.get_set_of_ne _ _ hx, get_release]

/-- Giving up blocks before and after a heap gained others. -/
theorem Gains.release {h h' : Heap β} (hg : Gains h bs h') (has : ∀ a ∈ as, (h.get a).isSome) :
    Gains (release h as) bs (release h' as) := by
  induction hg with
  | nothing h => exact .nothing _
  | block ha _ ih =>
    have hnot : _ ∉ as := fun hmem => by
      have hlive := has _ hmem
      rw [ha] at hlive
      cases hlive
    refine .block (by rw [get_release_of_notMem _ hnot, ha]) ?_
    rw [← release_set _ hnot]
    exact ih fun x hx => live_set (has x hx)

end Heaps
