import Geminon.Coupling
import Mathlib.Data.List.Basic
import Mathlib.Data.List.Nodup
import Mathlib.Data.List.Range
import Mathlib.Data.List.Perm.Subperm

namespace LinkedList
set_option autoImplicit true

variable {N : Type} {next : N → Option Nat} {mem mem' : List N}

/-- Following the links of a memory from `start` leads over these addresses to the end. -/
def Follows (next : N → Option Nat) (mem : List N) : Option Nat → List Nat → Prop
  | start, [] => start = none
  | start, a :: as => start = some a ∧ ∃ node, mem[a]? = some node ∧ Follows next mem (next node) as

theorem Follows.frame (h : Follows next mem start as) (hm : ∀ a ∈ as, mem'[a]? = mem[a]?) :
    Follows next mem' start as := by
  induction as generalizing start with
  | nil => exact h
  | cons a as ih =>
    obtain ⟨hs, node, hnode, hrest⟩ := h
    exact ⟨hs, node, by rw [hm a List.mem_cons_self, hnode],
      ih hrest fun b hb => hm b (List.mem_cons_of_mem _ hb)⟩

theorem Follows.lt_length (h : Follows next mem start as) : ∀ a ∈ as, a < mem.length := by
  induction as generalizing start with
  | nil => simp
  | cons a as ih =>
    obtain ⟨_, node, hnode, hrest⟩ := h
    intro b hb
    rcases List.mem_cons.1 hb with rfl | hb
    · exact (List.getElem?_eq_some_iff.1 hnode).1
    · exact ih hrest b hb

theorem Follows.concat (h : Follows next mem start (as ++ [a])) {node new : N}
    (hkeep : ∀ x ∈ as, mem'[x]? = mem[x]?) (ha : mem'[a]? = some node) (hnext : next node = some b)
    (hb : mem'[b]? = some new) (hend : next new = none) :
    Follows next mem' start (as ++ [a] ++ [b]) := by
  induction as generalizing start with
  | nil => exact ⟨h.1, node, ha, hnext, new, hb, hend⟩
  | cons x as ih =>
    obtain ⟨hs, mid, hmid, hrest⟩ := h
    exact ⟨hs, mid, by rw [hkeep x List.mem_cons_self, hmid],
      ih hrest fun y hy => hkeep y (List.mem_cons_of_mem _ hy)⟩

structure IsQueue (next : N → Option Nat) (mem : List N) (first last : Option Nat)
    (as : List Nat) : Prop where
  follows : Follows next mem first as
  last_eq : last = as.getLast?
  nodup : as.Nodup

theorem IsQueue.empty : IsQueue next mem none none [] := ⟨rfl, rfl, List.nodup_nil⟩

theorem IsQueue.frame (h : IsQueue next mem first last as)
    (hm : ∀ a ∈ as, mem'[a]? = mem[a]?) : IsQueue next mem' first last as :=
  ⟨h.follows.frame hm, h.last_eq, h.nodup⟩

theorem IsQueue.length_le (h : IsQueue next mem first last as) : as.length ≤ mem.length := by
  have hsub : as ⊆ List.range mem.length := fun a ha =>
    List.mem_range.2 (h.follows.lt_length a ha)
  simpa using (List.Nodup.subperm h.nodup hsub).length_le

section Walk
variable {m : Type → Type} [Monad m] {β : Type}

/-- The loop over a chain, which its body may end with a result. -/
def walk (next : N → Option Nat) (mem : List N) (body : Nat → N → m (Option β)) (atEnd : m β)
    (stray endless : m β) : Nat → Option Nat → m β
  | _, none => atEnd
  | 0, some _ => endless
  | fuel + 1, some a =>
    match mem[a]? with
    | none => stray
    | some node => do
      match ← body a node with
      | some b => pure b
      | none => walk next mem body atEnd stray endless fuel (next node)

def walkList (body : Nat → N → m (Option β)) (atEnd : m β) : List (Nat × N) → m β
  | [] => atEnd
  | (a, node) :: rest => do
    match ← body a node with
    | some b => pure b
    | none => walkList body atEnd rest

theorem walkList_append [LawfulMonad m] (body : Nat → N → m (Option β)) (atEnd : m β)
    (l l' : List (Nat × N)) :
    walkList body atEnd (l ++ l') = walkList body (walkList body atEnd l') l := by
  induction l with
  | nil => rfl
  | cons node l ih =>
    rw [List.cons_append, walkList, walkList, ih]

def nodesAt (mem : List N) (as : List Nat) : List (Nat × N) :=
  as.filterMap fun a => mem[a]?.map fun node => (a, node)

theorem walk_eq {body : Nat → N → m (Option β)} {atEnd stray endless : m β}
    (h : Follows next mem start as) (hfuel : as.length ≤ fuel) :
    walk next mem body atEnd stray endless fuel start = walkList body atEnd (nodesAt mem as) := by
  induction as generalizing start fuel with
  | nil =>
    cases h
    cases fuel <;> rfl
  | cons a as ih =>
    obtain ⟨rfl, node, hnode, hrest⟩ := h
    cases fuel with
    | zero => simp at hfuel
    | succ fuel =>
      have hcons : nodesAt mem (a :: as) = (a, node) :: nodesAt mem as := by
        simp [nodesAt, hnode]
      rw [walk, hnode, hcons, walkList]
      refine congrArg (body a node >>= ·) (funext fun r => ?_)
      cases r with
      | some b => rfl
      | none => exact ih hrest (Nat.le_of_succ_le_succ hfuel)

end Walk

section Run
open Process Memory
variable {σ β : Type}

/-- The rule of the loop: an invariant over the nodes to come. -/
theorem walkList_outcome {body : Nat → N → Proc σ (Option β)} {atEnd : Proc σ β}
    {I : List (Nat × N) → σ → Prop} {Q : β → σ → Prop} {E : Fault → σ → Prop}
    (hend : ∀ s, I [] s → Outcome atEnd s Q E)
    (hstep : ∀ a node rest s, I ((a, node) :: rest) s → Outcome (body a node) s
      (fun r s' => match r with
        | some b => Q b s'
        | none => I rest s') E)
    (nodes : List (Nat × N)) (s : σ) (h : I nodes s) :
    Outcome (walkList body atEnd nodes) s Q E := by
  induction nodes generalizing s with
  | nil => exact hend s h
  | cons node nodes ih =>
    obtain ⟨a, node⟩ := node
    apply Outcome.andThen (hstep a node nodes s h)
    intro r s' hr
    cases r with
    | some b => exact .pure hr
    | none => exact ih s' hr

theorem walk_coupled {τ β' : Type} {body : Nat → N → Proc σ (Option β)}
    {body' : Nat → N → Proc τ (Option β')} {atEnd stray endless : Proc σ β}
    {atEnd' stray' endless' : Proc τ β'} {R : σ → τ → Prop} {Q : β → β' → σ → τ → Prop}
    {E : σ → τ → Prop} (hend : ∀ s t, R s t → Coupled atEnd s atEnd' t Q E)
    (hstray : ∀ s t, R s t → Coupled stray s stray' t Q E)
    (hendless : ∀ s t, R s t → Coupled endless s endless' t Q E)
    (hbody : ∀ a node s t, R s t → Coupled (body a node) s (body' a node) t
      (fun r r' s' t' => match r, r' with
        | some b, some b' => Q b b' s' t'
        | none, none => R s' t'
        | _, _ => False) E)
    (fuel : Nat) (start : Option Nat) (s : σ) (t : τ) (h : R s t) :
    Coupled (walk next mem body atEnd stray endless fuel start) s
      (walk next mem body' atEnd' stray' endless' fuel start) t Q E := by
  induction fuel generalizing start s t with
  | zero =>
    cases start with
    | none => exact hend s t h
    | some a => exact hendless s t h
  | succ fuel ih =>
    cases start with
    | none => exact hend s t h
    | some a =>
      unfold walk
      split
      · exact hstray s t h
      · rename_i node _
        apply (hbody a node s t h).andThen
        intro r r' s' t' hr
        cases r with
        | some b =>
          cases r' with
          | some b' => exact .pure hr
          | none => exact hr.elim
        | none =>
          cases r' with
          | some b' => exact hr.elim
          | none => exact ih _ s' t' hr

end Run

end LinkedList
