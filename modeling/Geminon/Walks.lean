import Mathlib.Data.List.Induction

namespace Walks
set_option autoImplicit true

inductive Move (α : Type) where
  | stay
  | up
  | down (name : α)
  deriving DecidableEq, Repr

/-- Nodes below a root, which is its own parent. Only a directory has children. -/
structure Hierarchy (α N : Type) where
  root : N
  isDir : N → Bool
  child : N → α → Option N
  parent : N → N
  parent_root : parent root = root
  parent_child : ∀ {n a m}, child n a = some m → parent m = n
  isDir_of_child : ∀ {n a m}, child n a = some m → isDir n = true

variable {α N : Type} (h : Hierarchy α N)

/-- Where a path leads from a node, if it leads anywhere. -/
def Hierarchy.walk (h : Hierarchy α N) (n : N) : List (Move α) → Option N
  | [] => some n
  | .stay :: moves => if h.isDir n then Hierarchy.walk h n moves else none
  | .up :: moves => if h.isDir n then Hierarchy.walk h (h.parent n) moves else none
  | .down a :: moves =>
    match h.child n a with
    | some m => Hierarchy.walk h m moves
    | none => none

def Hierarchy.descend (names : List α) : Option N := h.walk h.root (names.map .down)

theorem Hierarchy.walk_append (n : N) (moves moves' : List (Move α)) :
    h.walk n (moves ++ moves') = (h.walk n moves).bind fun m => h.walk m moves' := by
  induction moves generalizing n with
  | nil => rfl
  | cons move moves ih =>
    rw [List.cons_append]
    cases move with
    | stay =>
      simp only [walk]
      split
      · exact ih n
      · rfl
    | up =>
      simp only [walk]
      split
      · exact ih _
      · rfl
    | down a =>
      simp only [walk]
      cases h.child n a with
      | none => rfl
      | some m => exact ih m

theorem Hierarchy.descend_concat (names : List α) (a : α) :
    h.descend (names ++ [a]) = (h.descend names).bind fun n => h.child n a := by
  rw [descend, List.map_append, h.walk_append]
  refine congrArg (Option.bind _) (funext fun n => ?_)
  change (match h.child n a with
    | some m => some m
    | none => none) = _
  cases h.child n a <;> rfl

/-- The tree in which every name leads to a directory; a node is the names that lead to it. -/
def Hierarchy.full (α : Type) : Hierarchy α (List α) where
  root := []
  isDir _ := true
  child n a := some (n ++ [a])
  parent n := n.dropLast
  parent_root := rfl
  parent_child h := by
    cases h
    exact List.dropLast_concat
  isDir_of_child _ := rfl

def Move.apply (names : List α) : Move α → List α
  | .stay => names
  | .up => names.dropLast
  | .down a => names ++ [a]

/-- The names left of those one started from once a path is followed without looking. -/
def reduced (names : List α) (moves : List (Move α)) : List α := moves.foldl Move.apply names

theorem Hierarchy.descend_dropLast {names : List α} {n : N} (hn : h.descend names = some n) :
    h.descend names.dropLast = some (h.parent n) := by
  induction names using List.reverseRecOn with
  | nil =>
    cases hn
    exact congrArg some h.parent_root.symm
  | append_singleton names a _ =>
    rw [h.descend_concat] at hn
    obtain ⟨m, hm, hchild⟩ := Option.bind_eq_some_iff.1 hn
    rw [List.dropLast_concat, hm, h.parent_child hchild]

/-- Reducing a path keeps where it leads to. -/
theorem Hierarchy.descend_reduced {names : List α} {n m : N} {moves : List (Move α)}
    (hn : h.descend names = some n) (hm : h.walk n moves = some m) :
    h.descend (reduced names moves) = some m := by
  induction moves generalizing names n with
  | nil =>
    cases hm
    exact hn
  | cons move moves ih =>
    change h.descend (reduced (move.apply names) moves) = some m
    cases move with
    | stay =>
      simp only [walk, Option.ite_none_right_eq_some] at hm
      exact ih hn hm.2
    | up =>
      simp only [walk, Option.ite_none_right_eq_some] at hm
      exact ih (h.descend_dropLast hn) hm.2
    | down a =>
      simp only [walk] at hm
      cases hchild : h.child n a with
      | none =>
        rw [hchild] at hm
        cases hm
      | some n' =>
        rw [hchild] at hm
        refine ih ?_ hm
        change h.descend (names ++ [a]) = some n'
        rw [h.descend_concat, hn]
        exact hchild

theorem Hierarchy.walk_stay {moves : List (Move α)} (hne : moves ≠ []) (n : N) :
    h.walk n (.stay :: moves) = h.walk n moves := by
  rw [walk]
  split
  · rfl
  · rename_i hfile
    cases moves with
    | nil => exact absurd rfl hne
    | cons move moves =>
      cases move with
      | stay => rw [walk, if_neg hfile]
      | up => rw [walk, if_neg hfile]
      | down a =>
        rw [walk]
        cases hchild : h.child n a with
        | none => rfl
        | some m => exact absurd (h.isDir_of_child hchild) hfile

theorem Hierarchy.isDir_of_walk {n m : N} {moves : List (Move α)} (hne : moves ≠ [])
    (hwalk : h.walk n moves = some m) : h.isDir n = true := by
  rw [← h.walk_stay hne, walk, Option.ite_none_right_eq_some] at hwalk
  exact hwalk.1

/-- What there is below a node, as a hierarchy; a node of it is one with those above it. -/
def Hierarchy.below (h : Hierarchy α N) (top : N) : Hierarchy α (List N) where
  root := [top]
  isDir
    | [] => false
    | n :: _ => h.isDir n
  child
    | [], _ => none
    | n :: above, a => (h.child n a).map (· :: n :: above)
  parent
    | [] => []
    | [n] => [n]
    | _ :: above => above
  parent_root := rfl
  parent_child {way a way'} hchild := by
    cases way with
    | nil => cases hchild
    | cons n above =>
      obtain ⟨m, _, rfl⟩ := Option.map_eq_some_iff.1 hchild
      rfl
  isDir_of_child {way a way'} hchild := by
    cases way with
    | nil => cases hchild
    | cons n above =>
      obtain ⟨m, hm, -⟩ := Option.map_eq_some_iff.1 hchild
      exact h.isDir_of_child hm

theorem Hierarchy.below_child (top n : N) (above : List N) (a : α) :
    (h.below top).child (n :: above) a = (h.child n a).map (· :: n :: above) := rfl

theorem Hierarchy.walk_below {top n m : N} {above above' : List N} {names : List α}
    (hwalk : (h.below top).walk (n :: above) (names.map .down) = some (m :: above')) :
    h.walk n (names.map .down) = some m := by
  induction names generalizing n above with
  | nil =>
    cases hwalk
    rfl
  | cons a names ih =>
    rw [List.map_cons, walk] at hwalk ⊢
    rw [h.below_child] at hwalk
    cases hchild : h.child n a with
    | none =>
      rw [hchild] at hwalk
      cases hwalk
    | some n' =>
      rw [hchild] at hwalk
      exact ih hwalk

end Walks
