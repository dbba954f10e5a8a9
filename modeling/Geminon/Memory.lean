import Mathlib.Data.List.Basic

namespace Memory
set_option autoImplicit true

/-- What a checked run reports in place of an access or a count that leaves its range. -/
inductive Fault where
  | load (index : Nat)
  | store (index : Nat)
  | wrap
  | overflow
  | null
  | assertion
  | endless
  deriving DecidableEq, Repr

theorem bind_eq_ok {x : Except ε α} {f : α → Except ε β} (h : x.bind f = .ok b) :
    ∃ a, x = .ok a ∧ f a = .ok b := by
  cases x with
  | error e => cases h
  | ok a => exact ⟨a, rfl, h⟩

/-- The octets of a NUL-terminated string, its terminator left out. -/
structure CStr where
  octets : List UInt8
  noNul : 0 ∉ octets
  deriving DecidableEq, Repr

@[ext] theorem CStr.ext {s t : CStr} (h : s.octets = t.octets) : s = t := by
  cases s
  cases t
  cases h
  rfl

def CStr.length (s : CStr) : Nat := s.octets.length

def CStr.ofString (s : String) : CStr :=
  ⟨(s.toList.map fun c => UInt8.ofNat c.toNat).filter (· ≠ 0), by simp⟩

/-- Leaving out leading octets of a string, as pointer arithmetic does. -/
def CStr.drop (s : CStr) (n : Nat) : CStr :=
  ⟨s.octets.drop n, fun h => s.noNul (List.mem_of_mem_drop h)⟩

/-- What a string function sees at the start of a stretch of memory. -/
def cstring (l : List UInt8) : List UInt8 := l.takeWhile (· ≠ 0)

theorem cstring_noNul (l : List UInt8) : 0 ∉ cstring l := by
  intro h
  have hall := List.all_takeWhile (p := fun c : UInt8 => decide (c ≠ 0)) (l := l)
  have h0 := List.all_eq_true.1 hall 0 h
  simp at h0

theorem cstring_initial (l : List UInt8) : cstring l <+: l := List.takeWhile_prefix _

theorem cstring_append_of_noNul (h : 0 ∉ l) (t : List UInt8) :
    cstring (l ++ t) = l ++ cstring t := by
  apply List.takeWhile_append_of_pos
  intro c hc
  exact decide_eq_true fun he => h (he ▸ hc)

theorem le_length_cstring (hm : m ≤ l.length) : m ≤ (cstring l).length ↔ 0 ∉ l.take m := by
  constructor
  · intro hle h0
    have htake : l.take m = (cstring l).take m := by
      rw [List.prefix_iff_eq_take.1 (cstring_initial l), List.take_take, Nat.min_eq_left hle]
    exact cstring_noNul l (List.mem_of_mem_take (htake ▸ h0))
  · intro h0
    have he := cstring_append_of_noNul h0 (l.drop m)
    rw [List.take_append_drop] at he
    rw [he, List.length_append, List.length_take_of_le hm]
    exact Nat.le_add_right _ _

theorem cstring_append_nul (s junk : List UInt8) : cstring (s ++ 0 :: junk) = cstring s := by
  rw [cstring, cstring, List.takeWhile_append]
  split
  · rename_i h
    rw [(List.takeWhile_prefix _).eq_of_length h, List.takeWhile_cons_of_neg (by simp),
      List.append_nil]
  · rfl

theorem cstring_terminated (h : 0 ∉ s) (junk : List UInt8) : cstring (s ++ 0 :: junk) = s := by
  rw [cstring_append_of_noNul h, cstring, List.takeWhile_cons_of_neg (by simp), List.append_nil]

/-- An object of `n` octets. -/
structure Buf (n : Nat) where
  octets : List UInt8
  size : octets.length = n
  deriving DecidableEq, Repr

def Buf.zeroed (n : Nat) : Buf n := ⟨List.replicate n 0, List.length_replicate⟩

/-- What `malloc` returns: the octets its block happens to hold, or nothing. -/
abbrev Malloc := Option (Nat → UInt8)

def Buf.filled (n : Nat) (mem : Nat → UInt8) : Buf n :=
  ⟨(List.range n).map mem, by rw [List.length_map, List.length_range]⟩

def Buf.str (b : Buf n) : List UInt8 := cstring b.octets

def Buf.cstr (b : Buf n) : CStr := ⟨b.str, cstring_noNul _⟩

def Buf.load (b : Buf n) (i : Nat) : Except Fault UInt8 :=
  match b.octets[i]? with
  | some c => .ok c
  | none => .error (.load i)

def Buf.store (b : Buf n) (i : Nat) (c : UInt8) : Except Fault (Buf n) :=
  if i < n then .ok ⟨b.octets.set i c, by rw [List.length_set, b.size]⟩ else .error (.store i)

/-- Storing a run of octets from index `i` on, as `memcpy` does. -/
def Buf.copyIn (b : Buf n) (i : Nat) (src : List UInt8) : Except Fault (Buf n) :=
  if h : i + src.length ≤ n then
    .ok ⟨b.octets.take i ++ src ++ b.octets.drop (i + src.length), by
      simp only [List.length_append, List.length_take, List.length_drop, b.size]
      omega⟩
  else .error (.store n)

/-- `strlen` runs off the object when no terminator stands in it. -/
def Buf.strlen (b : Buf n) : Except Fault Nat :=
  if 0 ∈ b.octets then .ok b.str.length else .error (.load n)

/-- The place of the last octet equal to `c`, as `strrchr` finds it. -/
def lastIndexOf (c : UInt8) : List UInt8 → Option Nat
  | [] => none
  | d :: s =>
    match lastIndexOf c s with
    | some i => some (i + 1)
    | none => if d = c then some 0 else none

def Buf.strrchr (b : Buf n) (c : UInt8) : Except Fault (Option Nat) :=
  if 0 ∈ b.octets then .ok (lastIndexOf c b.str) else .error (.load n)

/-- Subtraction of `size_t` values, reported when it would wrap below zero. -/
def sizeSub (a b : Nat) : Except Fault Nat := if b ≤ a then .ok (a - b) else .error .wrap

abbrev intMax : Nat := 2147483647

/-- A `size_t` converted to `int` keeps its low 32 bits, the last of which is the sign. -/
def intOfSize (n : Nat) : Int :=
  if n % 4294967296 ≤ intMax then (n % 4294967296 : Nat)
  else (n % 4294967296 : Nat) - 4294967296

/-- A sum of `int` values, as long as it is one. -/
def intAdd (a b : Int) : Except Fault Int :=
  match a + b with
  | .ofNat n => if n ≤ intMax then .ok (.ofNat n) else .error .overflow
  | .negSucc n => if n ≤ intMax then .ok (.negSucc n) else .error .overflow

theorem intOfSize_small (h : n ≤ intMax) : intOfSize n = n := by
  rw [intOfSize, Nat.mod_eq_of_lt (Nat.lt_of_le_of_lt h (by decide)), if_pos h]

theorem intOfSize_le (h : intOfSize n = (l : Nat)) : l ≤ n := by
  rw [intOfSize] at h
  split at h <;> omega

theorem intOfSize_le_max (n : Nat) : intOfSize n ≤ intMax := by
  rw [intOfSize]
  split <;> omega

theorem intOfSize_sub {n k : Nat} (h : (k : Int) ≤ intOfSize n) :
    intOfSize (n - k) = intOfSize n - k := by
  rw [intOfSize] at h
  split at h
  · rw [intOfSize, intOfSize]
    split <;> omega
  · omega

theorem intAdd_nat {a b : Nat} (h : a + b ≤ intMax) : intAdd a b = .ok ((a + b : Nat) : Int) :=
  if_pos h

theorem intAdd_overflow {a b : Nat} (h : intMax < a + b) : intAdd a b = .error .overflow :=
  if_neg (Nat.not_le.2 h)

theorem sizeSub_of_le (h : b ≤ a) : sizeSub a b = .ok (a - b) := if_pos h

theorem sizeSub_of_lt (h : a < b) : sizeSub a b = .error .wrap := if_neg (Nat.not_le.2 h)

def NoOverflow (x : Except Fault α) : Prop := x ≠ .error .overflow

theorem NoOverflow.bind {x : Except Fault α} {f : α → Except Fault β} (h : NoOverflow x)
    (hf : ∀ a, NoOverflow (f a)) : NoOverflow (x.bind f) := by
  cases x with
  | error fault => exact fun he => h (congrArg Except.error (Except.error.inj he))
  | ok a => exact hf a

theorem NoOverflow.map {x : Except Fault α} (h : NoOverflow x) (f : α → β) :
    NoOverflow (x.map f) := by
  cases x with
  | error fault => exact fun he => h (congrArg Except.error (Except.error.inj he))
  | ok a => exact nofun

theorem NoOverflow.ok (a : α) : NoOverflow (.ok a) := nofun

/-- The string stands at the start and is terminated there; what follows is left over. -/
def Buf.Holds (b : Buf n) (s : List UInt8) : Prop := 0 ∉ s ∧ ∃ junk, b.octets = s ++ 0 :: junk

theorem Buf.Holds.str_eq {b : Buf n} (h : b.Holds s) : b.str = s := by
  obtain ⟨hs, junk, he⟩ := h
  rw [Buf.str, he, cstring_terminated hs]

theorem Buf.Holds.strlen_eq {b : Buf n} (h : b.Holds s) : b.strlen = .ok s.length := by
  have hstr := h.str_eq
  obtain ⟨hs, junk, he⟩ := h
  have hmem : (0 : UInt8) ∈ b.octets := by simp [he]
  rw [Buf.strlen, if_pos hmem, hstr]

theorem Buf.Holds.length_lt {b : Buf n} (h : b.Holds s) : s.length < n := by
  obtain ⟨_, junk, he⟩ := h
  have hn := b.size
  rw [he, List.length_append, List.length_cons] at hn
  omega

theorem Buf.zeroed_holds (n : Nat) : (Buf.zeroed (n + 1)).Holds [] :=
  ⟨List.not_mem_nil, List.replicate n 0, rfl⟩

/-- The first octets of a buffer; the stores of a loop make them grow. -/
def Buf.Starts (b : Buf n) (s : List UInt8) : Prop := ∃ junk, b.octets = s ++ junk

theorem Buf.starts_nil (b : Buf n) : b.Starts [] := ⟨b.octets, rfl⟩

theorem Buf.Holds.starts {b : Buf n} (h : b.Holds s) : b.Starts s := by
  obtain ⟨_, junk, he⟩ := h
  exact ⟨0 :: junk, he⟩

theorem Buf.Starts.take_eq {b : Buf n} (h : b.Starts s) : b.octets.take s.length = s := by
  obtain ⟨junk, he⟩ := h
  rw [he, List.take_left]

theorem Buf.Starts.length_le {b : Buf n} (h : b.Starts s) : s.length ≤ n := by
  obtain ⟨junk, he⟩ := h
  have hn := b.size
  rw [he, List.length_append] at hn
  omega

theorem Buf.Starts.left {b : Buf n} (h : b.Starts (s ++ t)) : b.Starts s := by
  obtain ⟨junk, he⟩ := h
  exact ⟨t ++ junk, by rw [he, List.append_assoc]⟩

theorem Buf.Starts.holds {b : Buf n} (h : b.Starts (s ++ [0])) (hs : 0 ∉ s) : b.Holds s := by
  obtain ⟨junk, he⟩ := h
  exact ⟨hs, junk, by rw [he, List.append_assoc, List.singleton_append]⟩

theorem Buf.Starts.holds_take {b : Buf n} (h : b.Starts (s ++ (name ++ 0 :: junk).take m ++ [0]))
    (hs : 0 ∉ s) (hname : 0 ∉ name) : b.Holds (s ++ name.take m) := by
  have hnul : 0 ∉ s ++ name.take m := by
    rw [List.mem_append]
    exact fun h => h.elim hs fun h => hname (List.mem_of_mem_take h)
  obtain ⟨rest, he⟩ := h
  refine ⟨hnul, ?_⟩
  rcases Nat.lt_or_ge name.length m with hlt | hge
  · refine ⟨(junk.take (m - name.length - 1)) ++ 0 :: rest, ?_⟩
    obtain ⟨k, hk⟩ : ∃ k, m - name.length = k + 1 := ⟨m - name.length - 1, by omega⟩
    rw [he, List.take_append, List.take_of_length_le (Nat.le_of_lt hlt), hk, List.take_succ_cons]
    simp
  · refine ⟨rest, ?_⟩
    rw [he, List.take_append_of_le_length hge]
    simp

theorem lastIndexOf_eq_none (h : c ∉ s) : lastIndexOf c s = none := by
  induction s with
  | nil => rfl
  | cons d s ih =>
    simp only [List.mem_cons, not_or] at h
    simp [lastIndexOf, ih h.2, Ne.symm h.1]

theorem lastIndexOf_append_cons (s : List UInt8) (h : c ∉ t) :
    lastIndexOf c (s ++ c :: t) = some s.length := by
  induction s with
  | nil => simp [lastIndexOf, lastIndexOf_eq_none h]
  | cons d s ih => simp [lastIndexOf, ih]

theorem lastIndexOf_le (c : UInt8) (s : List UInt8) : (lastIndexOf c s).getD 0 ≤ s.length := by
  by_cases hc : c ∈ s.reverse
  · obtain ⟨t, front, he, ht⟩ := List.eq_append_cons_of_mem hc
    have hs : s = front.reverse ++ c :: t.reverse := by
      rw [← List.reverse_reverse s, he]
      simp
    rw [hs, lastIndexOf_append_cons _ (by simpa using ht)]
    simp
  · rw [lastIndexOf_eq_none (by simpa using hc)]
    exact Nat.zero_le _

theorem Buf.Holds.cut {b : Buf n} (h : b.Holds s) (hi : i ≤ s.length) :
    ∃ b', b.store i 0 = .ok b' ∧ b'.Holds (s.take i) := by
  have hlt := h.length_lt
  refine ⟨_, if_pos (by omega), fun hm => h.1 (List.mem_of_mem_take hm), ?_⟩
  obtain ⟨_, junk, he⟩ := h
  refine ⟨(s ++ 0 :: junk).drop (i + 1), ?_⟩
  change b.octets.set i 0 = _
  rw [he, List.set_eq_take_append_cons_drop, if_pos (by simp; omega),
    List.take_append_of_le_length hi]

theorem Buf.Holds.strrchr_eq {b : Buf n} (h : b.Holds s) (c : UInt8) :
    b.strrchr c = .ok (lastIndexOf c s) := by
  have hstr := h.str_eq
  obtain ⟨_, junk, he⟩ := h
  have hmem : (0 : UInt8) ∈ b.octets := by simp [he]
  rw [Buf.strrchr, if_pos hmem, hstr]

theorem Buf.Starts.store {b : Buf n} (h : b.Starts s) (hn : s.length < n) (c : UInt8) :
    ∃ b', b.store s.length c = .ok b' ∧ b'.Starts (s ++ [c]) := by
  refine ⟨_, if_pos hn, ?_⟩
  obtain ⟨junk, he⟩ := h
  have hsize := b.size
  cases junk with
  | nil =>
    rw [he, List.append_nil] at hsize
    omega
  | cons d junk =>
    refine ⟨junk, ?_⟩
    simp [he]

theorem Buf.Starts.storeAt {b : Buf n} (h : b.Starts s) (hi : i ≤ s.length) (hn : i < n)
    (c : UInt8) : ∃ b', b.store i c = .ok b' ∧ b'.Starts (s.take i ++ [c]) := by
  rw [← List.take_append_drop i s] at h
  have hlen : (s.take i).length = i := List.length_take_of_le hi
  obtain ⟨b', hstore, hb'⟩ := h.left.store (by omega) c
  rw [hlen] at hstore
  exact ⟨b', hstore, hb'⟩

theorem Buf.Starts.copyIn {b : Buf n} (h : b.Starts s) (src : List UInt8)
    (hn : s.length + src.length ≤ n) :
    ∃ b', b.copyIn s.length src = .ok b' ∧ b'.Starts (s ++ src) := by
  refine ⟨_, dif_pos hn, b.octets.drop (s.length + src.length), ?_⟩
  obtain ⟨junk, he⟩ := h
  change b.octets.take s.length ++ src ++ _ = _
  rw [he, List.take_left]

theorem Buf.Starts.load {b : Buf n} (h : b.Starts (s ++ [c])) : b.load s.length = .ok c := by
  obtain ⟨junk, he⟩ := h
  simp [Buf.load, he]

theorem Buf.store_lt (b : Buf n) (h : i < n) (c : UInt8) : ∃ b', b.store i c = .ok b' :=
  ⟨_, if_pos h⟩

def Buf.strAt (b : Buf n) (i : Nat) : List UInt8 := cstring (b.octets.drop i)

/-- A buffer holds a string at an index when the string stands there and is terminated. -/
def Buf.HoldsAt (b : Buf n) (i : Nat) (s : List UInt8) : Prop :=
  0 ∉ s ∧ ∃ before junk, before.length = i ∧ b.octets = before ++ (s ++ 0 :: junk)

theorem Buf.HoldsAt.strAt_eq {b : Buf n} (h : b.HoldsAt i s) : b.strAt i = s := by
  obtain ⟨hs, before, junk, rfl, he⟩ := h
  rw [Buf.strAt, he, List.drop_left, cstring_terminated hs]

/-- Reading the string at an index runs off the object when no terminator follows. -/
def Buf.cstrAt (b : Buf n) (i : Nat) : Except Fault CStr :=
  if 0 ∈ b.octets.drop i then .ok ⟨b.strAt i, cstring_noNul _⟩ else .error (.load n)

theorem Buf.cstrAt_octets {b : Buf n} (h : b.cstrAt i = .ok s) : s.octets = b.strAt i := by
  unfold cstrAt at h
  split at h
  · cases h
    rfl
  · cases h

theorem Buf.HoldsAt.drop {b : Buf n} (h : b.HoldsAt i s) (hk : k ≤ s.length) :
    b.HoldsAt (i + k) (s.drop k) := by
  obtain ⟨hs, before, junk, rfl, he⟩ := h
  refine ⟨fun hm => hs (List.mem_of_mem_drop hm), before ++ s.take k, junk, ?_, ?_⟩
  · rw [List.length_append, List.length_take_of_le hk]
  · rw [he, List.append_assoc, ← List.append_assoc (s.take k), List.take_append_drop]

theorem Buf.HoldsAt.cstrAt_eq {b : Buf n} (h : b.HoldsAt i s) : b.cstrAt i = .ok ⟨s, h.1⟩ := by
  have hstr := h.strAt_eq
  obtain ⟨hs, before, junk, rfl, he⟩ := h
  have hmem : 0 ∈ b.octets.drop before.length := by
    rw [he, List.drop_left]
    simp
  rw [Buf.cstrAt, if_pos hmem]
  congr

theorem Buf.Starts.holdsAt {b : Buf n} (before : List UInt8)
    (h : b.Starts (before ++ (s ++ 0 :: junk))) (hs : 0 ∉ s) :
    b.HoldsAt before.length s := by
  obtain ⟨rest, he⟩ := h
  exact ⟨hs, before, junk ++ rest, rfl, by rw [he]; simp⟩

theorem Buf.HoldsAt.push {b : Buf n} (h : b.HoldsAt (i + 1) s) (hc : c ≠ 0) :
    ∃ b', b.store i c = .ok b' ∧ b'.HoldsAt i (c :: s) := by
  obtain ⟨hs, before, junk, hlen, he⟩ := h
  have hne : before ≠ [] := List.ne_nil_of_length_pos (by omega)
  obtain ⟨front, d, rfl⟩ : ∃ front d, before = front ++ [d] :=
    ⟨_, _, (List.dropLast_append_getLast hne).symm⟩
  rw [List.length_append, List.length_singleton, Nat.add_right_cancel_iff] at hlen
  have hroom : i < n := by
    have hsize := b.size
    rw [he] at hsize
    simp only [List.length_append, List.length_singleton] at hsize
    omega
  refine ⟨_, if_pos hroom, ?_, front, junk, hlen, ?_⟩
  · rw [List.mem_cons]
    exact fun hm => hm.elim (Ne.symm hc) hs
  · change b.octets.set i c = _
    rw [he, List.append_assoc, ← hlen, List.set_append_right _ _ (Nat.le_refl _), Nat.sub_self]
    rfl

theorem Buf.store_out {b : Buf n} (h : n ≤ i) (c : UInt8) : b.store i c = .error (.store i) :=
  if_neg (Nat.not_lt.2 h)

theorem Buf.load_lt (b : Buf n) (h : i < n) : ∃ c, b.load i = .ok c ∧ b.octets[i]? = some c := by
  have hi : i < b.octets.length := by rw [b.size]; exact h
  exact ⟨b.octets[i], by simp [Buf.load, List.getElem?_eq_getElem hi],
    List.getElem?_eq_getElem hi⟩

/-- A buffer that holds a string and zeros behind it. -/
structure Buf.Clean (b : Buf n) (s : List UInt8) : Prop where
  noNul : 0 ∉ s
  rest : ∃ k, b.octets = s ++ List.replicate k 0

theorem Buf.Clean.zeroed (n : Nat) : (Buf.zeroed n).Clean [] := ⟨List.not_mem_nil, n, rfl⟩

theorem Buf.Clean.holds {b : Buf n} (h : b.Clean s) (hn : s.length < n) : b.Holds s := by
  obtain ⟨hs, k, he⟩ := h
  have hsize := b.size
  rw [he, List.length_append, List.length_replicate] at hsize
  obtain ⟨m, rfl⟩ : ∃ m, k = m + 1 := ⟨k - 1, by omega⟩
  exact ⟨hs, List.replicate m 0, he⟩

theorem Buf.Clean.store {b : Buf n} (h : b.Clean s) (hc : c ≠ 0) (hn : s.length < n) :
    ∃ b', b.store s.length c = .ok b' ∧ b'.Clean (s ++ [c]) := by
  obtain ⟨hs, k, he⟩ := h
  refine ⟨_, if_pos hn, ?_, k - 1, ?_⟩
  · rw [List.mem_append, List.mem_singleton]
    exact fun hm => hm.elim hs (Ne.symm hc)
  · change b.octets.set s.length c = _
    have hsize := b.size
    rw [he, List.length_append, List.length_replicate] at hsize
    obtain ⟨m, rfl⟩ : ∃ m, k = m + 1 := ⟨k - 1, by omega⟩
    rw [he, List.replicate_succ, List.set_append_right _ _ (Nat.le_refl _), Nat.sub_self,
      List.set_cons_zero, List.append_assoc]
    rfl

theorem Buf.Clean.copyIn {b : Buf n} (h : b.Clean s) (hsrc : 0 ∉ src)
    (hn : s.length + (src.length + k) ≤ n) :
    ∃ b', b.copyIn s.length (src ++ List.replicate k 0) = .ok b' ∧ b'.Clean (s ++ src) := by
  obtain ⟨hs, j, he⟩ := h
  have hlen : s.length + (src ++ List.replicate k 0).length ≤ n := by
    rwa [List.length_append, List.length_replicate]
  refine ⟨_, dif_pos hlen, fun hm => (List.mem_append.1 hm).elim hs hsrc, ?_⟩
  refine ⟨k + (j - (src.length + k)), ?_⟩
  change b.octets.take s.length ++ (src ++ List.replicate k 0) ++ b.octets.drop _ = _
  rw [he, List.take_left, List.drop_append, List.drop_eq_nil_of_le (Nat.le_add_right _ _),
    ← List.replicate_append_replicate]
  simp

end Memory
