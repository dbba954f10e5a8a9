import Geminon.Memory
import Geminon.Constants

namespace Geminon
open Memory
set_option autoImplicit true

structure Parser where
  src : List UInt8
  buf : Buf geminiMaxPath

inductive Parsed where
  | err
  | dir
  | up
  | done
  deriving DecidableEq, Repr

/-- The transition table of `fsm.fs.c`, row by row; `none` is its `-1`. -/
def fsStates (state : Nat) (c : UInt8) : Option Nat :=
  match state with
  | 0 => if c = slash then some 1 else none
  | 1 => if c = slash then some 1 else if c = dot then some 2 else some 4
  | 2 => if c = slash then some 1 else if c = dot then some 3 else some 4
  | 3 => if c = slash then some 1 else some 4
  | 4 => if c = slash then some 1 else some 4
  | _ => none

/-- The loop of `s_parse_path` over what is left of `src`; `fill` is an index into `buf`. -/
def sParsePathLoop (buf : Buf geminiMaxPath) (state fill left : Nat) :
    List UInt8 → Except Fault (Parsed × Parser)
  | [] =>
    match state with
    | 3 => .ok (.up, ⟨[], buf⟩)
    | 4 => do
      let buf ← buf.store fill 0
      .ok (.dir, ⟨[], buf⟩)
    | _ => .ok (.done, ⟨[], buf⟩)
  | c :: rest =>
    match fsStates state c with
    | none => .ok (.err, ⟨c :: rest, buf⟩)
    | some next =>
      match state * 100 + next with
      | 301 => .ok (.up, ⟨c :: rest, buf⟩)
      | 401 => do
        let buf ← buf.store fill 0
        .ok (.dir, ⟨c :: rest, buf⟩)
      | 102 | 104 | 203 | 204 | 304 | 404 =>
        if left = 0 then .ok (.err, ⟨c :: rest, buf⟩)
        else do
          let buf ← buf.store fill c
          sParsePathLoop buf next (fill + 1) (left - 1) rest
      | _ => sParsePathLoop buf next fill left rest

def sParsePath (p : Parser) : Except Fault (Parsed × Parser) :=
  sParsePathLoop p.buf 1 0 (geminiMaxPath - 1) p.src

def advance (state : Nat) (c : UInt8) : Nat :=
  if c = dot ∧ state = 1 then 2 else if c = dot ∧ state = 2 then 3 else 4

theorem advance_range (state : Nat) (c : UInt8) : 1 ≤ advance state c ∧ advance state c ≤ 4 := by
  unfold advance
  split
  · omega
  · split <;> omega

theorem sParsePathLoop_octet (hs : 1 ≤ state ∧ state ≤ 4) (hc : c ≠ slash) :
    sParsePathLoop buf state fill left (c :: rest) =
      if left = 0 then .ok (.err, ⟨c :: rest, buf⟩)
      else (buf.store fill c).bind fun buf =>
        sParsePathLoop buf (advance state c) (fill + 1) (left - 1) rest := by
  obtain rfl | rfl | rfl | rfl : state = 1 ∨ state = 2 ∨ state = 3 ∨ state = 4 := by omega
  all_goals by_cases hd : c = dot <;> simp [sParsePathLoop, fsStates, advance, hc, hd] <;> rfl

theorem sParsePathLoop_skip (hs : state = 1 ∨ state = 2) :
    sParsePathLoop buf state fill left (slash :: rest) =
      sParsePathLoop buf 1 fill left rest := by
  rcases hs with rfl | rfl <;> simp [sParsePathLoop, fsStates]

theorem sParsePathLoop_up :
    sParsePathLoop buf 3 fill left (slash :: rest) = .ok (.up, ⟨slash :: rest, buf⟩) := by
  simp [sParsePathLoop, fsStates]

theorem sParsePathLoop_dir :
    sParsePathLoop buf 4 fill left (slash :: rest) =
      (buf.store fill 0).bind fun buf => .ok (.dir, ⟨slash :: rest, buf⟩) := by
  simp [sParsePathLoop, fsStates]
  rfl

/-- A call leaves a tail of `src`, and a shorter one whenever it reports a token. -/
theorem sParsePathLoop_src (hs : 1 ≤ state ∧ state ≤ 4)
    (h : sParsePathLoop buf state fill left src = .ok (r, p)) :
    p.src <:+ src ∧ (state ≤ 2 → r = .dir ∨ r = .up → p.src.length < src.length) := by
  induction src generalizing buf state fill left with
  | nil =>
    obtain rfl | rfl | rfl | rfl : state = 1 ∨ state = 2 ∨ state = 3 ∨ state = 4 := by omega
    · cases h; simp
    · cases h; simp
    · cases h; simp
    · obtain ⟨buf', _, h⟩ := bind_eq_ok h
      cases h; simp
  | cons c rest ih =>
    by_cases hc : c = slash
    · subst c
      obtain hs | rfl | rfl : (state = 1 ∨ state = 2) ∨ state = 3 ∨ state = 4 := by omega
      · rw [sParsePathLoop_skip hs] at h
        have hsuf := (ih (by omega) h).1
        exact ⟨hsuf.trans (List.suffix_cons _ _),
          fun _ _ => Nat.lt_succ_of_le hsuf.length_le⟩
      · rw [sParsePathLoop_up] at h
        cases h; simp
      · rw [sParsePathLoop_dir] at h
        obtain ⟨buf', _, h⟩ := bind_eq_ok h
        cases h; simp
    · rw [sParsePathLoop_octet hs hc] at h
      split at h
      · cases h; simp
      · obtain ⟨buf', _, h⟩ := bind_eq_ok h
        have hsuf := (ih (advance_range _ _) h).1
        exact ⟨hsuf.trans (List.suffix_cons _ _),
          fun _ _ => Nat.lt_succ_of_le hsuf.length_le⟩

/-- The stores stay in the component buffer, since `left` counts what is free of it. -/
theorem sParsePathLoop_returns (hs : 1 ≤ state ∧ state ≤ 4) (hroom : fill + left < geminiMaxPath)
    (buf : Buf geminiMaxPath) (src : List UInt8) :
    ∃ r, sParsePathLoop buf state fill left src = .ok r := by
  have hfill : fill < geminiMaxPath := by omega
  induction src generalizing buf state fill left with
  | nil =>
    obtain ⟨buf', hstore⟩ := buf.store_lt hfill 0
    obtain rfl | rfl | rfl | rfl : state = 1 ∨ state = 2 ∨ state = 3 ∨ state = 4 := by omega
    · exact ⟨_, rfl⟩
    · exact ⟨_, rfl⟩
    · exact ⟨_, rfl⟩
    · rw [sParsePathLoop, hstore]
      exact ⟨_, rfl⟩
  | cons c rest ih =>
    by_cases hc : c = slash
    · subst c
      obtain hs | rfl | rfl : (state = 1 ∨ state = 2) ∨ state = 3 ∨ state = 4 := by omega
      · rw [sParsePathLoop_skip hs]
        exact ih (by omega) hroom buf hfill
      · exact ⟨_, sParsePathLoop_up⟩
      · obtain ⟨buf', hstore⟩ := buf.store_lt hfill 0
        rw [sParsePathLoop_dir, hstore]
        exact ⟨_, rfl⟩
    · rw [sParsePathLoop_octet hs hc]
      split
      · exact ⟨_, rfl⟩
      · obtain ⟨buf', hstore⟩ := buf.store_lt hfill c
        rw [hstore]
        exact ih (advance_range _ _) (by omega) buf' (by omega)

theorem sParsePath_suffix (h : sParsePath p = .ok (r, p')) : p'.src <:+ p.src :=
  (sParsePathLoop_src ⟨Nat.le_refl 1, by omega⟩ h).1

theorem sParsePath_dir_src (h : sParsePath p = .ok (.dir, p')) : p'.src.length < p.src.length :=
  (sParsePathLoop_src ⟨Nat.le_refl 1, by omega⟩ h).2 (by omega) (.inl rfl)

theorem sParsePath_up_src (h : sParsePath p = .ok (.up, p')) : p'.src.length < p.src.length :=
  (sParsePathLoop_src ⟨Nat.le_refl 1, by omega⟩ h).2 (by omega) (.inr rfl)

def copyOctets (buf : Buf geminiMaxPath) :
    Nat → Nat → Nat → Buf (geminiMaxPath + 1) → Except Fault (Nat × Buf (geminiMaxPath + 1))
  | 0, p, _, path => .ok (p, path)
  | left + 1, p, q, path => do
    let c ← buf.load q
    let path ← path.store p c
    copyOctets buf left (p + 1) (q + 1) path

/-- The `PARSED_DIR` branch. Taking one from `left` at zero would wrap it to the largest
`size_t`; the run is stopped there, since the copy that follows then has no end in `path`. -/
def pushDir (buf : Buf geminiMaxPath) (deep : Nat) (path : Buf (geminiMaxPath + 1)) :
    Except Fault (Buf (geminiMaxPath + 1)) := do
  let p ← path.strlen
  let left ← sizeSub geminiMaxPath p
  let left ← sizeSub left 1
  if 0 < deep then
    let path ← path.store p slash
    let left ← sizeSub left 1
    let (p, path) ← copyOctets buf left (p + 1) 0 path
    path.store p 0
  else
    let (p, path) ← copyOctets buf left p 0 path
    path.store p 0

def popDir (path : Buf (geminiMaxPath + 1)) : Except Fault (Buf (geminiMaxPath + 1)) := do
  let p ← path.strrchr slash
  path.store (p.getD 0) 0

def geminiFsResolveLoop (parser : Parser) (path : Buf (geminiMaxPath + 1)) (deep : Nat) :
    Except Fault (Option CStr) :=
  match _h : sParsePath parser with
  | .error fault => .error fault
  | .ok (.err, _) => .ok none
  | .ok (.dir, parser') =>
    match pushDir parser'.buf deep path with
    | .error fault => .error fault
    | .ok path => geminiFsResolveLoop parser' path (deep + 1)
  | .ok (.up, parser') =>
    if 0 < deep then
      match popDir path with
      | .error fault => .error fault
      | .ok path => geminiFsResolveLoop parser' path (deep - 1)
    else geminiFsResolveLoop parser' path deep
  | .ok (.done, _) => .ok (some path.cstr)
termination_by parser.src.length
decreasing_by
  · exact sParsePath_dir_src _h
  · exact sParsePath_up_src _h
  · exact sParsePath_up_src _h

def geminiFsResolve (malloc : Bool) (file : CStr) : Except Fault (Option CStr) :=
  if malloc then
    geminiFsResolveLoop ⟨file.octets, .zeroed _⟩ (.zeroed _) 0
  else .ok none

def stripSlashes (path : Buf n) : Nat → Except Fault Nat
  | 0 => .ok 0
  | l1 + 1 => do
    let c ← path.load l1
    if c = slash then stripSlashes path l1 else .ok (l1 + 1)

/-- The size handed to `malloc` is a sum of `int` values; a negative one becomes a `size_t`
beyond any object, and a negative `l1` makes `memcpy` run through all of memory. -/
def geminiFsPath (malloc : Bool) (malloc' : Malloc) (root file : CStr) :
    Except Fault (Option CStr) := do
  match ← geminiFsResolve malloc file with
  | none => .ok none
  | some resolved =>
    let l1 := intOfSize root.length
    let l2 := intOfSize resolved.length
    let size ← intAdd l1 1
    let size ← intAdd size l2
    let size ← intAdd size 1
    match malloc' with
    | none => .ok none
    | some mem =>
      if size < 0 then .ok none
      else if l1 < 0 then .error (.store size.toNat)
      else
        let path ← (Buf.filled size.toNat mem).copyIn 0 (root.octets.take l1.toNat)
        let l1 ← stripSlashes path l1.toNat
        let path ← path.store l1 slash
        let path ← path.copyIn (l1 + 1) (resolved.octets.take l2.toNat)
        let path ← path.store (l1 + 1 + l2.toNat) 0
        .ok (some path.cstr)

end Geminon
