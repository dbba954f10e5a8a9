import Geminon.Url
import Geminon.Fs

namespace Geminon
open Memory Decimal
set_option autoImplicit true

/-- An entry of `@fsm`: in a state, the characters of a class lead to another one. -/
structure Rule where
  state : Nat
  key : List Char
  next : Nat

/-- `%STATES`, with what is not defined. -/
abbrev StateTable := Nat → Nat → Option Nat

def StateTable.put (t : StateTable) (state next x : Nat) : StateTable :=
  fun st i => if st = state ∧ i = x then some next else t st i

def StateTable.putAll (t : StateTable) (state next : Nat) : List Nat → StateTable
  | [] => t
  | x :: xs => (t.put state next x).putAll state next xs

/-- The characters that a key stands for; keys of other forms are passed over. -/
def Rule.chars (r : Rule) : List Nat :=
  if r.key = ['A', 'L', 'L'] then List.range 256
  else
    match r.key with
    | [c] => [c.toNat]
    | [a, sep, b] =>
      if sep ≠ '-' then []
      else if b.toNat < a.toNat then List.range' b.toNat (a.toNat + 1 - b.toNat)
      else List.range' a.toNat (b.toNat + 1 - a.toNat)
    | _ => []

def build (t : StateTable) : List Rule → StateTable
  | [] => t
  | r :: rules => build (t.putAll r.state r.next r.chars) rules

def entryOf : Option Nat → Int
  | some next => next
  | none => -1

def rowsOf (t : StateTable) (states : Nat) : List (List Int) :=
  (List.range states).map fun st => (List.range 256).map fun i => entryOf (t st i)

/-- `@fsm` of `url.pl`. -/
def urlFsm : List Rule :=
  [⟨0, ['g'], 1⟩, ⟨1, ['e'], 2⟩, ⟨2, ['m'], 3⟩, ⟨3, ['i'], 4⟩, ⟨4, ['n'], 5⟩, ⟨5, ['i'], 6⟩,
    ⟨6, [':'], 7⟩, ⟨7, ['/'], 8⟩, ⟨8, ['/'], 9⟩,
    ⟨9, ['a', '-', 'z'], 10⟩, ⟨9, ['A', '-', 'Z'], 10⟩, ⟨9, ['0', '-', '9'], 10⟩, ⟨9, ['.'], 10⟩,
    ⟨10, ['a', '-', 'z'], 10⟩, ⟨10, ['A', '-', 'Z'], 10⟩, ⟨10, ['0', '-', '9'], 10⟩,
    ⟨10, ['.'], 10⟩, ⟨10, [':'], 11⟩, ⟨10, ['/'], 12⟩,
    ⟨11, ['0', '-', '9'], 11⟩, ⟨11, ['/'], 12⟩,
    ⟨12, ['A', 'L', 'L'], 12⟩]

/-- `@fsm` of `fs.pl`. -/
def fsFsm : List Rule :=
  [⟨0, ['/'], 1⟩,
    ⟨1, ['A', 'L', 'L'], 4⟩, ⟨1, ['/'], 1⟩, ⟨1, ['.'], 2⟩,
    ⟨2, ['A', 'L', 'L'], 4⟩, ⟨2, ['.'], 3⟩, ⟨2, ['/'], 1⟩,
    ⟨3, ['A', 'L', 'L'], 4⟩, ⟨3, ['/'], 1⟩,
    ⟨4, ['A', 'L', 'L'], 4⟩, ⟨4, ['/'], 1⟩]

def StateTable.empty : StateTable := fun _ _ => none

theorem StateTable.putAll_get (t : StateTable) (state next : Nat) (xs : List Nat) (st i : Nat) :
    t.putAll state next xs st i = if st = state ∧ i ∈ xs then some next else t st i := by
  induction xs generalizing t with
  | nil => simp [putAll]
  | cons x xs ih =>
    rw [putAll, ih, put]
    by_cases hst : st = state
    · by_cases hx : i ∈ xs <;> simp [hst, hx]
    · simp [hst]

def Rule.covers (r : Rule) (st i : Nat) : Bool := st = r.state && r.chars.contains i

/-- Where rules meet, the last one holds. -/
theorem build_get (t : StateTable) (rules : List Rule) (st i : Nat) :
    build t rules st i =
      rules.foldl (fun next r => if r.covers st i then some r.next else next) (t st i) := by
  induction rules generalizing t with
  | nil => rfl
  | cons r rules ih =>
    rw [build, ih, List.foldl_cons, StateTable.putAll_get]
    simp [Rule.covers]

theorem Rule.covers_eq (r : Rule) (st i : Nat) :
    r.covers st i = decide (st = r.state ∧ i ∈ r.chars) := by
  rw [covers, List.contains_eq_mem, Bool.decide_and]

theorem covers_all (state next st i : Nat) :
    Rule.covers ⟨state, ['A', 'L', 'L'], next⟩ st i = decide (st = state ∧ i < 256) := by
  have hchars : Rule.chars ⟨state, ['A', 'L', 'L'], next⟩ = List.range 256 := if_pos rfl
  rw [Rule.covers_eq, hchars]
  exact decide_eq_decide.2 (and_congr_right' List.mem_range)

theorem covers_char (state next st i : Nat) (c : Char) :
    Rule.covers ⟨state, [c], next⟩ st i = decide (st = state ∧ i = c.toNat) := by
  have hchars : Rule.chars ⟨state, [c], next⟩ = [c.toNat] := if_neg (by simp)
  rw [Rule.covers_eq, hchars]
  exact decide_eq_decide.2 (and_congr_right' List.mem_singleton)

theorem covers_range (state next st i : Nat) {a b : Char} (h : a.toNat ≤ b.toNat) :
    Rule.covers ⟨state, [a, '-', b], next⟩ st i =
      decide (st = state ∧ a.toNat ≤ i ∧ i ≤ b.toNat) := by
  have hchars : Rule.chars ⟨state, [a, '-', b], next⟩ =
      List.range' a.toNat (b.toNat + 1 - a.toNat) := by
    rw [Rule.chars, if_neg (by simp)]
    exact (if_neg (not_not.2 rfl)).trans (if_neg (Nat.not_lt.2 h))
  have hmem : i ∈ Rule.chars ⟨state, [a, '-', b], next⟩ ↔ a.toNat ≤ i ∧ i ≤ b.toNat := by
    rw [hchars, List.mem_range'_1]
    omega
  rw [Rule.covers_eq]
  exact decide_eq_decide.2 (and_congr_right' hmem)

theorem build_row (t : StateTable) (rules : List Rule) (st i : Nat) :
    build t rules st i = build t (rules.filter fun r => r.state = st) st i := by
  rw [build_get, build_get, List.foldl_filter]
  congr 1
  funext next r
  by_cases hr : r.state = st
  · simp [hr]
  · simp [hr, Rule.covers, Ne.symm hr]

theorem urlStates_generated (st : Nat) (hst : st < 13) (c : UInt8) :
    build .empty urlFsm st c.toNat = urlStates st c := by
  have hlt : c.toNat < 256 := c.toNat_lt
  rw [build_row]
  interval_cases st <;>
    simp (disch := decide) only [urlFsm, build_get, List.filter, List.foldl, covers_all,
      covers_char, covers_range, StateTable.empty, urlStates, IsHostOctet, IsDigit, dot, slash,
      colon, ← UInt8.toNat_inj, UInt8.le_iff_toNat_le, UInt8.reduceToNat, Char.reduceToNat,
      Nat.reduceEqDiff, decide_true, decide_false, true_and, decide_eq_true_eq]
  all_goals grind

theorem fsStates_generated (st : Nat) (hst : st < 5) (c : UInt8) :
    build .empty fsFsm st c.toNat = fsStates st c := by
  have hlt : c.toNat < 256 := c.toNat_lt
  rw [build_row]
  interval_cases st <;>
    simp (disch := decide) only [fsFsm, build_get, List.filter, List.foldl, covers_all,
      covers_char, StateTable.empty, fsStates, dot, slash, ← UInt8.toNat_inj,
      UInt8.reduceToNat, Char.reduceToNat, Nat.reduceEqDiff, decide_true, decide_false, true_and,
      decide_eq_true_eq]
  all_goals grind

theorem urlStates_lt (hst : st < 13) (h : urlStates st c = some next) : next < 13 := by
  interval_cases st <;> simp only [urlStates] at h <;> grind

theorem fsStates_lt (hst : st < 5) (h : fsStates st c = some next) : next < 5 := by
  interval_cases st <;> simp only [fsStates] at h <;> grind

theorem rowsOf_get (t : StateTable) (hst : st < states) (c : UInt8) :
    (rowsOf t states)[st]?.bind (fun row => row[c.toNat]?) = some (entryOf (t st c.toNat)) := by
  rw [rowsOf, List.getElem?_map, List.getElem?_range hst, Option.map_some, Option.bind_some,
    List.getElem?_map, List.getElem?_range c.toNat_lt, Option.map_some]

/-- An entry of a table, which may lie outside of it. -/
def lookUp (table : List (List Int)) (state : Nat) (c : UInt8) : Except Fault Int :=
  (table[state]?.bind fun row => row[c.toNat]?).elim (.error (.load state)) .ok

def urlTable : List (List Int) := rowsOf (build .empty urlFsm) 13

def fsTable : List (List Int) := rowsOf (build .empty fsFsm) 5

/-- The loop of `gemini_parse_url_into` by a table. -/
def geminiParseUrlLoopBy (table : List (List Int)) (url : GeminiUrl len) (state fill port : Nat) :
    List UInt8 → Except Fault (Int × GeminiUrl len)
  | [] => geminiParseUrlLoop url state fill port []
  | c :: next =>
    if len ≤ fill then .ok (-92, url)
    else do
      let entry ← lookUp table state c
      if entry < 0 then .ok (-93, url)
      else
        let to' := entry.toNat
        let edge := state * 100 + to'
        if edge = 910 then do
          let buf ← url.buf.store fill c
          geminiParseUrlLoopBy table { url with host := fill, buf } to' (fill + 1) port next
        else if edge = 1010 then do
          let buf ← url.buf.store fill c
          geminiParseUrlLoopBy table { url with buf } to' (fill + 1) port next
        else if edge = 1012 then do
          let buf ← url.buf.store fill 0
          let buf ← buf.store (fill + 1) c
          geminiParseUrlLoopBy table { url with path := fill + 1, buf } to' (fill + 2) port next
        else if edge = 1011 then do
          let buf ← url.buf.store fill 0
          geminiParseUrlLoopBy table { url with buf } to' (fill + 1) 0 next
        else if edge = 1112 then do
          let buf ← url.buf.store fill c
          geminiParseUrlLoopBy table { url with path := fill, buf } to' (fill + 1) port next
        else if edge = 1212 then do
          let buf ← url.buf.store fill c
          geminiParseUrlLoopBy table { url with buf } to' (fill + 1) port next
        else if edge = 1111 then
          let port := port * 10 + digit c
          if 0xffff < port then .ok (-95, url)
          else geminiParseUrlLoopBy table url to' fill port next
        else geminiParseUrlLoopBy table url to' fill port next

def geminiParseUrlIntoBy (table : List (List Int)) (s : CStr) (url : Option (GeminiUrl len)) :
    Except Fault (Int × Option (GeminiUrl len)) :=
  match url with
  | none => .ok (-91, none)
  | some url =>
    (geminiParseUrlLoopBy table url 0 0 geminiDefaultPort s.octets).map (Prod.map id some)

def sParsePathLoopBy (table : List (List Int)) (buf : Buf geminiMaxPath) (state fill left : Nat) :
    List UInt8 → Except Fault (Parsed × Parser)
  | [] => sParsePathLoop buf state fill left []
  | c :: rest => do
    let entry ← lookUp table state c
    if entry < 0 then .ok (.err, ⟨c :: rest, buf⟩)
    else
      let to' := entry.toNat
      let edge := state * 100 + to'
      if edge = 301 then .ok (.up, ⟨c :: rest, buf⟩)
      else if edge = 401 then do
        let buf ← buf.store fill 0
        .ok (.dir, ⟨c :: rest, buf⟩)
      else if edge ∈ [102, 104, 203, 204, 304, 404] then
        if left = 0 then .ok (.err, ⟨c :: rest, buf⟩)
        else do
          let buf ← buf.store fill c
          sParsePathLoopBy table buf to' (fill + 1) (left - 1) rest
      else sParsePathLoopBy table buf to' fill left rest

def sParsePathBy (table : List (List Int)) (p : Parser) : Except Fault (Parsed × Parser) :=
  sParsePathLoopBy table p.buf 1 0 (geminiMaxPath - 1) p.src

theorem lookUp_url (hst : st < 13) (c : UInt8) :
    lookUp urlTable st c = .ok (entryOf (urlStates st c)) := by
  rw [lookUp, urlTable, rowsOf_get _ hst, urlStates_generated st hst]
  rfl

theorem lookUp_fs (hst : st < 5) (c : UInt8) :
    lookUp fsTable st c = .ok (entryOf (fsStates st c)) := by
  rw [lookUp, fsTable, rowsOf_get _ hst, fsStates_generated st hst]
  rfl

theorem not_entryOf_some (next : Nat) : ¬ entryOf (some next) < 0 :=
  not_lt.2 (Int.natCast_nonneg next)

theorem toNat_entryOf (next : Nat) : (entryOf (some next)).toNat = next := Int.toNat_natCast next

theorem geminiParseUrlLoopBy_eq (hst : state < 13) (url : GeminiUrl len) (fill port : Nat)
    (next : List UInt8) : geminiParseUrlLoopBy urlTable url state fill port next =
      geminiParseUrlLoop url state fill port next := by
  induction next generalizing url state fill port with
  | nil => rfl
  | cons c next ih =>
    rw [geminiParseUrlLoopBy, geminiParseUrlLoop]
    split
    · rfl
    · rw [lookUp_url hst]
      cases hto : urlStates state c with
      | none => rfl
      | some to' =>
        have hnext (url : GeminiUrl len) (fill port : Nat) :=
          ih (urlStates_lt hst hto) url fill port
        simp only [bind, Except.bind, if_neg (not_entryOf_some to'), toNat_entryOf, hnext]
        generalize state * 100 + to' = edge
        by_cases hedge : edge ∈ [910, 1010, 1012, 1011, 1112, 1212, 1111]
        · simp only [List.mem_cons, List.not_mem_nil, or_false] at hedge
          obtain rfl | rfl | rfl | rfl | rfl | rfl | rfl := hedge
          all_goals rfl
        · simp only [List.mem_cons, List.not_mem_nil, or_false, not_or] at hedge
          simp only [hedge, ↓reduceIte]
          split <;> first | rfl | omega

theorem sParsePathLoopBy_eq (hst : state < 5) (buf : Buf geminiMaxPath) (fill left : Nat)
    (src : List UInt8) : sParsePathLoopBy fsTable buf state fill left src =
      sParsePathLoop buf state fill left src := by
  induction src generalizing buf state fill left with
  | nil => rfl
  | cons c rest ih =>
    rw [sParsePathLoopBy, sParsePathLoop, lookUp_fs hst]
    cases hto : fsStates state c with
    | none => rfl
    | some to' =>
      have hrest (buf : Buf geminiMaxPath) (fill left : Nat) :=
        ih (fsStates_lt hst hto) buf fill left
      simp only [bind, Except.bind, if_neg (not_entryOf_some to'), toNat_entryOf, hrest]
      generalize state * 100 + to' = edge
      by_cases hedge : edge ∈ [301, 401, 102, 104, 203, 204, 304, 404]
      · simp only [List.mem_cons, List.not_mem_nil, or_false] at hedge
        obtain rfl | rfl | rfl | rfl | rfl | rfl | rfl | rfl := hedge
        all_goals rfl
      · simp only [List.mem_cons, List.not_mem_nil, or_false, not_or] at hedge
        simp only [hedge, List.mem_cons, List.not_mem_nil, or_self, ↓reduceIte]
        split <;> first | rfl | omega

theorem geminiParseUrlIntoBy_eq (s : CStr) (url : Option (GeminiUrl len)) :
    geminiParseUrlIntoBy urlTable s url = geminiParseUrlInto s url := by
  cases url with
  | none => rfl
  | some url =>
    rw [geminiParseUrlIntoBy, geminiParseUrlInto]
    exact congrArg _ (geminiParseUrlLoopBy_eq (by decide) url 0 geminiDefaultPort s.octets)

theorem sParsePathBy_eq (p : Parser) : sParsePathBy fsTable p = sParsePath p :=
  sParsePathLoopBy_eq (by decide) p.buf 0 (geminiMaxPath - 1) p.src

/-- A parse stops only at a store, never at the reading of an entry. -/
theorem geminiParseUrlInto_stores {url : Option (GeminiUrl len)}
    (h : geminiParseUrlInto s url = .error fault) : ∃ i, fault = .store i := by
  cases url with
  | none => cases h
  | some url =>
    have hsettles := parseUrlLoop_settles url 0 0 geminiDefaultPort s.octets
    rw [geminiParseUrlInto] at h
    cases hr : geminiParseUrlLoop url 0 0 geminiDefaultPort s.octets with
    | ok r =>
      rw [hr] at h
      cases h
    | error =>
      rw [hr] at h hsettles
      cases h
      exact hsettles

/-- With the tables that `url.pl` and `fs.pl` print, the parsers come to the same, and they look
up no entry outside of them. -/
theorem parsers_generated :
    (∀ (len : Nat) (s : CStr) (url : Option (GeminiUrl len)),
      geminiParseUrlIntoBy urlTable s url = geminiParseUrlInto s url ∧
        ∀ i, geminiParseUrlIntoBy urlTable s url ≠ .error (.load i)) ∧
    ∀ p : Parser, sParsePathBy fsTable p = sParsePath p ∧
      ∃ r, sParsePathBy fsTable p = .ok r := by
  constructor
  · intro len s url
    refine ⟨geminiParseUrlIntoBy_eq s url, fun i hload => ?_⟩
    rw [geminiParseUrlIntoBy_eq] at hload
    obtain ⟨i', hstore⟩ := geminiParseUrlInto_stores hload
    cases hstore
  · intro p
    rw [sParsePathBy_eq]
    exact ⟨rfl, sParsePathLoop_returns ⟨Nat.le_refl 1, by decide⟩ (by decide) p.buf p.src⟩

end Geminon
