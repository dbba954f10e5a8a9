import Geminon.Memory
import Geminon.Constants
import Geminon.Decimal
import Mathlib.Tactic.IntervalCases

namespace Geminon
open Memory Decimal
set_option autoImplicit true

/-- `host` and `path` point into `buf`, which has `len` octets. -/
structure GeminiUrl (len : Nat) where
  host : Nat
  port : UInt16
  path : Nat
  buf : Buf len
  deriving DecidableEq, Repr

def IsHostOctet (c : UInt8) : Prop :=
  c = dot ∨ IsDigit c ∨ (65 ≤ c ∧ c ≤ 90) ∨ (97 ≤ c ∧ c ≤ 122)

instance : Decidable (IsHostOctet c) := inferInstanceAs (Decidable (_ ∨ _ ∨ _ ∨ _))

/-- The transition table of `fsm.url.c`, row by row; `none` is its `-1`. -/
def urlStates (state : Nat) (c : UInt8) : Option Nat :=
  match state with
  | 0 => if c = 103 then some 1 else none
  | 1 => if c = 101 then some 2 else none
  | 2 => if c = 109 then some 3 else none
  | 3 => if c = 105 then some 4 else none
  | 4 => if c = 110 then some 5 else none
  | 5 => if c = 105 then some 6 else none
  | 6 => if c = 58 then some 7 else none
  | 7 => if c = 47 then some 8 else none
  | 8 => if c = 47 then some 9 else none
  | 9 => if IsHostOctet c then some 10 else none
  | 10 =>
    if IsHostOctet c then some 10 else if c = slash then some 12
    else if c = colon then some 11 else none
  | 11 => if IsDigit c then some 11 else if c = slash then some 12 else none
  | 12 => some 12
  | _ => none

abbrev UrlMalloc := (len : Nat) → Option (GeminiUrl len)

def geminiNewUrl (malloc : UrlMalloc) (len : Nat) : Option (GeminiUrl len) := malloc len

/-- The loop of `gemini_parse_url_into` over what is left of the string. -/
def geminiParseUrlLoop (url : GeminiUrl len) (state fill port : Nat) :
    List UInt8 → Except Fault (Int × GeminiUrl len)
  | [] =>
    let url := { url with port := UInt16.ofNat port }
    if state = 12 then do
      let buf ← url.buf.store fill 0
      .ok (0, { url with buf })
    else .ok (-100 - state, url)
  | c :: next =>
    if len ≤ fill then .ok (-92, url)
    else
      match urlStates state c with
      | none => .ok (-93, url)
      | some to' =>
        match state * 100 + to' with
        | 910 => do
          let buf ← url.buf.store fill c
          geminiParseUrlLoop { url with host := fill, buf } to' (fill + 1) port next
        | 1010 => do
          let buf ← url.buf.store fill c
          geminiParseUrlLoop { url with buf } to' (fill + 1) port next
        | 1012 => do
          let buf ← url.buf.store fill 0
          let buf ← buf.store (fill + 1) c
          geminiParseUrlLoop { url with path := fill + 1, buf } to' (fill + 2) port next
        | 1011 => do
          let buf ← url.buf.store fill 0
          geminiParseUrlLoop { url with buf } to' (fill + 1) 0 next
        | 1112 => do
          let buf ← url.buf.store fill c
          geminiParseUrlLoop { url with path := fill, buf } to' (fill + 1) port next
        | 1212 => do
          let buf ← url.buf.store fill c
          geminiParseUrlLoop { url with buf } to' (fill + 1) port next
        | 1111 =>
          let port := port * 10 + digit c
          if 0xffff < port then .ok (-95, url)
          else geminiParseUrlLoop url to' fill port next
        | _ => geminiParseUrlLoop url to' fill port next

def geminiParseUrlInto (s : CStr) (url : Option (GeminiUrl len)) :
    Except Fault (Int × Option (GeminiUrl len)) :=
  match url with
  | none => .ok (-91, none)
  | some url => (geminiParseUrlLoop url 0 0 geminiDefaultPort s.octets).map (Prod.map id some)

/-- The argument of `gemini_new_url` is an `unsigned int`. -/
def urlLen (s : CStr) : Nat := (s.length + 1) % 2 ^ 32

def geminiParseUrl (malloc : UrlMalloc) (s : CStr) :
    Except Fault (Option (GeminiUrl (urlLen s))) :=
  match geminiNewUrl malloc (urlLen s) with
  | none => .ok none
  | some url => do
    let (rc, url) ← geminiParseUrlInto s (some url)
    .ok (if rc = 0 then url else none)

/-- What the first nine rows of the table spell. -/
def scheme : List UInt8 := [103, 101, 109, 105, 110, 105, 58, 47, 47]

theorem urlStates_scheme (h : state < 9) :
    urlStates state c = if scheme[state]? = some c then some (state + 1) else none := by
  have hcomm (d : UInt8) (to' : Nat) :
      (if c = d then some to' else none) = if some d = some c then some to' else none := by
    simp only [Option.some.injEq, eq_comm]
  interval_cases state
  all_goals exact hcomm _ _

variable {len state fill port : Nat} {url : GeminiUrl len} {c : UInt8} {next : List UInt8}

theorem parseUrl_full (h : len ≤ fill) :
    geminiParseUrlLoop url state fill port (c :: next) = .ok (-92, url) := by
  rw [geminiParseUrlLoop, if_pos h]

theorem parseUrl_bad (h : fill < len) (hc : urlStates state c = none) :
    geminiParseUrlLoop url state fill port (c :: next) = .ok (-93, url) := by
  rw [geminiParseUrlLoop, if_neg (Nat.not_le.2 h), hc]

theorem parseUrl_scheme (hs : state < 9) (h : fill < len) (hc : scheme[state]? = some c) :
    geminiParseUrlLoop url state fill port (c :: next) =
      geminiParseUrlLoop url (state + 1) fill port next := by
  rw [geminiParseUrlLoop, if_neg (Nat.not_le.2 h), urlStates_scheme hs, if_pos hc]
  interval_cases state <;> rfl

theorem parseUrl_hostStart (h : fill < len) (hc : IsHostOctet c) :
    geminiParseUrlLoop url 9 fill port (c :: next) =
      (url.buf.store fill c).bind fun buf =>
        geminiParseUrlLoop { url with host := fill, buf } 10 (fill + 1) port next := by
  rw [geminiParseUrlLoop, if_neg (Nat.not_le.2 h), urlStates, if_pos hc]
  rfl

theorem parseUrl_host (h : fill < len) (hc : IsHostOctet c) :
    geminiParseUrlLoop url 10 fill port (c :: next) =
      (url.buf.store fill c).bind fun buf =>
        geminiParseUrlLoop { url with buf } 10 (fill + 1) port next := by
  rw [geminiParseUrlLoop, if_neg (Nat.not_le.2 h), urlStates, if_pos hc]
  rfl

theorem parseUrl_hostEnd (h : fill < len) :
    geminiParseUrlLoop url 10 fill port (slash :: next) =
      (url.buf.store fill 0).bind fun buf => (buf.store (fill + 1) slash).bind fun buf =>
        geminiParseUrlLoop { url with path := fill + 1, buf } 12 (fill + 2) port next := by
  rw [geminiParseUrlLoop, if_neg (Nat.not_le.2 h)]
  rfl

theorem parseUrl_service (h : fill < len) :
    geminiParseUrlLoop url 10 fill port (colon :: next) =
      (url.buf.store fill 0).bind fun buf =>
        geminiParseUrlLoop { url with buf } 11 (fill + 1) 0 next := by
  rw [geminiParseUrlLoop, if_neg (Nat.not_le.2 h)]
  rfl

theorem parseUrl_digit (h : fill < len) (hc : IsDigit c) :
    geminiParseUrlLoop url 11 fill port (c :: next) =
      if 0xffff < port * 10 + digit c then .ok (-95, url)
      else geminiParseUrlLoop url 11 fill (port * 10 + digit c) next := by
  rw [geminiParseUrlLoop, if_neg (Nat.not_le.2 h), urlStates, if_pos hc]
  rfl

theorem parseUrl_serviceEnd (h : fill < len) :
    geminiParseUrlLoop url 11 fill port (slash :: next) =
      (url.buf.store fill slash).bind fun buf =>
        geminiParseUrlLoop { url with path := fill, buf } 12 (fill + 1) port next := by
  rw [geminiParseUrlLoop, if_neg (Nat.not_le.2 h)]
  rfl

theorem parseUrl_path (h : fill < len) :
    geminiParseUrlLoop url 12 fill port (c :: next) =
      (url.buf.store fill c).bind fun buf =>
        geminiParseUrlLoop { url with buf } 12 (fill + 1) port next := by
  rw [geminiParseUrlLoop, if_neg (Nat.not_le.2 h)]
  rfl

/-- The loop returned zero or an error, or a store outside its block has stopped it. -/
def Settles : Except Fault (Int × GeminiUrl len) → Prop
  | .error fault => ∃ i, fault = .store i
  | .ok (rc, _) => rc ≤ 0

theorem Settles.store {b : Buf len} {i : Nat} {f : Buf len → Except Fault (Int × GeminiUrl len)}
    (hf : ∀ buf, Settles (f buf)) : Settles ((b.store i c).bind f) := by
  obtain hin | hout := Nat.lt_or_ge i len
  · obtain ⟨buf, hbuf⟩ := b.store_lt hin c
    rw [hbuf]
    exact hf buf
  · rw [Buf.store_out hout]
    exact ⟨i, rfl⟩

theorem parseUrlLoop_settles (url : GeminiUrl len) (state fill port : Nat) (src : List UInt8) :
    Settles (geminiParseUrlLoop url state fill port src) := by
  have hzero : (0 : Int) ≤ 0 := le_refl 0
  have hfull : (-92 : Int) ≤ 0 := by decide
  have hbad : (-93 : Int) ≤ 0 := by decide
  have hport : (-95 : Int) ≤ 0 := by decide
  induction src generalizing url state fill port with
  | nil =>
    have hstate : (-100 - state : Int) ≤ 0 := by omega
    rw [geminiParseUrlLoop]
    split
    · exact .store fun _ => hzero
    · exact hstate
  | cons c src ih =>
    rw [geminiParseUrlLoop]
    split
    · exact hfull
    split
    · exact hbad
    split
    · exact .store fun _ => ih _ _ _ _
    · exact .store fun _ => ih _ _ _ _
    · exact .store fun _ => .store fun _ => ih _ _ _ _
    · exact .store fun _ => ih _ _ _ _
    · exact .store fun _ => ih _ _ _ _
    · exact .store fun _ => ih _ _ _ _
    · dsimp only
      split
      · exact hport
      · exact ih _ _ _ _
    · exact ih _ _ _ _

end Geminon
