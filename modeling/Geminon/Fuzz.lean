import Geminon.RequestLine
import Geminon.Location

namespace Geminon
open Memory Search
set_option autoImplicit true

def strchr (b : Buf n) (c : UInt8) : Except Fault (Option Nat) := strstr b [c]

def fuzzLine (buf : Buf geminiMaxRequest) (octets : List UInt8) : Except Fault CStr := do
  let buf ← buf.copyIn 0 octets
  let buf ← buf.store octets.length 0
  let p ← match ← strchr buf 13 with
    | some p => .ok (some p)
    | none => strchr buf 10
  match p with
  | none => .ok buf.cstr
  | some p =>
    let buf ← buf.store p 0
    .ok buf.cstr

/-- `main` of `fuzz-url.c`. The count of a read that fails is the largest `size_t` there is. -/
def fuzzMain (malloc : UrlMalloc) (buf : Buf geminiMaxRequest) (read : Option (List UInt8)) :
    Except Fault Int :=
  match read with
  | none => do
    let _ ← buf.store (2 ^ 64 - 1) 0
    .ok 0
  | some octets =>
    if octets.length = 0 then .ok 1
    else do
      let line ← fuzzLine buf octets
      let _url ← geminiParseUrl malloc line
      .ok 0

/-- The octets up to the first carriage return, or else up to the first line feed. -/
def frontLine (s : List UInt8) : List UInt8 :=
  match find [13] s with
  | some i => s.take i
  | none =>
    match find [10] s with
    | some i => s.take i
    | none => s

theorem cut_at {b : Buf n} (h : b.Starts (octets ++ [0])) {c : UInt8} (hc : c ≠ 0)
    (hfind : find [c] (cstring octets) = some p) :
    ∃ b', b.store p 0 = .ok b' ∧ b'.cstr.octets = (cstring octets).take p := by
  have hlen := find_le_length hfind
  have hroom := h.length_le
  have hcstring := (cstring_initial octets).length_le
  rw [List.length_append, List.length_singleton] at hroom
  obtain ⟨-, hnul⟩ := (find_cstring (by simpa using hc.symm)).1 hfind
  obtain ⟨b', hstore, hb'⟩ := h.storeAt (i := p) (by simp; omega) (by omega) 0
  rw [List.take_append_of_le_length (by omega)] at hb'
  refine ⟨b', hstore, ?_⟩
  have htake : (cstring octets).take p = octets.take p := by
    rw [List.prefix_iff_eq_take.1 (cstring_initial octets), List.take_take,
      Nat.min_eq_left (by omega)]
  rw [htake]
  exact (hb'.holds hnul).str_eq

theorem fuzzLine_eq (buf : Buf geminiMaxRequest) (hlen : octets.length < geminiMaxRequest) :
    ∃ line, fuzzLine buf octets = .ok line ∧ line.octets = frontLine (cstring octets) := by
  obtain ⟨buf₁, hcopy, hbuf₁⟩ := buf.starts_nil.copyIn octets (by simp; omega)
  obtain ⟨buf₂, hstore, hbuf₂⟩ := hbuf₁.store (by simpa using hlen) 0
  rw [List.nil_append] at hstore hbuf₂
  have hfound (c : UInt8) : strchr buf₂ c = .ok (find [c] (cstring octets)) :=
    strstr_eq hbuf₂ [c]
  have hcopy' : buf.copyIn 0 octets = .ok buf₁ := hcopy
  unfold fuzzLine frontLine
  simp only [hcopy', hstore, hfound, bind, Except.bind]
  cases hcr : find [13] (cstring octets) with
  | some p =>
    obtain ⟨buf₃, hcut, hbuf₃⟩ := cut_at hbuf₂ (by decide) hcr
    exact ⟨buf₃.cstr, by simp only [hcut], hbuf₃⟩
  | none =>
    cases hlf : find [10] (cstring octets) with
    | some p =>
      obtain ⟨buf₃, hcut, hbuf₃⟩ := cut_at hbuf₂ (by decide) hlf
      exact ⟨buf₃.cstr, by simp only [hcut], hbuf₃⟩
    | none =>
      refine ⟨buf₂.cstr, rfl, ?_⟩
      obtain ⟨junk, hjunk⟩ := hbuf₂
      change buf₂.str = _
      rw [Buf.str, hjunk, List.append_assoc, List.singleton_append, cstring_append_nul]

theorem frontLine_of_requestLine (h : IsRequestLine octets line) (hcr : 13 ∉ line) :
    frontLine (cstring octets) = line := by
  obtain ⟨rest, hrest⟩ := h.front
  have hcrlf := (find_eq_some.1 h.first).1
  rw [← hrest, List.drop_left] at hcrlf
  obtain ⟨rest', hrest'⟩ := hcrlf
  have hoctets : octets = line ++ 13 :: 10 :: rest' := by rw [← hrest, ← hrest']; rfl
  have hfirst : find [13] octets = some line.length := by
    refine find_eq_some.2 ⟨?_, fun j hj hp => ?_⟩
    · rw [hoctets, List.drop_left]
      exact ⟨10 :: rest', rfl⟩
    · rw [hoctets, List.drop_append_of_le_length (Nat.le_of_lt hj),
        List.drop_eq_getElem_cons hj, List.cons_append, List.cons_prefix_cons] at hp
      exact hcr (hp.1 ▸ List.getElem_mem hj)
  have hfind : find [13] (cstring octets) = some line.length := by
    refine (find_cstring (by decide)).2 ⟨hfirst, ?_⟩
    rw [hoctets, List.take_left]
    exact h.noNul
  unfold frontLine
  rw [hfind]
  dsimp only
  rw [hoctets, cstring_append_of_noNul h.noNul, List.take_left]

theorem fuzzMain_runs (malloc : UrlMalloc) (buf : Buf geminiMaxRequest)
    (hlen : octets.length < geminiMaxRequest) :
    fuzzMain malloc buf (some octets) = .ok (if octets = [] then 1 else 0) := by
  unfold fuzzMain
  dsimp only
  by_cases hnil : octets = []
  · rw [hnil]
    rfl
  · rw [if_neg (by rwa [List.length_eq_zero_iff]), if_neg hnil]
    obtain ⟨line, hline, hoctets⟩ := fuzzLine_eq buf hlen
    have hfits : line.length ≤ octets.length := by
      have hfront : frontLine (cstring octets) <+: cstring octets := by
        unfold frontLine
        split
        · exact List.take_prefix _ _
        · split
          · exact List.take_prefix _ _
          · exact List.prefix_rfl
      rw [CStr.length, hoctets]
      exact hfront.length_le.trans (cstring_initial octets).length_le
    have hmax : geminiMaxRequest = 8192 := rfl
    cases hparse : geminiParseUrl malloc line with
    | error fault => exact absurd hparse (geminiParseUrl_safe malloc line (by omega) fault)
    | ok url => simp only [hline, hparse, bind, Except.bind]

/-- The fuzzer gives the parser what the server would; only a failing read makes it go wrong. -/
theorem fuzzMain_safe (malloc : UrlMalloc) (buf : Buf geminiMaxRequest) (read : Option (List UInt8))
    (hread : ∀ octets ∈ read, octets.length < geminiMaxRequest) :
    ((∃ fault, fuzzMain malloc buf read = .error fault) ↔ read = none) ∧
      ∀ octets ∈ read, fuzzMain malloc buf read = .ok (if octets = [] then 1 else 0) ∧
        ∀ line, IsRequestLine octets line → 13 ∉ line →
          ∃ s, fuzzLine buf octets = .ok s ∧ s.octets = line := by
  cases read with
  | none => exact ⟨iff_of_true ⟨.store (2 ^ 64 - 1), rfl⟩ rfl, nofun⟩
  | some octets =>
    have hlen := hread octets rfl
    have hruns := fuzzMain_runs malloc buf hlen
    refine ⟨iff_of_false ?_ (Option.some_ne_none _), ?_⟩
    · intro hfault
      obtain ⟨fault, hfault⟩ := hfault
      rw [hruns] at hfault
      cases hfault
    · rintro _ ⟨⟩
      refine ⟨hruns, fun line hline hcr => ?_⟩
      obtain ⟨s, hs, hoctets⟩ := fuzzLine_eq buf hlen
      exact ⟨s, hs, by rw [hoctets, frontLine_of_requestLine hline hcr]⟩

/-- A fuzzer that is given the request for `home`. -/
theorem fuzzMain_safe_home :
    ((∃ fault, fuzzMain (fun len => some (blank len)) (.zeroed _) (some (home.text ++ crlf)) =
      .error fault) ↔ some (home.text ++ crlf) = none) ∧
      ∀ octets ∈ some (home.text ++ crlf),
        fuzzMain (fun len => some (blank len)) (.zeroed _) (some (home.text ++ crlf)) =
          .ok (if octets = [] then 1 else 0) ∧
        ∀ line, IsRequestLine octets line → 13 ∉ line →
          ∃ s, fuzzLine (.zeroed _) octets = .ok s ∧ s.octets = line :=
  fuzzMain_safe _ _ _ (by
    rintro octets ⟨⟩
    decide)

end Geminon
