import Geminon.Memory
import Geminon.Constants
import Geminon.Search

namespace Geminon
open Memory Search
set_option autoImplicit true

/-- The octets a client still sends, and how many of them each successful read delivers. -/
structure Incoming where
  pending : List UInt8
  cuts : List Nat
  deriving DecidableEq, Repr

/-- A read delivers at least one octet, and no more than there are or than were asked for. -/
def Incoming.count (ssl : Incoming) (want : Nat) : Nat :=
  max 1 (min (ssl.cuts.headD want) (min want ssl.pending.length))

/-- It fails at the end of the stream and when it is asked for nothing. -/
def sslReadEx (ssl : Incoming) (want : Nat) : Option (List UInt8 × Incoming) :=
  if want = 0 ∨ ssl.pending = [] then none
  else some (ssl.pending.take (ssl.count want),
    ⟨ssl.pending.drop (ssl.count want), ssl.cuts.tail⟩)

theorem sslReadEx_some (h : sslReadEx ssl want = some (octets, ssl')) :
    ssl.pending = octets ++ ssl'.pending ∧ octets ≠ [] ∧ octets.length ≤ want := by
  unfold sslReadEx at h
  split at h
  · cases h
  · rename_i hne
    rw [not_or] at hne
    cases h
    have hpos := List.length_pos_iff.2 hne.2
    have hcount : 1 ≤ ssl.count want ∧ ssl.count want ≤ want := by
      unfold Incoming.count
      omega
    refine ⟨(List.take_append_drop _ _).symm, ?_, ?_⟩
    · apply List.ne_nil_of_length_pos
      rw [List.length_take]
      omega
    · rw [List.length_take]
      omega

theorem sslReadEx_none (h : sslReadEx ssl want = none) : want = 0 ∨ ssl.pending = [] := by
  unfold sslReadEx at h
  split at h
  · assumption
  · cases h

theorem sslReadEx_pending (h : sslReadEx ssl want = some (octets, ssl')) :
    ssl'.pending.length < ssl.pending.length := by
  obtain ⟨he, hne, _⟩ := sslReadEx_some h
  have hpos := List.length_pos_iff.2 hne
  rw [he, List.length_append]
  omega

/-- What lies behind the terminator is not searched; without one the search leaves the object. -/
def strstr (b : Buf n) (needle : List UInt8) : Except Fault (Option Nat) :=
  match find needle b.str with
  | some i => .ok (some i)
  | none => if 0 ∈ b.octets then .ok none else .error (.load n)

def sReadtoLoop (dst : Buf n) (end' : List UInt8) (ntotal : Nat) (ssl : Incoming) :
    Except Fault (Int × Buf n × Incoming) := do
  let want ← sizeSub (n - 1) ntotal
  match _h : sslReadEx ssl want with
  | none => .ok (-1, dst, ssl)
  | some (octets, ssl') =>
    let dst ← dst.copyIn ntotal octets
    let ntotal := ntotal + octets.length
    let dst ← dst.store ntotal 0
    match ← strstr dst end' with
    | some _ => .ok (ntotal, dst, ssl')
    | none => sReadtoLoop dst end' ntotal ssl'
termination_by ssl.pending.length
decreasing_by exact sslReadEx_pending _h

def sReadto (ssl : Incoming) (dst : Buf n) (end' : List UInt8) :
    Except Fault (Int × Buf n × Incoming) :=
  sReadtoLoop dst end' 0 ssl

/-- The part of `gemini_serve` that reads a request line; `none` is its read error. -/
def readRequest (buf : Buf geminiMaxRequest) (ssl : Incoming) :
    Except Fault (Option CStr × Buf geminiMaxRequest × Incoming) := do
  let (n, buf, ssl) ← sReadto ssl buf crlf
  if n ≤ 0 then .ok (none, buf, ssl)
  else
    match ← strstr buf crlf with
    | none => .error .assertion
    | some p =>
      let buf ← buf.store p 0
      .ok (some buf.cstr, buf, ssl)

theorem find_cstring (hne : 0 ∉ needle) :
    find needle (cstring l) = some i ↔ find needle l = some i ∧ 0 ∉ l.take i := by
  rw [List.prefix_iff_eq_take.1 (cstring_initial l), find_take]
  apply and_congr_right
  intro h
  have hlen := find_le_length h
  obtain ⟨rest, hrest⟩ := (find_eq_some.1 h).1
  have htake : l.take (i + needle.length) = l.take i ++ needle := by
    rw [List.take_add, ← hrest, List.take_left]
  rw [le_length_cstring hlen, htake, List.mem_append, not_or]
  exact and_iff_left hne

theorem strstr_eq {b : Buf n} (h : b.Starts (s ++ [0])) (needle : List UInt8) :
    strstr b needle = .ok (find needle (cstring s)) := by
  obtain ⟨junk, he⟩ := h
  rw [List.append_assoc, List.singleton_append] at he
  have hmem : 0 ∈ b.octets := by simp [he]
  rw [strstr, Buf.str, he, cstring_append_nul]
  cases find needle (cstring s) with
  | some i => rfl
  | none => simp [hmem, ← he]

theorem take_of_sslReadEx_none (h : sslReadEx ssl (m - taken.length) = none)
    (hroom : taken.length ≤ m) : (taken ++ ssl.pending).take m = taken := by
  rcases sslReadEx_none h with hwant | hend
  · rw [List.take_append, List.take_of_length_le hroom, hwant, List.take_zero, List.append_nil]
  · rw [hend, List.append_nil, List.take_of_length_le hroom]

/-- What the loop does from a place where the octets taken do not hold the end yet. -/
theorem sReadtoLoop_eq (taken : List UInt8) (ssl : Incoming) {dst : Buf n} (hn : 0 < n)
    (hd : dst.Starts taken)
    (hroom : taken.length ≤ n - 1) (hnone : find end' (cstring taken) = none) :
    ∃ r dst' ssl', sReadtoLoop dst end' taken.length ssl = .ok (r, dst', ssl') ∧
      (r = -1 ∧ find end' (cstring ((taken ++ ssl.pending).take (n - 1))) = none ∨
        ∃ i t, r = (t.length : Nat) ∧ t ≠ [] ∧ dst'.Starts (t ++ [0]) ∧
          find end' (cstring t) = some i ∧ t <+: (taken ++ ssl.pending).take (n - 1)) := by
  induction hk : ssl.pending.length using Nat.strong_induction_on
      generalizing ssl taken dst with
  | _ k ih =>
    rw [sReadtoLoop, sizeSub_of_le hroom]
    simp only [bind, Except.bind]
    split
    · rename_i hread
      refine ⟨_, _, _, rfl, .inl ⟨rfl, ?_⟩⟩
      rw [take_of_sslReadEx_none hread hroom, hnone]
    · rename_i octets ssl' hread
      obtain ⟨hpending, hne, hlen⟩ := sslReadEx_some hread
      have hall : taken ++ ssl.pending = taken ++ octets ++ ssl'.pending := by
        rw [hpending, List.append_assoc]
      obtain ⟨dst₁, hcopy, hd₁⟩ := hd.copyIn octets (by omega)
      obtain ⟨dst₂, hstore, hd₂⟩ := hd₁.store (by simp; omega) 0
      rw [List.length_append] at hstore
      have htaken : (taken ++ octets).length ≤ n - 1 := by
        rw [List.length_append]
        omega
      simp only [hcopy, hstore, strstr_eq hd₂]
      cases hfind : find end' (cstring (taken ++ octets)) with
      | some i =>
        refine ⟨_, _, _, rfl, .inr ⟨i, taken ++ octets, by simp, by simp [hne], hd₂, hfind, ?_⟩⟩
        rw [hall, List.take_append, List.take_of_length_le htaken]
        exact List.prefix_append _ _
      | none =>
        rw [hall, ← List.length_append]
        exact ih _ (hk ▸ sslReadEx_pending hread) _ ssl' hd₂.left htaken hfind rfl

/-- The request line of a stream, as string functions see it in a buffer of all its octets. -/
def requestLine (stream : List UInt8) : Option (List UInt8) :=
  (find crlf (cstring (stream.take (geminiMaxRequest - 1)))).map fun i => stream.take i

theorem readRequest_eq (buf : Buf geminiMaxRequest) (stream : List UInt8) (cuts : List Nat) :
    ∃ r buf' ssl', readRequest buf ⟨stream, cuts⟩ = .ok (r, buf', ssl') ∧
      r.map CStr.octets = requestLine stream := by
  have hempty : find crlf (cstring []) = none := rfl
  obtain ⟨n, buf₁, ssl', hread, hcases⟩ :=
    sReadtoLoop_eq [] ⟨stream, cuts⟩ (by decide) buf.starts_nil (Nat.zero_le _) hempty
  rw [List.nil_append] at hcases
  change sReadto ⟨stream, cuts⟩ buf crlf = _ at hread
  rcases hcases with ⟨rfl, hnone⟩ | ⟨i, t, rfl, hne, hbuf₁, hfind, hfront⟩
  · refine ⟨none, buf₁, ssl', ?_, ?_⟩
    · simp only [readRequest, hread, bind, Except.bind]
      rfl
    · rw [requestLine, hnone]
      rfl
  · obtain ⟨hi, hnul⟩ := (find_cstring (by decide)).1 hfind
    have hlen := find_le_length hi
    have hroom : t.length < geminiMaxRequest := by
      have hle := hbuf₁.length_le
      rw [List.length_append, List.length_singleton] at hle
      exact hle
    obtain ⟨buf₂, hstore, hbuf₂⟩ := hbuf₁.storeAt (i := i) (by simp; omega) (by omega) 0
    rw [List.take_append_of_le_length (by omega)] at hbuf₂
    refine ⟨some buf₂.cstr, buf₂, ssl', ?_, ?_⟩
    · have hpos : ¬ ((t.length : Int) ≤ 0) := by
        have := List.length_pos_iff.2 hne
        omega
      simp only [readRequest, hread, bind, Except.bind, hpos, ↓reduceIte, strstr_eq hbuf₁, hfind,
        hstore]
    · obtain ⟨rest, hrest⟩ := hfront
      have hall : find crlf (cstring (stream.take (geminiMaxRequest - 1))) = some i := by
        rw [← hrest]
        exact (find_cstring (by decide)).2 ⟨find_append rest hi,
          by rwa [List.take_append_of_le_length (by omega)]⟩
      have htake : stream.take i = t.take i := by
        have ht : t <+: stream := ⟨_, by rw [← List.append_assoc, hrest, List.take_append_drop]⟩
        obtain ⟨after, rfl⟩ := ht
        rw [List.take_append_of_le_length (by omega)]
      rw [requestLine, hall, Option.map_some, Option.map_some, htake]
      exact congrArg some (hbuf₂.holds hnul).str_eq

/-- The octets in front of the first line end, if it comes in time and no NUL before it. -/
structure IsRequestLine (stream line : List UInt8) : Prop where
  first : find crlf stream = some line.length
  front : line <+: stream
  fits : line.length + 2 ≤ geminiMaxRequest - 1
  noNul : 0 ∉ line

theorem requestLine_eq_some : requestLine stream = some line ↔ IsRequestLine stream line := by
  rw [requestLine, Option.map_eq_some_iff]
  constructor
  · intro hfound
    obtain ⟨i, hfind, rfl⟩ := hfound
    rw [find_cstring (by decide), find_take, List.take_take] at hfind
    obtain ⟨⟨hfirst, hfits⟩, hnul⟩ := hfind
    change i + 2 ≤ _ at hfits
    have hlen : (stream.take i).length = i := by
      have hle := find_le_length hfirst
      exact List.length_take_of_le (by omega)
    rw [Nat.min_eq_left (by omega)] at hnul
    exact ⟨by rw [hlen, hfirst], List.take_prefix _ _, by rwa [hlen], hnul⟩
  · intro hline
    obtain ⟨hfirst, hfront, hfits, hnul⟩ := hline
    refine ⟨line.length, ?_, (List.prefix_iff_eq_take.1 hfront).symm⟩
    rw [find_cstring (by decide), find_take, List.take_take, Nat.min_eq_left (by omega),
      ← List.prefix_iff_eq_take.1 hfront]
    exact ⟨⟨hfirst, hfits⟩, hnul⟩

theorem find_crlf_append (h : ¬ crlf <:+: line) : find crlf (line ++ crlf) = some line.length := by
  apply find_eq_some.2
  refine ⟨by simp, fun j hj hp => ?_⟩
  rcases Nat.lt_or_ge line.length (j + crlf.length) with hlt | hle
  · have hlast : j = line.length - 1 := by
      change line.length < j + 2 at hlt
      omega
    have hne : line ≠ [] := List.ne_nil_of_length_pos (by omega)
    obtain ⟨front, c, rfl⟩ : ∃ front c, line = front ++ [c] :=
      ⟨_, _, (List.dropLast_append_getLast hne).symm⟩
    have hdrop : (front ++ [c] ++ crlf).drop j = [c] ++ crlf := by
      rw [List.append_assoc, hlast]
      simp
    rw [hdrop] at hp
    exact absurd hp (by simp [crlf])
  · exact h ((prefix_drop_of_append hp hle).isInfix.trans (List.drop_suffix _ _).isInfix)

theorem IsRequestLine.of_plain (h0 : 0 ∉ line) (h : ¬ crlf <:+: line)
    (hlen : line.length + 2 ≤ geminiMaxRequest - 1) : IsRequestLine (line ++ crlf) line :=
  ⟨find_crlf_append h, List.prefix_append _ _, hlen, h0⟩

/-- A request line is read exactly where there is one, however the stream is cut into reads. -/
theorem readRequest_line (buf : Buf geminiMaxRequest) (stream : List UInt8) (cuts : List Nat) :
    ∃ r buf' ssl', readRequest buf ⟨stream, cuts⟩ = .ok (r, buf', ssl') ∧
      ∀ line, r.map CStr.octets = some line ↔ IsRequestLine stream line := by
  obtain ⟨r, buf', ssl', hread, hr⟩ := readRequest_eq buf stream cuts
  refine ⟨r, buf', ssl', hread, fun line => ?_⟩
  rw [hr]
  exact requestLine_eq_some

end Geminon
