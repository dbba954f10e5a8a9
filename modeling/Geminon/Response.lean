import Geminon.Request

namespace Geminon
open Memory
set_option autoImplicit true

/-- The client's end of a TLS connection: what reads from it will bring, and what they brought. -/
structure Tls where
  reads : List (Option (List UInt8))
  delivered : List UInt8

/-- `SSL_read` takes its count as an `int`, and refuses a negative one. -/
def sslRead (ssl : Tls) (n : Nat) : Option (List UInt8) × Tls :=
  if intOfSize n < 0 then (none, ssl)
  else
    match read ssl.reads (intOfSize n).toNat with
    | (piece, reads) => (piece, ⟨reads, ssl.delivered ++ piece.getD []⟩)

/-- The loop with `n` octets left; nothing has set `nread` before the first read. -/
def geminiResponseReadLoop (ssl : Tls) (buf : Buf size) (cursor n ntotal : Nat) (nread : Int) :
    Except Fault (Int × Buf size × Tls) :=
  if 0 < n then
    match sslRead ssl n with
    | (none, ssl) => .ok (-1, buf, ssl)
    | (some [], ssl) => .ok (ntotal, buf, ssl)
    | (some (c :: piece), ssl) => do
      let buf ← buf.copyIn cursor (c :: piece)
      let nread := (c :: piece).length
      geminiResponseReadLoop ssl buf (cursor + nread) (n - nread) (ntotal + nread) nread
  else if nread < 0 then .ok (nread, buf, ssl)
  else .ok (ntotal, buf, ssl)
termination_by n
decreasing_by
  rw [List.length_cons]
  omega

/-- `stale` is what the variable `nread` happens to hold at first. -/
def geminiResponseRead (stale : Int) (ssl : Tls) (buf : Buf size) (cursor n : Nat) :
    Except Fault (Int × Buf size × Tls) :=
  geminiResponseReadLoop ssl buf cursor n 0 stale

/-- The octets that come before reads next bring nothing or fail. -/
def ahead : List (Option (List UInt8)) → List UInt8
  | some (c :: piece) :: reads => c :: piece ++ ahead reads
  | _ => []

/-- The octets ahead are followed by an error. -/
def failsAfter : List (Option (List UInt8)) → Bool
  | some (_ :: _) :: reads => failsAfter reads
  | none :: _ => true
  | _ => false

def stock (reads : List (Option (List UInt8))) : List UInt8 :=
  (reads.map fun piece => piece.getD []).flatten

theorem ahead_cons (h : piece ≠ []) : ahead (some piece :: reads) = piece ++ ahead reads := by
  cases piece with
  | nil => exact absurd rfl h
  | cons c piece => rfl

theorem failsAfter_cons (h : piece ≠ []) : failsAfter (some piece :: reads) = failsAfter reads := by
  cases piece with
  | nil => exact absurd rfl h
  | cons c piece => rfl

theorem stock_cons (piece : List UInt8) (reads : List (Option (List UInt8))) :
    stock (some piece :: reads) = piece ++ stock reads := rfl

theorem sslRead_eq {ssl : Tls} {want : Nat} (hwant : intOfSize n = want)
    (h : read ssl.reads want = (piece, reads)) :
    sslRead ssl n = (piece, ⟨reads, ssl.delivered ++ piece.getD []⟩) := by
  have hpos : ¬ intOfSize n < 0 := by omega
  rw [sslRead, if_neg hpos, hwant, Int.toNat_natCast, h]

theorem read_fails (h : read reads want = (none, reads')) :
    ahead reads = [] ∧ failsAfter reads = true ∧ stock reads = stock reads' := by
  unfold read at h
  split at h
  · cases h
  · cases h
    exact ⟨rfl, rfl, rfl⟩
  · split at h <;> cases h

theorem read_end (h : read reads want = (some [], reads')) :
    (ahead reads).take want = [] ∧ ¬ (failsAfter reads = true ∧ (ahead reads).length ≤ want) ∧
      stock reads = stock reads' := by
  unfold read at h
  split at h
  · cases h
    exact ⟨List.take_nil, fun hfail => Bool.noConfusion hfail.1, rfl⟩
  · cases h
  · rename_i piece reads
    split at h
    · cases h
      exact ⟨List.take_nil, fun hfail => Bool.noConfusion hfail.1, rfl⟩
    · rename_i hlong
      cases piece with
      | nil => exact absurd (Nat.zero_le _) hlong
      | cons c piece =>
        cases want with
        | zero =>
          cases h
          refine ⟨List.take_zero, ?_, rfl⟩
          intro hfail
          exact absurd hfail.2 (by simp [ahead])
        | succ want => simp at h

theorem read_piece (hne : piece ≠ []) (h : read reads want = (some piece, reads')) :
    ahead reads = piece ++ ahead reads' ∧ failsAfter reads = failsAfter reads' ∧
      stock reads = piece ++ stock reads' := by
  unfold read at h
  split at h
  · cases h
    exact absurd rfl hne
  · cases h
  · rename_i whole reads
    split at h
    · cases h
      exact ⟨ahead_cons hne, failsAfter_cons hne, rfl⟩
    · rename_i hlong
      cases h
      have hrest : whole.drop want ≠ [] := by
        intro he
        exact hlong (List.drop_eq_nil_iff.1 he)
      have hwhole : whole ≠ [] := by
        intro he
        exact hne (by rw [he, List.take_nil])
      rw [ahead_cons hwhole, ahead_cons hrest, failsAfter_cons hwhole, failsAfter_cons hrest,
        stock_cons, stock_cons, ← List.append_assoc, ← List.append_assoc, List.take_append_drop]
      exact ⟨rfl, rfl, rfl⟩

/-- Reads that next fail before `n` octets are there. -/
def Fails (n : Nat) (reads : List (Option (List UInt8))) : Prop :=
  intOfSize n < 0 ∨ (failsAfter reads = true ∧ (ahead reads).length < n ∧
    ((ahead reads).length : Int) ≤ intOfSize n)

/-- What a call for `n` octets gets from the reads that stand next. -/
def got (n : Nat) (reads : List (Option (List UInt8))) : List UInt8 :=
  (ahead reads).take (intOfSize n).toNat

instance : Decidable (Fails n reads) := inferInstanceAs (Decidable (_ ∨ _ ∧ _ ∧ _))

theorem got_more {piece : List UInt8} (hlen : (piece.length : Int) ≤ intOfSize n)
    (hahead : ahead reads = piece ++ ahead reads') :
    got n reads = piece ++ got (n - piece.length) reads' := by
  rw [got, got, intOfSize_sub hlen, hahead, List.take_append, List.take_of_length_le (by omega)]
  congr 2
  omega

theorem fails_more {piece : List UInt8} (hlen : (piece.length : Int) ≤ intOfSize n)
    (hahead : ahead reads = piece ++ ahead reads') (hfail : failsAfter reads = failsAfter reads') :
    Fails n reads ↔ Fails (n - piece.length) reads' := by
  rw [Fails, Fails, hfail, intOfSize_sub hlen, hahead, List.length_append]
  constructor
  · intro hfails
    cases hfails with
    | inl hneg => omega
    | inr hlate => exact .inr ⟨hlate.1, by omega, by omega⟩
  · intro hfails
    cases hfails with
    | inl hneg => omega
    | inr hlate => exact .inr ⟨hlate.1, by omega, by omega⟩

theorem geminiResponseReadLoop_gets {s : List UInt8} (ntotal : Nat) (nread : Int) (ssl : Tls)
    {buf : Buf size} (hstart : 0 < n ∨ 0 ≤ nread) (hb : buf.Starts s) (hroom : s.length + n ≤ size) :
    ∃ buf' ssl', geminiResponseReadLoop ssl buf s.length n ntotal nread =
        .ok (if Fails n ssl.reads then -1 else (ntotal + (got n ssl.reads).length : Nat), buf', ssl') ∧
      ssl'.delivered = ssl.delivered ++ got n ssl.reads ∧ buf'.Starts (s ++ got n ssl.reads) ∧
      stock ssl.reads = got n ssl.reads ++ stock ssl'.reads := by
  induction n using Nat.strong_induction_on generalizing s ssl buf ntotal nread with
  | _ n ih =>
    rw [geminiResponseReadLoop]
    by_cases hn : 0 < n
    case neg =>
      have hread : ¬ nread < 0 := by omega
      have hgot : got n ssl.reads = [] := by
        rw [show n = 0 by omega]
        exact List.take_zero
      have hfails : ¬ Fails n ssl.reads := by
        rw [show n = 0 by omega]
        intro hfails
        cases hfails with
        | inl hneg => exact absurd hneg (by decide)
        | inr hlate => exact Nat.not_lt_zero _ hlate.2.1
      rw [if_neg hn, if_neg hread, if_neg hfails, hgot]
      exact ⟨buf, ssl, rfl, by rw [List.append_nil], by rwa [List.append_nil], rfl⟩
    rw [if_pos hn]
    by_cases hneg : intOfSize n < 0
    · have hfails : Fails n ssl.reads := .inl hneg
      have hgot : got n ssl.reads = [] := by
        rw [got, Int.toNat_of_nonpos (Int.le_of_lt hneg), List.take_zero]
      simp only [sslRead, if_pos hneg, if_pos hfails, hgot, List.append_nil, List.nil_append]
      exact ⟨buf, ssl, rfl, rfl, hb, rfl⟩
    obtain ⟨want, hwant⟩ := Int.eq_ofNat_of_zero_le (Int.not_lt.1 hneg)
    have hgot : got n ssl.reads = (ahead ssl.reads).take want := by
      rw [got, hwant, Int.toNat_natCast]
    have hle : want ≤ n := intOfSize_le hwant
    cases hread : read ssl.reads want with
    | mk outcome reads =>
      cases outcome with
      | none =>
        obtain ⟨hahead, hfail, hstock⟩ := read_fails hread
        have hfails : Fails n ssl.reads := .inr ⟨hfail, by rw [hahead]; exact hn, by
          rw [hahead, hwant]
          exact Int.natCast_nonneg want⟩
        rw [sslRead_eq hwant hread, hgot, hahead, List.take_nil, if_pos hfails]
        exact ⟨buf, _, rfl, rfl, by rwa [List.append_nil], hstock⟩
      | some piece =>
        cases piece with
        | nil =>
          obtain ⟨hahead, hfail, hstock⟩ := read_end hread
          have hfails : ¬ Fails n ssl.reads := by
            intro hfails
            cases hfails with
            | inl hlt => exact hneg hlt
            | inr hlate =>
              have hlong := hlate.2.2
              rw [hwant] at hlong
              exact hfail ⟨hlate.1, Int.ofNat_le.1 hlong⟩
          rw [sslRead_eq hwant hread, hgot, hahead, if_neg hfails]
          exact ⟨buf, _, rfl, rfl, by rwa [List.append_nil], hstock⟩
        | cons c piece =>
          obtain ⟨hahead, hfail, hstock⟩ := read_piece (List.cons_ne_nil c piece) hread
          have hlen : (c :: piece).length ≤ want := read_length hread
          have hlen' : ((c :: piece).length : Int) ≤ intOfSize n := by
            rw [hwant]
            exact Int.ofNat_le.2 hlen
          obtain ⟨buf₁, hcopy, hb₁⟩ := hb.copyIn (c :: piece) (by omega)
          have hless : n - (c :: piece).length < n :=
            Nat.sub_lt hn (Nat.succ_pos piece.length)
          obtain ⟨buf', ssl', hloop, hdelivered, hb', hstock'⟩ := ih _ hless
            (ntotal + (c :: piece).length) (c :: piece).length
            ⟨reads, ssl.delivered ++ (c :: piece)⟩ (.inr (Int.natCast_nonneg _)) hb₁
            (by rw [List.length_append]; omega)
          rw [List.length_append] at hloop
          rw [sslRead_eq hwant hread, got_more hlen' hahead, List.length_append]
          simp only [fails_more hlen' hahead hfail]
          refine ⟨buf', ssl', ?_, ?_, ?_, ?_⟩
          · simp only [hcopy, bind, Except.bind, Option.getD_some, hloop, Nat.add_assoc]
          · rw [hdelivered, List.append_assoc]
          · rwa [List.append_assoc] at hb'
          · rw [hstock, hstock', List.append_assoc]

theorem geminiResponseRead_gets (stale : Int) (ssl : Tls) {buf : Buf size} {s : List UInt8}
    (hn : 0 < n) (hb : buf.Starts s) (hroom : s.length + n ≤ size) :
    ∃ buf' ssl', geminiResponseRead stale ssl buf s.length n =
        .ok (if Fails n ssl.reads then -1 else ((got n ssl.reads).length : Nat), buf', ssl') ∧
      ssl'.delivered = ssl.delivered ++ got n ssl.reads ∧ buf'.Starts (s ++ got n ssl.reads) ∧
      stock ssl.reads = got n ssl.reads ++ stock ssl'.reads := by
  have hgets := geminiResponseReadLoop_gets 0 stale ssl (.inl hn) hb hroom
  rwa [Nat.zero_add] at hgets

/-- Among the next `n` octets a read fails, and not the first one. -/
def Late (n : Nat) (reads : List (Option (List UInt8))) : Prop :=
  failsAfter reads = true ∧ 0 < (ahead reads).length ∧ (ahead reads).length < n ∧
    ((ahead reads).length : Int) ≤ intOfSize n

instance : Decidable (Late n reads) := inferInstanceAs (Decidable (_ ∧ _ ∧ _ ∧ _))

theorem Late.fails (h : Late n reads) : Fails n reads := .inr ⟨h.1, h.2.2.1, h.2.2.2⟩

theorem Late.got_eq (h : Late n reads) : got n reads = ahead reads := by
  have hle := h.2.2.2
  rw [got, List.take_of_length_le]
  omega

theorem got_of_not_late (hfails : Fails n reads) (h : ¬ Late n reads) : got n reads = [] := by
  cases hfails with
  | inl hneg => rw [got, Int.toNat_of_nonpos (Int.le_of_lt hneg), List.take_zero]
  | inr hlate =>
    have hnone : ¬ 0 < (ahead reads).length := fun hpos => h ⟨hlate.1, hpos, hlate.2⟩
    rw [got, List.length_eq_zero_iff.1 (by omega : (ahead reads).length = 0), List.take_nil]

/-- One call after the other, and the octets that their results report. -/
def responseReads (stale : Int) (ssl : Tls) :
    List ((n : Nat) × Buf n) → Except Fault (List UInt8 × Tls)
  | [] => .ok ([], ssl)
  | ⟨n, buf⟩ :: calls => do
    let (r, buf, ssl) ← geminiResponseRead stale ssl buf 0 n
    let (octets, ssl) ← responseReads stale ssl calls
    .ok (buf.octets.take r.toNat ++ octets, ssl)

/-- In no call does a read fail after others have brought something. -/
def NeverLate (stale : Int) (ssl : Tls) : List ((n : Nat) × Buf n) → Prop
  | [] => True
  | ⟨n, buf⟩ :: calls => ¬ Late n ssl.reads ∧
      ∀ r buf' ssl', geminiResponseRead stale ssl buf 0 n = .ok (r, buf', ssl') →
        NeverLate stale ssl' calls

/-- Every octet delivered is reported, in order, also by a call in which a read fails late. -/
structure LosesNothing (stale : Int) (ssl : Tls) (calls : List ((n : Nat) × Buf n)) : Prop where
  reported : ∃ octets ssl', responseReads stale ssl calls = .ok (octets, ssl') ∧
    ssl'.delivered = ssl.delivered ++ octets
  late : ∀ front n buf rest octets ssl', calls = front ++ ⟨n, buf⟩ :: rest →
    responseReads stale ssl front = .ok (octets, ssl') → Late n ssl'.reads →
      ∃ buf' ssl'', geminiResponseRead stale ssl' buf 0 n =
        .ok (((ahead ssl'.reads).length : Nat), buf', ssl'')

theorem geminiResponseRead_reports (stale : Int) (ssl : Tls) (buf : Buf n) (hn : 0 < n) :
    ∃ r buf' ssl', geminiResponseRead stale ssl buf 0 n = .ok (r, buf', ssl') ∧
      ssl'.delivered = ssl.delivered ++ got n ssl.reads ∧
      (Late n ssl.reads → r = -1 ∧ got n ssl.reads ≠ []) ∧
      buf'.octets.take r.toNat = if Late n ssl.reads then [] else got n ssl.reads := by
  obtain ⟨buf', ssl', hread, hdelivered, ⟨junk, hbuf⟩, _⟩ :=
    geminiResponseRead_gets stale ssl hn buf.starts_nil (by simp)
  refine ⟨_, buf', ssl', hread, hdelivered, ?_, ?_⟩
  · intro hlate
    rw [if_pos hlate.fails, hlate.got_eq]
    exact ⟨rfl, List.ne_nil_of_length_pos hlate.2.1⟩
  · by_cases hlate : Late n ssl.reads
    · rw [if_pos hlate.fails, if_pos hlate]
      rfl
    · rw [if_neg hlate]
      by_cases hfails : Fails n ssl.reads
      · rw [if_pos hfails, got_of_not_late hfails hlate]
        rfl
      · rw [if_neg hfails, Int.toNat_natCast, hbuf, List.nil_append, List.take_left]

/-- No more is reported than was delivered, and everything if no call is late. -/
theorem responseReads_reports (stale : Int) (ssl : Tls) (hsizes : ∀ call ∈ calls, 0 < call.1) :
    ∃ octets ssl' delivered, responseReads stale ssl calls = .ok (octets, ssl') ∧
      ssl'.delivered = ssl.delivered ++ delivered ∧ octets.length ≤ delivered.length ∧
      (octets.length = delivered.length ↔ NeverLate stale ssl calls) ∧
      (NeverLate stale ssl calls → octets = delivered) := by
  induction calls generalizing ssl with
  | nil => exact ⟨[], ssl, [], rfl, by rw [List.append_nil], Nat.le_refl 0, by simp [NeverLate],
      fun _ => rfl⟩
  | cons call calls ih =>
    obtain ⟨n, buf⟩ := call
    obtain ⟨r, buf', ssl₁, hread, hdelivered₁, hlate, htaken⟩ :=
      geminiResponseRead_reports stale ssl buf (hsizes _ List.mem_cons_self)
    obtain ⟨octets, ssl', delivered, hrest, hdelivered, hle, hlength, hall⟩ :=
      ih ssl₁ fun call hm => hsizes call (List.mem_cons_of_mem _ hm)
    have hnever : NeverLate stale ssl (⟨n, buf⟩ :: calls) ↔
        ¬ Late n ssl.reads ∧ NeverLate stale ssl₁ calls := by
      rw [NeverLate]
      constructor
      · intro h
        exact ⟨h.1, h.2 r buf' ssl₁ hread⟩
      · intro h
        refine ⟨h.1, ?_⟩
        intro r' buf'' ssl'' he
        rw [hread] at he
        cases he
        exact h.2
    have hcalls : responseReads stale ssl (⟨n, buf⟩ :: calls) =
        .ok (buf'.octets.take r.toNat ++ octets, ssl') := by
      simp only [responseReads, hread, hrest, bind, Except.bind]
    refine ⟨_, ssl', got n ssl.reads ++ delivered, hcalls, ?_, ?_⟩
    · rw [hdelivered, hdelivered₁, List.append_assoc]
    rw [hnever, htaken]
    by_cases hl : Late n ssl.reads
    · have hpos := List.length_pos_of_ne_nil (hlate hl).2
      rw [if_pos hl, List.nil_append, List.length_append]
      exact ⟨by omega, ⟨fun he => absurd he (by omega), fun h => absurd hl h.1⟩,
        fun h => absurd hl h.1⟩
    · rw [if_neg hl, List.length_append, List.length_append, Nat.add_left_cancel_iff, hlength]
      exact ⟨Nat.add_le_add_left hle _, (and_iff_right hl).symm,
        fun h => by rw [hall h.2]⟩

theorem neverLate_append (h : NeverLate stale ssl (front ++ ⟨n, buf⟩ :: rest))
    (hfront : responseReads stale ssl front = .ok (octets, ssl')) : ¬ Late n ssl'.reads := by
  induction front generalizing ssl octets with
  | nil =>
    cases hfront
    exact h.1
  | cons call front ih =>
    obtain ⟨m, buf₁⟩ := call
    rw [responseReads] at hfront
    obtain ⟨⟨r, buf', ssl₁⟩, hread, hfront⟩ := bind_eq_ok hfront
    obtain ⟨⟨octets', ssl₂⟩, hrest, hfront⟩ := bind_eq_ok hfront
    cases hfront
    exact ih (h.2 r buf' ssl₁ hread) hrest

theorem losesNothing_of_neverLate (hsizes : ∀ call ∈ calls, 0 < call.1)
    (h : NeverLate stale ssl calls) : LosesNothing stale ssl calls where
  reported := by
    obtain ⟨octets, ssl', delivered, hcalls, hdelivered, _, _, hall⟩ :=
      responseReads_reports stale ssl hsizes
    exact ⟨octets, ssl', hcalls, by rw [hall h, hdelivered]⟩
  late := by
    intro front n buf rest octets ssl' hcalls hfront hlate
    subst calls
    exact absurd hlate (neverLate_append h hfront)

theorem neverLate_of_losesNothing (hsizes : ∀ call ∈ calls, 0 < call.1)
    (h : LosesNothing stale ssl calls) : NeverLate stale ssl calls := by
  obtain ⟨octets, ssl', hcalls, hsame⟩ := h.reported
  obtain ⟨octets', ssl'', delivered, hcalls', hdelivered, _, hlength, _⟩ :=
    responseReads_reports stale ssl hsizes
  rw [hcalls] at hcalls'
  cases hcalls'
  rw [hsame] at hdelivered
  rw [← hlength, List.append_cancel_left hdelivered]

/-- Octets are lost exactly by calls in which a read fails after others have brought something. -/
theorem losesNothing_iff_neverLate (stale : Int) (ssl : Tls) (calls : List ((n : Nat) × Buf n))
    (hsizes : ∀ call ∈ calls, 0 < call.1) :
    LosesNothing stale ssl calls ↔ NeverLate stale ssl calls :=
  ⟨neverLate_of_losesNothing hsizes, losesNothing_of_neverLate hsizes⟩

def breaking : Tls := ⟨[some [97], none], []⟩

theorem losesNothing_iff_neverLate_breaking :
    LosesNothing 0 breaking [⟨1, .zeroed 1⟩, ⟨1, .zeroed 1⟩] ↔
      NeverLate 0 breaking [⟨1, .zeroed 1⟩, ⟨1, .zeroed 1⟩] :=
  losesNothing_iff_neverLate 0 breaking _ (by simp)

/-- A call for two octets gets one and says that it failed. -/
theorem not_losesNothing_breaking : ¬ LosesNothing 0 breaking [⟨2, .zeroed 2⟩] := by
  intro h
  have hnever := neverLate_of_losesNothing (by simp) h
  exact hnever.1 (by decide)

end Geminon
