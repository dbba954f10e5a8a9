import Geminon.Location
import Geminon.RequestLine
import Geminon.Descriptors
import Geminon.Process

namespace Geminon
open Memory Search Decimal Descriptors Process
set_option autoImplicit true

/-- An address that `getaddrinfo` found, and what becomes of the calls made for it. -/
structure Route where
  socket : Bool
  connect : Bool
  deriving DecidableEq, Repr

/-- What the calls of one request come to; `malloc` leaves its block, and so `fd`, as it was. -/
structure Dial where
  url : UrlMalloc
  stack : Nat → UInt8
  info : Option (List Route)
  malloc : Option Int
  sslNew : Bool
  sslConnect : Bool
  sslWrite : List UInt8 → Bool

structure GeminiResponse where
  fd : Int
  ssl : Option Nat
  deriving DecidableEq, Repr

/-- What a client process has open, which names it looked up, and what it sent over TLS. -/
structure ClientState where
  fds : FdTable Unit
  lookups : List (List UInt8 × List UInt8)
  sent : List UInt8

/-- `service` counts from one, since its pointer may come to stand in front of `p`. -/
def serviceDigits (p : Buf 6) : Nat → Nat → Except Fault (Nat × Buf 6)
  | 0, _ => .ok (0, p)
  | service + 1, port =>
    if 0 < port then do
      let p ← p.store service (48 + UInt8.ofNat (port % 10))
      serviceDigits p service (port / 10)
    else .ok (service + 1, p)

def portService (stack : Nat → UInt8) (port : UInt16) : Except Fault (List UInt8) := do
  let p ← (Buf.filled 6 stack).store 5 0
  let (service, p) ← serviceDigits p 5 port.toNat
  .ok (p.strAt service)

def openSocket : Proc ClientState Nat :=
  modifyGet fun s => (s.fds.unused, { s with fds := s.fds.add () })

def closeSocket (fd : Nat) : Proc ClientState Unit :=
  modify fun s => { s with fds := s.fds.close fd }

def connectRoute : List Route → Proc ClientState (Option Nat)
  | [] => pure none
  | rp :: info =>
    if rp.socket then do
      let fd ← openSocket
      if rp.connect then pure (some fd)
      else
        closeSocket fd
        connectRoute info
    else connectRoute info

def sslWrite (dial : Dial) (octets : List UInt8) : Proc ClientState Unit :=
  modify fun s => if dial.sslWrite octets then { s with sent := s.sent ++ octets } else s

def geminiClientRequest (dial : Dial) (url : CStr) :
    Proc ClientState (Option GeminiResponse) := do
  match ← checked (geminiParseUrl dial.url url) with
  | none => pure none
  | some u =>
    let service ← checked (portService dial.stack u.port)
    modify fun s => { s with lookups := s.lookups ++ [(u.buf.strAt u.host, service)] }
    match dial.info with
    | none => pure none
    | some info =>
      match ← connectRoute info with
      | none => pure none
      | some fd =>
        match dial.malloc with
        | none =>
          closeSocket fd
          pure none
        | some garbage =>
          if !dial.sslNew then
            closeSocket fd
            pure none
          else if !dial.sslConnect then
            closeSocket fd
            pure none
          else
            sslWrite dial url.octets
            sslWrite dial crlf
            pure (some ⟨garbage, some fd⟩)

theorem serviceDigits_holds {p : Buf 6} (h : p.HoldsAt service digits)
    (hport : port < 10 ^ service) :
    ∃ service' p', serviceDigits p service port = .ok (service', p') ∧
      p'.HoldsAt service' (digitsOf port ++ digits) := by
  induction service generalizing p port digits with
  | zero =>
    obtain rfl : port = 0 := Nat.lt_one_iff.1 hport
    exact ⟨0, p, rfl, by rwa [digitsOf_zero]⟩
  | succ service ih =>
    rw [serviceDigits]
    by_cases hpos : 0 < port
    · have hdigit : digitOf (port % 10) ≠ 0 := by
        intro hzero
        have hspec := (digitOf_spec (Nat.mod_lt port (by decide))).1
        rw [hzero] at hspec
        exact absurd hspec (by decide)
      obtain ⟨p₁, hstore, hp₁⟩ := h.push hdigit
      have hless : port / 10 < 10 ^ service := Nat.div_lt_of_lt_mul (by rwa [← Nat.pow_succ'])
      obtain ⟨service', p', hrest, hp'⟩ := ih hp₁ hless
      refine ⟨service', p', ?_, by rwa [digitsOf_pos hpos, List.append_assoc]⟩
      rw [if_pos hpos, show p.store service (48 + UInt8.ofNat (port % 10)) = .ok p₁ from hstore]
      exact hrest
    · obtain rfl : port = 0 := by omega
      exact ⟨service + 1, p, by rw [if_neg hpos], by rwa [digitsOf_zero]⟩

theorem portService_eq (stack : Nat → UInt8) (port : UInt16) :
    portService stack port = .ok (digitsOf port.toNat) := by
  have hport : port.toNat < 10 ^ 5 := port.toNat_lt.trans (by decide)
  have hlast : ∃ p, (Buf.filled 6 stack).store 5 0 = .ok p ∧ p.HoldsAt 5 [] := by
    refine ⟨_, if_pos (by decide), List.not_mem_nil, ((Buf.filled 6 stack).octets.take 5), [], ?_,
      ?_⟩
    · rfl
    · rfl
  obtain ⟨p, hstore, hp⟩ := hlast
  obtain ⟨service, p', hdigits, hp'⟩ := serviceDigits_holds hp hport
  simp only [portService, hstore, hdigits, bind, Except.bind, hp'.strAt_eq, List.append_nil]

/-- Sockets that could not be connected are closed, and their number is taken again. -/
theorem connectRoute_eq (info : List Route) (s : ClientState) :
    connectRoute info s =
      if info.any fun rp => rp.socket && rp.connect then
        .ok (some s.fds.unused) { s with fds := s.fds.add () }
      else .ok none s := by
  induction info with
  | nil => rfl
  | cons rp info ih =>
    rw [connectRoute, List.any_cons]
    cases hsocket : rp.socket with
    | false => exact ih
    | true =>
      cases hconnect : rp.connect with
      | true => rfl
      | false =>
        have hclosed : { s with fds := (s.fds.add ()).close s.fds.unused } = s := by
          rw [s.fds.close_add]
        change connectRoute info { s with fds := (s.fds.add ()).close s.fds.unused } = _
        rw [hclosed]
        exact ih

theorem sslWrite_spec (dial : Dial) (octets : List UInt8) (s : ClientState) :
    Outcome (sslWrite dial octets) s (fun _ s' => s'.fds = s.fds ∧ s'.lookups = s.lookups ∧
      (dial.sslWrite octets = true → s'.sent = s.sent ++ octets)) fun _ _ => False := by
  apply Outcome.modify
  cases hw : dial.sslWrite octets with
  | false => exact ⟨rfl, rfl, fun h => absurd h (by decide)⟩
  | true => exact ⟨rfl, rfl, fun _ => rfl⟩

/-- An address could be connected, and TLS could be set up over it. -/
structure Dial.Connects (dial : Dial) : Prop where
  route : ∃ info rp, dial.info = some info ∧ rp ∈ info ∧ rp.socket = true ∧ rp.connect = true
  sslNew : dial.sslNew = true
  sslConnect : dial.sslConnect = true

/-- What is known of the result of a request. -/
def Answered (dial : Dial) (url : CStr) (s s' : ClientState) : Option GeminiResponse → Prop
  | none => s'.fds = s.fds ∧ (dial.Connects → dial.malloc = none)
  | some res => dial.Connects ∧ dial.malloc = some res.fd ∧ res.ssl = some s.fds.unused ∧
      s'.fds = s.fds.add () ∧
      ((∀ octets, dial.sslWrite octets = true) → s'.sent = s.sent ++ (url.octets ++ crlf))

theorem geminiClientRequest_spec {dial : Dial} {url : CStr} {u : GeminiUrl (urlLen url)}
    (hu : geminiParseUrl dial.url url = .ok (some u)) (s : ClientState) :
    Outcome (geminiClientRequest dial url) s
      (fun res s' => s'.lookups = s.lookups ++ [(u.buf.strAt u.host, digitsOf u.port.toNat)] ∧
        Answered dial url s s' res)
      fun _ _ => False := by
  unfold geminiClientRequest
  rw [hu]
  apply Outcome.bind (.pure _)
  dsimp only
  rw [portService_eq]
  apply Outcome.bind (.pure (.bind (.modify _)))
  cases hinfo : dial.info with
  | none =>
    refine .pure ⟨rfl, rfl, fun h => ?_⟩
    obtain ⟨info, _, hsome, _⟩ := h.route
    rw [hinfo] at hsome
    cases hsome
  | some info =>
    cases hany : info.any fun rp => rp.socket && rp.connect with
    | false =>
      refine .bind (.of_run (by rw [connectRoute_eq, hany]; rfl) ?_)
      refine .pure ⟨rfl, rfl, fun h => ?_⟩
      obtain ⟨info', rp, hsome, hmem, hsocket, hconnect⟩ := h.route
      rw [hinfo] at hsome
      cases hsome
      have hnone := List.any_eq_false.1 hany rp hmem
      rw [hsocket, hconnect] at hnone
      exact absurd rfl hnone
    | true =>
      obtain ⟨rp, hmem, hroute⟩ := List.any_eq_true.1 hany
      rw [Bool.and_eq_true] at hroute
      refine .bind (.of_run (by rw [connectRoute_eq, hany]; rfl) ?_)
      have hclosed := s.fds.close_add ()
      cases hmalloc : dial.malloc with
      | none => exact .bind (.modify (.pure ⟨rfl, hclosed, fun _ => hmalloc⟩))
      | some garbage =>
        dsimp only
        cases hnew : dial.sslNew with
        | false =>
          refine .bind (.modify (.pure ⟨rfl, hclosed, fun h => ?_⟩))
          exact absurd h.sslNew (by rw [hnew]; decide)
        | true =>
          cases hconnect : dial.sslConnect with
          | false =>
            refine .bind (.modify (.pure ⟨rfl, hclosed, fun h => ?_⟩))
            exact absurd h.sslConnect (by rw [hconnect]; decide)
          | true =>
            apply Outcome.andThen (sslWrite_spec dial url.octets _)
            intro _ s₁ h₁
            obtain ⟨hfds₁, hlookups₁, hsent₁⟩ := h₁
            apply Outcome.andThen (sslWrite_spec dial crlf s₁)
            intro _ s₂ h₂
            obtain ⟨hfds₂, hlookups₂, hsent₂⟩ := h₂
            refine .pure ⟨hlookups₂.trans hlookups₁, ⟨⟨info, rp, hinfo, hmem, hroute⟩, hnew,
              hconnect⟩, hmalloc, rfl, hfds₂.trans hfds₁, fun hw => ?_⟩
            rw [hsent₂ (hw _), hsent₁ (hw _), List.append_assoc]

theorem geminiClientRequest_sent (dial : Dial) (hw : ∀ octets, dial.sslWrite octets = true)
    (url : CStr) (s : ClientState) :
    Outcome (geminiClientRequest dial url) s
      (fun res s' => res.isSome → s'.sent = s.sent ++ (url.octets ++ crlf)) fun _ _ => True := by
  cases hparse : geminiParseUrl dial.url url with
  | error fault =>
    unfold geminiClientRequest
    rw [hparse]
    exact .bind (.throw trivial)
  | ok u =>
    cases u with
    | none =>
      unfold geminiClientRequest
      rw [hparse]
      exact .bind (.pure (.pure nofun))
    | some u =>
      apply (geminiClientRequest_spec hparse s).sure.imp
      intro res s' h hres
      obtain ⟨res, rfl⟩ := Option.isSome_iff_exists.1 hres
      obtain ⟨_, _, _, _, _, hsent⟩ := h
      exact hsent hw

def smooth (malloc : UrlMalloc) : Dial where
  url := malloc
  stack := fun _ => 0
  info := some [⟨true, true⟩]
  malloc := some 0
  sslNew := true
  sslConnect := true
  sslWrite := fun _ => true

theorem geminiClientRequest_smooth {malloc : UrlMalloc} {url : CStr}
    {u : GeminiUrl (urlLen url)} (hu : geminiParseUrl malloc url = .ok (some u))
    (s : ClientState) :
    Outcome (geminiClientRequest (smooth malloc) url) s (fun res _ => res.isSome)
      fun _ _ => False := by
  have hspec : Outcome (geminiClientRequest (smooth malloc) url) s _ _ :=
    geminiClientRequest_spec hu s
  apply hspec.imp
  intro res s' h
  cases res with
  | none =>
    have hmalloc := h.2.2 ⟨⟨_, _, rfl, List.mem_cons_self, rfl, rfl⟩, rfl, rfl⟩
    cases hmalloc
  | some res => rfl

structure SameParts (u : GeminiUrl len) (u' : GeminiUrl len') : Prop where
  host : u.buf.strAt u.host = u'.buf.strAt u'.host
  port : u.port = u'.port
  path : u.buf.strAt u.path = u'.buf.strAt u'.path

/-- A server reads a client's URL off its request, and parses it as the client did. -/
def Agrees (url : CStr) : Prop :=
  ∀ (dial : Dial) s res s', (∀ octets, dial.sslWrite octets = true) →
    geminiClientRequest dial url s = .ok (some res) s' →
    ∃ stream, s'.sent = s.sent ++ stream ∧ ∀ buf cuts, ∃ line buf' ssl',
      readRequest buf ⟨stream, cuts⟩ = .ok (some line, buf', ssl') ∧ line = url ∧
        ∀ u, geminiParseUrl dial.url url = .ok (some u) →
          ∀ malloc : UrlMalloc, (malloc (urlLen line)).isSome →
            ∃ u', geminiParseUrl malloc line = .ok (some u') ∧ SameParts u u'

theorem SameParts.of_denotes {u : GeminiUrl len} {u' : GeminiUrl len'} (h : u.Denotes loc)
    (h' : u'.Denotes loc) : SameParts u u' where
  host := h.host.strAt_eq.trans h'.host.strAt_eq.symm
  port := UInt16.toNat_inj.1 (h.port.trans h'.port.symm)
  path := h.path.strAt_eq.trans h'.path.strAt_eq.symm

theorem not_agrees_of_crlf {url : CStr} {u : GeminiUrl (urlLen url)}
    (hu : geminiParseUrl malloc url = .ok (some u)) (hcr : crlf <:+: url.octets) :
    ¬ Agrees url := by
  intro hagrees
  have s : ClientState := ⟨.empty, [], []⟩
  obtain ⟨res, s', hrun, hres⟩ := (geminiClientRequest_smooth hu s).returns
  obtain ⟨res, rfl⟩ := Option.isSome_iff_exists.1 hres
  obtain ⟨stream, hstream, hread⟩ := hagrees _ s res s' (fun _ => rfl) hrun
  have hsent := (geminiClientRequest_sent _ (fun _ => rfl) url s).of_ok hrun rfl
  rw [hstream, List.append_right_inj] at hsent
  obtain ⟨line, _, _, hline, rfl, _⟩ := hread (.zeroed _) []
  obtain ⟨r, _, _, hr, hrl⟩ := readRequest_eq (.zeroed _) stream []
  rw [hline] at hr
  cases hr
  have hfirst := (requestLine_eq_some.1 hrl.symm).first
  cases hfind : find crlf line.octets with
  | none => exact (find_eq_none (by decide)).1 hfind hcr
  | some i =>
    have hle := find_le_length hfind
    rw [hsent, find_append crlf hfind] at hfirst
    cases hfirst
    change line.octets.length + 2 ≤ _ at hle
    omega

theorem agrees_of_no_crlf (url : CStr) (hlen : url.length ≤ geminiMaxRequest - 3)
    (hplain : ¬ crlf <:+: url.octets) : Agrees url := by
  intro dial s res s' hw hrun
  have hmax : geminiMaxRequest = 8192 := rfl
  have hsent := (geminiClientRequest_sent dial hw url s).of_ok hrun rfl
  refine ⟨_, hsent, fun buf cuts => ?_⟩
  have hline : IsRequestLine (url.octets ++ crlf) url.octets :=
    .of_plain url.noNul hplain (by change url.length + 2 ≤ _; omega)
  obtain ⟨r, buf', ssl', hread, hr⟩ := readRequest_eq buf (url.octets ++ crlf) cuts
  rw [requestLine_eq_some.2 hline] at hr
  cases r with
  | none => cases hr
  | some line =>
    obtain rfl : line = url := CStr.ext (Option.some.inj hr)
    refine ⟨line, buf', ssl', hread, rfl, fun u hu malloc hmalloc => ?_⟩
    have hlen' : line.length < 2 ^ 32 - 1 := by omega
    obtain ⟨loc, hloc⟩ := location_of_geminiParseUrl hu
    obtain ⟨block, hblock⟩ := Option.isSome_iff_exists.1 hmalloc
    obtain ⟨u', hu', hdenotes'⟩ := geminiParseUrl_text hlen' hblock hloc
    exact ⟨u', hu', .of_denotes (denotes_of_geminiParseUrl hu hloc) hdenotes'⟩

/-- Client and server agree on an accepted URL exactly when no line end stands in it. -/
theorem agrees_iff (url : CStr) (hlen : url.length ≤ geminiMaxRequest - 3)
    (haccepted : ∃ malloc u, geminiParseUrl malloc url = .ok (some u)) :
    Agrees url ↔ ¬ crlf <:+: url.octets := by
  obtain ⟨malloc, u, hu⟩ := haccepted
  constructor
  · intro hagrees hcr
    exact not_agrees_of_crlf hu hcr hagrees
  · exact agrees_of_no_crlf url hlen

theorem agrees_home : Agrees homeUrl := by
  obtain ⟨u, hu, _⟩ : ∃ u, geminiParseUrl (fun len => some (blank len)) homeUrl = .ok (some u) ∧
    u.Denotes home := geminiParseUrl_text (by decide) rfl rfl
  exact (agrees_iff homeUrl (by decide) ⟨_, u, hu⟩).2 (by decide)

def twoLines : Location := .onDefaultPort isHostName_h [97, 13, 10, 98]

def twoLinesUrl : CStr := ⟨twoLines.text, by decide⟩

theorem not_agrees_twoLines : twoLinesUrl.length ≤ geminiMaxRequest - 3 ∧
    (∃ malloc u, geminiParseUrl malloc twoLinesUrl = .ok (some u)) ∧ ¬ Agrees twoLinesUrl := by
  obtain ⟨u, hu, _⟩ : ∃ u, geminiParseUrl (fun len => some (blank len)) twoLinesUrl =
    .ok (some u) ∧ u.Denotes twoLines := geminiParseUrl_text (by decide) rfl rfl
  refine ⟨by decide, ⟨_, u, hu⟩, not_agrees_of_crlf hu ?_⟩
  exact ⟨scheme ++ [104, slash, 97], [98], rfl⟩

end Geminon
