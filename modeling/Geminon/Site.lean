import Geminon.Answers
import Geminon.Normal
import Geminon.Replies

namespace Geminon
open Memory Descriptors Process LinkedList Channels Separated
set_option autoImplicit true

def resolvedTo (octets : List UInt8) : Option (List UInt8) :=
  match resolveTokens [] (tokens 0 (segments octets)) with
  | .ok r => r
  | .error _ => none

/-- The calls of `gemini_fs_open` all succeed, on a regular file. -/
def Calls.opens (calls : Calls) (root : CStr) (file : List UInt8) : Bool :=
  found calls.root root && calls.resolve && calls.openat && calls.fstat && calls.regular &&
    (resolvedTo file).any (· != [])

/-- The calls of a CGI handler up to `fork` all succeed. -/
def Calls.starts (calls : Calls) : Bool :=
  calls.resolve && calls.path.isSome && calls.argv && calls.envp && calls.pipe && calls.fork

def echoAnswer (loc : Location) : List (List UInt8) :=
  [lineOf 20 (.ofString "text/plain"), loc.path, crlf]

def fsAnswer (calls : Calls) (root : CStr) (file : List UInt8) : Option (List (List UInt8)) :=
  if calls.opens root file then
    some (lineOf 20 (.ofString "text/plain") :: streamed calls geminiStreamBlockSize)
  else none

def authnAnswer (verify : X509Store → X509 → Bool) (store : X509Store) :
    Option X509 → Option (List (List UInt8))
  | none => some [lineOf 60 (.ofString "Certificate Required")]
  | some cert => if verify store cert then none else some [lineOf 61 (.ofString "Unauthorized")]

def vhostsAnswer (urls : List (Sigma GeminiUrl)) (loc : Location) :
    Option (List (List UInt8)) :=
  if urls.any fun u => u.2.buf.strAt u.2.host = loc.host ∧ u.2.port.toNat = loc.port then none
  else some [lineOf 53 (.ofString "Not Found")]

def internalError : List UInt8 := lineOf 59 (.ofString "Internal Error")

def cgiAnswer (calls : Calls) (file : List UInt8) : List (List UInt8) :=
  if calls.starts ∧ (resolvedTo file).isSome then
    streamed calls 8192 ++ if calls.Cut then [internalError] else []
  else [internalError]

/-- The answer of a handler, in pieces; `none` leaves the answer to handlers behind it. -/
def answerOf (verify : X509Store → X509 → Bool) (loc : Location) (cert : Option X509)
    (calls : Calls) (pathPrefix : CStr) : Handler → Option (List (List UInt8))
  | .echo => some (echoAnswer loc)
  | .fs root => fsAnswer calls root (loc.path.drop pathPrefix.length)
  | .authn store => authnAnswer verify store cert
  | .vhosts urls => vhostsAnswer urls loc
  | .cgi _ => some (cgiAnswer calls (loc.path.drop pathPrefix.length))
  | .user _ =>
    if calls.rc = geminiHandlerDone then some []
    else if calls.rc = geminiHandlerAbort then some [internalError]
    else none

def answer (verify : X509Store → X509 → Bool) (loc : Location) (cert : Option X509) :
    List Entry → List Calls → List (List UInt8)
  | [], _ => [lineOf 51 (.ofString "Not Found")]
  | e :: entries, calls =>
    if e.1.octets <+: loc.path then
      match answerOf verify loc cert (calls.headD .failing) e.1 e.2 with
      | some pieces => pieces
      | none => answer verify loc cert entries calls.tail
    else answer verify loc cert entries calls

/-- What a handler is promised: parsed URLs, a root that fits, a path that resolves. -/
def Manages (loc : Location) (e : Entry) : Prop :=
  match e.2 with
  | .fs _ => e.1.octets <+: loc.path → Fits (loc.path.drop e.1.length)
  | .cgi root => RootFits root ∧ (e.1.octets <+: loc.path → Fits (loc.path.drop e.1.length))
  | .vhosts urls => AllParsed urls
  | _ => True

theorem manages_congr (h : loc.path = loc'.path) : Manages loc e ↔ Manages loc' e := by
  rw [Manages, Manages, h]

theorem resolvedTo_eq {file : CStr} (h : Fits file.octets) :
    ∃ r, geminiFsResolve true file = .ok r ∧ r.map CStr.octets = resolvedTo file.octets := by
  have heq := geminiFsResolve_eq file
  obtain ⟨r, hr, _⟩ := resolve_of_fits h
  rw [hr] at heq
  refine ⟨r, hr, ?_⟩
  rw [resolvedTo, ← heq]
  rfl

theorem resolves_eq {file : CStr} (h : Fits file.octets) (malloc : Bool) :
    ∃ r, geminiFsResolve malloc file = .ok r ∧
      r.map CStr.octets = if malloc then resolvedTo file.octets else none := by
  cases malloc with
  | false => exact ⟨none, rfl, rfl⟩
  | true => exact resolvedTo_eq h

theorem resolves_isSome {file : CStr} (h : Fits file.octets) (malloc : Bool) :
    ∃ r, geminiFsResolve malloc file = .ok r ∧
      (r.isSome ↔ malloc ∧ (resolvedTo file.octets).isSome) := by
  obtain ⟨r, hr, hoct⟩ := resolves_eq h malloc
  refine ⟨r, hr, ?_⟩
  rw [← Option.isSome_map, hoct]
  cases malloc <;> simp

theorem geminiFsPath_none {root file : CStr} (hroot : RootFits root)
    (hr : geminiFsResolve malloc file = .ok (some r)) :
    geminiFsPath malloc none root file = .ok none := by
  obtain ⟨hpos, hroom, _⟩ := hroot
  obtain ⟨_, _, hlen⟩ := geminiFsResolve_walk hr
  obtain ⟨l1, hl1⟩ := Int.eq_ofNat_of_zero_le hpos
  rw [hl1] at hroom
  have hmax : geminiMaxPath = 2048 := rfl
  have hl2 : intOfSize r.length = r.length := intOfSize_small (hlen.trans (by decide))
  have h1 : intAdd l1 1 = .ok ((l1 + 1 : Nat) : Int) := intAdd_nat (b := 1) (by omega)
  have h2 : intAdd ((l1 + 1 : Nat) : Int) r.length = .ok ((l1 + 1 + r.length : Nat) : Int) :=
    intAdd_nat (by omega)
  have h3 : intAdd ((l1 + 1 + r.length : Nat) : Int) 1 =
      .ok ((l1 + 1 + r.length + 1 : Nat) : Int) := intAdd_nat (b := 1) (by omega)
  simp only [geminiFsPath, hr, bind, Except.bind, hl1, hl2, h1, h2, h3]

theorem geminiFsPath_isSome {root file : CStr} (hroot : RootFits root)
    (hfits : Fits file.octets) (malloc : Bool) (malloc' : Malloc) :
    ∃ prog, geminiFsPath malloc malloc' root file = .ok prog ∧
      (prog.isSome ↔ malloc ∧ malloc'.isSome ∧ (resolvedTo file.octets).isSome) := by
  obtain ⟨r, hr, hsome⟩ := resolves_isSome hfits malloc
  cases r with
  | none =>
    refine ⟨none, by simp only [geminiFsPath, hr, bind, Except.bind], ?_⟩
    refine iff_of_false Bool.false_ne_true fun hall => ?_
    exact Bool.false_ne_true (hsome.2 ⟨hall.1, hall.2.2⟩)
  | some r =>
    obtain ⟨hmalloc, hresolved⟩ := hsome.1 rfl
    cases malloc' with
    | none => exact ⟨none, geminiFsPath_none hroot hr, by simp⟩
    | some mem =>
      rw [hmalloc] at hr ⊢
      obtain ⟨_, _, hpath⟩ := contained_of_rootFits hroot file r hr
      have hmap := hpath mem
      cases hprog : geminiFsPath true (some mem) root file with
      | error fault =>
        rw [hprog] at hmap
        cases hmap
      | ok prog =>
        rw [hprog] at hmap
        cases prog with
        | none => cases hmap
        | some prog => exact ⟨some prog, rfl, iff_of_true rfl ⟨rfl, rfl, hresolved⟩⟩

/-- A handler passed the request on, or answered, or left the answer to the core to complete. -/
def Concluded (i : Nat) (reply : Option (List (List UInt8))) (w : World) (rc : Int) (w' : World) :
    Prop :=
  match reply with
  | none => ¬ Answers rc ∧ Offers i [] w w' ∧ Rests w w'
  | some pieces =>
    rc = geminiHandlerDone ∧ Offers i pieces w w' ∨
      rc = geminiHandlerAbort ∧ Rests w w' ∧ (w.Steady → w'.Steady) ∧
        ∀ w'', Offers i [internalError] w' w'' → Offers i pieces w w''

structure AtHand (i : Nat) (loc : Location) (cert : Option X509) (w : World) : Prop where
  ssl : w.req.ssl = some ⟨i, false⟩
  asks : Asks w loc
  cert_eq : w.req.cert = cert
  steady : w.Steady

theorem AtHand.rests (h : AtHand i loc cert w) (ho : Offers i pieces w w') (hr : Rests w w') :
    AtHand i loc cert w' where
  ssl := by rw [hr.req, h.ssl]
  asks := by
    obtain ⟨len, url, hurl, hdenotes⟩ := h.asks
    exact ⟨len, url, by rw [hr.req, hurl], hdenotes⟩
  cert_eq := by rw [hr.req, h.cert_eq]
  steady := ho.steady h.steady

section Handlers
variable {i : Nat} {loc : Location} {cert : Option X509} {w : World} {pathPrefix : CStr}
  {verify : X509Store → X509 → Bool}

theorem respondAndClose_offers (hssl : w.req.ssl = some ⟨i, false⟩) (hs : w.Steady) {status : Nat}
    (hlow : 10 ≤ status) (hhigh : status ≤ 99) (text : CStr) (a : α) :
    Outcome (do
      let _ ← geminiRequestRespond status text
      geminiRequestClose
      pure a) w (fun r w' => r = a ∧ Offers i [lineOf status text] w w') fun _ _ => False := by
  apply Outcome.andThen (geminiRequestRespond_offers hssl hs hlow hhigh text)
  intro _ w₁ hw₁
  apply Outcome.andThen (geminiRequestClose_offers i w₁)
  intro _ w' hw'
  exact .pure ⟨rfl, hw₁.1.trans hw'.1⟩

theorem respond_concluded (h : AtHand i loc cert w) {status : Nat} (hlow : 10 ≤ status)
    (hhigh : status ≤ 99) (text : CStr) :
    Outcome (do
      let _ ← geminiRequestRespond status text
      geminiRequestClose
      pure geminiHandlerDone) w (Concluded i (some [lineOf status text]) w) fun _ _ => False :=
  (respondAndClose_offers h.ssl h.steady hlow hhigh text _).imp fun _ _ hw' => .inl hw'

theorem inOne_of_ne (h : octets ≠ []) : inOne octets = [octets] := if_neg h

theorem echoHandler_concluded (h : AtHand i loc cert w) :
    Outcome echoHandler w (Concluded i (some (echoAnswer loc)) w) fun _ _ => False := by
  unfold echoHandler
  apply Outcome.andThen (geminiRequestRespond_offers h.ssl h.steady (show 10 ≤ 20 by decide)
    (by decide) _)
  intro _ w₁ hw₁
  obtain ⟨hoffers₁, hrests₁⟩ := hw₁
  have h₁ := h.rests hoffers₁ hrests₁
  apply Outcome.andThen (requestPath_eq h₁.asks (Nat.zero_le _))
  intro path w₂ hw₂
  obtain ⟨rfl, hpath⟩ := hw₂
  rw [List.drop_zero] at hpath
  have hne : path.octets ≠ [] := by
    rw [hpath]
    intro hnil
    have hrooted := loc.rooted
    rw [hnil] at hrooted
    cases hrooted
  apply Outcome.andThen (geminiRequestWrite_offers h₁.ssl h₁.steady (Nat.le_refl path.length))
  intro _ w₃ hw₃
  obtain ⟨hoffers₃, hrests₃, _⟩ := hw₃
  have htake : path.octets.take path.length = path.octets := List.take_length
  rw [htake, inOne_of_ne hne, hpath] at hoffers₃
  have h₃ := h₁.rests hoffers₃ hrests₃
  apply Outcome.andThen (geminiRequestWrite_offers h₃.ssl h₃.steady
    (show 2 ≤ crlf.length by decide))
  intro _ w₄ hw₄
  apply Outcome.andThen (geminiRequestClose_offers i w₄)
  intro _ w' hw'
  exact .pure (.inl ⟨rfl, ((hoffers₁.trans hoffers₃).trans hw₄.1).trans hw'.1⟩)

theorem geminiFsOpen_offers (i : Nat) (w : World) (calls : Calls) (root : CStr) {file : CStr}
    (hfits : Fits file.octets) :
    Outcome (geminiFsOpen calls root file) w (fun r w' => Offers i [] w w' ∧ Rests w w' ∧
      (r.isSome ↔ calls.opens root file.octets)) fun _ _ => False := by
  unfold geminiFsOpen
  cases hroot : found calls.root root with
  | false => exact .pure ⟨.refl i w, .refl w, by simp [Calls.opens, hroot]⟩
  | true =>
    apply Outcome.andThen (openFd_offers i w _)
    intro _ w₁ hw₁
    obtain ⟨hoffers₁, hrests₁⟩ := hw₁
    obtain ⟨r, hr, hoct⟩ := resolves_eq hfits calls.resolve
    rw [hr]
    apply Outcome.bind (.pure _)
    cases r with
    | none =>
      refine .pure ⟨hoffers₁, hrests₁, iff_of_false Bool.false_ne_true fun hopens => ?_⟩
      simp only [Calls.opens, Bool.and_eq_true] at hopens
      obtain ⟨⟨⟨⟨⟨-, hresolve⟩, -⟩, -⟩, -⟩, hnamed⟩ := hopens
      rw [hresolve, if_pos rfl] at hoct
      rw [← hoct] at hnamed
      cases hnamed
    | some path =>
      have hresolve : calls.resolve = true := by
        cases hmalloc : calls.resolve with
        | false =>
          rw [hmalloc] at hr
          cases hr
        | true => rfl
      rw [hresolve, if_pos rfl, Option.map_some] at hoct
      have hopens : calls.opens root file.octets = (found calls.openat path && calls.fstat &&
          calls.regular) := by
        rw [Calls.opens, hroot, hresolve, ← hoct, Option.any_some, found, Bool.true_and,
          Bool.true_and]
        ac_rfl
      have hclosed (w₂ : World) (hoffers : Offers i [] w w₂) (hrests : Rests w w₂) (fd : Nat)
          (hfails : calls.opens root file.octets = false) :
          Outcome (do closeFd fd; pure none) w₂ (fun r w' => Offers i [] w w' ∧ Rests w w' ∧
            ((r : Option Nat).isSome ↔ calls.opens root file.octets)) fun _ _ => False := by
        apply Outcome.andThen (closeFd_offers i w₂ fd)
        intro _ w' hw'
        exact .pure ⟨hoffers.trans hw'.1, hrests.trans hw'.2, by simp [hfails]⟩
      dsimp only
      cases hopenat : found calls.openat path with
      | false => exact .pure ⟨hoffers₁, hrests₁, by simp [hopens, hopenat]⟩
      | true =>
        apply Outcome.andThen (openFd_offers i w₁ _)
        intro fd w₂ hw₂
        have hoffers := hoffers₁.trans hw₂.1
        have hrests := hrests₁.trans hw₂.2
        cases hfstat : calls.fstat with
        | false => exact hclosed w₂ hoffers hrests fd (by simp [hopens, hfstat])
        | true =>
          cases hregular : calls.regular with
          | false => exact hclosed w₂ hoffers hrests fd (by simp [hopens, hregular])
          | true =>
            exact .pure ⟨hoffers, hrests, by simp [hopens, hopenat, hfstat, hregular]⟩

theorem sHandlerFs_concluded (h : AtHand i loc cert w) (calls : Calls)
    (hk : pathPrefix.length ≤ loc.path.length)
    (hfits : Fits (loc.path.drop pathPrefix.length)) (root : CStr) :
    Outcome (sHandlerFs calls pathPrefix root) w
      (Concluded i (fsAnswer calls root (loc.path.drop pathPrefix.length)) w) fun _ _ => False := by
  unfold sHandlerFs
  apply Outcome.andThen (requestPath_eq h.asks hk)
  intro file w₁ hw₁
  obtain ⟨rfl, hfile⟩ := hw₁
  rw [← hfile] at hfits ⊢
  apply Outcome.andThen (geminiFsOpen_offers i w₁ calls root hfits)
  intro r w₂ hw₂
  obtain ⟨hoffers₂, hrests₂, hsome⟩ := hw₂
  cases r with
  | none =>
    rw [fsAnswer, if_neg fun hopened => Bool.false_ne_true (hsome.2 hopened)]
    exact .pure ⟨by decide, hoffers₂, hrests₂⟩
  | some resfd =>
    rw [fsAnswer, if_pos (hsome.1 rfl)]
    have h₂ := h.rests hoffers₂ hrests₂
    apply Outcome.andThen (geminiRequestRespond_offers h₂.ssl h₂.steady
      (show 10 ≤ 20 by decide) (by decide) _)
    intro _ w₃ hw₃
    have h₃ := h₂.rests hw₃.1 hw₃.2
    apply Outcome.andThen (geminiRequestStream_offers calls (by decide) h₃.ssl h₃.steady)
    intro _ w₄ hw₄
    apply Outcome.andThen (closeFd_offers i w₄ resfd)
    intro _ w₅ hw₅
    apply Outcome.andThen (geminiRequestClose_offers i w₅)
    intro _ w' hw'
    have hall := (((hoffers₂.trans hw₃.1).trans hw₄.1).trans hw₅.1).trans hw'.1
    simp only [List.nil_append, List.append_nil, List.singleton_append] at hall
    exact .pure (.inl ⟨rfl, hall⟩)

theorem sHandlerAuthn_concluded (h : AtHand i loc cert w) (store : X509Store) :
    Outcome (sHandlerAuthn verify store) w (Concluded i (authnAnswer verify store cert) w)
      fun _ _ => False := by
  unfold sHandlerAuthn
  apply Outcome.bind (.get _)
  rw [h.cert_eq]
  cases cert with
  | none => exact respond_concluded h (show 10 ≤ 60 by decide) (by decide) _
  | some cert =>
    simp only [authnAnswer]
    split
    · exact .pure ⟨by decide, .refl i w, .refl w⟩
    · exact respond_concluded h (show 10 ≤ 61 by decide) (by decide) _

theorem serves_iff {urls : List (Sigma GeminiUrl)} (hurls : AllParsed urls) :
    Serves urls loc ↔ urls.any fun u =>
      u.2.buf.strAt u.2.host = loc.host ∧ u.2.port.toNat = loc.port := by
  simp only [Serves, List.any_eq_true, decide_eq_true_eq]
  constructor
  · intro hserves
    obtain ⟨u, hu, l, hl, hhost, hport⟩ := hserves
    exact ⟨u, hu, by rw [hl.host.strAt_eq, hhost], by rw [hl.port, hport]⟩
  · intro hany
    obtain ⟨u, hu, hhost, hport⟩ := hany
    obtain ⟨l, hl⟩ := hurls u hu
    rw [hl.host.strAt_eq] at hhost
    rw [hl.port] at hport
    exact ⟨u, hu, l, hl, hhost, hport⟩

theorem sHandlerVhosts_concluded (h : AtHand i loc cert w) {urls : List (Sigma GeminiUrl)}
    (hurls : AllParsed urls) :
    Outcome (sHandlerVhosts urls) w (Concluded i (vhostsAnswer urls loc) w)
      fun _ _ => False := by
  unfold sHandlerVhosts
  apply Outcome.andThen (vhostsLoop_eq h.asks hurls)
  intro r w₁ hw₁
  obtain ⟨rfl, hr⟩ := hw₁
  rw [serves_iff hurls] at hr
  unfold vhostsAnswer
  cases r with
  | true =>
    rw [if_pos (hr.1 rfl)]
    exact .pure ⟨by decide, .refl i w₁, .refl w₁⟩
  | false =>
    rw [if_neg fun hany => Bool.false_ne_true (hr.2 hany)]
    exact respond_concluded h (show 10 ≤ 53 by decide) (by decide) _

theorem Concluded.before (h : Concluded i (some pieces) w₁ rc w') (ho : Offers i [] w w₁)
    (hr : Rests w w₁) : Concluded i (some pieces) w rc w' := by
  cases h with
  | inl hdone => exact .inl ⟨hdone.1, ho.trans hdone.2⟩
  | inr habort =>
    obtain ⟨hrc, hrests, hsteady, hlast⟩ := habort
    refine .inr ⟨hrc, hr.trans hrests, fun hs => hsteady (ho.steady hs), fun w'' hw'' => ?_⟩
    exact ho.trans (hlast w'' hw'')

theorem aborted (hoffers : Offers i pieces w w') (hrests : Rests w w') :
    Concluded i (some (pieces ++ [internalError])) w geminiHandlerAbort w' :=
  .inr ⟨rfl, hrests, hoffers.steady, fun _ hlast => hoffers.trans hlast⟩

theorem aborted_full (hoffers : Offers i pieces w w') (hrests : Rests w w')
    (hfull : w'.writes = []) : Concluded i (some pieces) w geminiHandlerAbort w' := by
  refine .inr ⟨rfl, hrests, hoffers.steady, fun w'' hlast => ?_⟩
  have hroom : (w'.channel i).room = 0 := by
    rw [World.channel, hfull]
    rfl
  have hlast' : Offers i [] w' w'' := by
    refine ⟨?_, hlast.others, hlast.steady, hlast.accepted⟩
    rw [hlast.channel, Channel.offer_full hroom, Channel.offer_nil]
  have hall := hoffers.trans hlast'
  rwa [List.append_nil] at hall

theorem cgiStream_concluded (h : AtHand i loc cert w) (calls : Calls) :
    Outcome (do
      let rc ← geminiRequestStream calls.block calls.reads 8192
      if rc ≠ 0 then pure geminiHandlerAbort
      else
        geminiRequestClose
        pure geminiHandlerDone) w
      (Concluded i (some (streamed calls 8192 ++ if calls.Cut then [internalError] else [])) w)
      fun _ _ => False := by
  apply Outcome.andThen (geminiRequestStream_offers calls (by decide) h.ssl h.steady)
  intro rc w₁ hw₁
  obtain ⟨hoffers, hrests, hends⟩ := hw₁
  cases hends with
  | inl hwell =>
    obtain ⟨rfl, hcut⟩ := hwell
    rw [if_neg hcut, List.append_nil]
    apply Outcome.andThen (geminiRequestClose_offers i w₁)
    intro _ w' hw'
    have hclosed := hoffers.trans hw'.1
    rw [List.append_nil] at hclosed
    exact .pure (.inl ⟨rfl, hclosed⟩)
  | inr hbroken =>
    obtain ⟨hrc, hwhy⟩ := hbroken
    rw [if_pos hrc]
    apply Outcome.pure
    by_cases hcut : calls.Cut
    · rw [if_pos hcut]
      exact aborted hoffers hrests
    · rw [if_neg hcut, List.append_nil]
      exact aborted_full hoffers hrests (hwhy.resolve_left hcut)

theorem cgiHandler_concluded (h : AtHand i loc cert w) (calls : Calls)
    (hk : pathPrefix.length ≤ loc.path.length)
    (hfits : Fits (loc.path.drop pathPrefix.length)) {root : CStr} (hroot : RootFits root) :
    Outcome (cgiHandler calls pathPrefix root) w
      (Concluded i (some (cgiAnswer calls (loc.path.drop pathPrefix.length))) w)
      fun _ _ => False := by
  unfold cgiHandler
  apply Outcome.andThen (requestPath_eq h.asks hk)
  intro file w₁ hw₁
  obtain ⟨rfl, hfile⟩ := hw₁
  rw [← hfile] at hfits ⊢
  obtain ⟨prog, hprog, hsome⟩ := geminiFsPath_isSome hroot hfits calls.resolve calls.path
  rw [hprog]
  apply Outcome.bind (.pure _)
  have habort {w₂ : World} (hoffers : Offers i [] w₁ w₂) (hrests : Rests w₁ w₂)
      (hfails : ¬ (calls.starts ∧ (resolvedTo file.octets).isSome)) :
      Outcome (pure geminiHandlerAbort) w₂ (Concluded i (some (cgiAnswer calls file.octets)) w₁)
        fun _ _ => False := by
    rw [cgiAnswer, if_neg hfails]
    exact .pure (aborted hoffers hrests)
  have hself := habort (.refl i w₁) (.refl w₁)
  cases prog with
  | none =>
    apply hself
    intro hall
    apply Bool.false_ne_true (hsome.2 ⟨?_, ?_, hall.2⟩)
    · simp only [Calls.starts, Bool.and_eq_true] at hall
      exact hall.1.1.1.1.1.1
    · simp only [Calls.starts, Bool.and_eq_true] at hall
      exact hall.1.1.1.1.1.2
  | some prog =>
    obtain ⟨hresolve, hpath, hresolved⟩ := hsome.1 rfl
    cases hargv : calls.argv with
    | false => exact hself (by simp [Calls.starts, hargv])
    | true =>
      cases henvp : calls.envp with
      | false => exact hself (by simp [Calls.starts, henvp])
      | true =>
        cases hpipe : calls.pipe with
        | false => exact hself (by simp [Calls.starts, hpipe])
        | true =>
          apply Outcome.andThen (openFd_offers i w₁ _)
          intro _ w₂ hw₂
          apply Outcome.andThen (openFd_offers i w₂ _)
          intro wr w₃ hw₃
          have hoffers₃ := hw₂.1.trans hw₃.1
          have hrests₃ := hw₂.2.trans hw₃.2
          cases hfork : calls.fork with
          | false => exact habort hoffers₃ hrests₃ (by simp [Calls.starts, hfork])
          | true =>
            have hstarts : calls.starts := by
              simp [Calls.starts, hresolve, hpath, hargv, henvp, hpipe, hfork]
            have hanswer : cgiAnswer calls file.octets =
                streamed calls 8192 ++ if calls.Cut then [internalError] else [] :=
              if_pos ⟨hstarts, hresolved⟩
            rw [hanswer]
            apply Outcome.andThen (emit_offers i w₃ fun _ => rfl)
            intro _ w₄ hw₄
            apply Outcome.andThen (closeFd_offers i w₄ wr)
            intro _ w₅ hw₅
            have hoffers₅ := (hoffers₃.trans hw₄.1).trans hw₅.1
            have hrests₅ := (hrests₃.trans hw₄.2).trans hw₅.2
            apply (cgiStream_concluded (h.rests hoffers₅ hrests₅) calls).imp
            intro rc w' hw'
            exact hw'.before hoffers₅ hrests₅

theorem runHandler_concluded (h : AtHand i loc cert w) {e : Entry} (hpre : e.1.octets <+: loc.path)
    (hmanages : Manages loc e) (calls : Calls) :
    Outcome (runHandler verify calls e.1 e.2) w
      (Concluded i (answerOf verify loc cert calls e.1 e.2) w) fun _ _ => False := by
  obtain ⟨pathPrefix, handler⟩ := e
  have hk : pathPrefix.length ≤ loc.path.length := hpre.length_le
  cases handler with
  | echo => exact echoHandler_concluded h
  | cgi root => exact cgiHandler_concluded h calls hk (hmanages.2 hpre) hmanages.1
  | fs root => exact sHandlerFs_concluded h calls hk (hmanages hpre) root
  | authn store => exact sHandlerAuthn_concluded h store
  | vhosts urls => exact sHandlerVhosts_concluded h hmanages
  | user fn =>
    apply Outcome.pure
    unfold answerOf
    by_cases hdone : calls.rc = geminiHandlerDone
    · rw [if_pos hdone]
      exact .inl ⟨hdone, .refl i w⟩
    · by_cases habort : calls.rc = geminiHandlerAbort
      · rw [if_neg hdone, if_pos habort, habort]
        exact aborted (.refl i w) (.refl w)
      · rw [if_neg hdone, if_neg habort]
        exact ⟨fun hanswers => hanswers.elim hdone habort, .refl i w, .refl w⟩

theorem serveCore_offers (hssl : w.req.ssl = some ⟨i, false⟩) (hs : w.Steady) {status : Nat}
    (hlow : 10 ≤ status) (hhigh : status ≤ 99) (text : CStr) :
    Outcome (do
      (serveCore verify).respond status text
      (serveCore verify).close) w (fun _ w' => Offers i [lineOf status text] w w')
      fun _ _ => False := by
  change Outcome (do
    let _ ← (do let _ ← geminiRequestRespond status text)
    geminiRequestClose) w _ _
  refine .bind (.andThen (geminiRequestRespond_offers hssl hs hlow hhigh text) ?_)
  intro _ w₁ hw₁
  apply Outcome.pure
  apply (geminiRequestClose_offers i w₁).imp
  intro _ w' hw'
  exact hw₁.1.trans hw'.1

theorem Concluded.dispatchRc (hc : Concluded i reply w rc w₁)
    (hssl : w.req.ssl = some ⟨i, false⟩) (hs : w.Steady) :
    Outcome (dispatchRc (serveCore verify) rc) w₁ (fun r w' => match r with
      | some handled => handled = true ∧ ∃ pieces, reply = some pieces ∧ Offers i pieces w w'
      | none => reply = none ∧ Offers i [] w w' ∧ Rests w w') fun _ _ => False := by
  cases reply with
  | none =>
    obtain ⟨hrc, hoffers, hrests⟩ := hc
    have hdone : rc ≠ geminiHandlerDone := fun he => hrc (.inl he)
    have habort : rc ≠ geminiHandlerAbort := fun he => hrc (.inr he)
    unfold Geminon.dispatchRc
    rw [if_neg hdone, if_neg habort, ite_self]
    exact .pure ⟨rfl, hoffers, hrests⟩
  | some pieces =>
    cases hc with
    | inl hdone =>
      obtain ⟨rfl, hoffers⟩ := hdone
      exact .pure ⟨rfl, pieces, rfl, hoffers⟩
    | inr habort =>
      obtain ⟨rfl, hrests, hsteady, hlast⟩ := habort
      have hssl₁ : w₁.req.ssl = some ⟨i, false⟩ := by rw [hrests.req, hssl]
      change Outcome (do
        (serveCore verify).respond 59 (.ofString "Internal Error")
        (serveCore verify).close
        pure (some true)) w₁ _ _
      rw [← bind_assoc]
      apply Outcome.andThen (serveCore_offers hssl₁ (hsteady hs) (show 10 ≤ 59 by decide)
        (by decide) _)
      intro _ w' hw'
      exact .pure ⟨rfl, pieces, rfl, hlast w' hw'⟩

/-- A dispatch sends the answer of the handlers it goes over. -/
theorem dispatchOver_offers {nodes : List (Nat × GeminiHandler)} (h : AtHand i loc cert w)
    (hmanages : ∀ n ∈ nodes, Manages loc n.2.entry) :
    Outcome (dispatchOver (serveCore verify) nodes) w (fun _ w' =>
      Offers i (answer verify loc cert (nodes.map fun n => n.2.entry) w.calls) w w')
      fun _ _ => False := by
  induction nodes generalizing w with
  | nil =>
    exact .bind (.pure (serveCore_offers h.ssl h.steady (show 10 ≤ 51 by decide) (by decide) _))
  | cons n nodes ih =>
    obtain ⟨addr, handler⟩ := n
    have hrest := fun n hn => hmanages n (List.mem_cons_of_mem _ hn)
    apply dispatchOver_cons
    rw [List.map_cons, answer]
    by_cases hpre : handler.entry.1.octets <+: loc.path
    · rw [if_pos hpre]
      have hinvoked : Offers i [] w (w.invoking addr handler.entry) :=
        .told i _ rfl (fun _ => rfl) rfl rfl
      have h₁ : AtHand i loc cert (w.invoking addr handler.entry) :=
        ⟨h.ssl, h.asks, h.cert_eq, hinvoked.steady h.steady⟩
      apply serveCore_matched h.asks addr hpre
      apply (runHandler_concluded h₁ hpre (hmanages _ List.mem_cons_self) _).imp
      intro rc w₂ hw₂
      apply (hw₂.dispatchRc h₁.ssl h₁.steady).imp
      intro r w' hw'
      cases r with
      | some handled =>
        obtain ⟨rfl, pieces, hreply, hoffers⟩ := hw'
        rw [hreply]
        exact ⟨rfl, hinvoked.trans hoffers⟩
      | none =>
        obtain ⟨hreply, hoffers, hrests⟩ := hw'
        rw [hreply]
        have hcalls : w'.calls = w.calls.tail := hrests.calls
        apply (ih (h₁.rests hoffers hrests) hrest).imp
        intro _ w'' hw''
        rw [hcalls] at hw''
        exact (hinvoked.trans hoffers).trans hw''
    · rw [if_neg hpre]
      apply (serveCore_passed h.asks addr hpre).imp
      intro r w' hw'
      obtain ⟨rfl, rfl⟩ := hw'
      exact ih h hrest

theorem dispatch_offers (hs : Holds s entries) (h : AtHand i loc cert w)
    (hmanages : ∀ e ∈ entries, Manages loc e.2) :
    Outcome (dispatch (serveCore verify) s) w (fun _ w' =>
      Offers i (answer verify loc cert (entries.map Prod.snd) w.calls) w w')
      fun _ _ => False := by
  obtain ⟨nodes, hnodes, heq⟩ := hs.dispatch_eq (serveCore verify)
  rw [heq]
  have hentries : entries.map Prod.snd = nodes.map fun n => n.2.entry := by
    rw [← hnodes, List.map_map]
    rfl
  rw [hentries]
  apply dispatchOver_offers h
  intro n hn
  have hmem : (n.1, n.2.entry) ∈ entries := by
    rw [← hnodes]
    exact List.mem_map.2 ⟨n, hn, rfl⟩
  exact hmanages _ hmem

end Handlers

/-- What a connection is due, as the pieces that are sent on it. -/
inductive Due (verify : X509Store → X509 → Bool) (entries : List Entry) (conn : Conn) :
    List (List UInt8) → Prop where
  | rejected : conn.Rejected → Due verify entries conn []
  | bad (line : CStr) : conn.handshake = true → IsRequestLine conn.stream line.octets →
      conn.url (urlLen line) = none ∨ (∀ loc : Location, line.octets ≠ loc.text) →
      Due verify entries conn [lineOf 50 (.ofString "Bad URL")]
  | asked (line : CStr) (loc : Location) : conn.Requests loc → line.octets = loc.text →
      (conn.url (urlLen line)).isSome →
      Due verify entries conn (answer verify loc conn.cert entries conn.calls)

theorem answer_congr {loc loc' : Location} (hhost : loc.host = loc'.host)
    (hport : loc.port = loc'.port) (hpath : loc.path = loc'.path)
    (verify : X509Store → X509 → Bool) (cert : Option X509) (entries : List Entry)
    (calls : List Calls) :
    answer verify loc cert entries calls = answer verify loc' cert entries calls := by
  have hof (calls : Calls) (pathPrefix : CStr) (handler : Handler) :
      answerOf verify loc cert calls pathPrefix handler =
        answerOf verify loc' cert calls pathPrefix handler := by
    cases handler with
    | echo => simp only [answerOf, echoAnswer, hpath]
    | cgi root => simp only [answerOf, hpath]
    | fs root => simp only [answerOf, hpath]
    | authn store => rfl
    | vhosts urls => simp only [answerOf, vhostsAnswer, hhost, hport]
    | user fn => rfl
  induction entries generalizing calls with
  | nil => rfl
  | cons e entries ih => simp only [answer, hof, ih, hpath]

theorem Due.unique (h : Due verify entries conn pieces) (h' : Due verify entries conn pieces') :
    pieces = pieces' := by
  have hline {line line' : CStr} (hl : IsRequestLine conn.stream line.octets)
      (hl' : IsRequestLine conn.stream line'.octets) : line = line' :=
    CStr.ext (Option.some.inj ((requestLine_eq_some.2 hl).symm.trans (requestLine_eq_some.2 hl')))
  have hfresh {line : CStr} (hshake : conn.handshake = true)
      (hl : IsRequestLine conn.stream line.octets) (hrej : conn.Rejected) : False := by
    obtain hno | hno := hrej
    · rw [hshake] at hno
      cases hno
    · exact hno _ hl
  have hmixed {line line' : CStr} {loc : Location}
      (hl : IsRequestLine conn.stream line.octets) (hl' : IsRequestLine conn.stream loc.text)
      (hloc : line'.octets = loc.text) (hmem : (conn.url (urlLen line')).isSome)
      (hbad : conn.url (urlLen line) = none ∨ ∀ loc : Location, line.octets ≠ loc.text) :
      False := by
    obtain rfl := hline hl (hloc.symm ▸ hl')
    cases hbad with
    | inl hnone =>
      rw [hnone] at hmem
      cases hmem
    | inr hno => exact hno loc hloc
  cases h with
  | rejected hrej =>
    cases h' with
    | rejected _ => rfl
    | bad line hshake hl _ => exact (hfresh hshake hl hrej).elim
    | asked line loc hreq _ _ => exact (hreq.not_rejected hrej).elim
  | bad line hshake hl hbad =>
    cases h' with
    | rejected hrej => exact (hfresh hshake hl hrej).elim
    | bad _ _ _ _ => rfl
    | asked line' loc hreq hloc hmem => exact (hmixed hl hreq.2 hloc hmem hbad).elim
  | asked line loc hreq hloc hmem =>
    cases h' with
    | rejected hrej => exact (hreq.not_rejected hrej).elim
    | bad line' hshake hl hbad => exact (hmixed hl hreq.2 hloc hmem hbad).elim
    | asked line' loc' hreq' hloc' _ =>
      have htext : loc.text = loc'.text :=
        Option.some.inj ((requestLine_eq_some.2 hreq.2).symm.trans (requestLine_eq_some.2 hreq'.2))
      obtain ⟨hhost, hport, hpath⟩ := Location.eq_of_text htext hreq.2.noNul
      exact answer_congr hhost hport hpath _ _ _ _

section Serving
variable {verify : X509Store → X509 → Bool}

/-- What a turn of the loop has sent: what its connection is due, as far as it was carried. -/
structure Dealt (verify : X509Store → X509 → Bool) (entries : List Entry) (conn : Conn)
    (w w' : World) : Prop where
  accepted : w'.accepted = w.accepted + 1
  others : ∀ j, j ≠ w.accepted → sentTo j w'.log = sentTo j w.log
  due : ∃ pieces, Due verify entries conn pieces ∧ w'.channel w.accepted =
    (Channel.mk (sentTo w.accepted w.log) conn.writes.length).offer pieces

structure Ready (conn : Conn) (w w' : World) : Prop extends Accepted w w' where
  writes : w'.writes = conn.writes
  calls : w'.calls = conn.calls

theorem Ready.dealt (h : Ready conn w w₁) (ho : Offers w.accepted pieces w₁ w')
    (hdue : Due verify entries conn pieces) : Dealt verify entries conn w w' where
  accepted := ho.accepted.trans h.accepted
  others j hj := by
    rw [ho.others j hj, h.log, sentTo_append]
    exact List.append_nil _
  due := by
    refine ⟨pieces, hdue, ?_⟩
    rw [ho.channel, World.channel, h.log, sentTo_append, h.writes]
    exact congrArg (fun l => (Channel.mk l _).offer pieces) (List.append_nil _)

theorem serveLine_dealt (hs : Holds s entries) (h : Ready conn w w₁)
    (hsteady : ∀ k ∈ conn.writes, k.isSome) (hcert : w₁.req.cert = conn.cert)
    (hshake : conn.handshake = true) {line : CStr}
    (hl : IsRequestLine conn.stream line.octets)
    (hmanages : ∀ loc, conn.Requests loc → ∀ e ∈ entries, Manages loc e.2) :
    Outcome (serveLine verify s conn line) w₁
      (fun _ w' => Dealt verify (entries.map Prod.snd) conn w w') fun _ _ => False := by
  have hlen := hl.countable
  have hwrites : w₁.Steady := by rwa [World.Steady, h.writes]
  unfold serveLine
  refine .bind (.checked (fun url hurl => ?_)
    fun fault he => absurd he (geminiParseUrl_safe _ _ hlen fault))
  apply Outcome.bind (.modify _)
  have hself (u : Option (Sigma GeminiUrl)) :
      Offers w.accepted [] w₁ { w₁ with req := { w₁.req with url := u } } :=
    .told _ [] (List.append_nil _).symm (fun _ => rfl) rfl rfl
  cases url with
  | none =>
    have hssl : ({ w₁ with req := { w₁.req with url := none } } : World).req.ssl =
        some ⟨w.accepted, false⟩ := h.ssl
    apply (respondAndClose_offers hssl ((hself none).steady hwrites) (show 10 ≤ 50 by decide)
      (by decide) (.ofString "Bad URL") false).imp
    intro _ w' hw'
    refine h.dealt ((hself none).trans hw'.2) (.bad line hshake hl ?_)
    cases hmem : conn.url (urlLen line) with
    | none => exact .inl rfl
    | some block =>
      refine .inr fun loc hloc => ?_
      obtain ⟨url, hparsed, _⟩ := geminiParseUrl_text hlen hmem hloc
      rw [hurl] at hparsed
      cases hparsed
  | some url =>
    obtain ⟨loc, hline⟩ := location_of_geminiParseUrl hurl
    have hreq : conn.Requests loc := ⟨hshake, hline ▸ hl⟩
    obtain ⟨block, hmem, _⟩ := geminiParseUrl_eq_some.1 hurl
    have hasked : AtHand w.accepted loc conn.cert
        { w₁ with req := { w₁.req with url := some ⟨_, url⟩ } } :=
      ⟨h.ssl, ⟨_, url, rfl, denotes_of_geminiParseUrl hurl hline⟩, hcert, hwrites⟩
    apply Outcome.andThen (dispatch_offers hs hasked (hmanages loc hreq))
    intro _ w' hw'
    refine .pure (h.dealt ((hself _).trans hw') ?_)
    change Due verify _ conn (answer verify loc conn.cert _ w₁.calls)
    rw [h.calls]
    exact .asked line loc hreq hline (by rw [hmem]; rfl)

theorem serveAccepted_dealt (hs : Holds s entries) (h : Ready conn w w₁)
    (hin : w₁.incoming = ⟨conn.stream, conn.cuts⟩) (hsteady : ∀ k ∈ conn.writes, k.isSome)
    (hmanages : ∀ loc, conn.Requests loc → ∀ e ∈ entries, Manages loc e.2) :
    Outcome (serveAccepted verify s conn) w₁
      (fun _ w' => Dealt verify (entries.map Prod.snd) conn w w') fun _ _ => False := by
  unfold serveAccepted
  cases hshake : conn.handshake with
  | false =>
    refine .bind (.get (.andThen (closeFd_offers w.accepted w₁ _) fun _ w' hw' => ?_))
    exact .pure (h.dealt hw'.1 (.rejected (.inl hshake)))
  | true =>
    refine .bind (.modify (.bind (.get ?_)))
    obtain ⟨r, buf, incoming, hread, hline⟩ := readRequest_eq w₁.buf conn.stream conn.cuts
    simp only [hin, hread]
    apply Outcome.bind (.pure (.bind (.modify _)))
    have h₂ : Ready conn w { w₁ with
        req := { w₁.req with cert := conn.cert }, buf := buf, incoming := incoming } :=
      ⟨⟨h.fds, h.accepted, h.fd, h.ssl, h.log⟩, h.writes, h.calls⟩
    cases r with
    | none =>
      have hrej : conn.Rejected := by
        refine .inr fun line hl => ?_
        rw [← requestLine_eq_some, ← hline] at hl
        cases hl
      apply Outcome.andThen (geminiRequestClose_offers w.accepted _)
      intro _ w' hw'
      exact .pure (h₂.dealt hw'.1 (.rejected hrej))
    | some line =>
      exact serveLine_dealt hs h₂ hsteady rfl hshake (requestLine_eq_some.1 hline.symm) hmanages

theorem serveConn_dealt (hs : Holds s entries) (hsteady : ∀ k ∈ conn.writes, k.isSome)
    (hmanages : ∀ loc, conn.Requests loc → ∀ e ∈ entries, Manages loc e.2) (w : World) :
    Outcome (serveConn verify s conn) w
      (fun _ w' => Dealt verify (entries.map Prod.snd) conn w w') fun _ _ => False := by
  refine .bind (.bind (.get (.bind (.modifyGet (.modify (.bind (.modify ?_)))))))
  exact serveAccepted_dealt hs ⟨⟨rfl, rfl, rfl, rfl, rfl⟩, rfl, rfl⟩ rfl hsteady hmanages

/-- The connections accepted so far got what they were due, and nothing was sent to others. -/
structure AllDealt (verify : X509Store → X509 → Bool) (entries : List Entry) (done : List Conn)
    (w : World) : Prop where
  accepted : w.accepted = done.length
  silent : ∀ j, done.length ≤ j → sentTo j w.log = []
  due : ∀ i conn, done[i]? = some conn → ∃ pieces, Due verify entries conn pieces ∧
    sentTo i w.log = pieces.take conn.writes.length

theorem AllDealt.concat (h : AllDealt verify entries done w) (hw : Dealt verify entries conn w w') :
    AllDealt verify entries (done ++ [conn]) w' where
  accepted := by rw [hw.accepted, h.accepted, List.length_append, List.length_singleton]
  silent j hj := by
    rw [List.length_append, List.length_singleton] at hj
    rw [hw.others j (by rw [h.accepted]; omega), h.silent j (by omega)]
  due i conn' hi := by
    obtain ⟨pieces, hdue, hchannel⟩ := hw.due
    rw [List.getElem?_append] at hi
    split at hi
    · rename_i hlt
      rw [hw.others i (by rw [h.accepted]; omega)]
      exact h.due i conn' hi
    · rename_i hge
      obtain ⟨hlt, rfl⟩ := List.getElem?_eq_some_iff.1 hi
      rw [List.length_singleton] at hlt
      have hlast : i = w.accepted := by
        rw [h.accepted]
        omega
      rw [List.getElem_singleton]
      refine ⟨pieces, hdue, ?_⟩
      rw [hlast]
      rw [h.silent _ (by rw [h.accepted])] at hchannel
      have hcarried := congrArg Channel.carried hchannel
      rwa [Channel.offer_fresh] at hcarried

theorem geminiServe_dealt (hs : Holds s entries) (verify : X509Store → X509 → Bool)
    (conns : List Conn) (hsteady : ∀ conn ∈ conns, ∀ k ∈ conn.writes, k.isSome)
    (hmanages : ∀ conn ∈ conns, ∀ loc, conn.Requests loc → ∀ e ∈ entries, Manages loc e.2)
    (fds : FdTable Desc) (req : GeminiRequest) (buf : Buf geminiMaxRequest) :
    Outcome (geminiServe verify s conns) (.entering fds req buf)
      (fun r w' => ∃ served, served <+: conns ∧ (r.1 = -1 → served = conns) ∧
        AllDealt verify (entries.map Prod.snd) served w') fun _ _ => False := by
  refine geminiServe_outcome (I := AllDealt verify (entries.map Prod.snd)) conns ?_ ?_ hs _ ?_
  · intro s done conn w hs hconn hdone
    apply (serveConn_dealt hs (hsteady conn hconn) (hmanages conn hconn) w).imp
    intro _ w' hw'
    exact hdone.concat hw'
  · exact fun _ _ _ hdone => ⟨hdone.accepted, hdone.silent, hdone.due⟩
  · exact ⟨rfl, fun _ _ => rfl, by simp⟩

end Serving

def mixed : Serving := pair (privatePrefix, .cgi rootPrefix) (rootPrefix, .fs rootPrefix)

def mixedEntries : List Entry := [(privatePrefix, .cgi rootPrefix), (rootPrefix, .fs rootPrefix)]

/-- `"a/b"` -/
def aProgram : CStr := ⟨[97, slash, 98], by decide⟩

/-- `"/b"` -/
def programPath : CStr := ⟨[slash, 98], by decide⟩

/-- A connection for a program, one for a file, and one whose handshake fails. -/
def mixedConns : List Conn :=
  [caller aProgram 3 [.bringing [104, 105]], caller aFile 3 [.bringing [104, 105]],
    { caller aFile 1 [] with handshake := false }]

theorem mixedConns_steady : ∀ conn ∈ mixedConns, ∀ k ∈ conn.writes, k.isSome := by
  intro conn hconn
  simp only [mixedConns, List.mem_cons, List.not_mem_nil, or_false] at hconn
  obtain rfl | rfl | rfl := hconn
  · exact caller_steady aProgram 3 _
  · exact caller_steady aFile 3 _
  · exact caller_steady aFile 1 []

theorem aProgram_resolves : geminiFsResolve true aProgram = .ok (some aProgram) :=
  resolves_of_tokens (by decide)

theorem programPath_resolves : geminiFsResolve true programPath = .ok (some otherFile) :=
  resolves_of_tokens (by decide)

theorem mixed_manages : ∀ conn ∈ mixedConns, ∀ loc, conn.Requests loc →
    ∀ e ∈ mixedEntries, Manages loc e := by
  have hroot : RootFits rootPrefix := rootFits_of_length (by decide)
  have hboth {file : CStr} (hfile : Fits file.octets) (hrest : Fits ((below file).path.drop 2)) :
      ∀ e ∈ mixedEntries, Manages (below file) e := by
    intro e he
    simp only [mixedEntries, List.mem_cons, List.not_mem_nil, or_false] at he
    obtain rfl | rfl := he
    · exact ⟨hroot, fun _ => hrest⟩
    · exact fun _ => hfile
  have hprogram : (visit aProgram []).Requests (below aProgram) :=
    visit_requests (by decide) (by decide) []
  have hfile : (visit aFile []).Requests (below aFile) :=
    visit_requests (by decide) (by decide) []
  intro conn hconn loc hloc e he
  simp only [mixedConns, List.mem_cons, List.not_mem_nil, or_false] at hconn
  obtain rfl | rfl | rfl := hconn
  · rw [manages_congr (Conn.Requests.eq_path hloc hprogram)]
    exact hboth (fits_of_resolves aProgram_resolves) (fits_of_resolves programPath_resolves) e he
  · rw [manages_congr (Conn.Requests.eq_path hloc hfile)]
    exact hboth (fits_of_resolves aFile_resolves) (fits_of_resolves nowhere_resolves) e he
  · exact absurd hloc.1 Bool.false_ne_true

end Geminon
