import Geminon.Request
import Geminon.Location
import Geminon.Fs

namespace Geminon
open Memory Descriptors Process
set_option autoImplicit true

def requestPath (i : Nat) : Proc World CStr := do
  match (← get).req.url with
  | none => throw .null
  | some ⟨_, url⟩ => checked (url.buf.cstrAt (url.path + i))

def requestHost : Proc World (CStr × UInt16) := do
  match (← get).req.url with
  | none => throw .null
  | some ⟨_, url⟩ =>
    let host ← checked (url.buf.cstrAt url.host)
    pure (host, url.port)

/-- What `open` and `openat` come to: nothing is found by the empty path. -/
def found (outcome : Bool) (path : CStr) : Bool := outcome && path.octets != []

@[simp] theorem found_eq_true : found outcome path = true ↔ outcome = true ∧ path.octets ≠ [] := by
  simp [found]

/-- The descriptor of the root directory stays open on every way out. -/
def geminiFsOpen (calls : Calls) (root file : CStr) : Proc World (Option Nat) := do
  if !found calls.root root then pure none
  else
    let _dirfd ← openFd (.dir root)
    match ← checked (geminiFsResolve calls.resolve file) with
    | none => pure none
    | some path =>
      if !found calls.openat path then pure none
      else
        let fd ← openFd (.file root path)
        if !calls.fstat then
          closeFd fd
          pure none
        else if !calls.regular then
          closeFd fd
          pure none
        else pure (some fd)

def echoHandler : Proc World Int := do
  let _ ← geminiRequestRespond 20 (.ofString "text/plain")
  let path ← requestPath 0
  let _ ← geminiRequestWrite path.octets path.length
  let _ ← geminiRequestWrite crlf 2
  geminiRequestClose
  pure geminiHandlerDone

def sHandlerFs (calls : Calls) (pathPrefix root : CStr) : Proc World Int := do
  let file ← requestPath pathPrefix.length
  match ← geminiFsOpen calls root file with
  | none => pure geminiHandlerContinue
  | some resfd =>
    let _ ← geminiRequestRespond 20 (.ofString "text/plain")
    let _ ← geminiRequestStream calls.block calls.reads geminiStreamBlockSize
    closeFd resfd
    geminiRequestClose
    pure geminiHandlerDone

/-- `verify` is `X509_verify_cert`. -/
def sHandlerAuthn (verify : X509Store → X509 → Bool) (store : X509Store) : Proc World Int := do
  match (← get).req.cert with
  | none =>
    let _ ← geminiRequestRespond 60 (.ofString "Certificate Required")
    geminiRequestClose
    pure geminiHandlerDone
  | some cert =>
    if verify store cert then pure geminiHandlerContinue
    else
      let _ ← geminiRequestRespond 61 (.ofString "Unauthorized")
      geminiRequestClose
      pure geminiHandlerDone

def vhostsLoop : List (Sigma GeminiUrl) → Proc World Bool
  | [] => pure false
  | ⟨_, url⟩ :: urls => do
    let host ← checked (url.buf.cstrAt url.host)
    let (reqHost, reqPort) ← requestHost
    if host = reqHost ∧ url.port = reqPort then pure true
    else vhostsLoop urls

def sHandlerVhosts (urls : List (Sigma GeminiUrl)) : Proc World Int := do
  if ← vhostsLoop urls then pure geminiHandlerContinue
  else
    let _ ← geminiRequestRespond 53 (.ofString "Not Found")
    geminiRequestClose
    pure geminiHandlerDone

/-- The parent's side; what the child writes is what the reads of the pipe bring. -/
def cgiHandler (calls : Calls) (pathPrefix root : CStr) : Proc World Int := do
  let file ← requestPath pathPrefix.length
  match ← checked (geminiFsPath calls.resolve calls.path root file) with
  | none => pure geminiHandlerAbort
  | some prog =>
    if !calls.argv then pure geminiHandlerAbort
    else if !calls.envp then pure geminiHandlerAbort
    else if !calls.pipe then pure geminiHandlerAbort
    else
      let _rd ← openFd .pipeRead
      let wr ← openFd .pipeWrite
      if !calls.fork then pure geminiHandlerAbort
      else
        emit (.executed prog)
        closeFd wr
        let rc ← geminiRequestStream calls.block calls.reads 8192
        if rc ≠ 0 then pure geminiHandlerAbort
        else
          geminiRequestClose
          pure geminiHandlerDone

/-- A handler of somebody else's returns what it likes and leaves the request alone. -/
def runHandler (verify : X509Store → X509 → Bool) (calls : Calls) (pathPrefix : CStr) :
    Handler → Proc World Int
  | .echo => echoHandler
  | .cgi root => cgiHandler calls pathPrefix root
  | .fs root => sHandlerFs calls pathPrefix root
  | .authn store => sHandlerAuthn verify store
  | .vhosts urls => sHandlerVhosts urls
  | .user _ => pure calls.rc

def serveCore (verify : X509Store → X509 → Bool) : Core (Proc World) where
  path := requestPath 0
  invoke addr handler := do
    let calls ← nextCalls
    let req := (← get).req
    emit (.invoked addr handler.pathPrefix handler.handler req.url req.cert)
    runHandler verify calls handler.pathPrefix handler.handler
  respond status text := do
    let _ ← geminiRequestRespond status text
  close := geminiRequestClose
  fault := throw

/-- The URL of the request names a location. -/
def Asks (w : World) (loc : Location) : Prop :=
  ∃ len, ∃ url : GeminiUrl len, w.req.url = some ⟨len, url⟩ ∧ url.Denotes loc

theorem Asks.kept (h : Asks w loc) (hk : Kept w w' events) : Asks w' loc := by
  obtain ⟨len, url, hurl, hd⟩ := h
  exact ⟨len, url, by rw [hk.req, hurl], hd⟩

theorem requestPath_eq (h : Asks w loc) (hk : k ≤ loc.path.length) :
    Outcome (requestPath k) w (fun file w' => w' = w ∧ file.octets = loc.path.drop k)
      fun _ _ => False := by
  obtain ⟨len, url, hurl, hd⟩ := h
  apply Outcome.bind (.get _)
  rw [hurl]
  change Outcome (checked (url.buf.cstrAt (url.path + k))) w _ _
  rw [(hd.path.drop hk).cstrAt_eq]
  exact .pure ⟨rfl, rfl⟩

theorem requestHost_eq (h : Asks w loc) :
    Outcome requestHost w (fun r w' => w' = w ∧ r.1.octets = loc.host ∧ r.2.toNat = loc.port)
      fun _ _ => False := by
  obtain ⟨len, url, hurl, hd⟩ := h
  apply Outcome.bind (.get _)
  rw [hurl]
  change Outcome (do
    let host ← checked (url.buf.cstrAt url.host)
    pure (host, url.port)) w _ _
  rw [hd.host.cstrAt_eq]
  exact .bind (.pure (.pure ⟨rfl, rfl, hd.port⟩))

def history (i : Nat) (log : List Event) : List Event :=
  log.filter fun e => e.connection = some i

theorem history_append (i : Nat) (l l' : List Event) :
    history i (l ++ l') = history i l ++ history i l' := List.filter_append ..

theorem history_eq_nil (h : ∀ e ∈ events, e.connection ≠ some i) : history i events = [] :=
  List.filter_eq_nil_iff.2 fun e he => by simpa using h e he

theorem history_eq_self (h : ∀ e ∈ events, e.connection = some i) : history i events = events :=
  List.filter_eq_self.2 fun e he => by simpa using h e he

/-- An event within the run of one handler, which opens such files only. -/
def Event.Inner (opens : CStr → Prop) : Event → Prop
  | .invoked .. => False
  | .opened (.file _ path) => opens path
  | _ => True

/-- An event within the run of a handler: only static files open files, and below their root. -/
def Event.Rooted (handler : Handler) : Event → Prop
  | .opened (.file root _) => handler = .fs root ∧ root.octets ≠ []
  | _ => True

theorem Event.Inner.rooted {event : Event} (h : event.Inner fun _ => False) (handler : Handler) :
    event.Rooted handler := by
  cases event with
  | opened desc =>
    cases desc with
    | file root path => exact h.elim
    | _ => trivial
  | _ => trivial

/-- Events of which no connection sees anything. -/
def Unseen (events : List Event) : Prop := ∀ e ∈ events, e.connection = none

structure Silent (opens : CStr → Prop) (events : List Event) : Prop where
  inner : ∀ e ∈ events, e.Inner opens
  unseen : Unseen events

structure Replied (i : Nat) (status : Int) (opens : CStr → Prop) (events : List Event) :
    Prop where
  inner : ∀ e ∈ events, e.Inner opens
  own : ∀ e ∈ events, ∀ j, e.connection = some j → j = i
  reply : ∃ sent, history i events = .responded i status :: (sent ++ [.closed (.conn i)]) ∧
    ∀ e ∈ sent, IsSent i e

theorem Unseen.nil : Unseen [] := by simp [Unseen]

theorem Unseen.append (h : Unseen events) (h' : Unseen events') : Unseen (events ++ events') :=
  fun e he => (List.mem_append.1 he).elim (h e) (h' e)

theorem Unseen.singleton (h : event.connection = none) : Unseen [event] :=
  fun e he => by rw [List.mem_singleton.1 he, h]

theorem Unseen.history (h : Unseen events) (i : Nat) : history i events = [] :=
  history_eq_nil fun e he => by simp [h e he]

theorem Silent.nil (opens : CStr → Prop) : Silent opens [] := ⟨by simp, .nil⟩

theorem Silent.append (h : Silent opens events) (h' : Silent opens events') :
    Silent opens (events ++ events') where
  inner e he := (List.mem_append.1 he).elim (h.inner e) (h'.inner e)
  unseen := h.unseen.append h'.unseen

theorem Replied.of_sent (opens : CStr → Prop) (status : Int) (hsent : ∀ e ∈ sent, IsSent i e)
    (hmid : Silent opens mid) :
    Replied i status opens (.responded i status :: (sent ++ (mid ++ [.closed (.conn i)]))) where
  inner e he := by
    simp only [List.mem_cons, List.mem_append, List.not_mem_nil, or_false] at he
    rcases he with rfl | he | he | rfl
    · trivial
    · obtain ⟨octets, rfl⟩ := hsent e he
      trivial
    · exact hmid.inner e he
    · trivial
  own e he j hj := by
    simp only [List.mem_cons, List.mem_append, List.not_mem_nil, or_false] at he
    rcases he with rfl | he | he | rfl
    · exact (Option.some.inj hj).symm
    · obtain ⟨octets, rfl⟩ := hsent e he
      exact (Option.some.inj hj).symm
    · rw [hmid.unseen e he] at hj
      cases hj
    · exact (Option.some.inj hj).symm
  reply := by
    refine ⟨sent, ?_, hsent⟩
    have hown : Geminon.history i sent = sent := history_eq_self fun e he => by
      obtain ⟨octets, rfl⟩ := hsent e he
      rfl
    have hhead : Geminon.history i [.responded i status] = [.responded i status] := by
      simp [Geminon.history, Event.connection]
    have hlast : Geminon.history i [.closed (.conn i)] = [.closed (.conn i)] := by
      simp [Geminon.history, Event.connection]
    rw [← List.singleton_append, history_append, history_append, history_append, hhead, hown,
      hmid.unseen.history, hlast]
    rfl

theorem Silent.replied (h : Silent opens before) (h' : Replied i status opens events) :
    Replied i status opens (before ++ events) where
  inner e he := (List.mem_append.1 he).elim (h.inner e) (h'.inner e)
  own e he j hj := by
    rcases List.mem_append.1 he with he | he
    · rw [h.unseen e he] at hj
      cases hj
    · exact h'.own e he j hj
  reply := by
    obtain ⟨sent, hreply, hsent⟩ := h'.reply
    exact ⟨sent, by rw [history_append, h.unseen.history, List.nil_append, hreply], hsent⟩

theorem not_leaky_answer (hsent : ∀ e ∈ sent, IsSent i e) (status : Int) :
    ¬ Leaky (.responded i status :: (sent ++ [.closed (.conn i)])) := by
  refine not_leaky fun e he hl => ?_
  simp only [List.mem_cons, List.mem_append, List.not_mem_nil, or_false] at he
  rcases he with rfl | he | rfl
  · exact hl
  · exact not_leaky_sent hsent ⟨e, he, hl⟩
  · exact hl

/-- An answer that is all a stretch of serving consists of. -/
structure OnlyReplied (i : Nat) (status : Int) (opens : CStr → Prop) (w w' : World)
    (events : List Event) : Prop where
  ended : Ended w w' events
  replied : Replied i status opens events
  notLeaky : ¬ Leaky events

theorem OnlyReplied.of_sent {sent : List Event} (opens : CStr → Prop) (status : Int)
    (hw' : Ended w w' (.responded i status :: (sent ++ [.closed (.conn i)])))
    (hsent : ∀ e ∈ sent, IsSent i e) :
    OnlyReplied i status opens w w' (.responded i status :: (sent ++ [.closed (.conn i)])) where
  ended := hw'
  replied := .of_sent opens status hsent (.nil opens)
  notLeaky := not_leaky_answer hsent status

theorem respond_ended (h : Held i w fd) (opens : CStr → Prop) (status : Int) (text : CStr)
    (rc : Int) :
    Outcome (do
      let _ ← geminiRequestRespond status text
      geminiRequestClose
      pure rc) w (fun r w' => r = rc ∧ ∃ events, OnlyReplied i status opens w w' events)
      fun _ _ => False := by
  apply (respondAndClose_ended h status text rc).imp
  intro r w' hw'
  obtain ⟨hr, sent, hw', hsent⟩ := hw'
  exact ⟨hr, _, .of_sent opens status hw' hsent⟩

theorem echoHandler_outcome (h : Held i w fd) (ha : Asks w loc) (opens : CStr → Prop) :
    Outcome echoHandler w (fun rc w' => rc = geminiHandlerDone ∧ ∃ events,
      OnlyReplied i 20 opens w w' events) fun _ _ => False := by
  apply Outcome.andThen (geminiRequestRespond_sent h.ssl 20 _)
  intro _ w₁ hw₁
  obtain ⟨sent, hw₁, hsent⟩ := hw₁
  have h₁ := h.kept hw₁.toKept
  apply Outcome.andThen (requestPath_eq (ha.kept hw₁.toKept) (Nat.zero_le _))
  intro path _ hpath
  obtain ⟨rfl, _⟩ := hpath
  apply Outcome.andThen (geminiRequestWrite_sent h₁.ssl (Nat.le_refl _))
  intro _ w₂ hw₂
  obtain ⟨body, hw₂, hbody, _⟩ := hw₂
  have h₂ := h₁.kept hw₂.toKept
  apply Outcome.andThen (geminiRequestWrite_sent h₂.ssl (Nat.le_refl _))
  intro _ w₃ hw₃
  obtain ⟨line, hw₃, hline, _⟩ := hw₃
  have h₃ := h₂.kept hw₃.toKept
  apply Outcome.andThen (geminiRequestClose_ended h₃)
  intro _ w' hw'
  obtain ⟨hw', _⟩ := hw'
  have hended := ((hw₁.trans hw₂).trans hw₃).ended hw'
  have hall : ∀ e ∈ sent ++ body ++ line, IsSent i e := by
    intro e he
    rcases List.mem_append.1 he with he | he
    · exact (List.mem_append.1 he).elim (hsent e) (hbody e)
    · exact hline e he
  simp only [List.cons_append] at hended
  exact .pure ⟨rfl, _, .of_sent opens 20 hended hall⟩

/-- A certificate that a store lets pass. -/
def Admits (verify : X509Store → X509 → Bool) (store : X509Store) (cert : Option X509) : Prop :=
  ∃ c, cert = some c ∧ verify store c = true

theorem sHandlerAuthn_outcome (h : Held i w fd) (verify : X509Store → X509 → Bool)
    (store : X509Store) (opens : CStr → Prop) :
    Outcome (sHandlerAuthn verify store) w (fun rc w' =>
      Admits verify store w.req.cert ∧ rc = geminiHandlerContinue ∧ w' = w ∨
        ¬ Admits verify store w.req.cert ∧ rc = geminiHandlerDone ∧ ∃ events status,
          (status = 60 ∨ status = 61) ∧ OnlyReplied i status opens w w' events)
      fun _ _ => False := by
  apply Outcome.bind (.get _)
  cases hcert : w.req.cert with
  | none =>
    apply (respond_ended h opens 60 _ _).imp
    intro _ w' hw'
    obtain ⟨rfl, events, hanswered⟩ := hw'
    refine .inr ⟨?_, rfl, events, 60, .inl rfl, hanswered⟩
    intro hadmits
    obtain ⟨c, hc, _⟩ := hadmits
    cases hc
  | some cert =>
    by_cases hv : verify store cert = true
    · simp only [hv, ↓reduceIte]
      exact .pure (.inl ⟨⟨cert, rfl, hv⟩, rfl, rfl⟩)
    · simp only [hv, Bool.false_eq_true, ↓reduceIte]
      apply (respond_ended h opens 61 _ _).imp
      intro _ w' hw'
      obtain ⟨rfl, events, hanswered⟩ := hw'
      refine .inr ⟨?_, rfl, events, 61, .inr rfl, hanswered⟩
      intro hadmits
      obtain ⟨c, hc, hvc⟩ := hadmits
      cases hc
      exact hv hvc

def Hosts (urls : List (Sigma GeminiUrl)) (loc : Location) : Prop :=
  ∃ u ∈ urls, u.2.buf.strAt u.2.host = loc.host ∧ u.2.port.toNat = loc.port

theorem vhostsLoop_hosts (ha : Asks w loc) (urls : List (Sigma GeminiUrl)) :
    Outcome (vhostsLoop urls) w (fun r w' => w' = w ∧ (r = true ↔ Hosts urls loc))
      fun _ w' => w' = w := by
  induction urls with
  | nil => exact .pure ⟨rfl, by simp [Hosts]⟩
  | cons u urls ih =>
    obtain ⟨len, url⟩ := u
    unfold vhostsLoop
    refine .bind (.checked (fun host hhost => ?_) fun _ _ => rfl)
    apply Outcome.andThen (requestHost_eq ha).sure
    intro r _ hr
    obtain ⟨reqHost, reqPort⟩ := r
    obtain ⟨rfl, hreq, hport⟩ := hr
    have hsame : (host = reqHost ∧ url.port = reqPort) ↔
        url.buf.strAt url.host = loc.host ∧ url.port.toNat = loc.port := by
      rw [CStr.ext_iff, Buf.cstrAt_octets hhost, hreq, ← UInt16.toNat_inj, hport]
    simp only [hsame]
    split
    · rename_i he
      exact .pure ⟨rfl, iff_of_true rfl ⟨_, List.mem_cons_self, he⟩⟩
    · rename_i hne
      apply ih.imp
      intro r w' hw'
      exact ⟨hw'.1, hw'.2.trans (by simp [Hosts, hne])⟩

def AllParsed (urls : List (Sigma GeminiUrl)) : Prop :=
  ∀ u ∈ urls, ∃ loc : Location, u.2.Denotes loc

/-- One of the URLs is of a location's host and port. -/
def Serves (urls : List (Sigma GeminiUrl)) (loc : Location) : Prop :=
  ∃ u ∈ urls, ∃ l : Location, u.2.Denotes l ∧ l.host = loc.host ∧ l.port = loc.port

theorem Serves.hosts (h : Serves urls loc) : Hosts urls loc := by
  obtain ⟨u, hu, l, hl, hhost, hport⟩ := h
  exact ⟨u, hu, hl.host.strAt_eq.trans hhost, hl.port.trans hport⟩

theorem vhostsLoop_eq (ha : Asks w loc) (hurls : AllParsed urls) :
    Outcome (vhostsLoop urls) w (fun r w' => w' = w ∧ (r = true ↔ Serves urls loc))
      fun _ _ => False := by
  induction urls with
  | nil => exact .pure ⟨rfl, by simp [Serves]⟩
  | cons u urls ih =>
    obtain ⟨len, url⟩ := u
    obtain ⟨l, hl⟩ := hurls _ List.mem_cons_self
    have ih := ih fun u hu => hurls u (List.mem_cons_of_mem _ hu)
    change Outcome (do
      let host ← checked (url.buf.cstrAt url.host)
      let (reqHost, reqPort) ← requestHost
      if host = reqHost ∧ url.port = reqPort then pure true
      else vhostsLoop urls) w _ _
    rw [hl.host.cstrAt_eq]
    apply Outcome.bind (.pure (.andThen (requestHost_eq ha) _))
    intro r _ hr
    obtain ⟨reqHost, reqPort⟩ := r
    obtain ⟨rfl, hhost, hport⟩ := hr
    have hsame : ((⟨l.host, hl.host.1⟩ : CStr) = reqHost ∧ url.port = reqPort) ↔
        l.host = loc.host ∧ l.port = loc.port := by
      rw [CStr.ext_iff, hhost, ← UInt16.toNat_inj, hl.port, hport]
    simp only [hsame]
    split
    · rename_i he
      exact .pure ⟨rfl, iff_of_true rfl ⟨_, List.mem_cons_self, l, hl, he⟩⟩
    · rename_i hne
      apply ih.imp
      intro r w' hw'
      obtain ⟨rfl, hr⟩ := hw'
      refine ⟨rfl, hr.trans ⟨?_, ?_⟩⟩
      · intro hrest
        obtain ⟨v, hv, hserves⟩ := hrest
        exact ⟨v, List.mem_cons_of_mem _ hv, hserves⟩
      · intro hserves
        obtain ⟨v, hv, l', hl', he⟩ := hserves
        rcases List.mem_cons.1 hv with rfl | hv
        · have hhost' := hl'.host.strAt_eq.symm.trans hl.host.strAt_eq
          have hport' := hl'.port.symm.trans hl.port
          exact absurd ⟨hhost' ▸ he.1, hport' ▸ he.2⟩ hne
        · exact ⟨v, hv, l', hl', he⟩

theorem sHandlerVhosts_outcome (h : Held i w fd) (ha : Asks w loc) (hurls : AllParsed urls)
    (opens : CStr → Prop) :
    Outcome (sHandlerVhosts urls) w (fun rc w' =>
      Serves urls loc ∧ rc = geminiHandlerContinue ∧ w' = w ∨
        ¬ Serves urls loc ∧ rc = geminiHandlerDone ∧ ∃ events,
          OnlyReplied i 53 opens w w' events) fun _ _ => False := by
  apply Outcome.andThen (vhostsLoop_eq ha hurls)
  intro r _ hloop
  obtain ⟨rfl, hr⟩ := hloop
  cases r with
  | true => exact .pure (.inl ⟨hr.1 rfl, rfl, rfl⟩)
  | false =>
    apply (respond_ended h opens 53 _ _).imp
    intro _ w' hw'
    obtain ⟨rfl, events, hanswered⟩ := hw'
    exact .inr ⟨fun hs => Bool.false_ne_true (hr.2 hs), rfl, events, hanswered⟩

theorem sHandlerVhosts_hosts (h : Held i w fd) (ha : Asks w loc)
    (urls : List (Sigma GeminiUrl)) (opens : CStr → Prop) :
    Outcome (sHandlerVhosts urls) w (fun rc w' =>
      Hosts urls loc ∧ rc = geminiHandlerContinue ∧ w' = w ∨
        ¬ Hosts urls loc ∧ rc = geminiHandlerDone ∧ ∃ events, OnlyReplied i 53 opens w w' events)
      fun _ w' => w' = w := by
  apply Outcome.andThen (vhostsLoop_hosts ha urls)
  intro r _ hloop
  obtain ⟨rfl, hr⟩ := hloop
  cases r with
  | true => exact .pure (.inl ⟨hr.1 rfl, rfl, rfl⟩)
  | false =>
    apply (respond_ended h opens 53 _ _).sure.imp
    intro _ w' hw'
    obtain ⟨rfl, events, hanswered⟩ := hw'
    exact .inr ⟨fun hs => Bool.false_ne_true (hr.2 hs), rfl, events, hanswered⟩

/-- What a string of octets resolves to. -/
def Resolves (octets : List UInt8) (path : CStr) : Prop :=
  ∃ file : CStr, file.octets = octets ∧ geminiFsResolve true file = .ok (some path)

/-- What a string of octets resolves to, if it is the name of something. -/
def Names (octets : List UInt8) (path : CStr) : Prop := Resolves octets path ∧ path.octets ≠ []

def Breaks (octets : List UInt8) : Prop :=
  ∃ file : CStr, file.octets = octets ∧ ∃ malloc fault, geminiFsResolve malloc file = .error fault

theorem Resolves.not_breaks (h : Resolves octets path) : ¬ Breaks octets := by
  intro hb
  obtain ⟨file, hfile, hres⟩ := h
  obtain ⟨file', hfile', malloc, fault, hfault⟩ := hb
  obtain rfl : file' = file := CStr.ext (hfile'.trans hfile.symm)
  cases malloc with
  | false => cases hfault
  | true =>
    rw [hres] at hfault
    cases hfault

theorem geminiFsResolve_some (h : geminiFsResolve malloc file = .ok (some path)) :
    geminiFsResolve true file = .ok (some path) := by
  cases malloc with
  | false => cases h
  | true => exact h

theorem resolve_of_fault (h : geminiFsResolve malloc file = .error fault) : malloc = true := by
  cases malloc with
  | false => cases h
  | true => rfl

/-- Calls that get a file served as soon as its path resolves to a name. -/
structure Calls.Open (calls : Calls) : Prop where
  root : calls.root
  resolve : calls.resolve
  openat : calls.openat
  fstat : calls.fstat
  regular : calls.regular

def Calls.Finds (calls : Calls) (root : CStr) (octets : List UInt8) : Prop :=
  calls.Open ∧ root.octets ≠ [] ∧ ∃ path, Names octets path

/-- On every way but one only the root is left open, and on that one the file that is returned. -/
structure FsOpened (calls : Calls) (root file : CStr) (w w' : World) (events : List Event)
    (r : Option Nat) : Prop where
  kept : Kept w w' events
  silent : Silent (Names file.octets) events
  rooted : ∀ e ∈ events, e.Rooted (.fs root)
  leaky : Leaky events ↔ found calls.root root = true
  table : r = none ∧ w.others.Grows (Leaky events) w'.others ∨
    ∃ new t path, r = some new ∧ w.others.Grows (Leaky events) t ∧ t.get new = none ∧
      w'.others = t.set new (some (.file root path))
  finds : r.isSome ↔ calls.Finds root file.octets
  opened : r.isSome → ∀ path, Resolves file.octets path → .opened (.file root path) ∈ events

/-- The ways in which a static-files handler leaves its buffers, and what is in the log then. -/
structure BrokeOff (calls : Calls) (root : CStr) (octets : List UInt8) (w w' : World) : Prop where
  root_found : found calls.root root = true
  resolve : calls.resolve
  breaks : Breaks octets
  told : ∃ events, w'.log = w.log ++ events ∧ Silent (Names octets) events

theorem leaky_dir (root : CStr) : True ↔ Leaky [.opened (.dir root)] :=
  ⟨fun _ => ⟨_, List.mem_singleton_self _, trivial⟩, fun _ => trivial⟩

theorem Resolves.unique (h : Resolves octets path) (h' : Resolves octets path') : path = path' := by
  obtain ⟨file, hfile, hres⟩ := h
  obtain ⟨file', hfile', hres'⟩ := h'
  obtain rfl : file' = file := CStr.ext (hfile'.trans hfile.symm)
  rw [hres] at hres'
  exact Option.some.inj (Except.ok.inj hres')

theorem Calls.Finds.names {calls : Calls} {root path : CStr}
    (h : calls.Finds root octets) (hpath : Resolves octets path) : path.octets ≠ [] := by
  obtain ⟨-, -, path', hpath', hne⟩ := h
  rwa [hpath.unique hpath']

theorem geminiFsOpen_outcome (h : Held i w fd) (calls : Calls) (root file : CStr) :
    Outcome (geminiFsOpen calls root file) w (fun r w' => ∃ events,
      FsOpened calls root file w w' events r) fun _ w' => BrokeOff calls root file.octets w w' := by
  unfold geminiFsOpen
  have hnone (hfail : ¬ calls.Finds root file.octets) :
      ((none : Option Nat).isSome ↔ calls.Finds root file.octets) :=
    iff_of_false Bool.false_ne_true hfail
  have hvoid {events : List Event} (hn : (none : Option Nat).isSome) (path : CStr)
      (_ : Resolves file.octets path) : .opened (.file root path) ∈ events :=
    absurd hn Bool.false_ne_true
  cases hroot : found calls.root root with
  | false =>
    have hfail : ¬ calls.Finds root file.octets := fun hf =>
      Bool.false_ne_true (hroot.symm.trans (found_eq_true.2 ⟨hf.1.root, hf.2.1⟩))
    exact .pure ⟨[], .refl w, .nil _, by simp, iff_of_false leaky_nil (by simp [hroot]),
      .inl ⟨rfl, .refl _ leaky_nil⟩, hnone hfail, hvoid⟩
  | true =>
    have hne : root.octets ≠ [] := (found_eq_true.1 hroot).2
    apply Outcome.andThen (openFd_kept h (.dir root))
    intro dirfd w₁ hw₁
    obtain ⟨hw₁, hfree, htable⟩ := hw₁
    have h₁ := h.kept hw₁
    have hdir : w.others.Grows (Leaky [.opened (.dir root)]) w₁.others := by
      rw [htable]
      exact (FdTable.Grows.set hfree _).congr (leaky_dir root)
    have hleaky : Leaky [.opened (.dir root)] ↔ found calls.root root = true :=
      iff_of_true ((leaky_dir root).1 trivial) hroot
    have hsilent : Silent (Names file.octets) [.opened (.dir root)] :=
      ⟨by simp [Event.Inner], .singleton rfl⟩
    have hrooted : ∀ e ∈ [Event.opened (.dir root)], e.Rooted (.fs root) := by
      simp [Event.Rooted]
    -- the ways out that open no file
    have hleft (hfail : ¬ calls.Finds root file.octets) :
        Outcome (pure none : Proc World (Option Nat))
        w₁ (fun r w' => ∃ events, FsOpened calls root file w w' events r)
        fun _ w' => BrokeOff calls root file.octets w w' :=
      .pure ⟨_, hw₁, hsilent, hrooted, hleaky, .inl ⟨rfl, hdir⟩, hnone hfail, hvoid⟩
    refine .bind (.checked (fun r hr => ?_)
      fun fault he => ⟨hroot, resolve_of_fault he, ⟨file, rfl, _, fault, he⟩, _, hw₁.log, hsilent⟩)
    cases r with
    | none =>
      apply hleft
      intro hf
      obtain ⟨hopen, -, path, ⟨file', hfile', hres⟩, -⟩ := hf
      rw [CStr.ext hfile', ← hopen.resolve, hr] at hres
      cases hres
    | some path =>
      have hresolves : Resolves file.octets path := ⟨file, rfl, geminiFsResolve_some hr⟩
      dsimp only
      cases hopenat : found calls.openat path with
      | false =>
        apply hleft
        intro hf
        exact Bool.false_ne_true
          (hopenat.symm.trans (found_eq_true.2 ⟨hf.1.openat, hf.names hresolves⟩))
      | true =>
        have hnames : Names file.octets path := ⟨hresolves, (found_eq_true.1 hopenat).2⟩
        apply Outcome.andThen (openFd_kept h₁ (.file root path))
        intro new w₂ hw₂
        obtain ⟨hw₂, hfree₂, htable₂⟩ := hw₂
        have h₂ := h₁.kept hw₂
        have hopen : w₂.others.get new = some (.file root path) := by
          rw [htable₂, FdTable.get_set_self]
        have hfile : ¬ Leaky [.opened (.file root path)] := not_leaky (by simp [Event.Leaks])
        have hsilent₂ : Silent (Names file.octets) [.opened (.file root path)] :=
          ⟨by simpa [Event.Inner] using hnames, .singleton rfl⟩
        have hrooted₂ : Event.Rooted (.fs root) (.opened (.file root path)) := ⟨rfl, hne⟩
        have hclosed (hfail : ¬ calls.Open) : Outcome (closeFd new >>= fun _ => pure none) w₂
            (fun r w' => ∃ events, FsOpened calls root file w w' events r)
            fun _ w' => BrokeOff calls root file.octets w w' := by
          apply Outcome.andThen (closeFd_kept h₂ hopen)
          intro _ w₃ hw₃
          obtain ⟨hw₃, htable₃⟩ := hw₃
          have hback : w₃.others = w₁.others := by
            rw [htable₃, htable₂, FdTable.set_set, FdTable.set_self _ hfree₂]
          have hall : Leaky ([.opened (.dir root)] ++ [.opened (.file root path)] ++
              [.closed (.file root path)]) ↔ Leaky [.opened (.dir root)] := by
            simp [Leaky, Event.Leaks]
          refine .pure ⟨_, (hw₁.trans hw₂).trans hw₃, (hsilent.append hsilent₂).append
            ⟨by simp [Event.Inner], .singleton rfl⟩, ?_, hall.trans hleaky, .inl ⟨rfl, ?_⟩,
            hnone fun hf => hfail hf.1, hvoid⟩
          · simpa [Event.Rooted] using hrooted₂
          · rw [hback]
            exact hdir.congr hall.symm
        cases hfstat : calls.fstat with
        | false =>
          exact hclosed fun ho => Bool.false_ne_true (hfstat.symm.trans ho.fstat)
        | true =>
          cases hregular : calls.regular with
          | false =>
            exact hclosed fun ho => Bool.false_ne_true (hregular.symm.trans ho.regular)
          | true =>
            have hall : Leaky ([.opened (.dir root)] ++ [.opened (.file root path)]) ↔
                Leaky [.opened (.dir root)] := by
              rw [leaky_append, or_iff_left hfile]
            have hcalls : calls.Open := by
              refine ⟨(found_eq_true.1 hroot).1, ?_, (found_eq_true.1 hopenat).1, hfstat, hregular⟩
              cases hmalloc : calls.resolve with
              | false =>
                rw [hmalloc] at hr
                cases hr
              | true => rfl
            refine .pure ⟨_, hw₁.trans hw₂, hsilent.append hsilent₂, ?_, hall.trans hleaky,
              .inr ⟨new, w₁.others, path, rfl, hdir.congr hall.symm, hfree₂, htable₂⟩,
              iff_of_true rfl ⟨hcalls, hne, path, hnames⟩, fun _ p hp => ?_⟩
            · simpa [Event.Rooted] using hrooted₂
            · rw [hp.unique hresolves]
              simp

theorem Passed.others_eq (h : Passed w w' events) (hl : ¬ Leaky events) : w'.others = w.others :=
  h.grows.sealed hl

theorem not_leaky_replying (h : ∀ e ∈ sent, IsSent i e) :
    ¬ Leaky (.responded i status :: sent) := by
  refine not_leaky fun e he hl => ?_
  rcases List.mem_cons.1 he with rfl | he
  · exact hl
  · exact not_leaky_sent h ⟨e, he, hl⟩

/-- What `s_handler_fs` has done when it returns. -/
structure FsHandled (i : Nat) (calls : Calls) (root : CStr) (octets : List UInt8) (w w' : World)
    (events : List Event) (rc : Int) : Prop where
  ended : rc = geminiHandlerContinue ∧ Passed w w' events ∧ Silent (Names octets) events ∨
    rc = geminiHandlerDone ∧ Ended w w' events ∧ Replied i 20 (Names octets) events
  rooted : ∀ e ∈ events, e.Rooted (.fs root)
  leaky : Leaky events ↔ found calls.root root = true
  finds : rc = geminiHandlerDone ↔ calls.Finds root octets
  opened : calls.Finds root octets → ∀ path, Resolves octets path →
    .opened (.file root path) ∈ events

theorem sHandlerFs_outcome (h : Held i w fd) (ha : Asks w loc) (calls : Calls)
    (hk : pathPrefix.length ≤ loc.path.length) (root : CStr) :
    Outcome (sHandlerFs calls pathPrefix root) w (fun rc w' => ∃ events,
      FsHandled i calls root (loc.path.drop pathPrefix.length) w w' events rc)
      fun _ w' => BrokeOff calls root (loc.path.drop pathPrefix.length) w w' := by
  apply Outcome.andThen (requestPath_eq ha hk).sure
  intro file w₀ hw₀
  obtain ⟨hw₀, hfile⟩ := hw₀
  rw [hw₀, ← hfile]
  apply Outcome.andThen (geminiFsOpen_outcome h calls root file)
  intro r w₁ hw₁
  obtain ⟨opening, hkept, hsilent, hrooted, hleaky, htable, hfinds, hopened⟩ := hw₁
  rcases htable with ⟨rfl, hgrows⟩ | ⟨new, t, path, rfl, hgrows, hnone, htable⟩
  · have hfail : ¬ calls.Finds root file.octets := fun hf => Bool.false_ne_true (hfinds.2 hf)
    exact .pure ⟨opening, .inl ⟨rfl, ⟨hkept, hgrows⟩, hsilent⟩, hrooted, hleaky,
      iff_of_false (by decide) hfail, fun hf => absurd hf hfail⟩
  · have h₁ := h.kept hkept
    apply Outcome.sure
    apply Outcome.andThen (geminiRequestRespond_sent h₁.ssl 20 _)
    intro _ w₂ hw₂
    obtain ⟨sent, hw₂, hsent⟩ := hw₂
    have h₂ := h₁.kept hw₂.toKept
    apply Outcome.andThen (geminiRequestStream_sent h₂.ssl calls.block calls.reads _)
    intro _ w₃ hw₃
    obtain ⟨body, hw₃, hbody⟩ := hw₃
    have h₃ := h₂.kept hw₃.toKept
    have htable₃ : w₃.others = t.set new (some (.file root path)) := by
      rw [hw₃.others_eq (not_leaky_sent hbody), hw₂.others_eq (not_leaky_replying hsent), htable]
    apply Outcome.andThen (closeFd_kept h₃ (by rw [htable₃, FdTable.get_set_self]))
    intro _ w₄ hw₄
    obtain ⟨hw₄, htable₄⟩ := hw₄
    apply Outcome.andThen (geminiRequestClose_ended (h₃.kept hw₄))
    intro _ w' hw'
    obtain ⟨hw', _⟩ := hw'
    have hall : ∀ e ∈ sent ++ body, IsSent i e :=
      fun e he => (List.mem_append.1 he).elim (hsent e) (hbody e)
    have hmid : Silent (Names file.octets) [.closed (.file root path)] :=
      ⟨by simp [Event.Inner], .singleton rfl⟩
    have hrest : ¬ Leaky (.responded i 20 :: (sent ++ body) ++ [.closed (.file root path)]) := by
      rw [leaky_append, not_or]
      exact ⟨not_leaky_replying hall, not_leaky (by simp [Event.Leaks])⟩
    have hpassed : Passed w w₄ (opening ++ (.responded i 20 :: (sent ++ body) ++
        [.closed (.file root path)])) := by
      refine ⟨hkept.trans ((hw₂.toKept.trans hw₃.toKept).trans hw₄), ?_⟩
      rw [htable₄, htable₃, FdTable.set_set, FdTable.set_self _ hnone]
      apply hgrows.congr
      rw [leaky_append, or_iff_left hrest]
    have hclose : ¬ Leaky [.closed (.conn i)] := not_leaky (by simp [Event.Leaks])
    refine .pure ⟨_, .inr ⟨rfl, hpassed.ended hw', ?_⟩, ?_, ?_, iff_of_true rfl (hfinds.1 rfl),
      fun _ p hp => ?_⟩
    · simpa using hsilent.replied (Replied.of_sent _ 20 hall hmid)
    · intro e he
      have htail : ∀ e ∈ .responded i 20 :: (sent ++ body ++ ([.closed (.file root path)] ++
          [.closed (.conn i)])), e.Inner fun _ => False :=
        (Replied.of_sent _ 20 hall ⟨by simp [Event.Inner], .singleton rfl⟩).inner
      have he' : e ∈ opening ++ .responded i 20 :: (sent ++ body ++ ([.closed (.file root path)] ++
          [.closed (.conn i)])) := by simpa using he
      exact (List.mem_append.1 he').elim (hrooted e) fun he => (htail e he).rooted _
    · rw [leaky_append, or_iff_left hclose, leaky_append, or_iff_left hrest]
      exact hleaky
    · simp [hopened rfl p hp]

/-- A path that cannot be resolved within its buffers ends the run. -/
theorem sHandlerFs_breaks (h : Held i w fd) (ha : Asks w loc) {calls : Calls} (root : CStr)
    (hroot : found calls.root root = true) (hk : pathPrefix.length ≤ loc.path.length)
    (hfault : ∀ file : CStr, file.octets = loc.path.drop pathPrefix.length →
      ∃ fault, geminiFsResolve calls.resolve file = .error fault) :
    Outcome (sHandlerFs calls pathPrefix root) w (fun _ _ => False)
      fun _ w' => w'.log = w.log ++ [.opened (.dir root)] := by
  apply Outcome.andThen (requestPath_eq ha hk).sure
  intro file w₀ hw₀
  obtain ⟨hw₀, hfile⟩ := hw₀
  rw [hw₀]
  unfold geminiFsOpen
  rw [hroot]
  apply Outcome.bind (.andThen (openFd_kept h (.dir root)) _)
  intro dirfd w₁ hw₁
  obtain ⟨hw₁, _⟩ := hw₁
  obtain ⟨fault, he⟩ := hfault file hfile
  rw [he]
  exact .bind (.throw hw₁.log)

def Calls.Pipes (calls : Calls) (root : CStr) (octets : List UInt8) : Prop :=
  (∃ file prog, file.octets = octets ∧
    geminiFsPath calls.resolve calls.path root file = .ok (some prog)) ∧
    calls.argv ∧ calls.envp ∧ calls.pipe

theorem leaky_pipe (events : List Event) : Leaky (.opened .pipeRead :: events) :=
  ⟨_, List.mem_cons_self, trivial⟩

/-- A CGI handler never passes a request on; it may write what is no answer. -/
theorem cgiHandler_outcome (h : Held i w fd) (ha : Asks w loc) (calls : Calls)
    (hk : pathPrefix.length ≤ loc.path.length) (root : CStr) :
    Outcome (cgiHandler calls pathPrefix root) w (fun rc w' => ∃ events,
      (rc = geminiHandlerAbort ∧ Passed w w' events ∨
        rc = geminiHandlerDone ∧ Ended w w' events) ∧
      (∀ e ∈ events, e.Inner fun _ => False) ∧
      (Leaky events ↔ calls.Pipes root (loc.path.drop pathPrefix.length)))
      fun _ w' => w' = w := by
  apply Outcome.andThen (requestPath_eq ha hk).sure
  intro file w₀ hw₀
  obtain ⟨hw₀, hfile⟩ := hw₀
  rw [hw₀, ← hfile]
  refine .bind (.checked (fun r hr => ?_) fun _ _ => rfl)
  have habort (hnone : ¬ calls.Pipes root file.octets) : ∃ events,
      ((geminiHandlerAbort : Int) = geminiHandlerAbort ∧ Passed w w events ∨
        geminiHandlerAbort = geminiHandlerDone ∧ Ended w w events) ∧
      (∀ e ∈ events, e.Inner fun _ => False) ∧ (Leaky events ↔ calls.Pipes root file.octets) :=
    ⟨[], .inl ⟨rfl, .refl w⟩, by simp, iff_of_false leaky_nil hnone⟩
  cases r with
  | none =>
    refine .pure (habort fun hp => ?_)
    obtain ⟨⟨file', prog, hfile', hprog⟩, -⟩ := hp
    rw [CStr.ext hfile', hr] at hprog
    cases hprog
  | some prog =>
    cases hargv : calls.argv with
    | false => exact .pure (habort fun hp => Bool.false_ne_true (hargv.symm.trans hp.2.1))
    | true =>
    cases henvp : calls.envp with
    | false => exact .pure (habort fun hp => Bool.false_ne_true (henvp.symm.trans hp.2.2.1))
    | true =>
    cases hpipe : calls.pipe with
    | false => exact .pure (habort fun hp => Bool.false_ne_true (hpipe.symm.trans hp.2.2.2))
    | true =>
    have hpipes : calls.Pipes root file.octets := ⟨⟨file, prog, rfl, hr⟩, hargv, henvp, hpipe⟩
    apply Outcome.andThen (openFd_kept h .pipeRead)
    intro rd w₁ hw₁
    obtain ⟨hw₁, hnone₁, htable₁⟩ := hw₁
    have h₁ := h.kept hw₁
    apply Outcome.andThen (openFd_kept h₁ .pipeWrite)
    intro wr w₂ hw₂
    obtain ⟨hw₂, hnone₂, htable₂⟩ := hw₂
    have h₂ := h₁.kept hw₂
    have hgrows₁ : w.others.Grows True w₁.others := by
      rw [htable₁]
      exact .set hnone₁ _
    cases calls.fork with
    | false =>
      refine .pure ⟨_, .inl ⟨rfl, hw₁.trans hw₂, ?_⟩, by simp [Event.Inner],
        iff_of_true (leaky_pipe _) hpipes⟩
      rw [htable₂]
      exact (hgrows₁.trans (.set hnone₂ _)).congr (iff_of_true (.inl trivial) (leaky_pipe _))
    | true =>
      have hexec : ¬ Event.Leaks (.executed prog) := id
      apply Outcome.andThen (emit_passed w₂ hexec)
      intro _ w₃ hw₃
      obtain ⟨hw₃, _⟩ := hw₃
      have h₃ := h₂.kept hw₃.toKept
      have htable₃ : w₃.others = w₁.others.set wr (some .pipeWrite) := by
        rw [hw₃.others_eq (not_leaky (by simp [Event.Leaks])), htable₂]
      apply Outcome.andThen (closeFd_kept h₃ (by rw [htable₃, FdTable.get_set_self]))
      intro _ w₄ hw₄
      obtain ⟨hw₄, htable₄⟩ := hw₄
      have h₄ := h₃.kept hw₄
      apply Outcome.sure
      apply Outcome.andThen (geminiRequestStream_sent h₄.ssl calls.block calls.reads _)
      intro rc w₅ hw₅
      obtain ⟨body, hw₅, hbody⟩ := hw₅
      have hpassed : Passed w w₄ [.opened .pipeRead, .opened .pipeWrite, .executed prog,
          .closed .pipeWrite] := by
        refine ⟨((hw₁.trans hw₂).trans hw₃.toKept).trans hw₄, ?_⟩
        rw [htable₄, htable₃, FdTable.set_set, FdTable.set_self _ hnone₂]
        exact hgrows₁.congr (iff_of_true trivial (leaky_pipe _))
      have hinner : ∀ e ∈ [Event.opened .pipeRead, .opened .pipeWrite, .executed prog,
          .closed .pipeWrite] ++ body, e.Inner fun _ => False := by
        intro e he
        rcases List.mem_append.1 he with he | he
        · simp only [List.mem_cons, List.not_mem_nil, or_false] at he
          rcases he with rfl | rfl | rfl | rfl <;> trivial
        · obtain ⟨octets, rfl⟩ := hbody e he
          trivial
      by_cases hrc : rc = 0
      · simp only [hrc, ne_eq, not_true_eq_false, ↓reduceIte]
        apply Outcome.andThen (geminiRequestClose_ended (h₄.kept hw₅.toKept))
        intro _ w' hw'
        obtain ⟨hw', _⟩ := hw'
        refine .pure ⟨_, .inr ⟨rfl, (hpassed.trans hw₅).ended hw'⟩, fun e he => ?_,
          iff_of_true (leaky_pipe _) hpipes⟩
        rcases List.mem_append.1 he with he | he
        · exact hinner e he
        · rw [List.mem_singleton.1 he]
          trivial
      · simp only [ne_eq, hrc, not_false_eq_true, ↓reduceIte]
        exact .pure ⟨_, .inl ⟨rfl, hpassed.trans hw₅⟩, hinner, iff_of_true (leaky_pipe _) hpipes⟩

end Geminon
