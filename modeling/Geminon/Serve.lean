import Geminon.Handlers
import Geminon.Dispatch

namespace Geminon
open Memory Descriptors Process LinkedList
set_option autoImplicit true

/-- A connection that is waiting to be accepted, with all that becomes of its calls. -/
structure Conn where
  handshake : Bool
  cert : Option X509
  stream : List UInt8
  cuts : List Nat
  writes : List (Option Nat)
  url : UrlMalloc
  calls : List Calls

def acceptConn (conn : Conn) : Proc World Unit := do
  let i := (← get).accepted
  let fd ← openFd (.conn i)
  modify fun w => { w with
    accepted := i + 1
    incoming := ⟨conn.stream, conn.cuts⟩
    writes := conn.writes
    calls := conn.calls
    req.fd := fd }

def sslNew : Proc World Unit :=
  modify fun w => { w with req.ssl := some ⟨w.accepted - 1, false⟩ }

def serveLine (verify : X509Store → X509 → Bool) (s : Serving) (conn : Conn) (line : CStr) :
    Proc World Bool := do
  let url ← checked (geminiParseUrl conn.url line)
  modify fun w => { w with req.url := url.map (Sigma.mk _) }
  match url with
  | none =>
    let _ ← geminiRequestRespond 50 (.ofString "Bad URL")
    geminiRequestClose
    pure false
  | some _ =>
    dispatch (serveCore verify) s
    pure true

def serveAccepted (verify : X509Store → X509 → Bool) (s : Serving) (conn : Conn) :
    Proc World Bool := do
  if !conn.handshake then
    closeFd (← get).req.fd.toNat
    pure false
  else
    modify fun w => { w with req.cert := conn.cert }
    let w ← get
    let (line, buf, incoming) ← checked (readRequest w.buf w.incoming)
    modify fun w => { w with buf, incoming }
    match line with
    | none =>
      geminiRequestClose
      pure false
    | some line => serveLine verify s conn line

/-- A turn of the loop of `gemini_serve`; it returns whether the request is counted. -/
def serveConn (verify : X509Store → X509 → Bool) (s : Serving) (conn : Conn) :
    Proc World Bool := do
  acceptConn conn
  sslNew
  serveAccepted verify s conn

/-- The loop over the connections that come in; `accept` fails once there are no more. -/
def geminiServeLoop (verify : X509Store → X509 → Bool) (s : Serving) :
    List Conn → Proc World (Int × Serving)
  | [] => do
    modify fun w => { w with req.fd := -1 }
    pure (-1, s)
  | conn :: conns => do
    if ← serveConn verify s conn then
      let s := { s with server.requests := s.server.requests + 1 }
      if 0 < s.server.maxRequests ∧ s.server.maxRequests < s.server.requests then pure (0, s)
      else geminiServeLoop verify s conns
    else geminiServeLoop verify s conns

def geminiServe (verify : X509Store → X509 → Bool) (s : Serving) (conns : List Conn) :
    Proc World (Int × Serving) := do
  modify fun w => { w with req := .zeroed }
  geminiServeLoop verify s conns

/-- A process about to enter `gemini_serve`, with anything in the objects it is going to use. -/
def World.entering (fds : FdTable Desc) (req : GeminiRequest) (buf : Buf geminiMaxRequest) :
    World where
  fds := fds
  accepted := 0
  incoming := ⟨[], []⟩
  writes := []
  calls := []
  req := req
  buf := buf
  log := []

/-- The rule of the accept loop: an invariant over the connections served so far. -/
theorem geminiServeLoop_rule {verify : X509Store → X509 → Bool} {S : Serving → Prop}
    {I : List Conn → World → Prop} {E : List Conn → Fault → World → Prop} (conns : List Conn)
    (hcount : ∀ s requests, S s → S { s with server := { s.server with requests } })
    (hstep : ∀ s done conn w, S s → conn ∈ conns → I done w →
      Outcome (serveConn verify s conn) w (fun _ w' => I (done ++ [conn]) w')
        (E (done ++ [conn])))
    (hend : ∀ done w req, I done w → I done { w with req := req })
    (hs : S s) (done : List Conn) (w : World) (h : I done w) :
    Outcome (geminiServeLoop verify s conns) w
      (fun r w' => ∃ served, served <+: conns ∧ (r.1 = -1 → served = conns) ∧
        I (done ++ served) w')
      fun fault w' => ∃ served, served <+: conns ∧ E (done ++ served) fault w' := by
  induction conns generalizing s done w with
  | nil =>
    refine .bind (.modify (.pure ⟨[], List.prefix_rfl, fun _ => rfl, ?_⟩))
    rw [List.append_nil]
    exact hend done w _ h
  | cons conn conns ih =>
    have hrest {s : Serving} (hs : S s) (w₁ : World) (h₁ : I (done ++ [conn]) w₁) :
        Outcome (geminiServeLoop verify s conns) w₁
          (fun r w' => ∃ served, served <+: conn :: conns ∧ (r.1 = -1 → served = conn :: conns) ∧
            I (done ++ served) w')
          fun fault w' => ∃ served, served <+: conn :: conns ∧ E (done ++ served) fault w' := by
      apply (ih (fun s done conn w hs hc => hstep s done conn w hs (List.mem_cons_of_mem _ hc))
        hs _ w₁ h₁).mono
      · intro r w' hw'
        obtain ⟨served, hserved, hall, hI⟩ := hw'
        rw [List.append_assoc, List.singleton_append] at hI
        exact ⟨conn :: served, (List.prefix_cons_inj conn).2 hserved, fun hr => by rw [hall hr], hI⟩
      · intro fault w' hw'
        obtain ⟨served, hserved, hE⟩ := hw'
        rw [List.append_assoc, List.singleton_append] at hE
        exact ⟨conn :: served, (List.prefix_cons_inj conn).2 hserved, hE⟩
    apply Outcome.bind
    apply (hstep s done conn w hs List.mem_cons_self h).mono
    · intro counted w₁ h₁
      cases counted with
      | false => exact hrest hs w₁ h₁
      | true =>
        simp only [↓reduceIte]
        split
        · refine .pure ⟨[conn], by simp, fun hr => ?_, h₁⟩
          cases hr
        · exact hrest (hcount s _ hs) w₁ h₁
    · intro fault w' hE
      exact ⟨[conn], by simp, hE⟩

section Dispatching
variable {verify : X509Store → X509 → Bool} {handler : GeminiHandler}

theorem serveCore_passed (ha : Asks w loc) (addr : Nat)
    (h : ¬ handler.pathPrefix.octets <+: loc.path) :
    Outcome (dispatchTo (serveCore verify) addr handler) w (fun r w' => r = none ∧ w' = w)
      fun _ _ => False := by
  rw [dispatchTo_eq]
  apply Outcome.andThen (requestPath_eq ha (Nat.zero_le _))
  intro path w' hw'
  obtain ⟨hw', hpath⟩ := hw'
  rw [List.drop_zero] at hpath
  rw [hpath, if_neg h]
  exact .pure ⟨rfl, hw'⟩

def World.invoking (w : World) (addr : Nat) (e : Entry) : World :=
  { w with
    calls := w.calls.tail
    log := w.log ++ [.invoked addr e.1 e.2 w.req.url w.req.cert] }

theorem invoking_passed (w : World) (addr : Nat) (e : Entry) :
    Passed w (w.invoking addr e) [.invoked addr e.1 e.2 w.req.url w.req.cert] :=
  ⟨⟨rfl, rfl, fun _ _ _ => rfl, rfl⟩, .refl _ (not_leaky (by simp [Event.Leaks]))⟩

theorem serveCore_matched (ha : Asks w loc) (addr : Nat)
    (h : handler.pathPrefix.octets <+: loc.path) {Q : Option Bool → World → Prop}
    (hrun : Outcome (runHandler verify (w.calls.headD .failing) handler.pathPrefix
      handler.handler) (w.invoking addr handler.entry)
      (fun rc w' => Outcome (dispatchRc (serveCore verify) rc) w' Q E) E) :
    Outcome (dispatchTo (serveCore verify) addr handler) w Q E := by
  rw [dispatchTo_eq]
  apply Outcome.andThen (requestPath_eq ha (Nat.zero_le _)).sure
  intro path w' hw'
  obtain ⟨hw', hpath⟩ := hw'
  rw [List.drop_zero] at hpath
  rw [hpath, if_pos h, hw']
  exact .bind (.bind (.modifyGet (.bind (.get (.bind (.modify hrun))))))

end Dispatching

end Geminon
