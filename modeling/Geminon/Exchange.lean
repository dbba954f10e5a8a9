import Geminon.Course

namespace Geminon
open Memory Descriptors Process LinkedList
set_option autoImplicit true

/-- What a handler makes of the events so far: `R` if the search ends with it, and else `P`. -/
def MovesOn (i : Nat) (P R : List Event → Prop) (front : List Event) (w : World) (rc : Int)
    (w' : World) : Prop :=
  ∃ events,
    rc = geminiHandlerDone ∧ Ended w w' events ∧ R (front ++ events) ∨
    rc = geminiHandlerAbort ∧ Passed w w' events ∧ (∀ sent, (∀ e ∈ sent, IsSent i e) →
      R (front ++ events ++ .responded i 59 :: (sent ++ [.closed (.conn i)]))) ∨
    ¬ Answers rc ∧ Passed w w' events ∧ P (front ++ events)

/-- What is known in the course of a dispatch: `P` of the events so far, and `R` in the end. -/
structure Course (verify : X509Store → X509 → Bool) (i : Nat) (loc : Location)
    (cert : Option X509) (P : List Entry → List Calls → List Event → Prop)
    (R : List Event → Prop) (E : Fault → World → Prop) : Prop where
  skip : ∀ {e : Entry} {rest calls l}, ¬ e.1.octets <+: loc.path → P (e :: rest) calls l →
    P rest calls l
  turn : ∀ {e : Entry} {rest calls l w fd} addr url cert', e.1.octets <+: loc.path →
    P (e :: rest) calls l → Held i w fd → Asks w loc → w.req.cert = cert →
    Outcome (runHandler verify (calls.headD .failing) e.1 e.2) w
      (MovesOn i (P rest calls.tail) R (l ++ [.invoked addr e.1 e.2 url cert']) w) E
  finish : ∀ {calls l} sent, P [] calls l → (∀ e ∈ sent, IsSent i e) →
    R (l ++ .responded i 51 :: (sent ++ [.closed (.conn i)]))

section Dispatching
variable {R : List Event → Prop} {E : Fault → World → Prop} {verify : X509Store → X509 → Bool}

theorem serveCore_answer (h : Held i w fd) (status : Int) (text : CStr) :
    Outcome (do
      (serveCore verify).respond status text
      (serveCore verify).close) w (fun _ w' => ∃ sent,
        Ended w w' (.responded i status :: (sent ++ [.closed (.conn i)])) ∧
          ∀ e ∈ sent, IsSent i e) fun _ _ => False := by
  have hrespond : Outcome ((serveCore verify).respond status text) w (fun _ w' => ∃ sent,
      Passed w w' (.responded i status :: sent) ∧ ∀ e ∈ sent, IsSent i e) fun _ _ => False :=
    .andThen (geminiRequestRespond_sent h.ssl status text) fun _ _ hw' => .pure hw'
  apply hrespond.andThen
  intro _ w₁ hw₁
  obtain ⟨sent, hw₁, hsent⟩ := hw₁
  apply (geminiRequestClose_ended (h.kept hw₁.toKept)).imp
  intro _ w' hw'
  exact ⟨sent, hw₁.ended hw'.1, hsent⟩

theorem dispatchRc_outcome {P : List Event → Prop} (h : Held i w fd) (hw : Passed w w₁ front)
    (hrc : MovesOn i P R front w₁ rc w₂) :
    Outcome (dispatchRc (serveCore verify) rc) w₂ (fun r w' => match r with
      | some done => done = true ∧ ∃ events, Ended w w' events ∧ R events
      | none => w' = w₂ ∧ ∃ events, Passed w w' events ∧ P events) fun _ _ => False := by
  obtain ⟨events, ⟨rfl, hw₂, hR⟩ | ⟨rfl, hw₂, hR⟩ | ⟨hpass, hw₂, hP⟩⟩ := hrc
  · exact .pure ⟨rfl, _, hw.ended hw₂, hR⟩
  · change Outcome (do
      (serveCore verify).respond 59 (.ofString "Internal Error")
      (serveCore verify).close
      pure (some true)) w₂ _ _
    rw [← bind_assoc]
    have hall := hw.trans hw₂
    apply Outcome.andThen (serveCore_answer (h.kept hall.toKept) 59 _)
    intro _ w' hw'
    obtain ⟨sent, hw', hsent⟩ := hw'
    exact .pure ⟨rfl, _, hall.ended hw', hR sent hsent⟩
  · have hdone : rc ≠ geminiHandlerDone := fun he => hpass (.inl he)
    have habort : rc ≠ geminiHandlerAbort := fun he => hpass (.inr he)
    unfold dispatchRc
    rw [if_neg hdone, if_neg habort, ite_self]
    exact .pure ⟨rfl, _, hw.trans hw₂, hP⟩

/-- The rule of the dispatch: it follows a course to its end. -/
theorem dispatch_ended {P : List Entry → List Calls → List Event → Prop}
    (hc : Course verify i loc cert P R E) (hs : Holds s entries) (h : Held i w fd)
    (ha : Asks w loc) (hcert : w.req.cert = cert) (hP : P (entries.map Prod.snd) calls [])
    (hcalls : w.calls = calls) :
    Outcome (dispatch (serveCore verify) s) w (fun _ w' => ∃ events, Ended w w' events ∧
      R events) E := by
  obtain ⟨nodes, hnodes, heq⟩ := hs.dispatch_eq (serveCore verify)
  rw [heq]
  have hentries : entries.map Prod.snd = nodes.map fun n => n.2.entry := by
    rw [← hnodes, List.map_map]
    rfl
  rw [hentries, ← hcalls] at hP
  have hloop : Outcome (walkList (dispatchTo (serveCore verify)) (pure false) nodes) w
      (fun done w' => done = true ∧ (∃ events, Ended w w' events ∧ R events) ∨
        done = false ∧ ∃ events calls, Passed w w' events ∧ P [] calls events) E := by
    refine walkList_outcome (I := fun nodes w' => ∃ events, Passed w w' events ∧
      P (nodes.map fun n => n.2.entry) w'.calls events) ?_ ?_ _ w ⟨[], .refl w, hP⟩
    · intro w' hw'
      obtain ⟨events, hw', hP⟩ := hw'
      exact .pure (.inr ⟨rfl, events, _, hw', hP⟩)
    · intro addr handler rest w₁ hw₁
      obtain ⟨events, hw₁, hP⟩ := hw₁
      have ha₁ := ha.kept hw₁.toKept
      by_cases hpre : handler.pathPrefix.octets <+: loc.path
      · apply serveCore_matched ha₁ addr hpre
        have hinv := invoking_passed w₁ addr handler.entry
        have hw₂ := hw₁.trans hinv
        have hcert₂ : (w₁.invoking addr handler.entry).req.cert = cert := by rw [hw₂.req, hcert]
        have hturn := hc.turn addr w₁.req.url w₁.req.cert hpre hP (h.kept hw₂.toKept)
          (ha.kept hw₂.toKept) hcert₂
        have hinvoked : (w₁.invoking addr handler.entry).calls = w₁.calls.tail := rfl
        have hlater := runHandler_calls verify (w₁.calls.headD .failing) handler.pathPrefix
          handler.handler _ hinvoked
        apply (hturn.and hlater).mono _ fun _ _ he => he.1
        intro rc w₃ hrc
        apply (dispatchRc_outcome h hw₂ hrc.1).sure.imp
        intro r w' hr
        cases r with
        | some done => exact .inl hr
        | none =>
          obtain ⟨rfl, events', hw', hP'⟩ := hr
          exact ⟨events', hw', by rw [hrc.2]; exact hP'⟩
      · apply (serveCore_passed ha₁ addr hpre).sure.imp
        intro r w' hw'
        obtain ⟨rfl, rfl⟩ := hw'
        exact ⟨events, hw₁, hc.skip hpre hP⟩
  apply Outcome.andThen hloop
  intro done w₁ hw₁
  obtain ⟨rfl, hended⟩ | ⟨rfl, events, calls, hw₁, hP⟩ := hw₁
  · exact .pure hended
  · apply (serveCore_answer (h.kept hw₁.toKept) 51 _).sure.imp
    intro _ w' hw'
    obtain ⟨sent, hw', hsent⟩ := hw'
    exact ⟨_, hw₁.ended hw', hc.finish sent hP hsent⟩

end Dispatching

/-- Connection `w.accepted` has been accepted, and no descriptor has changed since. -/
structure Accepted (w w' : World) : Prop where
  fds : w'.fds = w.fds.add (.conn w.accepted)
  accepted : w'.accepted = w.accepted + 1
  fd : w'.req.fd = w.fds.unused
  ssl : w'.req.ssl = some ⟨w.accepted, false⟩
  log : w'.log = w.log ++ [.opened (.conn w.accepted)]

theorem Accepted.held (h : Accepted w w') : Held w.accepted w' w.fds.unused :=
  ⟨h.fd, by rw [h.fds]; exact FdTable.get_set_self _ _ _, h.ssl⟩

theorem Accepted.others (h : Accepted w w') : w'.others = w.fds := by
  rw [h.held.others, h.fds]
  exact w.fds.close_add _

def Conn.Rejected (conn : Conn) : Prop :=
  conn.handshake = false ∨ ∀ line, ¬ IsRequestLine conn.stream line

def Conn.Requests (conn : Conn) (loc : Location) : Prop :=
  conn.handshake = true ∧ IsRequestLine conn.stream loc.text

theorem Conn.Requests.not_rejected (h : Conn.Requests conn loc) : ¬ conn.Rejected := by
  intro hrejected
  obtain hno | hno := hrejected
  · rw [h.1] at hno
    cases hno
  · exact hno _ h.2

theorem Conn.Requests.eq_path (h : Conn.Requests conn loc) (h' : Conn.Requests conn loc') :
    loc.path = loc'.path := by
  have htext : loc.text = loc'.text :=
    Option.some.inj ((requestLine_eq_some.2 h.2).symm.trans (requestLine_eq_some.2 h'.2))
  have hmax : geminiMaxRequest = 8192 := rfl
  have hfits := h.2.fits
  exact (Location.eq_of_text htext h.2.noNul).2.2

theorem IsRequestLine.countable {line : CStr} (hl : IsRequestLine stream line.octets) :
    line.length < 2 ^ 32 - 1 := by
  have hfits := hl.fits
  have hmax : geminiMaxRequest = 8192 := rfl
  have heq : line.octets.length = line.length := rfl
  omega

/-- The connection brings a request for a location whose URL finds memory: it is dispatched. -/
def Conn.Dispatched (conn : Conn) (loc : Location) : Prop :=
  conn.Requests loc ∧ ∃ line : CStr, line.octets = loc.text ∧ (conn.url (urlLen line)).isSome

theorem Conn.Dispatched.parsed (h : Conn.Dispatched conn loc) {line : CStr}
    (hl : IsRequestLine conn.stream line.octets) :
    ∃ url, geminiParseUrl conn.url line = .ok (some url) := by
  obtain ⟨hrequests, line', hloc, hmem⟩ := h
  have hline : line.octets = loc.text :=
    Option.some.inj ((requestLine_eq_some.2 hl).symm.trans (requestLine_eq_some.2 hrequests.2))
  obtain rfl : line' = line := CStr.ext (hloc.trans hline.symm)
  obtain ⟨block, hblock⟩ := Option.isSome_iff_exists.1 hmem
  obtain ⟨url, hsome, _⟩ := geminiParseUrl_text hl.countable hblock hloc
  exact ⟨url, hsome⟩

/-- A connection's request comes to a handler, with what becomes of the calls made there. -/
def Conn.ComesTo (verify : X509Store → X509 → Bool) (entries : List Entry) (conn : Conn)
    (loc : Location) (x : Entry) (c : Calls) : Prop :=
  conn.Dispatched loc ∧ Comes verify loc conn.cert entries conn.calls x c

theorem Conn.ComesTo.of_dispatched (h : Conn.ComesTo verify entries conn loc x c)
    (hd : conn.Dispatched loc') : conn.ComesTo verify entries loc' x c := by
  have htext : loc.text = loc'.text :=
    Option.some.inj ((requestLine_eq_some.2 h.1.1.2).symm.trans (requestLine_eq_some.2 hd.1.2))
  obtain ⟨hhost, hport, hpath⟩ := Location.eq_of_text htext h.1.1.2.noNul
  exact ⟨hd, h.2.congr hhost hport hpath⟩

/-- What one turn of the loop of `gemini_serve` does. -/
structure Served (conn : Conn) (R : List Event → Prop) (w w' : World) (events : List Event) :
    Prop where
  log : w'.log = w.log ++ (.opened (.conn w.accepted) :: events)
  accepted : w'.accepted = w.accepted + 1
  grows : w.fds.Grows (Leaky events) w'.fds
  rejected : conn.Rejected → events = [.closed (.conn w.accepted)]
  answered : ¬ conn.Rejected → R events

theorem Ended.fds (h : Ended w w' events) : w'.others = w'.fds := by
  rw [World.others, h.req]
  rfl

theorem Accepted.served (hr : Accepted w w₁) (h : Ended w₁ w' events)
    (hrejected : conn.Rejected → events = [.closed (.conn w.accepted)])
    (hanswered : ¬ conn.Rejected → R events) : Served conn R w w' events where
  log := by rw [h.log, hr.log, List.append_assoc, List.singleton_append]
  accepted := h.accepted.trans hr.accepted
  grows := by
    rw [← hr.others, ← h.fds]
    exact h.grows
  rejected := hrejected
  answered := hanswered

section Serving
variable {R : List Event → Prop} {E : Fault → World → Prop} {verify : X509Store → X509 → Bool}

theorem serveLine_outcome (hs : Holds s entries) (hr : Accepted w w₁)
    (hcert : w₁.req.cert = conn.cert) (hcalls : w₁.calls = conn.calls)
    (hshake : conn.handshake = true) {line : CStr} (hl : IsRequestLine conn.stream line.octets)
    (hbad : (∀ loc, ¬ conn.Dispatched loc) → ∀ sent, (∀ e ∈ sent, IsSent w.accepted e) →
      R (.responded w.accepted 50 :: (sent ++ [.closed (.conn w.accepted)])))
    (hgo : ∀ loc, conn.Dispatched loc → ∃ P, Course verify w.accepted loc conn.cert P R E ∧
      P (entries.map Prod.snd) conn.calls []) :
    Outcome (serveLine verify s conn line) w₁ (fun _ w' => ∃ events, Ended w₁ w' events ∧
      R events) E := by
  have hlen := hl.countable
  unfold serveLine
  refine .bind (.checked (fun url hurl => ?_)
    fun fault he => absurd he (geminiParseUrl_safe _ _ hlen fault))
  apply Outcome.bind (.modify _)
  have hr₂ (u : Option (Sigma GeminiUrl)) :
      Accepted w { w₁ with req := { w₁.req with url := u } } :=
    ⟨hr.fds, hr.accepted, hr.fd, hr.ssl, hr.log⟩
  cases url with
  | none =>
    apply (respondAndClose_ended (hr₂ none).held 50 _ _).sure.imp
    intro _ w' hw'
    obtain ⟨rfl, sent, hw', hsent⟩ := hw'
    refine ⟨_, ⟨hw'.req, hw'.accepted, hw'.log, hw'.grows⟩, hbad ?_ sent hsent⟩
    intro loc hloc
    obtain ⟨url, hsome⟩ := hloc.parsed hl
    rw [hurl] at hsome
    cases hsome
  | some url =>
    obtain ⟨loc, hline⟩ := location_of_geminiParseUrl hurl
    obtain ⟨block, hmem, _⟩ := geminiParseUrl_eq_some.1 hurl
    have ha : Asks { w₁ with req := { w₁.req with url := some ⟨_, url⟩ } } loc :=
      ⟨_, url, rfl, denotes_of_geminiParseUrl hurl hline⟩
    obtain ⟨P, hc, hP⟩ := hgo loc ⟨⟨hshake, hline ▸ hl⟩, line, hline, by rw [hmem]; rfl⟩
    apply Outcome.andThen (dispatch_ended hc hs (hr₂ (some ⟨_, url⟩)).held ha hcert hP hcalls)
    intro _ w' hw'
    obtain ⟨events, hw', hR⟩ := hw'
    exact .pure ⟨events, ⟨hw'.req, hw'.accepted, hw'.log, hw'.grows⟩, hR⟩

theorem serveAccepted_outcome (hs : Holds s entries) (hr : Accepted w w₁)
    (hin : w₁.incoming = ⟨conn.stream, conn.cuts⟩) (hcalls : w₁.calls = conn.calls)
    (hbad : (∀ loc, ¬ conn.Dispatched loc) → ∀ sent, (∀ e ∈ sent, IsSent w.accepted e) →
      R (.responded w.accepted 50 :: (sent ++ [.closed (.conn w.accepted)])))
    (hgo : ∀ loc, conn.Dispatched loc → ∃ P, Course verify w.accepted loc conn.cert P R E ∧
      P (entries.map Prod.snd) conn.calls []) :
    Outcome (serveAccepted verify s conn) w₁ (fun _ w' => ∃ events, Served conn R w w' events)
      E := by
  unfold serveAccepted
  cases hshake : conn.handshake with
  | false =>
    have hfd : w₁.req.fd.toNat = w.fds.unused := by
      rw [hr.fd]
      rfl
    have hopen := hr.held.isOpen
    refine .bind (.get (.bind (.modify (.pure ?_))))
    simp only [hfd, hopen]
    refine ⟨[.closed (.conn w.accepted)], ?_, hr.accepted, ?_, fun _ => rfl, ?_⟩
    · simp [hr.log]
    · have hback : w₁.fds.close w.fds.unused = w.fds := by
        rw [hr.fds]
        exact w.fds.close_add _
      simp only [hback]
      exact .refl _ (not_leaky (by simp [Event.Leaks]))
    · exact fun hrej => absurd (.inl hshake) hrej
  | true =>
    refine .bind (.modify (.bind (.get ?_)))
    obtain ⟨r, buf, incoming, hread, hline⟩ := readRequest_eq w₁.buf conn.stream conn.cuts
    simp only [hin, hread]
    apply Outcome.bind (.pure (.bind (.modify _)))
    have hr₂ : Accepted w { w₁ with
        req := { w₁.req with cert := conn.cert }, buf := buf, incoming := incoming } :=
      ⟨hr.fds, hr.accepted, hr.fd, hr.ssl, hr.log⟩
    cases r with
    | none =>
      have hrej : conn.Rejected := by
        refine .inr fun line hl => ?_
        rw [← requestLine_eq_some, ← hline] at hl
        cases hl
      apply Outcome.andThen (geminiRequestClose_ended hr₂.held).sure
      intro _ w' hw'
      obtain ⟨hw', _⟩ := hw'
      exact .pure ⟨_, hr₂.served hw' (fun _ => rfl) fun hn => absurd hrej hn⟩
    | some line =>
      have hl : IsRequestLine conn.stream line.octets := requestLine_eq_some.1 hline.symm
      have hreq : ¬ conn.Rejected := by
        intro hrejected
        obtain hno | hno := hrejected
        · rw [hshake] at hno
          cases hno
        · exact hno _ hl
      apply (serveLine_outcome hs hr₂ rfl hcalls hshake hl hbad hgo).imp
      intro _ w' hw'
      obtain ⟨events, hw', hR⟩ := hw'
      exact ⟨events, hr₂.served hw' (fun hrej => absurd hrej hreq) fun _ => hR⟩

/-- The rule of one turn of the loop of `gemini_serve`. -/
theorem serveConn_outcome (hs : Holds s entries)
    (hbad : (∀ loc, ¬ conn.Dispatched loc) → ∀ sent, (∀ e ∈ sent, IsSent w.accepted e) →
      R (.responded w.accepted 50 :: (sent ++ [.closed (.conn w.accepted)])))
    (hgo : ∀ loc, conn.Dispatched loc → ∃ P, Course verify w.accepted loc conn.cert P R E ∧
      P (entries.map Prod.snd) conn.calls []) :
    Outcome (serveConn verify s conn) w (fun _ w' => ∃ events, Served conn R w w' events) E := by
  refine .bind (.bind (.get (.bind (.modifyGet (.modify (.bind (.modify ?_)))))))
  exact serveAccepted_outcome hs ⟨rfl, rfl, rfl, rfl, rfl⟩ rfl rfl hbad hgo

end Serving

theorem Holds.counted (h : Holds s entries) (requests : UInt32) :
    Holds { s with server := { s.server with requests := requests } } entries :=
  ⟨h.queue, h.nodes⟩

/-- The rule of the accept loop for a server that holds the same handlers throughout. -/
theorem geminiServeLoop_outcome {verify : X509Store → X509 → Bool} {E : Fault → World → Prop}
    {I : List Conn → World → Prop} (conns : List Conn)
    (hstep : ∀ s done conn w, Holds s entries → conn ∈ conns → I done w →
      Outcome (serveConn verify s conn) w (fun _ w' => I (done ++ [conn]) w') E)
    (hend : ∀ done w req, I done w → I done { w with req := req })
    (hs : Holds s entries) (done : List Conn) (w : World) (h : I done w) :
    Outcome (geminiServeLoop verify s conns) w (fun r w' => ∃ served, served <+: conns ∧
      (r.1 = -1 → served = conns) ∧ I (done ++ served) w') E := by
  apply (geminiServeLoop_rule (S := fun s => Holds s entries) (E := fun _ => E) conns
    (fun _ requests hs => hs.counted requests) hstep hend hs done w h).mono
  · exact fun _ _ hr => hr
  · intro fault w' hw'
    obtain ⟨_, _, hE⟩ := hw'
    exact hE

theorem geminiServe_outcome {verify : X509Store → X509 → Bool} {E : Fault → World → Prop}
    {I : List Conn → World → Prop} (conns : List Conn)
    (hstep : ∀ s done conn w, Holds s entries → conn ∈ conns → I done w →
      Outcome (serveConn verify s conn) w (fun _ w' => I (done ++ [conn]) w') E)
    (hend : ∀ done w req, I done w → I done { w with req := req })
    (hs : Holds s entries) (w : World) (h : I [] w) :
    Outcome (geminiServe verify s conns) w (fun r w' => ∃ served, served <+: conns ∧
      (r.1 = -1 → served = conns) ∧ I served w') E :=
  .bind (.modify (geminiServeLoop_outcome conns hstep hend hs [] _ (hend [] w _ h)))

end Geminon
