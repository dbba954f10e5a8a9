import Geminon.Twins

namespace Geminon
open Memory Descriptors Process LinkedList
set_option autoImplicit true

section Serving
variable {p q : Side} {t u : FdTable Desc} {w v : World} {verify : X509Store → X509 → Bool}

/-- What a turn of the dispatch loop makes of twins. -/
def Dispatching (p q : Side) (r r' : Option Bool) (w v : World) : Prop :=
  match r, r' with
  | some done, some done' => done = true ∧ done' = true ∧ Past p q w v
  | none, none => ∃ t u, Twins p q t u w v
  | _, _ => False

theorem dispatchRc_twins (hr : Ran p q rc rc' w v) :
    Coupled (dispatchRc (serveCore verify) rc) w (dispatchRc (serveCore verify) rc') v
      (Dispatching p q) (Agree p q) := by
  obtain ⟨rfl, hpast, htwins⟩ := hr
  by_cases hdone : rc = geminiHandlerDone
  · rw [hdone]
    exact .pure ⟨rfl, rfl, hpast⟩
  obtain ⟨t, u, h⟩ := htwins hdone
  unfold dispatchRc
  rw [if_neg hdone]
  split
  · exact .pure ⟨t, u, h⟩
  split
  · rw [← bind_assoc]
    apply (serveCore_past h verify 59 _).andThen
    intro _ _ w' v' hpast'
    exact .pure ⟨rfl, rfl, hpast'⟩
  · exact .pure ⟨t, u, h⟩

theorem invoke_ran (h : Twins p q t u w v) (addr : Nat) (handler : GeminiHandler) :
    Coupled ((serveCore verify).invoke addr handler) w ((serveCore verify).invoke addr handler) v
      (Ran p q) (Agree p q) := by
  refine .bind (.modifyGet (.bind (.get (.bind (.modify ?_)))))
  simp only [h.calls, h.url, h.cert]
  exact runHandler_ran ((h.called w.calls.tail).told [.invoked addr handler.pathPrefix
    handler.handler w.req.url w.req.cert]) verify _ _ _

theorem dispatchTo_twins (h : Twins p q t u w v) (addr : Nat) (handler : GeminiHandler) :
    Coupled (dispatchTo (serveCore verify) addr handler) w
      (dispatchTo (serveCore verify) addr handler) v (Dispatching p q) (Agree p q) := by
  rw [dispatchTo_eq]
  apply (requestPath_parallel 0).andThen h
  intro path w₁ v₁ h₁
  split
  · apply (invoke_ran h₁ addr handler).andThen
    intro rc rc' w₂ v₂ hr
    exact dispatchRc_twins hr
  · exact .pure ⟨t, u, h₁⟩

theorem dispatch_past (h : Twins p q t u w v) (s : Serving) :
    Coupled (dispatch (serveCore verify) s) w (dispatch (serveCore verify) s) v
      (fun _ _ w' v' => Past p q w' v') (Agree p q) := by
  have hwalk : Coupled
      (walk GeminiHandler.next s.mem (dispatchTo (serveCore verify)) (pure false)
        ((serveCore verify).fault .null) ((serveCore verify).fault .endless) s.mem.length
        s.server.first) w
      (walk GeminiHandler.next s.mem (dispatchTo (serveCore verify)) (pure false)
        ((serveCore verify).fault .null) ((serveCore verify).fault .endless) s.mem.length
        s.server.first) v
      (fun done done' w' v' => done = done' ∧
        (done = true ∧ Past p q w' v' ∨ done = false ∧ ∃ t u, Twins p q t u w' v'))
      (Agree p q) := by
    apply walk_coupled (R := fun w v => ∃ t u, Twins p q t u w v) _ _ _ _ _ _ _ _ ⟨t, u, h⟩
    · intro w v h
      exact .pure ⟨rfl, .inr ⟨rfl, h⟩⟩
    · intro w v h
      obtain ⟨t, u, h⟩ := h
      exact .throw h.agree
    · intro w v h
      obtain ⟨t, u, h⟩ := h
      exact .throw h.agree
    · intro addr handler w v h
      obtain ⟨t, u, h⟩ := h
      apply (dispatchTo_twins h addr handler).imp
      intro r r' w' v' hr
      cases r with
      | some done =>
        cases r' with
        | some done' =>
          obtain ⟨rfl, rfl, hpast⟩ := hr
          exact ⟨rfl, .inl ⟨rfl, hpast⟩⟩
        | none => exact hr
      | none =>
        cases r' with
        | some done' => exact hr
        | none => exact hr
  apply hwalk.andThen
  intro done done' w' v' hdone
  obtain ⟨rfl, ⟨rfl, hpast⟩ | ⟨rfl, t', u', h'⟩⟩ := hdone
  · exact .pure hpast
  · exact serveCore_past h' verify 51 _

theorem serveLine_past (h : Joined p q t u w v) (hcert : v.req.cert = w.req.cert) (s : Serving)
    (conn : Conn) (line : CStr) :
    Coupled (serveLine verify s conn line) w (serveLine verify s conn line) v
      (fun a b w' v' => a = b ∧ Past p q w' v') (Agree p q) := by
  unfold serveLine
  refine .bind (.checked (fun url _ => .bind (.modify ?_)) h.agree)
  have h' : Twins p q t u
      { w with req := { w.req with url := url.map (Sigma.mk _) } }
      { v with req := { v.req with url := url.map (Sigma.mk _) } } := by
    exact ⟨⟨h.agree, h.left.of_eq rfl rfl rfl rfl, h.right.of_eq rfl rfl rfl rfl, h.writes,
      h.calls⟩, rfl, hcert⟩
  cases url with
  | none =>
    apply (geminiRequestRespond_parallel 50 _).andThen h'
    intro _ w₁ v₁ h₁
    apply (geminiRequestClose_past h₁.toJoined).andThen
    intro _ _ w' v' hpast
    exact .pure ⟨rfl, hpast⟩
  | some url =>
    apply (dispatch_past h' s).andThen
    intro _ _ w' v' hpast
    exact .pure ⟨rfl, hpast⟩

theorem Joined.hungUp (h : Joined p q t u w v) :
    Coupled (do closeFd (← get).req.fd.toNat) w (do closeFd (← get).req.fd.toNat) v
      (fun _ _ w' v' => Past p q w' v') E := by
  obtain ⟨fd, hfd⟩ := h.left.held
  obtain ⟨fd', hfd'⟩ := h.right.held
  have hw : w.req.fd.toNat = fd := by
    rw [hfd.fd_eq]
    rfl
  have hv : v.req.fd.toNat = fd' := by
    rw [hfd'.fd_eq]
    rfl
  refine .bind (.get (.modify ?_))
  simp only [hw, hv, hfd.isOpen, hfd'.isOpen]
  exact ⟨h.agree.tell [.closed (.conn 0)] rfl rfl, h.left.accepted, h.right.accepted⟩

theorem serveAccepted_past (h : Joined p q t u w v) (s : Serving) (conn : Conn)
    (hw : w.incoming = ⟨conn.stream, conn.cuts⟩) (hv : v.incoming = ⟨conn.stream, conn.cuts⟩) :
    Coupled (serveAccepted verify s conn) w (serveAccepted verify s conn) v
      (fun a b w' v' => a = b ∧ Past p q w' v') (Agree p q) := by
  unfold serveAccepted
  split
  · rw [← bind_assoc]
    apply h.hungUp.andThen
    intro _ _ w' v' hpast
    exact .pure ⟨rfl, hpast⟩
  · refine .bind (.modify (.bind (.get ?_)))
    obtain ⟨r, buf, incoming, hread, hr⟩ := readRequest_eq w.buf conn.stream conn.cuts
    obtain ⟨r', buf', incoming', hread', hr'⟩ := readRequest_eq v.buf conn.stream conn.cuts
    have hsame : r = r' :=
      Option.map_injective (fun _ _ => CStr.ext) (hr.trans hr'.symm)
    subst r'
    simp only [hw, hv, hread, hread']
    apply Coupled.bind (.pure (.bind (.modify _)))
    have h' : Joined p q t u
        { w with req := { w.req with cert := conn.cert }, buf, incoming }
        { v with req := { v.req with cert := conn.cert }, buf := buf', incoming := incoming' } := by
      exact ⟨h.agree, h.left.of_eq rfl rfl rfl rfl, h.right.of_eq rfl rfl rfl rfl, h.writes,
        h.calls⟩
    cases r with
    | none =>
      apply (geminiRequestClose_past h').andThen
      intro _ _ w' v' hpast
      exact .pure ⟨rfl, hpast⟩
    | some line => exact serveLine_past h' rfl s conn line

def World.side (w : World) : Side := ⟨w.accepted, w.log⟩

/-- Whatever two processes have behind them, they serve the same connection in the same way. -/
theorem serveConn_past (verify : X509Store → X509 → Bool) (s : Serving) (conn : Conn)
    (w v : World) :
    Coupled (serveConn verify s conn) w (serveConn verify s conn) v
      (fun a b w' v' => a = b ∧ Past w.side v.side w' v') (Agree w.side v.side) := by
  refine .bind (.bind (.get (.bind (.modifyGet (.modify (.bind (.modify ?_)))))))
  have hmidway (w : World) : Midway w.accepted (w.fds.add (.conn w.accepted))
      { w with
        fds := w.fds.add (.conn w.accepted)
        accepted := w.accepted + 1
        incoming := ⟨conn.stream, conn.cuts⟩
        writes := conn.writes
        calls := conn.calls
        req := { w.req with fd := w.fds.unused, ssl := some ⟨w.accepted, false⟩ }
        log := w.log ++ [.opened (.conn w.accepted)] } :=
    ⟨rfl, rfl, w.fds.unused, rfl, FdTable.get_set_self _ _ _, rfl⟩
  have hagree : Agree w.side v.side w v := ⟨[], by simp [World.side], by simp [World.side]⟩
  exact serveAccepted_past ⟨hagree.tell [.opened (.conn 0)] rfl rfl, hmidway w, hmidway v, rfl, rfl⟩
    s conn rfl rfl

end Serving

def told (run : EStateM.Result Fault World α) : List Event :=
  match run with
  | .ok _ w => w.log
  | .error _ w => w.log

def Serving.fresh (s : Serving) : Serving := { s with server := { s.server with requests := 0 } }

/-- What is told of a connection by a server that is started for it alone. -/
def alone (verify : X509Store → X509 → Bool) (s : Serving) (fds : FdTable Desc)
    (req : GeminiRequest) (buf : Buf geminiMaxRequest) (conn : Conn) : List Event :=
  told (geminiServe verify s.fresh [conn] (.entering fds req buf))

/-- The connections of a list, from number `k` on, each with what is told of it alone. -/
def inTurn (tale : Conn → List Event) (k : Nat) : List Conn → List Event
  | [] => []
  | conn :: conns => (tale conn).map (.on k) ++ inTurn tale (k + 1) conns

section Running
variable {verify : X509Store → X509 → Bool}

theorem alone_eq (verify : X509Store → X509 → Bool) (s : Serving) (fds : FdTable Desc)
    (req : GeminiRequest) (buf : Buf geminiMaxRequest) (conn : Conn) :
    alone verify s fds req buf conn =
      told (serveConn verify s conn (.entering fds .zeroed buf)) := by
  change told ((geminiServeLoop verify s.fresh [conn]) (.entering fds .zeroed buf)) = _
  rw [geminiServeLoop]
  have hsame : serveConn verify s.fresh conn = serveConn verify s conn := rfl
  rw [hsame]
  cases hrun : serveConn verify s conn (.entering fds .zeroed buf) with
  | error fault w =>
    rw [bind_error hrun]
    rfl
  | ok counted w =>
    rw [bind_ok hrun]
    cases counted with
    | false => rfl
    | true =>
      simp only [↓reduceIte]
      split
      · rfl
      · rfl

theorem serveConn_tells (s : Serving) (fds : FdTable Desc) (req : GeminiRequest)
    (buf : Buf geminiMaxRequest) (conn : Conn) (w : World) :
    Outcome (serveConn verify s conn) w
      (fun _ w' => w'.log = w.log ++ (alone verify s fds req buf conn).map (.on w.accepted) ∧
        w'.accepted = w.accepted + 1)
      fun _ w' => w'.log = w.log ++ (alone verify s fds req buf conn).map (.on w.accepted) := by
  have hagree {v w' v' : World} (h : Agree w.side v.side w' v') (hv : v.log = []) :
      w'.log = w.log ++ v'.log.map (.on w.accepted) := by
    obtain ⟨events, hl, hr⟩ := h
    rw [hl, hr]
    simp [World.side, hv, Event.on_on, Function.comp_def]
  rw [alone_eq]
  apply (serveConn_past verify s conn w (.entering fds .zeroed buf)).outcome.mono
  · intro counted w' hw'
    obtain ⟨counted', v', hrun, -, hpast⟩ := hw'
    rw [hrun]
    exact ⟨hagree hpast.agree rfl, hpast.left⟩
  · intro fault w' hw'
    obtain ⟨v', hrun, h⟩ := hw'
    rw [hrun]
    exact hagree h rfl

theorem inTurn_concat (tale : Conn → List Event) (k : Nat) (conns : List Conn) (conn : Conn) :
    inTurn tale k (conns ++ [conn]) =
      inTurn tale k conns ++ (tale conn).map (.on (k + conns.length)) := by
  induction conns generalizing k with
  | nil => simp [inTurn]
  | cons first conns ih =>
    rw [List.cons_append, inTurn, ih, inTurn, List.append_assoc, List.length_cons,
      Nat.add_right_comm, Nat.add_assoc]

end Running

/-- A server tells of each connection what one that was started for it alone would tell. -/
theorem geminiServe_inTurn (verify : X509Store → X509 → Bool) (s : Serving) (conns : List Conn)
    (fds fds₀ : FdTable Desc) (req req₀ : GeminiRequest) (buf buf₀ : Buf geminiMaxRequest) :
    Outcome (geminiServe verify s conns) (.entering fds req buf)
      (fun r w' => ∃ served, served <+: conns ∧ (r.1 = -1 → served = conns) ∧
        w'.log = inTurn (alone verify s fds₀ req₀ buf₀) 0 served)
      fun _ w' => ∃ served, served <+: conns ∧
        w'.log = inTurn (alone verify s fds₀ req₀ buf₀) 0 served := by
  have hlog {done : List Conn} {conn : Conn} {w w' : World}
      (htold : w.log = inTurn (alone verify s fds₀ req₀ buf₀) 0 done)
      (haccepted : w.accepted = done.length)
      (hw' : w'.log = w.log ++ (alone verify s fds₀ req₀ buf₀ conn).map (.on w.accepted)) :
      w'.log = inTurn (alone verify s fds₀ req₀ buf₀) 0 (done ++ [conn]) := by
    rw [hw', htold, haccepted, inTurn_concat, Nat.zero_add]
  apply Outcome.bind (.modify _)
  -- counting requests does not change what is told of a connection alone
  apply (geminiServeLoop_rule
    (S := fun s' => alone verify s' fds₀ req₀ buf₀ = alone verify s fds₀ req₀ buf₀)
    (I := fun done w => w.log = inTurn (alone verify s fds₀ req₀ buf₀) 0 done ∧
      w.accepted = done.length)
    (E := fun done _ w => w.log = inTurn (alone verify s fds₀ req₀ buf₀) 0 done)
    conns _ _ _ rfl [] (.entering fds .zeroed buf) ⟨rfl, rfl⟩).mono
  · intro r w' hw'
    obtain ⟨served, hserved, hall, htold, -⟩ := hw'
    exact ⟨served, hserved, hall, htold⟩
  · exact fun _ _ hw' => hw'
  · exact fun _ _ hs => hs
  · intro s' done conn w hs _ hI
    apply (serveConn_tells s' fds₀ req₀ buf₀ conn w).mono
    · intro _ w' hw'
      rw [hs] at hw'
      refine ⟨hlog hI.1 hI.2 hw'.1, ?_⟩
      rw [hw'.2, hI.2, List.length_append, List.length_singleton]
    · intro _ w' hw'
      rw [hs] at hw'
      exact hlog hI.1 hI.2 hw'
  · exact fun _ _ _ hI => hI

end Geminon
