import Geminon.Reach

namespace Geminon
open Memory Descriptors Process LinkedList
set_option autoImplicit true

/-- The handlers that answer by one call of `gemini_request_respond`. -/
def Handler.Plain : Handler → Prop
  | .echo => True
  | .fs _ => True
  | .authn _ => True
  | .vhosts urls => AllParsed urls
  | _ => False

structure AnsweredOnce (i : Nat) (events : List Event) : Prop where
  own : ∀ e ∈ events, ∀ j, e.connection = some j → j = i
  reply : ∃ status sent,
    history i events = .responded i status :: (sent ++ [.closed (.conn i)]) ∧
      ∀ e ∈ sent, IsSent i e

theorem Replied.answeredOnce (h : Replied i status opens events) : AnsweredOnce i events :=
  ⟨h.own, status, h.reply⟩

theorem answeredOnce_of_sent (hsent : ∀ e ∈ sent, IsSent i e) (status : Int) :
    AnsweredOnce i (.responded i status :: (sent ++ [.closed (.conn i)])) :=
  (Replied.of_sent (fun _ => True) status hsent (.nil _)).answeredOnce

theorem AnsweredOnce.after (h : AnsweredOnce i l') (hl : Unseen l) : AnsweredOnce i (l ++ l') where
  own e he j hj := by
    rcases List.mem_append.1 he with he | he
    · rw [hl e he] at hj
      cases hj
    · exact h.own e he j hj
  reply := by
    rw [history_append, hl.history, List.nil_append]
    exact h.reply

/-- Static files that a request comes to resolve their part of the path within the buffers. -/
def Bears (loc : Location) (x : Entry) (c : Calls) : Prop :=
  ∀ root, x.2 = .fs root → found c.root root = true → c.resolve = true →
    Fits (loc.path.drop x.1.length)

theorem runHandler_reply (h : Held i w fd) (ha : Asks w loc) {e : Entry}
    (hpre : e.1.octets <+: loc.path) (he : e.2.Plain) (hbears : Bears loc e c) :
    Outcome (runHandler verify c e.1 e.2) w (fun rc w' => ∃ events,
      rc = geminiHandlerDone ∧ Ended w w' events ∧ AnsweredOnce i events ∨
        rc = geminiHandlerContinue ∧ Passed w w' events ∧ Unseen events ∧
          e.2.Yields verify loc w.req.cert c e.1) fun _ _ => False := by
  obtain ⟨pathPrefix, handler⟩ := e
  have hk : pathPrefix.length ≤ loc.path.length := hpre.length_le
  cases handler with
  | echo =>
    apply (echoHandler_outcome h ha fun _ => True).imp
    intro rc w' hw'
    obtain ⟨rfl, events, hw', hreplied, -⟩ := hw'
    exact ⟨events, .inl ⟨rfl, hw', hreplied.answeredOnce⟩⟩
  | cgi root => exact he.elim
  | fs root =>
    refine (sHandlerFs_outcome h ha c hk root).mono ?_ fun _ _ hb =>
      not_breaks (hbears root rfl hb.root_found hb.resolve) hb.breaks
    intro rc w' hw'
    obtain ⟨events, ⟨rfl, hw', hsilent⟩ | ⟨rfl, hw', hreplied⟩, -, -, hfinds, -⟩ := hw'
    · exact ⟨events, .inr ⟨rfl, hw', hsilent.unseen,
        fun hf => absurd (hfinds.2 hf) (by decide)⟩⟩
    · exact ⟨events, .inl ⟨rfl, hw', hreplied.answeredOnce⟩⟩
  | authn store =>
    apply (sHandlerAuthn_outcome h verify store fun _ => True).imp
    intro rc w' hw'
    obtain ⟨hadmits, rfl, rfl⟩ | ⟨_, rfl, events, _, _, hw', hreplied, -⟩ := hw'
    · exact ⟨[], .inr ⟨rfl, .refl _, .nil, hadmits⟩⟩
    · exact ⟨events, .inl ⟨rfl, hw', hreplied.answeredOnce⟩⟩
  | vhosts urls =>
    apply (sHandlerVhosts_outcome h ha he fun _ => True).imp
    intro rc w' hw'
    obtain ⟨hserves, rfl, rfl⟩ | ⟨_, rfl, events, hw', hreplied, -⟩ := hw'
    · exact ⟨[], .inr ⟨rfl, .refl _, .nil, hserves.hosts⟩⟩
    · exact ⟨events, .inl ⟨rfl, hw', hreplied.answeredOnce⟩⟩
  | user fn => exact he.elim

theorem course_reply (verify : X509Store → X509 → Bool) (i : Nat) (loc : Location)
    (cert : Option X509) :
    Course verify i loc cert (fun rest calls l => Unseen l ∧ (∀ e ∈ rest, e.2.Plain) ∧
      ∀ x c, Comes verify loc cert rest calls x c → Bears loc x c) (AnsweredOnce i)
      fun _ _ => False where
  skip hpre hP :=
    ⟨hP.1, fun e he => hP.2.1 e (List.mem_cons_of_mem _ he),
      fun x c hx => hP.2.2 x c (.skip hpre hx)⟩
  turn {e rest calls l w fd} addr url cert' hpre hP h ha hcert := by
    obtain ⟨hl, hplain, hbears⟩ := hP
    have hl' : Unseen (l ++ [.invoked addr e.1 e.2 url cert']) := hl.append (.singleton rfl)
    apply (runHandler_reply h ha hpre (hplain e List.mem_cons_self)
      (hbears e _ (.here hpre))).imp
    intro rc w' hw'
    obtain ⟨events, ⟨rfl, hw', hanswered⟩ | ⟨rfl, hw', hunseen, hyields⟩⟩ := hw'
    · exact ⟨events, .inl ⟨rfl, hw', hanswered.after hl'⟩⟩
    · rw [hcert] at hyields
      exact ⟨events, .inr (.inr ⟨by decide, hw', hl'.append hunseen,
        fun e he => hplain e (List.mem_cons_of_mem _ he),
        fun x c hx => hbears x c (.pass hpre hyields hx)⟩)⟩
  finish sent hP hsent := (answeredOnce_of_sent hsent 51).after hP.1

/-- Accepted and closed, with one status line in between unless no request could be read. -/
def WellServed (conn : Conn) (i : Nat) (log : List Event) : Prop :=
  (conn.Rejected → history i log = [.opened (.conn i), .closed (.conn i)]) ∧
    (¬ conn.Rejected → ∃ status sent, history i log =
      .opened (.conn i) :: .responded i status :: (sent ++ [.closed (.conn i)]) ∧
        ∀ e ∈ sent, IsSent i e)

/-- The connections accepted so far have been well served, and of others nothing was seen. -/
structure AllWellServed (done : List Conn) (w : World) : Prop where
  accepted : w.accepted = done.length
  known : ∀ e ∈ w.log, ∀ j, e.connection = some j → j < done.length
  served : ∀ i conn, done[i]? = some conn → WellServed conn i w.log

theorem Served.own (h : Served conn (AnsweredOnce w.accepted) w w' events) :
    ∀ e ∈ events, ∀ j, e.connection = some j → j = w.accepted := by
  by_cases hrej : conn.Rejected
  · rw [h.rejected hrej]
    intro e he j hj
    rw [List.mem_singleton.1 he] at hj
    exact (Option.some.inj hj).symm
  · exact (h.answered hrej).own

theorem AllWellServed.concat (h : AllWellServed done w)
    (hw : Served conn (AnsweredOnce w.accepted) w w' events) :
    AllWellServed (done ++ [conn]) w' := by
  have hown := hw.own
  have hlen : (done ++ [conn]).length = w.accepted + 1 := by simp [h.accepted]
  have hnew (e : Event) (he : e ∈ Event.opened (.conn w.accepted) :: events) (j : Nat)
      (hj : e.connection = some j) : j = w.accepted := by
    rcases List.mem_cons.1 he with rfl | he
    · exact (Option.some.inj hj).symm
    · exact hown e he j hj
  refine ⟨hw.accepted.trans hlen.symm, ?_, ?_⟩
  · intro e he j hj
    rw [hw.log] at he
    rcases List.mem_append.1 he with he | he
    · have hlt := h.known e he j hj
      rw [List.length_append]
      exact Nat.lt_add_right _ hlt
    · rw [hnew e he j hj, hlen]
      exact Nat.lt_succ_self _
  · intro i c hc
    rcases Nat.lt_or_ge i done.length with hlt | hge
    · rw [List.getElem?_append_left hlt] at hc
      have hold : history i w'.log = history i w.log := by
        have hnone : history i (Event.opened (.conn w.accepted) :: events) = [] := by
          refine history_eq_nil fun e he hi => ?_
          have heq := hnew e he i hi
          rw [h.accepted] at heq
          omega
        rw [hw.log, history_append, hnone, List.append_nil]
      unfold WellServed
      rw [hold]
      exact h.served i c hc
    · rw [List.getElem?_append_right hge] at hc
      have hi : i = w.accepted := by
        obtain ⟨hlt, _⟩ := List.getElem?_eq_some_iff.1 hc
        rw [List.length_singleton] at hlt
        rw [h.accepted]
        omega
      have hconn : c = conn := by
        rw [hi, h.accepted, Nat.sub_self] at hc
        exact (Option.some.inj hc).symm
      subst hi hconn
      have hhist : history w.accepted w'.log =
          .opened (.conn w.accepted) :: history w.accepted events := by
        have hnone : history w.accepted w.log = [] := by
          refine history_eq_nil fun e he hj => ?_
          have hlt := h.known e he _ hj
          rw [h.accepted] at hlt
          omega
        rw [hw.log, history_append, hnone, List.nil_append]
        simp [history, Event.connection]
      constructor
      · intro hrej
        rw [hhist, hw.rejected hrej]
        simp [history, Event.connection]
      · intro hreq
        obtain ⟨status, sent, hreply, hsent⟩ := (hw.answered hreq).reply
        exact ⟨status, sent, by rw [hhist, hreply], hsent⟩

theorem geminiServe_answersOnce (hs : Holds s entries) (hplain : ∀ e ∈ entries, e.2.2.Plain)
    (verify : X509Store → X509 → Bool) (conns : List Conn)
    (hbears : ∀ conn ∈ conns, ∀ loc x c,
      conn.ComesTo verify (entries.map Prod.snd) loc x c → Bears loc x c)
    (fds : FdTable Desc) (req : GeminiRequest) (buf : Buf geminiMaxRequest) :
    Outcome (geminiServe verify s conns) (.entering fds req buf) (fun r w' =>
      ∃ served, served <+: conns ∧ (r.1 = -1 → served = conns) ∧ AllWellServed served w')
      fun _ _ => False := by
  refine geminiServe_outcome conns ?_ ?_ hs _ ⟨rfl, by simp [World.entering], by simp⟩
  · intro s done conn w hs hconn h
    have hplain' : ∀ e ∈ entries.map Prod.snd, e.2.Plain := by
      intro e he
      obtain ⟨x, hx, rfl⟩ := List.mem_map.1 he
      exact hplain x hx
    have hturn : Outcome (serveConn verify s conn) w
        (fun _ w' => ∃ events, Served conn (AnsweredOnce w.accepted) w w' events)
        fun _ _ => False :=
      serveConn_outcome hs (fun _ sent hsent => answeredOnce_of_sent hsent 50) fun loc hd =>
        ⟨_, course_reply verify _ loc conn.cert, .nil, hplain',
          fun x c hx => hbears conn hconn loc x c ⟨hd, hx⟩⟩
    apply hturn.imp
    intro _ w' hw'
    obtain ⟨events, hw'⟩ := hw'
    exact h.concat hw'
  · exact fun done w req h => ⟨h.accepted, h.known, h.served⟩

/-- Where handlers keep within their buffers, every accepted connection is well served. -/
theorem geminiServe_wellServed (hs : Holds s entries) (hplain : ∀ e ∈ entries, e.2.2.Plain)
    (verify : X509Store → X509 → Bool) (conns : List Conn)
    (hbears : ∀ conn ∈ conns, ∀ loc x c,
      conn.ComesTo verify (entries.map Prod.snd) loc x c → Bears loc x c)
    (fds : FdTable Desc) (req : GeminiRequest) (buf : Buf geminiMaxRequest) :
    ∃ r w' served, geminiServe verify s conns (.entering fds req buf) = .ok r w' ∧
      served <+: conns ∧ (r.1 = -1 → served = conns) ∧ AllWellServed served w' := by
  obtain ⟨r, w', hrun, served, hserved⟩ :=
    (geminiServe_answersOnce hs hplain verify conns hbears fds req buf).returns
  exact ⟨r, w', served, hrun, hserved⟩

/-- A file that cannot be resolved within the buffers ends the server before it answers. -/
theorem not_wellServed (file : CStr) (hfault : geminiFsResolve true file = .error fault)
    (hrequests : (visit file [.smooth]).Requests (below file)) :
    ∃ fault w', geminiServe (fun _ _ => false) (single (rootPrefix, .fs rootPrefix))
      [visit file [.smooth]] .idle = .error fault w' ∧
        ¬ WellServed (visit file [.smooth]) 0 w'.log := by
  have hrun : Outcome (geminiServe (fun _ _ => false) (single (rootPrefix, .fs rootPrefix))
      [visit file [.smooth]]) .idle (fun r _ => r.1 = -1 ∧ False)
      fun _ w' => history 0 w'.log = [.opened (.conn 0)] := by
    apply single_reaches (Q := fun _ => False) hrequests (below_root file) (fun _ _ h => h)
    intro w₁ fd hlog h ha
    have hinv := (invoking_passed w₁ 0 (rootPrefix, .fs rootPrefix)).toKept
    refine (sHandlerFs_breaks (h.kept hinv) (ha.kept hinv) rootPrefix (by decide)
      (below_root file).length_le ?_).mono (fun _ _ hf => hf.elim) ?_
    · intro file' hfile
      obtain rfl : file' = file := CStr.ext hfile
      exact ⟨_, hfault⟩
    · intro _ w' hw'
      rw [hw', hinv.log, history_append, history_append, hlog]
      rfl
  unfold Outcome at hrun
  split at hrun
  · exact hrun.2.elim
  · rename_i fault w' he
    refine ⟨fault, w', he, fun hserved => ?_⟩
    obtain ⟨status, sent, hhist, _⟩ := hserved.2 hrequests.not_rejected
    rw [hrun] at hhist
    cases hhist

theorem overlong_requests (calls : List Calls) :
    (visit overlong calls).Requests (below overlong) := by
  have hlen : overlong.length = geminiMaxPath - 1 + 2 := by
    simp only [CStr.length, overlong, List.length_cons, List.length_append, List.length_replicate,
      List.length_nil]
  refine visit_requests ?_ ?_ calls
  · simp [overlong, slash]
  · rw [hlen]
    decide

theorem not_wellServed_overlong : ∃ fault w', geminiServe (fun _ _ => false)
    (single (rootPrefix, .fs rootPrefix)) [visit overlong [.smooth]] .idle = .error fault w' ∧
      ¬ WellServed (visit overlong [.smooth]) 0 w'.log :=
  not_wellServed overlong overlong_fault (overlong_requests _)

theorem bears_below {conn : Conn} {file : CStr} (hrequests : conn.Requests (below file))
    (hfits : Fits file.octets) (h : conn.ComesTo verify entries loc x c)
    (hx : ∀ root, x.2 = .fs root → x.1 = rootPrefix) :
    Bears loc x c := by
  intro root hroot _ _
  rw [hx root hroot, h.1.1.eq_path hrequests]
  exact hfits

/-- One is turned away, one is served, and the handshake of one fails. -/
def threeConns : List Conn :=
  [caller privateFile 1 [], caller otherFile 3 [.smooth],
    { caller otherFile 1 [] with handshake := false }]

theorem geminiServe_wellServed_guarded : ∃ r w' served,
    geminiServe (fun _ _ => false) guardedServing threeConns .idle = .ok r w' ∧
      served <+: threeConns ∧ (r.1 = -1 → served = threeConns) ∧ AllWellServed served w' := by
  refine geminiServe_wellServed (pair_holds _ _) (by simp [Handler.Plain]) (fun _ _ => false)
    threeConns ?_ .empty .zeroed (.zeroed _)
  intro conn hconn loc x c hx
  have hroot : ∀ root, x.2 = .fs root → x.1 = rootPrefix := by
    intro root hroot
    have hmem := hx.2.mem
    simp only [List.map_append, List.map_cons, List.map_nil, List.mem_append, List.mem_singleton]
      at hmem
    obtain rfl | rfl := hmem
    · cases hroot
    · rfl
  have hprivate : (visit privateFile []).Requests (below privateFile) :=
    visit_requests (by decide) (by decide) []
  have hother : (visit otherFile [.smooth]).Requests (below otherFile) :=
    visit_requests (by decide) (by decide) [.smooth]
  simp only [threeConns, List.mem_cons, List.not_mem_nil, or_false] at hconn
  obtain rfl | rfl | rfl := hconn
  · exact bears_below hprivate (fits_of_resolves privateFile_resolves) hx hroot
  · exact bears_below hother (fits_of_resolves otherFile_resolves) hx hroot
  · exact absurd hx.1.1.1 Bool.false_ne_true

end Geminon
