import Geminon.Serve

namespace Geminon
open Memory Descriptors Process LinkedList
set_option autoImplicit true

def Event.on (k : Nat) : Event → Event
  | .opened (.conn _) => .opened (.conn k)
  | .closed (.conn _) => .closed (.conn k)
  | .responded _ status => .responded k status
  | .sent _ octets => .sent k octets
  | event => event

theorem Event.on_on (event : Event) (k k' : Nat) : (event.on k).on k' = event.on k' := by
  cases event with
  | opened desc => cases desc <;> rfl
  | closed desc => cases desc <;> rfl
  | _ => rfl

theorem Event.opened_on (hdesc : ∀ k, desc ≠ .conn k) (k : Nat) :
    (Event.opened desc).on k = .opened desc := by
  cases desc with
  | conn i => exact absurd rfl (hdesc i)
  | _ => rfl

theorem Event.closed_on (hdesc : ∀ k, desc ≠ .conn k) (k : Nat) :
    (Event.closed desc).on k = .closed desc := by
  cases desc with
  | conn i => exact absurd rfl (hdesc i)
  | _ => rfl

/-- One of two runs that are compared: the number of its connection, and what was told before. -/
structure Side where
  number : Nat
  before : List Event

/-- Both runs have told the same since then, each of its own connection. -/
def Agree (p q : Side) (w v : World) : Prop :=
  ∃ events : List Event, w.log = p.before ++ events.map (.on p.number) ∧
    v.log = q.before ++ events.map (.on q.number)

theorem Agree.tell (h : Agree p q w v) (events : List Event)
    (hw : w'.log = w.log ++ events.map (.on p.number))
    (hv : v'.log = v.log ++ events.map (.on q.number)) : Agree p q w' v' := by
  obtain ⟨events', hl, hr⟩ := h
  refine ⟨events' ++ events, ?_, ?_⟩
  · rw [hw, hl, List.map_append, List.append_assoc]
  · rw [hv, hr, List.map_append, List.append_assoc]

structure Past (p q : Side) (w v : World) : Prop where
  agree : Agree p q w v
  left : w.accepted = p.number + 1
  right : v.accepted = q.number + 1

structure Midway (k : Nat) (t : FdTable Desc) (w : World) : Prop where
  accepted : w.accepted = k + 1
  fds : w.fds = t
  held : ∃ fd, Held k w fd

/-- Two runs, each with its request open, whose connections hold the same in store. -/
structure Joined (p q : Side) (t u : FdTable Desc) (w v : World) : Prop where
  agree : Agree p q w v
  left : Midway p.number t w
  right : Midway q.number u v
  writes : v.writes = w.writes
  calls : v.calls = w.calls

/-- Two such runs that a handler cannot tell from one another. -/
structure Twins (p q : Side) (t u : FdTable Desc) (w v : World) : Prop extends
    Joined p q t u w v where
  url : v.req.url = w.req.url
  cert : v.req.cert = w.req.cert

theorem Joined.past (h : Joined p q t u w v) : Past p q w v :=
  ⟨h.agree, h.left.accepted, h.right.accepted⟩

theorem Midway.of_eq (h : Midway k t w) (hfd : w'.req.fd = w.req.fd)
    (hssl : w'.req.ssl = w.req.ssl) (hfds : w'.fds = w.fds)
    (haccepted : w'.accepted = w.accepted) : Midway k t w' := by
  obtain ⟨fd, hheld⟩ := h.held
  refine ⟨haccepted.trans h.accepted, hfds.trans h.fds, fd, hfd.trans hheld.fd_eq, ?_,
    hssl.trans hheld.ssl⟩
  rw [hfds, hheld.isOpen]

theorem Twins.told (h : Twins p q t u w v) (events : List Event) : Twins p q t u
    { w with log := w.log ++ events.map (.on p.number) }
    { v with log := v.log ++ events.map (.on q.number) } where
  agree := h.agree.tell events rfl rfl
  left := h.left.of_eq rfl rfl rfl rfl
  right := h.right.of_eq rfl rfl rfl rfl
  url := h.url
  cert := h.cert
  writes := h.writes
  calls := h.calls

theorem Twins.wrote (h : Twins p q t u w v) (writes : List (Option Nat)) :
    Twins p q t u { w with writes } { v with writes } where
  agree := h.agree
  left := h.left.of_eq rfl rfl rfl rfl
  right := h.right.of_eq rfl rfl rfl rfl
  url := h.url
  cert := h.cert
  writes := rfl
  calls := h.calls

theorem Twins.called (h : Twins p q t u w v) (calls : List Calls) :
    Twins p q t u { w with calls } { v with calls } where
  agree := h.agree
  left := h.left.of_eq rfl rfl rfl rfl
  right := h.right.of_eq rfl rfl rfl rfl
  url := h.url
  cert := h.cert
  writes := h.writes
  calls := rfl

/-- A stretch that goes the same way in twins, opens and closes nothing, and leaves them twins. -/
def Parallel (p q : Side) (t u : FdTable Desc) (x : Proc World α) : Prop :=
  ∀ w v, Twins p q t u w v →
    Coupled x w x v (fun a b w' v' => a = b ∧ Twins p q t u w' v') (Agree p q)

section Parallel
variable {p q : Side} {t u : FdTable Desc} {w v : World}

theorem Parallel.pure (a : α) : Parallel p q t u (pure a) := by
  intro w v h
  exact Coupled.pure ⟨rfl, h⟩

theorem Parallel.checked (x : Except Fault α) : Parallel p q t u (checked x) := by
  intro w v h
  exact Coupled.checked (fun a _ => ⟨rfl, h⟩) h.agree

theorem Parallel.andThen {x : Proc World α} {f g : α → Proc World β}
    {R : β → β → World → World → Prop} (hx : Parallel p q t u x) (h : Twins p q t u w v)
    (hf : ∀ a w' v', Twins p q t u w' v' → Coupled (f a) w' (g a) v' R (Agree p q)) :
    Coupled (x >>= f) w (x >>= g) v R (Agree p q) := by
  apply (hx w v h).andThen
  intro a b w' v' hab
  obtain ⟨rfl, h'⟩ := hab
  exact hf a w' v' h'

theorem Parallel.bind {x : Proc World α} {f : α → Proc World β} (hx : Parallel p q t u x)
    (hf : ∀ a, Parallel p q t u (f a)) : Parallel p q t u (x >>= f) := by
  intro w v h
  exact hx.andThen h fun a w' v' h' => hf a w' v' h'

theorem sslWriteEx_twins (h : Twins p q t u w v) (hpos : 0 < octets.length) :
    Coupled (sslWriteEx w.req.ssl octets hpos) w (sslWriteEx v.req.ssl octets hpos) v
      (fun a b w' v' => a = b ∧ Twins p q t u w' v') (Agree p q) := by
  obtain ⟨fd, hfd⟩ := h.left.held
  obtain ⟨fd', hfd'⟩ := h.right.held
  rw [hfd.ssl, hfd'.ssl]
  apply Coupled.modifyGet
  simp only [h.writes]
  cases w.writes with
  | nil => exact ⟨rfl, h⟩
  | cons outcome writes =>
    cases outcome with
    | none => exact ⟨rfl, h.wrote writes⟩
    | some k =>
      exact ⟨rfl, (h.told [.sent 0 (octets.take octets.length)]).wrote writes⟩

theorem geminiRequestWriteLoop_parallel (buf : List UInt8) (cursor n ntotal : Nat) :
    Parallel p q t u (geminiRequestWriteLoop buf cursor n ntotal) := by
  induction n using Nat.strong_induction_on generalizing cursor ntotal with
  | _ n ih =>
    intro w v h
    rw [geminiRequestWriteLoop]
    split
    · rename_i hn
      apply (Parallel.checked _).andThen h
      intro run w₁ v₁ h₁
      obtain ⟨octets, hlen⟩ := run
      refine .bind (.get (.andThen (sslWriteEx_twins h₁ _) ?_))
      intro taken taken' w₂ v₂ htaken
      obtain ⟨rfl, h₂⟩ := htaken
      cases taken with
      | none => exact .pure ⟨rfl, h₂⟩
      | some taken =>
        obtain ⟨k, hk, hkn⟩ := taken
        exact ih (n - k) (by omega) _ _ w₂ v₂ h₂
    · exact .pure ⟨rfl, h⟩

theorem geminiRequestWrite_parallel (buf : List UInt8) (n : Nat) :
    Parallel p q t u (geminiRequestWrite buf n) :=
  geminiRequestWriteLoop_parallel buf 0 n 0

theorem geminiRequestRespond_parallel (status : Int) (text : CStr) :
    Parallel p q t u (geminiRequestRespond status text) := by
  intro w v h
  obtain ⟨fd, hfd⟩ := h.left.held
  obtain ⟨fd', hfd'⟩ := h.right.held
  apply Coupled.bind (.get _)
  rw [hfd.ssl, hfd'.ssl]
  apply Coupled.bind (.modify _)
  apply (Parallel.checked _).andThen (h.told [.responded 0 status])
  intro buf w₁ v₁ h₁
  apply (Parallel.checked _).andThen h₁
  intro n w₂ v₂ h₂
  exact geminiRequestWrite_parallel _ _ w₂ v₂ h₂

theorem streamFlush_parallel (buf : Buf block) (turns n : Nat) :
    Parallel p q t u (streamFlush buf turns n) := by
  induction turns generalizing buf n with
  | zero =>
    intro w v h
    cases n with
    | zero => exact .pure ⟨rfl, h⟩
    | succ n => exact .throw h.agree
  | succ turns ih =>
    cases n with
    | zero => exact .pure 0
    | succ n =>
      unfold streamFlush
      apply (geminiRequestWrite_parallel _ _).bind
      intro nwrit
      split
      · exact .pure nwrit
      · exact (Parallel.checked _).bind fun moved => ih moved.1 moved.2

theorem streamLoop_parallel (reads : List (Option (List UInt8))) (buf : Buf block) (n : Nat) :
    Parallel p q t u (streamLoop reads buf n) := by
  induction hk : pendingReads reads using Nat.strong_induction_on
      generalizing reads buf n with
  | _ k ih =>
    rw [streamLoop]
    split
    · exact .pure (-1)
    · exact streamFlush_parallel buf n n
    · rename_i c piece reads' hread
      have hless : pendingReads reads' < k := hk ▸ read_pending hread (List.cons_ne_nil _ _)
      apply (Parallel.checked _).bind
      intro buf₁
      apply (geminiRequestWrite_parallel _ _).bind
      intro nwrit
      split
      · exact .pure nwrit
      · exact (Parallel.checked _).bind fun moved => ih _ hless reads' moved.1 moved.2 rfl

theorem geminiRequestStream_parallel (malloc : Malloc) (reads : List (Option (List UInt8)))
    (block : Nat) : Parallel p q t u (geminiRequestStream malloc reads block) := by
  cases malloc with
  | none => exact .pure (-1)
  | some mem => exact streamLoop_parallel reads _ 0

theorem requestPath_parallel (k : Nat) : Parallel p q t u (requestPath k) := by
  intro w v h
  apply Coupled.bind (.get _)
  rw [h.url]
  cases w.req.url with
  | none => exact .throw h.agree
  | some url => exact Parallel.checked _ w v h

theorem requestHost_parallel : Parallel p q t u requestHost := by
  intro w v h
  apply Coupled.bind (.get _)
  rw [h.url]
  cases w.req.url with
  | none => exact .throw h.agree
  | some url => exact (Parallel.checked _).bind (fun host => .pure _) w v h

theorem vhostsLoop_parallel (urls : List (Sigma GeminiUrl)) :
    Parallel p q t u (vhostsLoop urls) := by
  induction urls with
  | nil => exact .pure false
  | cons url urls ih =>
    unfold vhostsLoop
    apply (Parallel.checked _).bind
    intro host
    apply requestHost_parallel.bind
    intro r
    obtain ⟨reqHost, reqPort⟩ := r
    dsimp only
    split
    · exact .pure true
    · exact ih

theorem Midway.openFd (h : Midway k t w) (desc : Desc) (log : List Event) :
    Midway k (t.add desc) { w with fds := w.fds.add desc, log } := by
  obtain ⟨fd, hfd⟩ := h.held
  have hne : fd ≠ w.fds.unused := by
    intro he
    have hopen := hfd.isOpen
    rw [he, w.fds.get_unused] at hopen
    cases hopen
  refine ⟨h.accepted, congrArg (FdTable.add · desc) h.fds, fd, hfd.fd_eq, ?_, hfd.ssl⟩
  exact (w.fds.get_set_of_ne _ hne).trans hfd.isOpen

theorem openFd_twins (h : Twins p q t u w v) (hdesc : ∀ i, desc ≠ .conn i) :
    Coupled (openFd desc) w (openFd desc) v (fun new new' w' v' =>
      Twins p q (t.add desc) (u.add desc) w' v' ∧ (t.add desc).get new = some desc ∧
        (u.add desc).get new' = some desc) E := by
  apply Coupled.modifyGet
  have htell (k : Nat) : [Event.opened desc].map (Event.on k) = [.opened desc] := by
    rw [List.map_singleton, Event.opened_on hdesc]
  refine ⟨⟨⟨?_, h.left.openFd desc _, h.right.openFd desc _, h.writes, h.calls⟩, h.url, h.cert⟩,
    ?_, ?_⟩
  · exact h.agree.tell [.opened desc] (by rw [htell]) (by rw [htell])
  · rw [h.left.fds]
    exact FdTable.get_set_self _ _ _
  · rw [h.right.fds]
    exact FdTable.get_set_self _ _ _

theorem Midway.closeFd (h : Midway k t w) (hdesc : ∀ i, desc ≠ .conn i)
    (hopen : t.get fd = some desc) (log : List Event) :
    Midway k (t.close fd) { w with fds := w.fds.close fd, log } := by
  obtain ⟨own, hown⟩ := h.held
  have hne : own ≠ fd := by
    intro he
    have hconn := hown.isOpen
    rw [he, h.fds, hopen] at hconn
    exact hdesc k (Option.some.inj hconn)
  refine ⟨h.accepted, congrArg (FdTable.close · fd) h.fds, own, hown.fd_eq, ?_, hown.ssl⟩
  exact (w.fds.get_set_of_ne _ hne).trans hown.isOpen

theorem closeFd_twins (h : Twins p q t u w v) (hdesc : ∀ i, desc ≠ .conn i)
    (hopen : t.get fd = some desc) (hopen' : u.get fd' = some desc) :
    Coupled (closeFd fd) w (closeFd fd') v (fun _ _ w' v' =>
      Twins p q (t.close fd) (u.close fd') w' v') E := by
  apply Coupled.modify
  have hw : w.fds.get fd = some desc := by rw [h.left.fds, hopen]
  have hv : v.fds.get fd' = some desc := by rw [h.right.fds, hopen']
  have htell (k : Nat) : [Event.closed desc].map (Event.on k) = [.closed desc] := by
    rw [List.map_singleton, Event.closed_on hdesc]
  simp only [hw, hv]
  refine ⟨⟨?_, h.left.closeFd hdesc hopen _, h.right.closeFd hdesc hopen' _, h.writes, h.calls⟩,
    h.url, h.cert⟩
  exact h.agree.tell [.closed desc] (by rw [htell]) (by rw [htell])

theorem geminiRequestClose_past (h : Joined p q t u w v) :
    Coupled geminiRequestClose w geminiRequestClose v (fun _ _ w' v' => Past p q w' v') E := by
  obtain ⟨fd, hfd⟩ := h.left.held
  obtain ⟨fd', hfd'⟩ := h.right.held
  apply ((geminiRequestClose_ended hfd).coupled (geminiRequestClose_ended hfd')).imp
  intro _ _ w' v' hended
  obtain ⟨⟨hw, -⟩, hv, -⟩ := hended
  exact ⟨h.agree.tell [.closed (.conn 0)] hw.log hv.log, hw.accepted.trans h.left.accepted,
    hv.accepted.trans h.right.accepted⟩

/-- What becomes of twins when a handler runs: only one that is done has closed the request. -/
structure Ran (p q : Side) (rc rc' : Int) (w v : World) : Prop where
  eq : rc = rc'
  past : Past p q w v
  twins : rc ≠ geminiHandlerDone → ∃ t u, Twins p q t u w v

theorem Twins.ran (h : Twins p q t u w v) (rc : Int) : Ran p q rc rc w v :=
  ⟨rfl, h.past, fun _ => ⟨t, u, h⟩⟩

theorem Past.ran (h : Past p q w v) : Ran p q geminiHandlerDone geminiHandlerDone w v :=
  ⟨rfl, h, fun hne => absurd rfl hne⟩

theorem close_ran (h : Twins p q t u w v) :
    Coupled (do
      geminiRequestClose
      pure geminiHandlerDone) w (do
      geminiRequestClose
      pure geminiHandlerDone) v (Ran p q) (Agree p q) := by
  apply (geminiRequestClose_past h.toJoined).andThen
  intro _ _ w' v' hpast
  exact .pure hpast.ran

theorem respond_ran (h : Twins p q t u w v) (status : Int) (text : CStr) :
    Coupled (do
      let _ ← geminiRequestRespond status text
      geminiRequestClose
      pure geminiHandlerDone) w (do
      let _ ← geminiRequestRespond status text
      geminiRequestClose
      pure geminiHandlerDone) v (Ran p q) (Agree p q) := by
  apply (geminiRequestRespond_parallel status text).andThen h
  intro _ w' v' h'
  exact close_ran h'

theorem echoHandler_ran (h : Twins p q t u w v) :
    Coupled echoHandler w echoHandler v (Ran p q) (Agree p q) := by
  apply (geminiRequestRespond_parallel _ _).andThen h
  intro _ w₁ v₁ h₁
  apply (requestPath_parallel 0).andThen h₁
  intro path w₂ v₂ h₂
  apply (geminiRequestWrite_parallel _ _).andThen h₂
  intro _ w₃ v₃ h₃
  apply (geminiRequestWrite_parallel _ _).andThen h₃
  intro _ w₄ v₄ h₄
  exact close_ran h₄

/-- What `gemini_fs_open` returns to twins: no descriptor, or one of the same file. -/
def SameFile (t u : FdTable Desc) : Option Nat → Option Nat → Prop
  | none, none => True
  | some fd, some fd' => ∃ root path, t.get fd = some (.file root path) ∧
      u.get fd' = some (.file root path)
  | _, _ => False

theorem geminiFsOpen_twins (h : Twins p q t u w v) (calls : Calls) (root file : CStr) :
    Coupled (geminiFsOpen calls root file) w (geminiFsOpen calls root file) v
      (fun r r' w' v' => ∃ t u, Twins p q t u w' v' ∧ SameFile t u r r') (Agree p q) := by
  unfold geminiFsOpen
  split
  · exact .pure ⟨t, u, h, trivial⟩
  apply (openFd_twins h (by simp)).andThen
  intro _ _ w₁ v₁ hopened
  obtain ⟨h₁, -⟩ := hopened
  apply (Parallel.checked _).andThen h₁
  intro r w₂ v₂ h₂
  cases r with
  | none => exact .pure ⟨_, _, h₂, trivial⟩
  | some path =>
    dsimp only
    split
    · exact .pure ⟨_, _, h₂, trivial⟩
    apply (openFd_twins h₂ (by simp)).andThen
    intro fd fd' w₃ v₃ hopened
    obtain ⟨h₃, hfd, hfd'⟩ := hopened
    have hclosed : Coupled (do
        closeFd fd
        pure none) w₃ (do
        closeFd fd'
        pure none) v₃
        (fun r r' w' v' => ∃ t u, Twins p q t u w' v' ∧ SameFile t u r r') (Agree p q) := by
      apply (closeFd_twins h₃ (by simp) hfd hfd').andThen
      intro _ _ w₄ v₄ h₄
      exact .pure ⟨_, _, h₄, trivial⟩
    split
    · exact hclosed
    split
    · exact hclosed
    · exact .pure ⟨_, _, h₃, root, path, hfd, hfd'⟩

theorem sHandlerFs_ran (h : Twins p q t u w v) (calls : Calls) (pathPrefix root : CStr) :
    Coupled (sHandlerFs calls pathPrefix root) w (sHandlerFs calls pathPrefix root) v (Ran p q)
      (Agree p q) := by
  apply (requestPath_parallel _).andThen h
  intro file w₁ v₁ h₁
  apply (geminiFsOpen_twins h₁ calls root file).andThen
  intro r r' w₂ v₂ hopened
  obtain ⟨t₂, u₂, h₂, hsame⟩ := hopened
  cases r with
  | none =>
    cases r' with
    | none => exact .pure (h₂.ran _)
    | some fd' => exact hsame.elim
  | some fd =>
    cases r' with
    | none => exact hsame.elim
    | some fd' =>
      obtain ⟨root', path, hfd, hfd'⟩ := hsame
      dsimp only
      apply (geminiRequestRespond_parallel _ _).andThen h₂
      intro _ w₃ v₃ h₃
      apply (geminiRequestStream_parallel _ _ _).andThen h₃
      intro _ w₄ v₄ h₄
      apply (closeFd_twins h₄ (by simp) hfd hfd').andThen
      intro _ _ w₅ v₅ h₅
      exact close_ran h₅

theorem sHandlerAuthn_ran (h : Twins p q t u w v) (verify : X509Store → X509 → Bool)
    (store : X509Store) :
    Coupled (sHandlerAuthn verify store) w (sHandlerAuthn verify store) v (Ran p q)
      (Agree p q) := by
  apply Coupled.bind (.get _)
  rw [h.cert]
  cases w.req.cert with
  | none => exact respond_ran h 60 _
  | some cert =>
    dsimp only
    split
    · exact .pure (h.ran _)
    · exact respond_ran h 61 _

theorem sHandlerVhosts_ran (h : Twins p q t u w v) (urls : List (Sigma GeminiUrl)) :
    Coupled (sHandlerVhosts urls) w (sHandlerVhosts urls) v (Ran p q) (Agree p q) := by
  apply (vhostsLoop_parallel urls).andThen h
  intro r w₁ v₁ h₁
  split
  · exact .pure (h₁.ran _)
  · exact respond_ran h₁ 53 _

theorem cgiHandler_ran (h : Twins p q t u w v) (calls : Calls) (pathPrefix root : CStr) :
    Coupled (cgiHandler calls pathPrefix root) w (cgiHandler calls pathPrefix root) v (Ran p q)
      (Agree p q) := by
  apply (requestPath_parallel _).andThen h
  intro file w₁ v₁ h₁
  apply (Parallel.checked _).andThen h₁
  intro r w₂ v₂ h₂
  cases r with
  | none => exact .pure (h₂.ran _)
  | some prog =>
    dsimp only
    split
    · exact .pure (h₂.ran _)
    split
    · exact .pure (h₂.ran _)
    split
    · exact .pure (h₂.ran _)
    apply (openFd_twins h₂ (by simp)).andThen
    intro _ _ w₃ v₃ hopened
    obtain ⟨h₃, -⟩ := hopened
    apply (openFd_twins h₃ (by simp)).andThen
    intro wr wr' w₄ v₄ hopened
    obtain ⟨h₄, hwr, hwr'⟩ := hopened
    split
    · exact .pure (h₄.ran _)
    apply Coupled.bind (.modify _)
    apply (closeFd_twins (h₄.told [.executed prog]) (by simp) hwr hwr').andThen
    intro _ _ w₅ v₅ h₅
    apply (geminiRequestStream_parallel _ _ _).andThen h₅
    intro rc w₆ v₆ h₆
    split
    · exact .pure (h₆.ran _)
    · exact close_ran h₆

theorem serveCore_past (h : Twins p q t u w v) (verify : X509Store → X509 → Bool) (status : Int)
    (text : CStr) :
    Coupled (do
      (serveCore verify).respond status text
      (serveCore verify).close) w (do
      (serveCore verify).respond status text
      (serveCore verify).close) v (fun _ _ w' v' => Past p q w' v') (Agree p q) := by
  have hrespond : Parallel p q t u ((serveCore verify).respond status text) :=
    (geminiRequestRespond_parallel status text).bind fun _ => .pure ()
  apply hrespond.andThen h
  intro _ w' v' h'
  exact geminiRequestClose_past h'.toJoined

/-- No handler can tell twins from one another. -/
theorem runHandler_ran (h : Twins p q t u w v) (verify : X509Store → X509 → Bool) (calls : Calls)
    (pathPrefix : CStr) (handler : Handler) :
    Coupled (runHandler verify calls pathPrefix handler) w
      (runHandler verify calls pathPrefix handler) v (Ran p q) (Agree p q) := by
  cases handler with
  | echo => exact echoHandler_ran h
  | cgi root => exact cgiHandler_ran h calls pathPrefix root
  | fs root => exact sHandlerFs_ran h calls pathPrefix root
  | authn store => exact sHandlerAuthn_ran h verify store
  | vhosts urls => exact sHandlerVhosts_ran h urls
  | user fn => exact .pure (h.ran _)

end Parallel

end Geminon
