import Geminon.Invariants
import Geminon.Serve

namespace Geminon
open Memory Descriptors Process LinkedList
set_option autoImplicit true

def Event.opens (desc : Desc) : Event → Bool
  | .opened desc' => desc' = desc
  | _ => false

def Event.closes (desc : Desc) : Event → Bool
  | .closed desc' => desc' = desc
  | _ => false

def openings (desc : Desc) (log : List Event) : Nat := log.countP (Event.opens desc)

def closings (desc : Desc) (log : List Event) : Nat := log.countP (Event.closes desc)

/-- What the server never closes: roots, the read ends of pipes, and what is not its own. -/
def Desc.Lasting : Desc → Prop
  | .dir _ => True
  | .pipeRead => True
  | .other _ => True
  | _ => False

/-- The descriptors of a process that started with some, by its log. -/
structure Books (base : FdTable Desc) (w : World) : Prop where
  ledger : ∀ desc, w.fds.count desc + closings desc w.log = base.count desc + openings desc w.log
  lasting : ∀ desc, desc.Lasting → closings desc w.log = 0

/-- The books of a process whose request, if it is open, is an open connection. -/
structure Attends (base : FdTable Desc) (w : World) : Prop extends Books base w where
  conn : 0 ≤ w.req.fd → ∃ i, w.fds.get w.req.fd.toNat = some (.conn i)

structure Quiet (w w' : World) : Prop where
  fds : w'.fds = w.fds
  calls : w'.calls = w.calls
  fd : w'.req.fd = w.req.fd
  openings : ∀ desc, openings desc w'.log = openings desc w.log
  closings : ∀ desc, closings desc w'.log = closings desc w.log

/-- An invariant of the descriptors and the calls to come only. -/
def Stable (I : World → Prop) : Prop := ∀ w w', Quiet w w' → I w → I w'

theorem Quiet.of_log (hfds : w'.fds = w.fds) (hcalls : w'.calls = w.calls)
    (hfd : w'.req.fd = w.req.fd) (hlog : w'.log = w.log) : Quiet w w' :=
  ⟨hfds, hcalls, hfd, fun _ => by rw [hlog], fun _ => by rw [hlog]⟩

theorem Quiet.of_told {e : Event} (hfds : w'.fds = w.fds) (hcalls : w'.calls = w.calls)
    (hfd : w'.req.fd = w.req.fd) (hlog : w'.log = w.log ++ [e])
    (he : ∀ desc, e.opens desc = false ∧ e.closes desc = false) : Quiet w w' where
  fds := hfds
  calls := hcalls
  fd := hfd
  openings desc := by
    rw [Geminon.openings, hlog, List.countP_append, List.countP_singleton, (he desc).1]
    rfl
  closings desc := by
    rw [Geminon.closings, hlog, List.countP_append, List.countP_singleton, (he desc).2]
    rfl

theorem books_stable (base : FdTable Desc) : Stable (Books base) := fun w w' hq h =>
  ⟨fun desc => by rw [hq.fds, hq.openings, hq.closings, h.ledger],
    fun desc hlasting => by rw [hq.closings, h.lasting desc hlasting]⟩

theorem attends_stable (base : FdTable Desc) : Stable (Attends base) := fun w w' hq h =>
  ⟨books_stable base w w' hq h.toBooks, by rw [hq.fd, hq.fds]; exact h.conn⟩

theorem holding_stable (base : FdTable Desc) (fd : Nat) (desc : Desc) :
    Stable fun w => Attends base w ∧ w.fds.get fd = some desc := fun w w' hq h =>
  ⟨attends_stable base w w' hq h.1, by rw [hq.fds, h.2]⟩

section Quiet
variable {I : World → Prop} (hI : Stable I)

theorem requestPath_keeps (i : Nat) : Keeps I (requestPath i) := by
  refine .bind .get fun w => ?_
  split
  · exact .throw _
  · exact .checked _

theorem requestHost_keeps : Keeps I requestHost := by
  refine .bind .get fun w => ?_
  split
  · exact .throw _
  · exact .bind (.checked _) fun _ => .pure _

theorem vhostsLoop_keeps (urls : List (Sigma GeminiUrl)) : Keeps I (vhostsLoop urls) := by
  induction urls with
  | nil => exact .pure _
  | cons url urls ih =>
    refine .bind (.checked _) fun host => .bind requestHost_keeps fun r => ?_
    exact .ite (.pure _) ih

include hI

theorem emit_keeps {e : Event} (he : ∀ desc, e.opens desc = false ∧ e.closes desc = false) :
    Keeps I (emit e) :=
  .modify fun w h => hI w _ (.of_told rfl rfl rfl rfl he) h

theorem sslWriteEx_keeps (ssl : Option Ssl) (octets : List UInt8) (h : 0 < octets.length) :
    Keeps I (sslWriteEx ssl octets h) := by
  unfold sslWriteEx
  split
  · exact .throw _
  · refine .modifyGet fun w hw => ?_
    split
    · exact hI w _ (.of_told rfl rfl rfl rfl fun _ => ⟨rfl, rfl⟩) hw
    · exact hI w _ (.of_log rfl rfl rfl rfl) hw
    · exact hw

theorem geminiRequestWriteLoop_keeps (buf : List UInt8) (cursor n ntotal : Nat) :
    Keeps I (geminiRequestWriteLoop buf cursor n ntotal) := by
  induction n using Nat.strong_induction_on generalizing cursor ntotal with
  | _ n ih =>
    rw [geminiRequestWriteLoop]
    split
    · refine .bind (.checked _) fun octets => .bind .get fun w => ?_
      refine .bind (sslWriteEx_keeps hI _ _ _) fun r => ?_
      cases r with
      | none => exact .pure _
      | some taken =>
        obtain ⟨nwrit, hpos, -⟩ := taken
        exact ih (n - nwrit) (by omega) _ _
    · exact .pure _

theorem geminiRequestRespond_keeps (status : Int) (text : CStr) :
    Keeps I (geminiRequestRespond status text) := by
  refine .bind .get fun w => ?_
  split
  · exact .throw _
  · refine .bind (emit_keeps hI fun _ => ⟨rfl, rfl⟩) fun _ => .bind (.checked _) fun buf => ?_
    exact .bind (.checked _) fun n => geminiRequestWriteLoop_keeps hI _ _ _ _

theorem streamFlush_keeps (buf : Buf block) (turns n : Nat) :
    Keeps I (streamFlush buf turns n) := by
  induction turns generalizing buf n with
  | zero =>
    cases n with
    | zero => exact .pure _
    | succ n => exact .throw _
  | succ turns ih =>
    cases n with
    | zero => exact .pure _
    | succ n =>
      refine .bind (geminiRequestWriteLoop_keeps hI _ _ _ _) fun nwrit => .ite (.pure _) ?_
      exact .bind (.checked _) fun r => ih _ _

theorem streamLoop_keeps (reads : List (Option (List UInt8))) (buf : Buf block) (n : Nat) :
    Keeps I (streamLoop reads buf n) := by
  induction hk : pendingReads reads using Nat.strong_induction_on
      generalizing reads buf n with
  | _ k ih =>
    rw [streamLoop]
    split
    · exact .pure _
    · exact streamFlush_keeps hI buf n n
    · rename_i c piece reads' hread
      refine .bind (.checked _) fun buf => ?_
      refine .bind (geminiRequestWriteLoop_keeps hI _ _ _ _) fun nwrit => .ite (.pure _) ?_
      refine .bind (.checked _) fun r => ?_
      exact ih _ (hk ▸ read_pending hread (List.cons_ne_nil _ _)) _ _ _ rfl

theorem geminiRequestStream_keeps (malloc : Malloc) (reads : List (Option (List UInt8)))
    (block : Nat) : Keeps I (geminiRequestStream malloc reads block) := by
  cases malloc with
  | none => exact .pure _
  | some mem => exact streamLoop_keeps hI _ _ _

end Quiet

section Descriptors
variable {base : FdTable Desc}

theorem openFd_books (h : Books base w) (desc : Desc) :
    Outcome (openFd desc) w (fun fd w' => Books base w' ∧ w'.fds.get fd = some desc ∧
      w'.req = w.req ∧ ∀ fd', w.fds.get fd' ≠ none → w'.fds.get fd' = w.fds.get fd')
      fun _ _ => False := by
  refine .modifyGet ⟨⟨fun desc' => ?_, fun desc' hlasting => ?_⟩, FdTable.get_set_self _ _ _, rfl,
    fun fd' hfd' => ?_⟩
  · have hledger := h.ledger desc'
    simp only [FdTable.add, FdTable.count_set w.fds.get_unused, openings, closings,
      List.countP_append, List.countP_singleton, Event.opens, Event.closes] at hledger ⊢
    by_cases hd : desc = desc' <;> simp [hd] <;> omega
  · have hnone := h.lasting desc' hlasting
    simpa [closings, List.countP_append, Event.closes] using hnone
  · exact FdTable.get_set_of_ne _ _ fun he => hfd' (he ▸ w.fds.get_unused)

theorem closeFd_books (h : Books base w) (hfd : ∀ desc ∈ w.fds.get fd, ¬ desc.Lasting) :
    Outcome (closeFd fd) w (fun _ w' => Books base w' ∧ w'.req = w.req ∧
      ∀ fd', fd' ≠ fd → w'.fds.get fd' = w.fds.get fd') fun _ _ => False := by
  apply Outcome.modify
  split
  · rename_i desc hdesc
    refine ⟨⟨fun desc' => ?_, fun desc' hlasting => ?_⟩, rfl,
      fun fd' hne => FdTable.get_set_of_ne _ _ hne⟩
    · have hledger := h.ledger desc'
      have hcount := FdTable.count_close hdesc desc'
      simp only [openings, closings, List.countP_append, List.countP_singleton, Event.opens,
        Event.closes] at hledger ⊢
      by_cases hd : desc = desc' <;> simp [hd] at hcount ⊢ <;> omega
    · have hnone := h.lasting desc' hlasting
      have hne : desc ≠ desc' := fun he => hfd desc hdesc (he ▸ hlasting)
      simpa [closings, List.countP_append, Event.closes, hne] using hnone
  · exact ⟨h, rfl, fun _ _ => rfl⟩

theorem openFd_attends (h : Attends base w) (desc : Desc) :
    Outcome (openFd desc) w (fun fd w' => Attends base w' ∧ w'.fds.get fd = some desc ∧
      ∀ fd', w.fds.get fd' ≠ none → w'.fds.get fd' = w.fds.get fd') fun _ _ => False := by
  apply (openFd_books h.toBooks desc).imp
  intro fd w' hw'
  obtain ⟨hbooks, hfd, hreq, hsame⟩ := hw'
  refine ⟨⟨hbooks, fun hopen => ?_⟩, hfd, hsame⟩
  rw [hreq] at hopen ⊢
  obtain ⟨i, hi⟩ := h.conn hopen
  exact ⟨i, by rw [hsame _ (by rw [hi]; exact Option.some_ne_none _), hi]⟩

theorem closeFd_attends (h : Attends base w) (hfd : w.fds.get fd = some desc)
    (hlasting : ¬ desc.Lasting) (hconn : ∀ i, desc ≠ .conn i) :
    Outcome (closeFd fd) w (fun _ w' => Attends base w') fun _ _ => False := by
  apply (closeFd_books h.toBooks (by rw [hfd]; rintro _ ⟨⟩; exact hlasting)).imp
  intro _ w' hw'
  obtain ⟨hbooks, hreq, hsame⟩ := hw'
  refine ⟨hbooks, fun hopen => ?_⟩
  rw [hreq] at hopen ⊢
  obtain ⟨i, hi⟩ := h.conn hopen
  refine ⟨i, ?_⟩
  rw [hsame, hi]
  intro he
  rw [he, hfd] at hi
  exact hconn i (Option.some.inj hi)

theorem geminiRequestClose_attends : Keeps (Attends base) geminiRequestClose := by
  have hquiet {w : World} (h : Attends base w) {req : GeminiRequest} (hfd : req.fd = w.req.fd) :
      Attends base { w with req := req } :=
    attends_stable base w _ (.of_log rfl rfl hfd rfl) h
  have hurl : Keeps (Attends base) (do
      if (← get).req.url.isSome then
        modify fun w : World => { w with req.url := none }) :=
    .bind .get fun _ => .ite (.modify fun _ h => hquiet h rfl) (.pure _)
  have hfd : Keeps (Attends base) (do
      if 0 ≤ (← get).req.fd then
        closeFd (← get).req.fd.toNat
        modify fun w => { w with req.fd := -1 }
      if (← get).req.url.isSome then
        modify fun w : World => { w with req.url := none }) := by
    intro w h
    apply Outcome.bind (.get _)
    split
    · rename_i hopen
      obtain ⟨i, hi⟩ := h.conn hopen
      have hconn : ∀ desc ∈ w.fds.get w.req.fd.toNat, ¬ desc.Lasting := by
        rw [hi]
        rintro _ ⟨⟩
        exact id
      refine .bind (.get (.bind ((closeFd_books h.toBooks hconn).sure.imp ?_)))
      intro _ w₁ hw₁
      refine .bind (.modify (hurl _ ⟨⟨hw₁.1.ledger, hw₁.1.lasting⟩, fun hneg => ?_⟩))
      exact absurd hneg (show ¬ (0 : Int) ≤ -1 by decide)
    · exact hurl w h
  exact .bind .get fun _ => .ite (.bind (.modify fun _ h => hquiet h rfl) fun _ => hfd) hfd

theorem respondAndClose_attends (status : Int) (text : CStr) (a : α) :
    Keeps (Attends base) (do
      let _ ← geminiRequestRespond status text
      geminiRequestClose
      pure a) :=
  .bind (geminiRequestRespond_keeps (attends_stable base) _ _) fun _ =>
    .bind geminiRequestClose_attends fun _ => .pure _

theorem geminiFsOpen_attends (h : Attends base w) (calls : Calls) (root file : CStr) :
    Outcome (geminiFsOpen calls root file) w (fun r w' => Attends base w' ∧
      ∀ fd ∈ r, ∃ path, w'.fds.get fd = some (.file root path)) fun _ w' => Attends base w' := by
  unfold geminiFsOpen
  split
  · exact .pure ⟨h, nofun⟩
  · apply Outcome.andThen (openFd_attends h (.dir root)).sure
    intro _ w₁ hw₁
    obtain ⟨h₁, -⟩ := hw₁
    refine .bind (.checked (fun r _ => ?_) fun _ _ => h₁)
    cases r with
    | none => exact .pure ⟨h₁, nofun⟩
    | some path =>
      dsimp only
      split
      · exact .pure ⟨h₁, nofun⟩
      · apply Outcome.andThen (openFd_attends h₁ (.file root path)).sure
        intro fd w₂ hw₂
        obtain ⟨h₂, hfd, -⟩ := hw₂
        have hclosed : Outcome (closeFd fd >>= fun _ => pure none) w₂ (fun r w' =>
            Attends base w' ∧ ∀ fd ∈ r, ∃ path, w'.fds.get fd = some (.file root path))
            fun _ w' => Attends base w' :=
          .andThen (closeFd_attends h₂ hfd id nofun).sure fun _ _ h₃ => .pure ⟨h₃, nofun⟩
        split
        · exact hclosed
        · split
          · exact hclosed
          · refine .pure ⟨h₂, ?_⟩
            rintro _ ⟨⟩
            exact ⟨path, hfd⟩

theorem echoHandler_attends : Keeps (Attends base) echoHandler := by
  have hI := attends_stable base
  refine .bind (geminiRequestRespond_keeps hI _ _) fun _ => ?_
  refine .bind (requestPath_keeps 0) fun _ => ?_
  refine .bind (geminiRequestWriteLoop_keeps hI _ _ _ _) fun _ => ?_
  refine .bind (geminiRequestWriteLoop_keeps hI _ _ _ _) fun _ => ?_
  exact .bind geminiRequestClose_attends fun _ => .pure _

theorem sHandlerFs_attends (calls : Calls) (pathPrefix root : CStr) :
    Keeps (Attends base) (sHandlerFs calls pathPrefix root) := by
  refine .bind (requestPath_keeps _) fun file w h => ?_
  apply Outcome.andThen (geminiFsOpen_attends h calls root file)
  intro r w₁ hr
  obtain ⟨h₁, hfile⟩ := hr
  cases r with
  | none => exact .pure h₁
  | some resfd =>
    obtain ⟨path, hresfd⟩ := hfile resfd rfl
    have hholding := holding_stable base resfd (.file root path)
    have hfault : ∀ (_ : Fault) (w' : World),
        Attends base w' ∧ w'.fds.get resfd = some (.file root path) → Attends base w' :=
      fun _ _ hw' => hw'.1
    apply Outcome.bind
    apply (geminiRequestRespond_keeps hholding 20 _ w₁ ⟨h₁, hresfd⟩).mono _ hfault
    intro _ w₂ hw₂
    apply Outcome.bind
    apply (geminiRequestStream_keeps hholding calls.block calls.reads _ w₂ hw₂).mono _ hfault
    intro _ w₃ hw₃
    apply Outcome.andThen (closeFd_attends hw₃.1 hw₃.2 id nofun).sure
    intro _ w₄ h₄
    exact Keeps.bind geminiRequestClose_attends (fun _ => .pure _) w₄ h₄

theorem sHandlerAuthn_attends (verify : X509Store → X509 → Bool) (store : X509Store) :
    Keeps (Attends base) (sHandlerAuthn verify store) := by
  refine .bind .get fun w => ?_
  split
  · exact respondAndClose_attends _ _ _
  · exact .ite (.pure _) (respondAndClose_attends _ _ _)

theorem cgiHandler_attends (calls : Calls) (pathPrefix root : CStr) :
    Keeps (Attends base) (cgiHandler calls pathPrefix root) := by
  have hI := attends_stable base
  refine .bind (requestPath_keeps _) fun file => .bind (.checked _) fun r => ?_
  cases r with
  | none => exact .pure _
  | some prog =>
    refine .ite (.pure _) (.ite (.pure _) (.ite (.pure _) fun w h => ?_))
    apply Outcome.andThen (openFd_attends h .pipeRead).sure
    intro _ w₁ hw₁
    apply Outcome.andThen (openFd_attends hw₁.1 .pipeWrite).sure
    intro wr w₂ hw₂
    obtain ⟨h₂, hwr, -⟩ := hw₂
    split
    · exact .pure h₂
    · have hholding := holding_stable base wr .pipeWrite
      apply Outcome.bind
      apply (emit_keeps hholding (e := .executed prog) (fun _ => ⟨rfl, rfl⟩) w₂ ⟨h₂, hwr⟩).mono _
        fun _ _ hw' => hw'.1
      intro _ w₃ hw₃
      apply Outcome.andThen (closeFd_attends hw₃.1 hw₃.2 id nofun).sure
      intro _ w₄ h₄
      refine Keeps.bind (geminiRequestStream_keeps hI _ _ _) (fun rc => ?_) w₄ h₄
      exact .ite (.pure _) (.bind geminiRequestClose_attends fun _ => .pure _)

theorem runHandler_attends (verify : X509Store → X509 → Bool) (calls : Calls) (pathPrefix : CStr)
    (handler : Handler) : Keeps (Attends base) (runHandler verify calls pathPrefix handler) := by
  cases handler with
  | echo => exact echoHandler_attends
  | cgi root => exact cgiHandler_attends calls pathPrefix root
  | fs root => exact sHandlerFs_attends calls pathPrefix root
  | authn store => exact sHandlerAuthn_attends verify store
  | vhosts urls =>
    exact .bind (vhostsLoop_keeps urls) fun _ => .ite (.pure _) (respondAndClose_attends _ _ _)
  | user fn => exact .pure _

theorem dispatch_attends (verify : X509Store → X509 → Bool) (s : Serving) :
    Keeps (Attends base) (dispatch (serveCore verify) s) := by
  have hI := attends_stable base
  have hrespond (status : Int) (text : CStr) :
      Keeps (Attends base) ((serveCore verify).respond status text) :=
    .bind (geminiRequestRespond_keeps hI _ _) fun _ => .pure _
  have hinvoke (addr : Nat) (handler : GeminiHandler) :
      Keeps (Attends base) ((serveCore verify).invoke addr handler) := by
    refine .bind (.modifyGet fun w h => ⟨⟨h.ledger, h.lasting⟩, h.conn⟩) fun calls => ?_
    refine .bind .get fun w => .bind (emit_keeps hI fun _ => ⟨rfl, rfl⟩) fun _ => ?_
    exact runHandler_attends verify calls _ _
  have hturn (addr : Nat) (handler : GeminiHandler) :
      Keeps (Attends base) (dispatchTo (serveCore verify) addr handler) := by
    refine .bind (requestPath_keeps 0) fun path => .ite (.pure _) (.ite (.pure _) ?_)
    refine .bind (hinvoke addr handler) fun rc => .ite (.pure _) (.ite (.pure _) ?_)
    refine .ite ?_ (.pure _)
    exact .bind (hrespond _ _) fun _ => .bind geminiRequestClose_attends fun _ => .pure _
  refine .bind (.walk hturn (.pure _) (.throw _) (.throw _) _ _) fun handled => .ite (.pure _) ?_
  exact .bind (hrespond _ _) fun _ => geminiRequestClose_attends

theorem serveLine_attends (verify : X509Store → X509 → Bool) (s : Serving) (conn : Conn)
    (line : CStr) : Keeps (Attends base) (serveLine verify s conn line) := by
  have hI := attends_stable base
  refine .bind (.checked _) fun url => ?_
  refine .bind (.modify fun w h => hI w _ (.of_log rfl rfl rfl rfl) h) fun _ => ?_
  cases url with
  | none => exact respondAndClose_attends _ _ _
  | some url => exact .bind (dispatch_attends verify s) fun _ => .pure _

theorem serveAccepted_books (verify : X509Store → X509 → Bool) (s : Serving) (conn : Conn)
    (h : Attends base w) (hconn : w.fds.get w.req.fd.toNat = some (.conn i)) :
    Outcome (serveAccepted verify s conn) w (fun _ w' => Books base w')
      fun _ w' => Books base w' := by
  have hI := attends_stable base
  unfold serveAccepted
  split
  · have hlasting : ∀ desc ∈ w.fds.get w.req.fd.toNat, ¬ desc.Lasting := by
      rw [hconn]
      rintro _ ⟨⟩
      exact id
    exact .bind (.get (.andThen (closeFd_books h.toBooks hlasting).sure fun _ _ hw' =>
      .pure hw'.1))
  · refine Keeps.outcome (I := Attends base) ?_ h fun _ hw' => hw'.toBooks
    refine .bind (.modify fun w h => hI w _ (.of_log rfl rfl rfl rfl) h) fun _ =>
      .bind .get fun _ => ?_
    refine .bind (.checked _) fun r => ?_
    refine .bind (.modify fun w h => hI w _ (.of_log rfl rfl rfl rfl) h) fun _ => ?_
    split
    · exact .bind geminiRequestClose_attends fun _ => .pure _
    · exact serveLine_attends verify s conn _

theorem serveConn_books (verify : X509Store → X509 → Bool) (s : Serving) (conn : Conn) :
    Keeps (Books base) (serveConn verify s conn) := by
  intro w h
  refine .bind (.bind (.get (.andThen (openFd_books h (.conn w.accepted)).sure ?_)))
  intro fd w₁ hw₁
  obtain ⟨h₁, hfd, -⟩ := hw₁
  refine .modify (.bind (.modify ?_))
  exact serveAccepted_books verify s conn ⟨⟨h₁.ledger, h₁.lasting⟩, fun _ => ⟨_, hfd⟩⟩ hfd

theorem geminiServeLoop_books (verify : X509Store → X509 → Bool) (s : Serving)
    (conns : List Conn) : Keeps (Books base) (geminiServeLoop verify s conns) := by
  induction conns generalizing s with
  | nil => exact .bind (.modify fun w h => ⟨h.ledger, h.lasting⟩) fun _ => .pure _
  | cons conn conns ih =>
    refine .bind (serveConn_books verify s conn) fun counted => .ite ?_ (ih s)
    dsimp only
    exact .ite (.pure _) (ih _)

/-- In every run as many descriptors of everything are open as were opened and not closed. -/
theorem geminiServe_ledger (verify : X509Store → X509 → Bool) (s : Serving) (conns : List Conn)
    (fds : FdTable Desc) (req : GeminiRequest) (buf : Buf geminiMaxRequest) :
    Outcome (geminiServe verify s conns) (.entering fds req buf)
      (fun _ w' => ∀ desc,
        w'.fds.count desc + closings desc w'.log = fds.count desc + openings desc w'.log ∧
        (desc.Lasting → w'.fds.count desc = fds.count desc + openings desc w'.log))
      fun _ w' => ∀ desc,
        w'.fds.count desc + closings desc w'.log = fds.count desc + openings desc w'.log ∧
        (desc.Lasting → w'.fds.count desc = fds.count desc + openings desc w'.log) := by
  have hbooks {w' : World} (h : Books fds w') (desc : Desc) :
      w'.fds.count desc + closings desc w'.log = fds.count desc + openings desc w'.log ∧
        (desc.Lasting → w'.fds.count desc = fds.count desc + openings desc w'.log) := by
    refine ⟨h.ledger desc, fun hlasting => ?_⟩
    have hledger := h.ledger desc
    rwa [h.lasting desc hlasting, Nat.add_zero] at hledger
  have hstart : Books fds (.entering fds req buf) := ⟨fun _ => rfl, fun _ _ => rfl⟩
  have hruns : Keeps (Books fds) (geminiServe verify s conns) :=
    .bind (.modify fun w h => ⟨h.ledger, h.lasting⟩) fun _ => geminiServeLoop_books verify s conns
  exact hruns.outcome hstart fun _ h => hbooks h

end Descriptors

end Geminon
