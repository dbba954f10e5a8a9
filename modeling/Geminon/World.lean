import Geminon.Server
import Geminon.RequestLine
import Geminon.Descriptors
import Geminon.Process

namespace Geminon
open Memory Descriptors Process
set_option autoImplicit true

inductive Desc where
  | conn (number : Nat)
  | dir (root : CStr)
  | file (root path : CStr)
  | pipeRead
  | pipeWrite
  | other (number : Nat)
  deriving DecidableEq, Repr

/-- What is seen of the process from outside, and which of its handlers and replies it began. -/
inductive Event where
  | opened (desc : Desc)
  | closed (desc : Desc)
  | invoked (addr : Nat) (pathPrefix : CStr) (handler : Handler)
      (url : Option (Sigma GeminiUrl)) (cert : Option X509)
  | responded (conn : Nat) (status : Int)
  | sent (conn : Nat) (octets : List UInt8)
  | executed (prog : CStr)

def Event.connection : Event → Option Nat
  | .opened (.conn number) => some number
  | .closed (.conn number) => some number
  | .responded conn _ => some conn
  | .sent conn _ => some conn
  | _ => none

/-- A TLS object over an accepted connection. `partialWrite` is `SSL_MODE_ENABLE_PARTIAL_WRITE`,
which `SSL_new` leaves off: a write then succeeds only once it has taken all of its octets. -/
structure Ssl where
  conn : Nat
  partialWrite : Bool
  deriving DecidableEq, Repr

structure GeminiRequest where
  fd : Int
  ssl : Option Ssl
  url : Option (Sigma GeminiUrl)
  cert : Option X509

def GeminiRequest.zeroed : GeminiRequest := ⟨0, none, none, none⟩

/-- What the calls that one run of a handler makes come to: `open` of the root, the `malloc` of
`gemini_fs_resolve`, `openat`, `fstat` and its answer; the transfer buffer and what successive
reads bring; the `malloc` of `gemini_fs_path`, the two `calloc`, `pipe` and `fork` of the CGI
handler; what a handler of somebody else's returns. -/
structure Calls where
  root : Bool
  resolve : Bool
  openat : Bool
  fstat : Bool
  regular : Bool
  block : Malloc
  reads : List (Option (List UInt8))
  path : Malloc
  argv : Bool
  envp : Bool
  pipe : Bool
  fork : Bool
  rc : Int

def Calls.failing : Calls where
  root := false
  resolve := false
  openat := false
  fstat := false
  regular := false
  block := none
  reads := []
  path := none
  argv := false
  envp := false
  pipe := false
  fork := false
  rc := geminiHandlerContinue

/-- The server process: `incoming`, `writes` and `calls` are what the connection at hand still
holds in store, `req` and `buf` the two objects that `gemini_serve` keeps from one connection to
the next. -/
structure World where
  fds : FdTable Desc
  accepted : Nat
  incoming : Incoming
  writes : List (Option Nat)
  calls : List Calls
  req : GeminiRequest
  buf : Buf geminiMaxRequest
  log : List Event

def emit (event : Event) : Proc World Unit :=
  modify fun w => { w with log := w.log ++ [event] }

def openFd (desc : Desc) : Proc World Nat :=
  modifyGet fun w =>
    (w.fds.unused, { w with fds := w.fds.add desc, log := w.log ++ [.opened desc] })

def closeFd (fd : Nat) : Proc World Unit :=
  modify fun w =>
    match w.fds.get fd with
    | some desc => { w with fds := w.fds.close fd, log := w.log ++ [.closed desc] }
    | none => w

def nextCalls : Proc World Calls :=
  modifyGet fun w => (w.calls.headD .failing, { w with calls := w.calls.tail })

def World.others (w : World) : FdTable Desc :=
  if 0 ≤ w.req.fd then w.fds.close w.req.fd.toNat else w.fds

structure Held (i : Nat) (w : World) (fd : Nat) : Prop where
  fd_eq : w.req.fd = fd
  isOpen : w.fds.get fd = some (.conn i)
  ssl : w.req.ssl = some ⟨i, false⟩

/-- What a step leaves as it was while the request stays open, and the events it adds. -/
structure Kept (w w' : World) (events : List Event) : Prop where
  req : w'.req = w.req
  accepted : w'.accepted = w.accepted
  fds : ∀ fd : Nat, w.req.fd = fd → (w.fds.get fd).isSome → w'.fds.get fd = w.fds.get fd
  log : w'.log = w.log ++ events

theorem Kept.refl (w : World) : Kept w w [] := ⟨rfl, rfl, fun _ _ _ => rfl, by simp⟩

theorem Kept.trans (h : Kept w w₁ events) (h' : Kept w₁ w₂ events') :
    Kept w w₂ (events ++ events') where
  req := h'.req.trans h.req
  accepted := h'.accepted.trans h.accepted
  fds fd hfd hopen := by
    have he := h.fds fd hfd hopen
    rw [h'.fds fd (by rw [h.req, hfd]) (by rwa [he]), he]
  log := by rw [h'.log, h.log, List.append_assoc]

theorem Held.kept (h : Held i w fd) (hk : Kept w w' events) : Held i w' fd where
  fd_eq := by rw [hk.req, h.fd_eq]
  isOpen := by rw [hk.fds fd h.fd_eq (by rw [h.isOpen]; rfl), h.isOpen]
  ssl := by rw [hk.req, h.ssl]

theorem Held.others (h : Held i w fd) : w.others = w.fds.set fd none := by
  have h0 : (0 : Int) ≤ (fd : Int) := by omega
  rw [World.others, h.fd_eq, if_pos h0]
  rfl

/-- Of a kind that the server never closes; it opens the two ends of a pipe together. -/
def Event.Leaks : Event → Prop
  | .opened (.dir _) => True
  | .opened .pipeRead => True
  | _ => False

def Leaky (events : List Event) : Prop := ∃ e ∈ events, e.Leaks

theorem leaky_nil : ¬ Leaky [] := by simp [Leaky]

theorem leaky_append : Leaky (l ++ l') ↔ Leaky l ∨ Leaky l' := by
  simp only [Leaky, List.mem_append, or_and_right, exists_or]

theorem not_leaky (h : ∀ e ∈ l, ¬ e.Leaks) : ¬ Leaky l := fun ⟨e, he, hl⟩ => h e he hl

/-- The request is still open, and of the descriptors opened just the leaking ones are. -/
structure Passed (w w' : World) (events : List Event) : Prop extends Kept w w' events where
  grows : w.others.Grows (Leaky events) w'.others

theorem Passed.refl (w : World) : Passed w w [] := ⟨.refl w, .refl _ leaky_nil⟩

theorem Passed.trans (h : Passed w w₁ events) (h' : Passed w₁ w₂ events') :
    Passed w w₂ (events ++ events') :=
  ⟨h.toKept.trans h'.toKept, (h.grows.trans h'.grows).congr leaky_append.symm⟩

structure Ended (w w' : World) (events : List Event) : Prop where
  req : w'.req = ⟨-1, none, none, w.req.cert⟩
  accepted : w'.accepted = w.accepted
  log : w'.log = w.log ++ events
  grows : w.others.Grows (Leaky events) w'.others

theorem Passed.ended (h : Passed w w₁ events) (h' : Ended w₁ w₂ events') :
    Ended w w₂ (events ++ events') where
  req := by rw [h'.req, h.req]
  accepted := h'.accepted.trans h.accepted
  log := by rw [h'.log, h.log, List.append_assoc]
  grows := (h.grows.trans h'.grows).congr leaky_append.symm

theorem openFd_kept (h : Held i w fd) (desc : Desc) :
    Outcome (openFd desc) w (fun new w' => Kept w w' [.opened desc] ∧
      w.others.get new = none ∧ w'.others = w.others.set new (some desc)) E := by
  apply Outcome.modifyGet
  have hne : fd ≠ w.fds.unused := by
    intro he
    have hopen := h.isOpen
    rw [he, w.fds.get_unused] at hopen
    cases hopen
  have hk : Kept w { w with fds := w.fds.add desc, log := w.log ++ [.opened desc] }
      [.opened desc] := by
    refine ⟨rfl, rfl, fun fd' hfd _ => ?_, rfl⟩
    have hfd' : fd' = fd := by
      have he := h.fd_eq
      omega
    rw [hfd']
    exact w.fds.get_set_of_ne _ hne
  refine ⟨hk, ?_, ?_⟩
  · rw [h.others, FdTable.get_set_of_ne _ _ (Ne.symm hne), w.fds.get_unused]
  · rw [h.others, (h.kept hk).others]
    exact w.fds.set_comm _ _ (Ne.symm hne)

theorem closeFd_kept (h : Held i w fd) (hd : w.others.get fd' = some desc) :
    Outcome (closeFd fd') w (fun _ w' => Kept w w' [.closed desc] ∧
      w'.others = w.others.set fd' none) E := by
  have hne : fd' ≠ fd := by
    intro heq
    obtain rfl := heq
    rw [h.others, FdTable.get_set_self] at hd
    cases hd
  rw [h.others, FdTable.get_set_of_ne _ _ hne] at hd
  apply Outcome.modify
  simp only [hd]
  have hk : Kept w { w with fds := w.fds.close fd', log := w.log ++ [.closed desc] }
      [.closed desc] := by
    refine ⟨rfl, rfl, fun fd₁ hfd _ => ?_, rfl⟩
    have hfd' : fd₁ = fd := by
      have he := h.fd_eq
      omega
    rw [hfd']
    exact w.fds.get_set_of_ne _ (Ne.symm hne)
  refine ⟨hk, ?_⟩
  rw [h.others, (h.kept hk).others]
  exact w.fds.set_comm _ _ hne

theorem emit_passed (w : World) {event : Event} (h : ¬ event.Leaks) :
    Outcome (emit event) w (fun _ w' => Passed w w' [event] ∧ w'.calls = w.calls) E := by
  refine .modify ⟨⟨⟨rfl, rfl, fun _ _ _ => rfl, rfl⟩, .refl _ ?_⟩, rfl⟩
  exact not_leaky (by simpa using h)

end Geminon
