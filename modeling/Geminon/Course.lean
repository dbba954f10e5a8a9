import Geminon.Ledger

namespace Geminon
open Memory Descriptors Process LinkedList
set_option autoImplicit true

/-- A handler passes a request on, when the calls made for it come to this. -/
def Handler.Yields (verify : X509Store → X509 → Bool) (loc : Location) (cert : Option X509)
    (calls : Calls) (pathPrefix : CStr) : Handler → Prop
  | .echo => False
  | .cgi _ => False
  | .fs root => ¬ calls.Finds root (loc.path.drop pathPrefix.length)
  | .authn store => Admits verify store cert
  | .vhosts urls => Hosts urls loc
  | .user _ => ¬ Answers calls.rc

/-- A request comes to a handler of a list, with what becomes of the calls made there. -/
inductive Comes (verify : X509Store → X509 → Bool) (loc : Location) (cert : Option X509) :
    List Entry → List Calls → Entry → Calls → Prop where
  | here : e.1.octets <+: loc.path →
      Comes verify loc cert (e :: entries) calls e (calls.headD .failing)
  | skip : ¬ e.1.octets <+: loc.path → Comes verify loc cert entries calls x c →
      Comes verify loc cert (e :: entries) calls x c
  | pass : e.1.octets <+: loc.path →
      e.2.Yields verify loc cert (calls.headD .failing) e.1 →
      Comes verify loc cert entries calls.tail x c →
      Comes verify loc cert (e :: entries) calls x c

theorem Comes.mem (h : Comes verify loc cert entries calls x c) : x ∈ entries := by
  induction h with
  | here => exact List.mem_cons_self
  | skip _ _ ih => exact List.mem_cons_of_mem _ ih
  | pass _ _ _ ih => exact List.mem_cons_of_mem _ ih

theorem Comes.matched (h : Comes verify loc cert entries calls x c) :
    x.1.octets <+: loc.path := by
  induction h with
  | here hpre => exact hpre
  | skip _ _ ih => exact ih
  | pass _ _ _ ih => exact ih

theorem not_comes_nil : ¬ Comes verify loc cert [] calls x c := nofun

theorem comes_cons_neg {e : Entry} (hpre : ¬ e.1.octets <+: loc.path) :
    Comes verify loc cert (e :: entries) calls x c ↔ Comes verify loc cert entries calls x c := by
  constructor
  · intro h
    cases h with
    | here h => exact absurd h hpre
    | skip _ h => exact h
    | pass h => exact absurd h hpre
  · exact .skip hpre

theorem comes_cons_pos {e : Entry} (hpre : e.1.octets <+: loc.path) :
    Comes verify loc cert (e :: entries) calls x c ↔ x = e ∧ c = calls.headD .failing ∨
      e.2.Yields verify loc cert (calls.headD .failing) e.1 ∧
        Comes verify loc cert entries calls.tail x c := by
  constructor
  · intro h
    cases h with
    | here => exact .inl ⟨rfl, rfl⟩
    | skip h => exact absurd hpre h
    | pass _ hyields h => exact .inr ⟨hyields, h⟩
  · intro h
    obtain ⟨rfl, rfl⟩ | ⟨hyields, h⟩ := h
    · exact .here hpre
    · exact .pass hpre hyields h

theorem Comes.congr {loc loc' : Location} (hhost : loc.host = loc'.host)
    (hport : loc.port = loc'.port) (hpath : loc.path = loc'.path)
    (h : Comes verify loc cert entries calls x c) : Comes verify loc' cert entries calls x c := by
  have hyields {calls : Calls} {pathPrefix : CStr} {handler : Handler} :
      handler.Yields verify loc cert calls pathPrefix →
        handler.Yields verify loc' cert calls pathPrefix := by
    cases handler <;> simp only [Handler.Yields, Hosts, hhost, hport, hpath, imp_self]
  induction h with
  | here hpre => exact .here (hpath ▸ hpre)
  | skip hpre _ ih => exact .skip (hpath ▸ hpre) ih
  | pass hpre hy _ ih => exact .pass (hpath ▸ hpre) (hyields hy) ih

section Calls
variable {cs : List Calls}

theorem calls_stable (cs : List Calls) : Stable fun w => w.calls = cs :=
  fun _ _ hq h => hq.calls.trans h

theorem openFd_calls (desc : Desc) : Keeps (fun w => w.calls = cs) (openFd desc) :=
  .modifyGet fun _ h => h

theorem closeFd_calls (fd : Nat) : Keeps (fun w => w.calls = cs) (closeFd fd) := by
  refine .modify fun w h => ?_
  split
  · exact h
  · exact h

theorem geminiRequestClose_calls : Keeps (fun w => w.calls = cs) geminiRequestClose := by
  have hurl : Keeps (fun w => w.calls = cs) (do
      if (← get).req.url.isSome then
        modify fun w : World => { w with req.url := none }) :=
    .bind .get fun _ => .ite (.modify fun _ h => h) (.pure _)
  have hfd : Keeps (fun w => w.calls = cs) (do
      if 0 ≤ (← get).req.fd then
        closeFd (← get).req.fd.toNat
        modify fun w => { w with req.fd := -1 }
      if (← get).req.url.isSome then
        modify fun w : World => { w with req.url := none }) :=
    .bind .get fun _ => .ite (.bind .get fun _ => .bind (closeFd_calls _) fun _ =>
      .bind (.modify fun _ h => h) fun _ => hurl) hurl
  exact .bind .get fun _ => .ite (.bind (.modify fun _ h => h) fun _ => hfd) hfd

theorem respondAndClose_calls (status : Int) (text : CStr) (a : α) :
    Keeps (fun w => w.calls = cs) (do
      let _ ← geminiRequestRespond status text
      geminiRequestClose
      pure a) :=
  .bind (geminiRequestRespond_keeps (calls_stable cs) _ _) fun _ =>
    .bind geminiRequestClose_calls fun _ => .pure _

theorem geminiFsOpen_calls (calls : Calls) (root file : CStr) :
    Keeps (fun w => w.calls = cs) (geminiFsOpen calls root file) := by
  refine .ite (.pure _) (.bind (openFd_calls _) fun _ => .bind (.checked _) fun r => ?_)
  cases r with
  | none => exact .pure _
  | some path =>
    have hclosed (fd : Nat) : Keeps (fun w => w.calls = cs) (do
        closeFd fd
        pure (none : Option Nat)) := .bind (closeFd_calls fd) fun _ => .pure _
    exact .ite (.pure _) (.bind (openFd_calls _) fun fd =>
      .ite (hclosed fd) (.ite (hclosed fd) (.pure _)))

/-- What becomes of the calls of a handler leaves those of the handlers behind it to come. -/
theorem runHandler_calls (verify : X509Store → X509 → Bool) (calls : Calls) (pathPrefix : CStr)
    (handler : Handler) :
    Keeps (fun w => w.calls = cs) (runHandler verify calls pathPrefix handler) := by
  have hI := calls_stable cs
  cases handler with
  | echo =>
    refine .bind (geminiRequestRespond_keeps hI _ _) fun _ =>
      .bind (requestPath_keeps 0) fun _ => ?_
    refine .bind (geminiRequestWriteLoop_keeps hI _ _ _ _) fun _ => ?_
    refine .bind (geminiRequestWriteLoop_keeps hI _ _ _ _) fun _ => ?_
    exact .bind geminiRequestClose_calls fun _ => .pure _
  | cgi root =>
    refine .bind (requestPath_keeps _) fun file => .bind (.checked _) fun r => ?_
    cases r with
    | none => exact .pure _
    | some prog =>
      refine .ite (.pure _) (.ite (.pure _) (.ite (.pure _) ?_))
      refine .bind (openFd_calls _) fun _ => .bind (openFd_calls _) fun wr => .ite (.pure _) ?_
      refine .bind (emit_keeps hI fun _ => ⟨rfl, rfl⟩) fun _ => .bind (closeFd_calls wr) fun _ => ?_
      refine .bind (geminiRequestStream_keeps hI _ _ _) fun rc => .ite (.pure _) ?_
      exact .bind geminiRequestClose_calls fun _ => .pure _
  | fs root =>
    refine .bind (requestPath_keeps _) fun file => .bind (geminiFsOpen_calls _ _ _) fun r => ?_
    cases r with
    | none => exact .pure _
    | some resfd =>
      refine .bind (geminiRequestRespond_keeps hI _ _) fun _ => ?_
      refine .bind (geminiRequestStream_keeps hI _ _ _) fun _ => ?_
      exact .bind (closeFd_calls resfd) fun _ => .bind geminiRequestClose_calls fun _ => .pure _
  | authn store =>
    refine .bind .get fun w => ?_
    split
    · exact respondAndClose_calls _ _ _
    · exact .ite (.pure _) (respondAndClose_calls _ _ _)
  | vhosts urls =>
    exact .bind (vhostsLoop_keeps urls) fun _ => .ite (.pure _) (respondAndClose_calls _ _ _)
  | user fn => exact .pure _

end Calls

end Geminon
