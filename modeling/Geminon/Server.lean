import Geminon.Url
import Geminon.LinkedList

namespace Geminon
open Memory LinkedList
set_option autoImplicit true

/-- A store of certificate authorities, by the files they were loaded from. -/
abbrev X509Store := List CStr

abbrev X509 := Nat

inductive Handler where
  | echo
  | cgi (root : CStr)
  | fs (root : CStr)
  | authn (store : X509Store)
  | vhosts (urls : List (Sigma GeminiUrl))
  | user (fn : Nat)

structure GeminiHandler where
  next : Option Nat
  pathPrefix : CStr
  handler : Handler

/-- `first` and `last` are addresses of handlers. -/
structure GeminiServer where
  requests : UInt32
  maxRequests : UInt32
  first : Option Nat
  last : Option Nat

def GeminiServer.zeroed : GeminiServer := ⟨0, 0, none, none⟩

/-- The server together with the memory its handlers live in. -/
structure Serving where
  mem : List GeminiHandler
  server : GeminiServer

def setNext (mem : List GeminiHandler) (handler : Nat) (next : Option Nat) :
    Except Fault (List GeminiHandler) :=
  match mem[handler]? with
  | none => .error (.store handler)
  | some node => .ok (mem.set handler { node with next })

def geminiHandle (s : Serving) (handler : Nat) : Except Fault (Int × Serving) := do
  let mem ← setNext s.mem handler none
  let server := if s.server.first.isNone then { s.server with first := some handler } else s.server
  let mem ← match server.last with
    | none => .ok mem
    | some last => setNext mem last (some handler)
  .ok (0, ⟨mem, { server with last := some handler }⟩)

/-- `malloc` finds a node whose `next` may be anything. -/
def geminiHandleFn (malloc : Option (Option Nat)) (s : Serving) (pathPrefix : CStr)
    (fn : Handler) : Except Fault (Int × Serving) :=
  match malloc with
  | none => .ok (-1, s)
  | some next => geminiHandle { s with mem := s.mem ++ [⟨next, pathPrefix, fn⟩] } s.mem.length

def geminiHandleFs (malloc : Option (Option Nat)) (s : Serving) (pathPrefix root : CStr) :
    Except Fault (Int × Serving) :=
  geminiHandleFn malloc s pathPrefix (.fs root)

def geminiHandleAuthn (malloc : Option (Option Nat)) (s : Serving) (pathPrefix : CStr)
    (store : X509Store) : Except Fault (Int × Serving) :=
  geminiHandleFn malloc s pathPrefix (.authn store)

def rootPrefix : CStr := ⟨[slash], by decide⟩

def geminiHandleVhosts (block : Bool) (malloc : Option (Option Nat)) (s : Serving)
    (urls : List (Sigma GeminiUrl)) : Except Fault (Int × Serving) :=
  if block then do
    let (rc, s) ← geminiHandleFn malloc s rootPrefix (.vhosts urls)
    .ok (if rc ≠ 0 then -1 else 0, s)
  else .ok (-1, s)

inductive Registration where
  | handle (handler : Nat)
  | fn (malloc : Option (Option Nat)) (pathPrefix : CStr) (fn : Handler)
  | fs (malloc : Option (Option Nat)) (pathPrefix root : CStr)
  | authn (malloc : Option (Option Nat)) (pathPrefix : CStr) (store : X509Store)
  | vhosts (block : Bool) (malloc : Option (Option Nat)) (urls : List (Sigma GeminiUrl))

def Registration.run (s : Serving) : Registration → Except Fault (Int × Serving)
  | .handle handler => geminiHandle s handler
  | .fn malloc pathPrefix h => geminiHandleFn malloc s pathPrefix h
  | .fs malloc pathPrefix root => geminiHandleFs malloc s pathPrefix root
  | .authn malloc pathPrefix store => geminiHandleAuthn malloc s pathPrefix store
  | .vhosts block malloc urls => geminiHandleVhosts block malloc s urls

def register (s : Serving) : List Registration → Except Fault Serving
  | [] => .ok s
  | reg :: regs => do
    let (_, s) ← reg.run s
    register s regs

/-- What the dispatch loop needs of the process that runs it. -/
structure Core (m : Type → Type) where
  path : m CStr
  invoke : Nat → GeminiHandler → m Int
  respond : Int → CStr → m Unit
  close : m Unit
  fault : ∀ {α}, Fault → m α

section Dispatch
variable {m : Type → Type} [Monad m]

def dispatchRc (core : Core m) (rc : Int) : m (Option Bool) :=
  if rc = geminiHandlerContinue then pure none
  else if rc = geminiHandlerDone then pure (some true)
  else if rc = geminiHandlerAbort then do
    core.respond 59 (.ofString "Internal Error")
    core.close
    pure (some true)
  else pure none

/-- One turn of the loop; a result breaks it. -/
def dispatchTo (core : Core m) (addr : Nat) (handler : GeminiHandler) : m (Option Bool) := do
  let path ← core.path
  if path.length < handler.pathPrefix.length then pure none
  else if path.octets.take handler.pathPrefix.length ≠ handler.pathPrefix.octets then pure none
  else
    let rc ← core.invoke addr handler
    dispatchRc core rc

/-- The part of `gemini_serve` that finds an answer to a parsed request. -/
def dispatch (core : Core m) (s : Serving) : m Unit := do
  let handled ← walk GeminiHandler.next s.mem (dispatchTo core) (pure false)
    (core.fault .null) (core.fault .endless) s.mem.length s.server.first
  if handled then pure ()
  else
    core.respond 51 (.ofString "Not Found")
    core.close

theorem dispatchTo_eq (core : Core m) (addr : Nat) (handler : GeminiHandler) :
    dispatchTo core addr handler = core.path >>= fun path =>
      if handler.pathPrefix.octets <+: path.octets then
        core.invoke addr handler >>= dispatchRc core
      else pure none := by
  unfold dispatchTo
  refine congrArg (core.path >>= ·) (funext fun path => ?_)
  by_cases h : handler.pathPrefix.octets <+: path.octets
  · have hlen : handler.pathPrefix.length ≤ path.length := h.length_le
    have htake : path.octets.take handler.pathPrefix.length = handler.pathPrefix.octets :=
      (List.prefix_iff_eq_take.1 h).symm
    rw [if_neg (Nat.not_lt.2 hlen), if_neg fun hne => hne htake, if_pos h]
  · have htake : path.octets.take handler.pathPrefix.length ≠ handler.pathPrefix.octets :=
      fun he => h (List.prefix_iff_eq_take.2 he.symm)
    rw [if_pos htake, if_neg h, ite_self]

end Dispatch

end Geminon
