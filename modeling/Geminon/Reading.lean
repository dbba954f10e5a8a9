import Geminon.Closing
import Geminon.Dispatch

namespace Geminon.OnHeap
open Memory Process Descriptors Heaps LinkedList
set_option autoImplicit true

def readUrl (h : Heap Block) (p : Option Nat) : Option (Sigma GeminiUrl) :=
  match p.bind h.get with
  | some (.url u) => some u
  | _ => none

def readUrls (h : Heap Block) : List (Option Nat) → Option (List (Sigma GeminiUrl))
  | [] => some []
  | p :: ps =>
    match readUrl h p, readUrls h ps with
    | some u, some us => some (u :: us)
    | _, _ => none

def readSlots (h : Heap Block) (urls n : Nat) : Option (List (Sigma GeminiUrl)) :=
  match h.get urls with
  | some (.urls slots) => if n ≤ slots.length then readUrls h (slots.take n) else none
  | _ => none

/-- A handler function together with what it finds behind its data pointer. -/
def readHandler (h : Heap Block) (fn : Fn) (data : Option Nat) : Option Handler :=
  match fn with
  | .echo => some .echo
  | .cgi => (readText h data).map .cgi
  | .fs => (readText h data).map .fs
  | .authn =>
    match data.bind h.get with
    | some (.store certs) => some (.authn certs)
    | _ => none
  | .vhosts =>
    match data.bind h.get with
    | some (.vhosts urls n) => (readSlots h urls n).map .vhosts
    | _ => none
  | .user fn => some (.user fn)

section Dispatch
variable {m : Type → Type} [Monad m]

def dispatchNode (core : Core m) (h : Heap Block) (handler : Nat) (next pathPrefix : Option Nat)
    (fn : Fn) (data : Option Nat) : m (Option Bool) :=
  match readText h pathPrefix with
  | none => core.fault .null
  | some pathPrefix => do
    let path ← core.path
    if path.length < pathPrefix.length then pure none
    else if path.octets.take pathPrefix.length ≠ pathPrefix.octets then pure none
    else
      match readHandler h fn data with
      | none => core.fault .null
      | some fn => do
        let rc ← core.invoke handler ⟨next, pathPrefix, fn⟩
        dispatchRc core rc

def dispatchFrom (core : Core m) (h : Heap Block) : Nat → Option Nat → m Bool
  | _, none => pure false
  | 0, some _ => core.fault .endless
  | fuel + 1, some handler =>
    match h.get handler with
    | some (.handler next pathPrefix fn data) => do
      match ← dispatchNode core h handler next pathPrefix fn data with
      | some handled => pure handled
      | none => dispatchFrom core h fuel next
    | _ => core.fault (.load handler)

/-- The dispatch loop of `gemini_serve`, over the handlers in a heap. -/
def dispatch (core : Core m) (h : Heap Block) (fuel : Nat) (server : GeminiServer) : m Unit := do
  let handled ← dispatchFrom core h fuel server.first
  if handled then pure ()
  else
    core.respond 51 (.ofString "Not Found")
    core.close

/-- A handler gets to know its prefix and its data, and not where they are. -/
def Core.Blind (core : Core m) : Prop :=
  ∀ addr addr' handler handler', GeminiHandler.entry handler = GeminiHandler.entry handler' →
    core.invoke addr handler = core.invoke addr' handler'

end Dispatch

def readEntry (h : Heap Block) (handler : Nat) : Option Entry :=
  match h.get handler with
  | some (.handler _ pathPrefix fn data) =>
    match readText h pathPrefix, readHandler h fn data with
    | some pathPrefix, some handler => some (pathPrefix, handler)
    | _, _ => none
  | _ => none

theorem readEntry_eq (ha : h.get a = some (.handler next p fn data))
    (hp : readText h p = some pathPrefix) (hh : readHandler h fn data = some handler) :
    readEntry h a = some (pathPrefix, handler) := by
  unfold readEntry
  rw [ha]
  dsimp only
  rw [hp, hh]

theorem readEntry_inv (hr : readEntry h a = some entry) : ∃ next p fn data,
    h.get a = some (.handler next p fn data) ∧ readText h p = some entry.1 ∧
      readHandler h fn data = some entry.2 := by
  unfold readEntry at hr
  split at hr
  · rename_i next p fn data ha
    split at hr
    · rename_i pathPrefix handler hp hh
      cases hr
      exact ⟨next, p, fn, data, ha, hp, hh⟩
    · cases hr
  · cases hr

theorem readUrl_eq_some : readUrl h p = some u ↔ ∃ a, p = some a ∧ h.get a = some (.url u) := by
  unfold readUrl
  cases p with
  | none => simp
  | some a =>
    rw [Option.bind_some]
    split <;> simp_all

theorem Settled.readUrls (hs : Settled h h') (hr : readUrls h ps = some us) :
    readUrls h' ps = some us := by
  induction ps generalizing us with
  | nil => exact hr
  | cons p ps ih =>
    unfold OnHeap.readUrls at hr ⊢
    split at hr
    · rename_i u us' hu hus
      obtain ⟨a, rfl, ha⟩ := readUrl_eq_some.1 hu
      have hu' : readUrl h' (some a) = some u := readUrl_eq_some.2 ⟨a, rfl, hs.get ha nofun⟩
      rw [hu', ih hus]
      exact hr
    · cases hr

theorem Settled.readSlots (hs : Settled h h') (hr : readSlots h urls n = some us) :
    readSlots h' urls n = some us := by
  unfold OnHeap.readSlots at hr ⊢
  split at hr
  · rename_i slots hurls
    rw [hs.get hurls nofun]
    dsimp only
    split at hr
    · rename_i hle
      rw [if_pos hle]
      exact hs.readUrls hr
    · cases hr
  · cases hr

theorem Settled.readHandler (hs : Settled h h') (hr : readHandler h fn data = some handler) :
    readHandler h' fn data = some handler := by
  have htext (f : CStr → Handler) (hf : (OnHeap.readText h data).map f = some handler) :
      (OnHeap.readText h' data).map f = some handler := by
    obtain ⟨root, hroot, hhandler⟩ := Option.map_eq_some_iff.1 hf
    rw [hs.readText hroot, Option.map_some, hhandler]
  unfold OnHeap.readHandler at hr ⊢
  cases fn with
  | echo => exact hr
  | cgi => exact htext _ hr
  | fs => exact htext _ hr
  | authn =>
    dsimp only at hr ⊢
    split at hr
    · rename_i certs hdata
      obtain ⟨a, rfl, ha⟩ := Option.bind_eq_some_iff.1 hdata
      rw [Option.bind_some, hs.get ha nofun]
      exact hr
    · cases hr
  | vhosts =>
    dsimp only at hr ⊢
    split at hr
    · rename_i urls n hdata
      obtain ⟨a, rfl, ha⟩ := Option.bind_eq_some_iff.1 hdata
      obtain ⟨us, hus, hhandler⟩ := Option.map_eq_some_iff.1 hr
      rw [Option.bind_some, hs.get ha nofun]
      dsimp only
      rw [hs.readSlots hus, Option.map_some, hhandler]
    · cases hr
  | user fn => exact hr

theorem Settled.readEntry (hs : Settled h h') (hr : readEntry h a = some entry) :
    readEntry h' a = some entry := by
  obtain ⟨next, p, fn, data, ha, hp, hh⟩ := readEntry_inv hr
  obtain ⟨b, hb, hunlinked⟩ := Option.map_eq_some_iff.1 (hs a _ ha)
  cases b <;> cases hunlinked
  exact readEntry_eq hb (hs.readText hp) (hs.readHandler hh)

def Allocs.malloc (allocs : Allocs) : Option (Option Nat) := allocs.node.map fun _ => allocs.stale

inductive Stands (mem : List Entry) (h : Heap Block) (allocs : Allocs) :
    Call → Registration → Prop where
  | handle : readEntry h handler = some entry → mem[i]? = some entry →
      Stands mem h allocs (.handle handler) (.handle i)
  | fn : readHandler h f data = some handler →
      Stands mem h allocs (.fn pathPrefix f data) (.fn allocs.malloc pathPrefix handler)
  | fs : Stands mem h allocs (.fs pathPrefix root) (.fs allocs.malloc pathPrefix root)
  | authn : readHandler h .authn p = some (.authn certs) →
      Stands mem h allocs (.authn pathPrefix p) (.authn allocs.malloc pathPrefix certs)
  | vhosts : readSlots h urls n = some us →
      Stands mem h allocs (.vhosts urls n) (.vhosts allocs.data.isSome allocs.malloc us)

theorem Stands.settled (hst : Stands mem h allocs call reg) (hs : Settled h h')
    (more : List Entry) : Stands (mem ++ more) h' allocs call reg := by
  cases hst with
  | handle hentry hmem =>
    refine .handle (hs.readEntry hentry) ?_
    rw [List.getElem?_append_left (List.getElem?_eq_some_iff.1 hmem).1, hmem]
  | fn hh => exact .fn (hs.readHandler hh)
  | fs => exact .fs
  | authn hh => exact .authn (hs.readHandler hh)
  | vhosts hus => exact .vhosts (hs.readSlots hus)

/-- There is memory for the copies of the strings that a call is given. -/
def Call.Copied (allocs : Allocs) : Call → Prop
  | .handle _ => True
  | .fs _ _ => allocs.pathPrefix.isSome ∧ allocs.data.isSome
  | _ => allocs.pathPrefix.isSome

def Registration.entries (mem : List Entry) : Registration → List Entry
  | .handle i => mem[i]?.toList
  | reg => reg.made.toList

theorem registered_entries_cons (mem : List Entry) (reg : Registration)
    (regs : List Registration) : (registered mem (reg :: regs)).map Prod.snd =
      Registration.entries mem reg ++ (registered (mem ++ reg.made.toList) regs).map Prod.snd := by
  cases hreg : reg.made with
  | some entry =>
    rw [registered_made hreg]
    cases reg with
    | handle i => cases hreg
    | _ => simp only [Registration.entries, hreg, List.map_cons, Option.toList_some,
        List.singleton_append]
  | none =>
    rw [Option.toList_none, List.append_nil]
    cases reg with
    | handle i =>
      rw [registered, List.map_append, Registration.entries]
      cases mem[i]? <;> rfl
    | _ =>
      rw [registered_not_made hreg fun _ he => by cases he]
      simp only [Registration.entries, hreg, Option.toList_none, List.nil_append]

theorem Chain.at_of_mem (hc : Chain h start nodes) : ∀ n ∈ nodes, ∃ next, n.At h next := by
  induction nodes generalizing start with
  | nil => exact List.forall_mem_nil _
  | cons m nodes ih =>
    obtain ⟨-, next, hm, hrest⟩ := hc
    exact List.forall_mem_cons.2 ⟨⟨next, hm⟩, ih hrest⟩

def Reads (h : Heap Block) : List Node → List Entry → Prop :=
  List.Forall₂ fun n entry => readEntry h n.addr = some entry

theorem Reads.settled (hr : Reads h nodes entries) (hs : Settled h h') : Reads h' nodes entries :=
  List.Forall₂.imp (fun _ _ hentry => hs.readEntry hentry) hr

theorem added_read {n : Node} (ha : Added allocs pathPrefix fn data h n) (hn : n.At h next)
    (hcopied : allocs.pathPrefix.isSome) (hh : readHandler h fn data = some handler) :
    readEntry h n.addr = some (pathPrefix, handler) :=
  readEntry_eq hn.node (ha.pathPrefix hcopied) (by rw [ha.fn, ha.data, hh])

theorem reads_new {new : List Node} {made : Bool} (entry : Entry)
    (hlen : new.length = made.toNat) (hentries : entries = if made then [entry] else [])
    (hread : ∀ n ∈ new, readEntry h n.addr = some entry) : Reads h new entries := by
  cases made with
  | false =>
    rw [List.length_eq_zero_iff.1 hlen, hentries]
    exact .nil
  | true =>
    obtain ⟨n, rfl⟩ := List.length_eq_one_iff.1 hlen
    rw [hentries]
    exact .cons (hread n List.mem_cons_self) .nil

theorem Call.adds_reads {new : List Node} (hst : Stands mem h allocs call reg)
    (hcopied : call.Copied allocs) (hs : Settled h h') (hnew : ∀ n ∈ new, ∃ next, n.At h' next)
    (hlen : new.length = (call.makes allocs).toNat) (hadds : ∀ n ∈ new, call.Adds allocs h' n) :
    Reads h' new (Registration.entries mem reg) := by
  cases hst with
  | @handle handler entry i hentry hmem =>
    refine reads_new entry hlen (by rw [Registration.entries, hmem]; rfl) fun n hn => ?_
    have haddr : n.addr = handler := hadds n hn
    rw [haddr, hs.readEntry hentry]
  | @fn f data handler pathPrefix hh =>
    refine reads_new (pathPrefix, handler) hlen ?_ fun n hn => ?_
    · rcases allocs with ⟨_ | node, stale, copied, block⟩ <;> rfl
    · obtain ⟨next, hat⟩ := hnew n hn
      exact added_read (hadds n hn) hat hcopied (hs.readHandler hh)
  | @fs pathPrefix root =>
    refine reads_new (pathPrefix, .fs root) hlen ?_ fun n hn => ?_
    · rcases allocs with ⟨_ | node, stale, copied, block⟩ <;> rfl
    · obtain ⟨next, hat⟩ := hnew n hn
      obtain ⟨data, hadded, hroot⟩ := hadds n hn
      refine added_read hadded hat hcopied.1 ?_
      rw [readHandler, hroot hcopied.2, Option.map_some]
  | @authn p certs pathPrefix hh =>
    refine reads_new (pathPrefix, .authn certs) hlen ?_ fun n hn => ?_
    · rcases allocs with ⟨_ | node, stale, copied, block⟩ <;> rfl
    · obtain ⟨next, hat⟩ := hnew n hn
      exact added_read (hadds n hn) hat hcopied (hs.readHandler hh)
  | @vhosts urls n us hus =>
    refine reads_new (rootPrefix, .vhosts us) hlen ?_ fun m hm => ?_
    · rcases allocs with ⟨_ | node, stale, copied, _ | block⟩ <;> rfl
    · obtain ⟨next, hat⟩ := hnew m hm
      obtain ⟨x, hadded, hx⟩ := hadds m hm
      refine added_read hadded hat hcopied ?_
      rw [readHandler, Option.bind_some, hx]
      dsimp only
      rw [hs.readSlots hus, Option.map_some]

theorem reads_append (hr : Reads h nodes entries) (hr' : Reads h nodes' entries') :
    Reads h (nodes ++ nodes') (entries ++ entries') :=
  List.rel_append hr hr'

theorem registerAll_reads {handings : List Handing} (hr : Ready h server nodes handings)
    (hreads : Reads h nodes entries)
    (hst : List.Forall₂ (fun g reg => Stands mem h g.allocs g.call reg) handings regs)
    (hcopied : ∀ g ∈ handings, g.call.Copied g.allocs) :
    Outcome (registerAll server (handings.map Handing.step)) h (fun server' h' => ∃ nodes',
      nodes'.length ≤ nodes.length + handings.length ∧ Represents h' server' nodes' ∧
        Reads h' nodes' (entries ++ (registered mem regs).map Prod.snd)) fun _ _ => False := by
  induction handings generalizing h server nodes entries mem regs with
  | nil =>
    cases hst
    refine .pure ⟨nodes, Nat.le_refl _, hr.represents, ?_⟩
    rwa [registered, List.map_nil, List.append_nil]
  | cons g handings ih =>
    cases hst with
    | @cons _ reg _ regs hg hst =>
      apply Outcome.andThen hr.step
      intro r h₁ ht
      obtain ⟨nodes₁, ht, hr₁⟩ := ht
      obtain ⟨new, rfl, hlen, hadds⟩ := ht.adds
      have hat := hr₁.represents.chain.at_of_mem
      have hnew := Call.adds_reads hg (hcopied g List.mem_cons_self) ht.settled
        (fun n hn => hat n (List.mem_append_right _ hn)) hlen hadds
      have hreads₁ := reads_append (hreads.settled ht.settled) hnew
      have hst₁ : List.Forall₂ (fun g' reg' =>
          Stands (mem ++ reg.made.toList) h₁ g'.allocs g'.call reg') handings regs :=
        hst.imp fun _ _ hstands => hstands.settled ht.settled _
      apply (ih hr₁ hreads₁ hst₁ fun g' hg' => hcopied g' (List.mem_cons_of_mem _ hg')).imp
      intro server' h' hserver'
      obtain ⟨nodes', hcount, hrepr, hread⟩ := hserver'
      refine ⟨nodes', ?_, hrepr, ?_⟩
      · have hle := Bool.toNat_le g.makes
        rw [List.length_append, hlen] at hcount
        rw [List.length_cons]
        omega
      · rwa [registered_entries_cons, ← List.append_assoc]

section Dispatch
variable {m : Type → Type} [Monad m]

/-- A dispatch over the links of a heap is one over what is read there. -/
theorem dispatchFrom_eq (core : Core m) (hc : Chain h start nodes) (hr : Reads h nodes entries)
    (hfuel : nodes.length ≤ fuel) : ∃ ns : List (Nat × GeminiHandler),
      ns.map (fun n => n.2.entry) = entries ∧
        dispatchFrom core h fuel start = walkList (dispatchTo core) (pure false) ns := by
  induction nodes generalizing start entries fuel with
  | nil =>
    cases hr
    cases hc
    exact ⟨[], rfl, by cases fuel <;> rfl⟩
  | cons n nodes ih =>
    cases hr with
    | @cons _ entry _ entries hentry hr =>
      obtain ⟨rfl, next, hn, hrest⟩ := hc
      obtain ⟨fuel, rfl⟩ := Nat.exists_eq_succ_of_ne_zero (Nat.ne_zero_of_lt hfuel)
      obtain ⟨ns, hns, heq⟩ := ih hrest hr (Nat.le_of_succ_le_succ hfuel)
      obtain ⟨_, p, fn, data, hnode, hp, hh⟩ := readEntry_inv hentry
      rw [hn.node] at hnode
      cases hnode
      have hturn : dispatchNode core h n.addr next n.pathPrefix n.fn n.data =
          dispatchTo core n.addr ⟨next, entry.1, entry.2⟩ := by
        unfold dispatchNode dispatchTo
        rw [hp]
        dsimp only
        rw [hh]
      refine ⟨(n.addr, ⟨next, entry.1, entry.2⟩) :: ns, by rw [List.map_cons, hns]; rfl, ?_⟩
      rw [dispatchFrom, hn.node, walkList]
      dsimp only
      rw [hturn]
      refine congrArg (dispatchTo core _ _ >>= ·) (funext fun r => ?_)
      cases r with
      | some handled => rfl
      | none => exact heq

theorem walkList_blind {core : Core m} (hb : Core.Blind core) {ns ns' : List (Nat × GeminiHandler)}
    (h : ns.map (fun n => n.2.entry) = ns'.map fun n => n.2.entry) :
    walkList (dispatchTo core) (pure false) ns = walkList (dispatchTo core) (pure false) ns' := by
  induction ns generalizing ns' with
  | nil =>
    rw [List.map_nil, eq_comm, List.map_eq_nil_iff] at h
    rw [h]
  | cons n ns ih =>
    cases ns' with
    | nil => cases h
    | cons n' ns' =>
      obtain ⟨hentry, hrest⟩ := List.cons.inj h
      have hpre : n.2.pathPrefix = n'.2.pathPrefix := congrArg Prod.fst hentry
      have hturn : dispatchTo core n.1 n.2 = dispatchTo core n'.1 n'.2 := by
        unfold dispatchTo
        rw [hpre, hb n.1 n'.1 n.2 n'.2 hentry]
      rw [walkList, walkList, hturn, ih hrest]

/-- A server that is built in a heap dispatches as the one that is built in a list. -/
theorem dispatch_refines {core : Core m} (hb : Core.Blind core) (handings : List Handing)
    (hssl : ∀ c ∈ ssl, (h.get c).isSome) (hoffered : ∀ g ∈ handings, Offered h g.call g.own)
    (hnodup : (ssl.toList ++ offered handings).Nodup) {mem : List GeminiHandler}
    (hst : List.Forall₂ (fun g reg => Stands (mem.map GeminiHandler.entry) h g.allocs g.call reg)
      handings regs)
    (hcopied : ∀ g ∈ handings, g.call.Copied g.allocs) (hhandled : (handled regs).Nodup)
    (hin : ∀ a ∈ handled regs, a < mem.length) :
    Outcome (registerAll ⟨none, none, ssl⟩ (handings.map Handing.step)) h
      (fun server h' => ∃ s, register ⟨mem, .zeroed⟩ regs = .ok s ∧
        dispatch core h' handings.length server = Geminon.dispatch core s) fun _ _ => False := by
  obtain ⟨s, hregs, hs⟩ := register_holds (Holds.zeroed mem) hhandled
    fun a ha => ⟨hin a ha, List.not_mem_nil⟩
  rw [List.nil_append] at hs
  apply (registerAll_reads (ready_fresh hssl hoffered hnodup) .nil hst hcopied).imp
  intro server h' hserver
  obtain ⟨nodes, hcount, hrepr, hreads⟩ := hserver
  refine ⟨s, hregs, ?_⟩
  rw [List.length_nil, Nat.zero_add] at hcount
  rw [List.nil_append] at hreads
  obtain ⟨ns, hns, heq⟩ := dispatchFrom_eq core hrepr.chain hreads hcount
  obtain ⟨ns', hns', hdispatch⟩ := hs.dispatch_eq core
  have hsame : ns.map (fun n => n.2.entry) = ns'.map fun n => n.2.entry := by
    rw [hns, ← hns', List.map_map]
    rfl
  rw [hdispatch, dispatch, heq, walkList_blind hb hsame]
  rfl

end Dispatch

/-- A core that takes down whom it asked, and lets everybody pass. -/
def asking (path : CStr) : Core (Proc (List Entry)) where
  path := pure path
  invoke _ handler := modifyGet fun asked => (geminiHandlerContinue, asked ++ [handler.entry])
  respond _ _ := pure ()
  close := pure ()
  fault := throw

theorem asking_blind (path : CStr) : Core.Blind (asking path) := by
  intro addr addr' handler handler' hentry
  simp only [asking, hentry]

def withOwn : Heap Block :=
  (FdTable.empty.set 8 (some (.handler (some 7) (some 9) (.user 0) none))).set 9
    (some (.text rootPrefix))

def ownNode : Node := ⟨8, some 9, .user 0, none, []⟩

def ownAndFs : List Handing :=
  [⟨⟨none, none, none, none⟩, .handle 8, ownNode.blocks⟩,
    ⟨⟨some 1, none, some 2, some 3⟩, .fs rootPrefix rootPrefix, []⟩]

theorem dispatch_refines_ownAndFs :
    Outcome (registerAll ⟨none, none, none⟩ (ownAndFs.map Handing.step)) withOwn
      (fun server h' => ∃ s, register ⟨[⟨some 7, rootPrefix, .user 0⟩], .zeroed⟩
          [.handle 0, .fs (some none) rootPrefix rootPrefix] = .ok s ∧
        dispatch (asking rootPrefix) h' 2 server = Geminon.dispatch (asking rootPrefix) s)
      fun _ _ => False := by
  apply dispatch_refines (asking_blind rootPrefix) ownAndFs
  · exact nofun
  · refine List.forall_mem_cons.2 ⟨?_, List.forall_mem_singleton.2 .fs⟩
    change Offered withOwn (.handle ownNode.addr) ownNode.blocks
    refine .handle ⟨rfl, ?_, .null (by decide)⟩
    rintro p ⟨⟩
    rfl
  · decide
  · exact .cons (.handle rfl rfl) (.cons .fs .nil)
  · exact List.forall_mem_cons.2 ⟨trivial, List.forall_mem_singleton.2 ⟨rfl, rfl⟩⟩
  · decide
  · decide

end Geminon.OnHeap
