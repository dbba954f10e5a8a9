import Geminon.Server
import Geminon.Process

namespace Geminon
open Memory LinkedList Process
set_option autoImplicit true

/-- A handler without its link. -/
abbrev Entry := CStr × Handler

def GeminiHandler.entry (handler : GeminiHandler) : Entry := (handler.pathPrefix, handler.handler)

def Registration.made : Registration → Option Entry
  | .fn (some _) pathPrefix h => some (pathPrefix, h)
  | .fs (some _) pathPrefix root => some (pathPrefix, .fs root)
  | .authn (some _) pathPrefix store => some (pathPrefix, .authn store)
  | .vhosts true (some _) urls => some (rootPrefix, .vhosts urls)
  | _ => none

/-- The plain list that a sequence of registrations amounts to, over the nodes there are. -/
def registered (nodes : List Entry) : List Registration → List (Nat × Entry)
  | [] => []
  | .handle addr :: regs =>
    (nodes[addr]?.map fun entry => (addr, entry)).toList ++ registered nodes regs
  | reg :: regs =>
    match reg.made with
    | some entry => (nodes.length, entry) :: registered (nodes ++ [entry]) regs
    | none => registered nodes regs

def handled (regs : List Registration) : List Nat :=
  regs.filterMap fun
    | .handle addr => some addr
    | _ => none

theorem setNext_eq {mem : List GeminiHandler} (hnode : mem[a]? = some node) (next : Option Nat) :
    setNext mem a next = .ok (mem.set a { node with next }) := by
  rw [setNext, hnode]

theorem setNext_entries {mem : List GeminiHandler} (hnode : mem[a]? = some node)
    (next : Option Nat) :
    (mem.set a { node with next }).map GeminiHandler.entry = mem.map GeminiHandler.entry := by
  obtain ⟨hlt, rfl⟩ := List.getElem?_eq_some_iff.1 hnode
  apply List.ext_getElem?
  intro i
  rw [List.getElem?_map, List.getElem?_map, List.getElem?_set]
  by_cases hi : a = i
  · subst i
    simp [hlt, GeminiHandler.entry]
  · rw [if_neg hi]

theorem geminiHandle_queue (hq : IsQueue GeminiHandler.next s.mem s.server.first s.server.last as)
    (ha : a ∉ as) (hlt : a < s.mem.length) :
    ∃ s', geminiHandle s a = .ok (0, s') ∧
      IsQueue GeminiHandler.next s'.mem s'.server.first s'.server.last (as ++ [a]) ∧
      s'.mem.map GeminiHandler.entry = s.mem.map GeminiHandler.entry := by
  obtain ⟨node, hnode⟩ : ∃ node, s.mem[a]? = some node :=
    ⟨_, List.getElem?_eq_getElem hlt⟩
  have hset := setNext_eq hnode none
  have hentries := setNext_entries hnode none
  generalize hmem : s.mem.set a { node with next := none } = mem at hset hentries
  have hself : mem[a]? = some { node with next := none } := by
    rw [← hmem, List.getElem?_set_self hlt]
  have hother (x : Nat) (hx : a ≠ x) : mem[x]? = s.mem[x]? := by
    rw [← hmem, List.getElem?_set_ne hx]
  rcases List.eq_nil_or_concat as with rfl | ⟨front, l, rfl⟩
  · have hfirst : s.server.first = none := hq.follows
    have hlast : s.server.last = none := hq.last_eq
    refine ⟨_, by simp only [geminiHandle, hset, hfirst, hlast, bind, Except.bind]; rfl, ?_, ?_⟩
    · exact ⟨⟨rfl, _, hself, rfl⟩, rfl, List.nodup_singleton a⟩
    · exact hentries
  · rw [List.concat_eq_append] at hq ha ⊢
    have hfl : Follows GeminiHandler.next s.mem s.server.first (front ++ [l]) := hq.follows
    have hlast : s.server.last = some l := by
      rw [hq.last_eq, List.getLast?_concat]
    have hla : l ≠ a := fun he => ha (by simp [he])
    have hfront (x : Nat) (hx : x ∈ front) : x ≠ l ∧ x ≠ a := by
      refine ⟨fun he => ?_, fun he => ha (by simp [← he, hx])⟩
      have hnd := List.nodup_append.1 hq.nodup
      exact hnd.2.2 x hx l (by simp) he
    obtain ⟨lnode, hlnode⟩ : ∃ node, s.mem[l]? = some node :=
      ⟨_, List.getElem?_eq_getElem (hfl.lt_length l (by simp))⟩
    have hlmem : mem[l]? = some lnode := by rw [hother l (Ne.symm hla), hlnode]
    have hfirst : s.server.first.isNone = false := by
      cases front with
      | nil => rw [hfl.1]; rfl
      | cons x front => rw [hfl.1]; rfl
    have hset' := setNext_eq hlmem (some a)
    have hentries' := setNext_entries hlmem (some a)
    refine ⟨⟨mem.set l { lnode with next := some a }, { s.server with last := some a }⟩,
      ?_, ?_, hentries'.trans hentries⟩
    · simp only [geminiHandle, hset, hfirst, hlast, hset', bind, Except.bind,
        Bool.false_eq_true, ↓reduceIte]
    have hllt : l < mem.length := (List.getElem?_eq_some_iff.1 hlmem).1
    refine ⟨?_, by rw [List.getLast?_concat], ?_⟩
    · have hkeep (x : Nat) (hx : x ∈ front) :
          (mem.set l { lnode with next := some a })[x]? = s.mem[x]? := by
        rw [List.getElem?_set_ne (Ne.symm (hfront x hx).1), hother x (Ne.symm (hfront x hx).2)]
      have hnew : (mem.set l { lnode with next := some a })[a]? =
          some { node with next := none } := by
        rw [List.getElem?_set_ne hla, hself]
      exact hfl.concat hkeep (List.getElem?_set_self hllt) rfl hnew rfl
    · rw [List.nodup_append]
      exact ⟨hq.nodup, List.nodup_singleton a, fun x hx y hy he =>
        ha (by rw [List.mem_singleton.1 hy] at he; exact he ▸ hx)⟩

theorem Registration.run_made {reg : Registration} (hreg : reg.made = some entry)
    (hq : IsQueue GeminiHandler.next s.mem s.server.first s.server.last as) :
    ∃ rc s', reg.run s = .ok (rc, s') ∧
      IsQueue GeminiHandler.next s'.mem s'.server.first s'.server.last (as ++ [s.mem.length]) ∧
      s'.mem.map GeminiHandler.entry = s.mem.map GeminiHandler.entry ++ [entry] := by
  have hfn (next : Option Nat) (pathPrefix : CStr) (h : Handler) :
      ∃ s', geminiHandleFn (some next) s pathPrefix h = .ok (0, s') ∧
        IsQueue GeminiHandler.next s'.mem s'.server.first s'.server.last
          (as ++ [s.mem.length]) ∧
        s'.mem.map GeminiHandler.entry =
          s.mem.map GeminiHandler.entry ++ [(pathPrefix, h)] := by
    have hq' : IsQueue GeminiHandler.next (s.mem ++ [⟨next, pathPrefix, h⟩])
        s.server.first s.server.last as :=
      hq.frame fun a ha => List.getElem?_append_left (hq.follows.lt_length a ha)
    have hnew : s.mem.length ∉ as := fun hm =>
      Nat.lt_irrefl _ (hq.follows.lt_length _ hm)
    obtain ⟨s', hrun, hs', hentries⟩ := geminiHandle_queue
      (s := { s with mem := s.mem ++ [⟨next, pathPrefix, h⟩] }) hq' hnew (by simp)
    refine ⟨s', hrun, hs', ?_⟩
    rw [hentries, List.map_append]
    rfl
  cases reg with
  | handle addr => cases hreg
  | fn malloc pathPrefix h =>
    cases malloc with
    | none => cases hreg
    | some next =>
      cases hreg
      exact ⟨0, hfn next pathPrefix h⟩
  | fs malloc pathPrefix root =>
    cases malloc with
    | none => cases hreg
    | some next =>
      cases hreg
      exact ⟨0, hfn next pathPrefix (.fs root)⟩
  | authn malloc pathPrefix store =>
    cases malloc with
    | none => cases hreg
    | some next =>
      cases hreg
      exact ⟨0, hfn next pathPrefix (.authn store)⟩
  | vhosts block malloc urls =>
    cases block with
    | false => cases hreg
    | true =>
      cases malloc with
      | none => cases hreg
      | some next =>
        cases hreg
        obtain ⟨s', hrun, hs', hentries⟩ := hfn next rootPrefix (.vhosts urls)
        refine ⟨0, s', ?_, hs', hentries⟩
        simp only [Registration.run, geminiHandleVhosts, ↓reduceIte, hrun, bind, Except.bind,
          ne_eq, not_true_eq_false]

theorem Registration.run_not_made {reg : Registration} (hreg : reg.made = none)
    (hh : ∀ addr, reg ≠ .handle addr) (s : Serving) : reg.run s = .ok (-1, s) := by
  cases reg with
  | handle addr => exact absurd rfl (hh addr)
  | fn malloc pathPrefix h =>
    cases malloc with
    | none => rfl
    | some next => cases hreg
  | fs malloc pathPrefix root =>
    cases malloc with
    | none => rfl
    | some next => cases hreg
  | authn malloc pathPrefix store =>
    cases malloc with
    | none => rfl
    | some next => cases hreg
  | vhosts block malloc urls =>
    cases block with
    | false => rfl
    | true =>
      cases malloc with
      | none => rfl
      | some next => cases hreg

/-- A server's memory holds a plain list of handlers when its links lead over their nodes. -/
structure Holds (s : Serving) (entries : List (Nat × Entry)) : Prop where
  queue : IsQueue GeminiHandler.next s.mem s.server.first s.server.last (entries.map Prod.fst)
  nodes : ∀ e ∈ entries, (s.mem.map GeminiHandler.entry)[e.1]? = some e.2

theorem registered_made {reg : Registration} (hreg : reg.made = some entry) :
    registered nodes (reg :: regs) =
      (nodes.length, entry) :: registered (nodes ++ [entry]) regs := by
  cases reg with
  | handle addr => cases hreg
  | _ => simp only [registered, hreg]

theorem registered_not_made {reg : Registration} (hreg : reg.made = none)
    (hh : ∀ addr, reg ≠ .handle addr) :
    registered nodes (reg :: regs) = registered nodes regs := by
  cases reg with
  | handle addr => exact absurd rfl (hh addr)
  | _ => simp only [registered, hreg]

/-- Registrations turn the list a server holds into the plain list they amount to. -/
theorem register_holds (h : Holds s entries) (hnodup : (handled regs).Nodup)
    (hin : ∀ a ∈ handled regs, a < s.mem.length ∧ a ∉ entries.map Prod.fst) :
    ∃ s', register s regs = .ok s' ∧
      Holds s' (entries ++ registered (s.mem.map GeminiHandler.entry) regs) := by
  induction regs generalizing s entries with
  | nil => exact ⟨s, rfl, by simpa [registered] using h⟩
  | cons reg regs ih =>
    have hcount (s₁ : Serving) (nodes : List Entry)
        (hmap : s₁.mem.map GeminiHandler.entry = s.mem.map GeminiHandler.entry ++ nodes) :
        s₁.mem.length = s.mem.length + nodes.length := by
      simpa using congrArg List.length hmap
    cases hreg : reg.made with
    | some entry =>
      obtain ⟨rc, s₁, hrun, hq, hmap⟩ := Registration.run_made hreg h.queue
      have hlen := hcount s₁ [entry] hmap
      have hhandled : handled (reg :: regs) = handled regs := by
        cases reg with
        | handle addr => cases hreg
        | _ => rfl
      rw [hhandled] at hnodup hin
      have hs₁ : Holds s₁ (entries ++ [(s.mem.length, entry)]) := by
        refine ⟨by simpa using hq, ?_⟩
        intro e he
        rw [hmap]
        rcases List.mem_append.1 he with he | he
        · have hnode := h.nodes e he
          rw [List.getElem?_append_left (List.getElem?_eq_some_iff.1 hnode).1, hnode]
        · rw [List.mem_singleton.1 he, ← List.length_map (f := GeminiHandler.entry)]
          exact List.getElem?_concat_length
      obtain ⟨s', hregs, hs'⟩ := ih hs₁ hnodup fun a ha => by
        refine ⟨by have := (hin a ha).1; omega, ?_⟩
        rw [List.map_append, List.mem_append, not_or]
        refine ⟨(hin a ha).2, ?_⟩
        rw [List.map_singleton, List.mem_singleton]
        exact Nat.ne_of_lt (hin a ha).1
      refine ⟨s', by simp only [register, hrun, bind, Except.bind, hregs], ?_⟩
      rw [registered_made hreg, List.length_map, ← hmap]
      simpa using hs'
    | none =>
      by_cases hh : ∃ addr, reg = .handle addr
      · obtain ⟨addr, rfl⟩ := hh
        have hhandled : handled (.handle addr :: regs) = addr :: handled regs := rfl
        rw [hhandled] at hnodup hin
        obtain ⟨hlt, hnew⟩ := hin addr List.mem_cons_self
        obtain ⟨s₁, hrun, hq, hmap⟩ := geminiHandle_queue h.queue hnew hlt
        have hlen := hcount s₁ [] (by simpa using hmap)
        obtain ⟨entry, hentry⟩ :
            ∃ entry, (s.mem.map GeminiHandler.entry)[addr]? = some entry :=
          ⟨_, List.getElem?_eq_getElem (by simpa using hlt)⟩
        have hs₁ : Holds s₁ (entries ++ [(addr, entry)]) := by
          refine ⟨by simpa using hq, ?_⟩
          intro e he
          rw [hmap]
          rcases List.mem_append.1 he with he | he
          · exact h.nodes e he
          · rw [List.mem_singleton.1 he, hentry]
        rw [List.nodup_cons] at hnodup
        obtain ⟨s', hregs, hs'⟩ := ih hs₁ hnodup.2 fun a ha => by
          have hina := hin a (List.mem_cons_of_mem _ ha)
          refine ⟨by simpa [hlen] using hina.1, ?_⟩
          rw [List.map_append, List.mem_append, not_or]
          refine ⟨hina.2, ?_⟩
          rw [List.map_singleton, List.mem_singleton]
          intro heq
          obtain rfl := heq
          exact hnodup.1 ha
        have hrun' : (Registration.handle addr).run s = .ok (0, s₁) := hrun
        refine ⟨s', by simp only [register, hrun', bind, Except.bind, hregs], ?_⟩
        rw [registered, hentry, ← hmap]
        simpa using hs'
      · rw [not_exists] at hh
        have hhandled : handled (reg :: regs) = handled regs := by
          cases reg with
          | handle addr => exact absurd rfl (hh addr)
          | _ => rfl
        rw [hhandled] at hnodup hin
        obtain ⟨s', hregs, hs'⟩ := ih h hnodup hin
        refine ⟨s', ?_, ?_⟩
        · simp only [register, Registration.run_not_made hreg hh, bind, Except.bind, hregs]
        · rwa [registered_not_made hreg hh]

/-- Which handlers a dispatch invoked, what they returned, and which statuses were sent. -/
structure Observed where
  invoked : List ((Nat × Entry) × Int)
  sent : List Int

/-- A core whose handlers return what a behaviour says, depending on all that went before. -/
def observer (path : CStr) (behaviour : List ((Nat × Entry) × Int) → Nat × Entry → Int) :
    Core (Proc Observed) where
  path := pure path
  invoke addr handler := modifyGet fun seen =>
    let rc := behaviour seen.invoked (addr, handler.entry)
    (rc, { seen with invoked := seen.invoked ++ [((addr, handler.entry), rc)] })
  respond status _ := modify fun seen => { seen with sent := seen.sent ++ [status] }
  close := pure ()
  fault := throw

def Answers (rc : Int) : Prop := rc = geminiHandlerDone ∨ rc = geminiHandlerAbort

instance : Decidable (Answers rc) := inferInstanceAs (Decidable (_ ∨ _))

def matching (path : CStr) (entries : List (Nat × Entry)) : List (Nat × Entry) :=
  entries.filter fun e => e.2.1.octets <+: path.octets

theorem matching_cons_pos {e : Nat × Entry} {path : CStr} (h : e.2.1.octets <+: path.octets)
    (entries : List (Nat × Entry)) : matching path (e :: entries) = e :: matching path entries :=
  List.filter_cons_of_pos (decide_eq_true h)

theorem matching_cons_neg {e : Nat × Entry} {path : CStr} (h : ¬ e.2.1.octets <+: path.octets)
    (entries : List (Nat × Entry)) : matching path (e :: entries) = matching path entries :=
  List.filter_cons_of_neg (ne_true_of_eq_false (decide_eq_false h))

/-- The dispatch over a plain list: in order, up to and including the first that answers. -/
structure Dispatched (behaviour : List ((Nat × Entry) × Int) → Nat × Entry → Int)
    (candidates : List (Nat × Entry)) (seen : Observed) : Prop where
  returned : ∀ front x rest, seen.invoked = front ++ x :: rest → x.2 = behaviour front x.1
  inOrder : seen.invoked.map Prod.fst <+: candidates
  unanswered : ∀ front x rest, seen.invoked = front ++ x :: rest → rest ≠ [] → ¬ Answers x.2
  stops : seen.invoked.map Prod.fst = candidates ∨
    ∃ front x, seen.invoked = front ++ [x] ∧ Answers x.2
  internalError : 59 ∈ seen.sent ↔
    ∃ front x, seen.invoked = front ++ [x] ∧ x.2 = geminiHandlerAbort
  notFound : 51 ∈ seen.sent ↔ ∀ x ∈ seen.invoked, ¬ Answers x.2

section Observing
variable {path : CStr} {behaviour : List ((Nat × Entry) × Int) → Nat × Entry → Int}

theorem dispatchTo_passed (h : ¬ handler.pathPrefix.octets <+: path.octets) (seen : Observed) :
    Outcome (dispatchTo (observer path behaviour) addr handler) seen
      (fun r seen' => r = none ∧ seen' = seen) fun _ _ => False := by
  rw [dispatchTo_eq]
  apply Outcome.bind (.pure _)
  rw [if_neg h]
  exact .pure ⟨rfl, rfl⟩

theorem dispatchTo_matched (h : handler.pathPrefix.octets <+: path.octets) (seen : Observed) :
    Outcome (dispatchTo (observer path behaviour) addr handler) seen
      (fun r seen' => ∃ rc, rc = behaviour seen.invoked (addr, handler.entry) ∧
        seen'.invoked = seen.invoked ++ [((addr, handler.entry), rc)] ∧
        seen'.sent = seen.sent ++ (if rc = geminiHandlerAbort then [59] else []) ∧
        (r = none ∧ ¬ Answers rc ∨ r = some true ∧ Answers rc)) fun _ _ => False := by
  rw [dispatchTo_eq]
  apply Outcome.bind (.pure _)
  rw [if_pos h]
  apply Outcome.bind (.modifyGet _)
  generalize hrc : behaviour seen.invoked (addr, handler.entry) = rc
  change Outcome (dispatchRc _ rc)
    (⟨seen.invoked ++ [((addr, handler.entry), rc)], seen.sent⟩ : Observed) _ _
  unfold dispatchRc
  split
  · rename_i hc
    refine .pure ⟨rc, rfl, rfl, ?_, .inl ⟨rfl, ?_⟩⟩
    · rw [hc]
      simp [geminiHandlerContinue, geminiHandlerAbort]
    · rw [hc]
      decide
  split
  · rename_i hc
    refine .pure ⟨rc, rfl, rfl, ?_, .inr ⟨rfl, .inl hc⟩⟩
    rw [hc]
    simp [geminiHandlerDone, geminiHandlerAbort]
  split
  · rename_i hc
    refine .bind (.modify (.bind (.pure (.pure ⟨rc, rfl, rfl, ?_, .inr ⟨rfl, .inr hc⟩⟩))))
    rw [if_pos hc]
  · rename_i hd ha
    refine .pure ⟨rc, rfl, rfl, ?_, .inl ⟨rfl, fun h => h.elim hd ha⟩⟩
    rw [if_neg ha, List.append_nil]

structure Walked (behaviour : List ((Nat × Entry) × Int) → Nat × Entry → Int)
    (candidates : List (Nat × Entry)) (seen seen' : Observed)
    (invoked : List ((Nat × Entry) × Int)) (done : Bool) : Prop where
  invoked_eq : seen'.invoked = seen.invoked ++ invoked
  returned : ∀ front x rest, invoked = front ++ x :: rest →
    x.2 = behaviour (seen.invoked ++ front) x.1
  inOrder : invoked.map Prod.fst <+: candidates
  unanswered : ∀ front x rest, invoked = front ++ x :: rest → rest ≠ [] → ¬ Answers x.2
  answered : done = true → ∃ front x, invoked = front ++ [x] ∧ Answers x.2 ∧
    seen'.sent = seen.sent ++ (if x.2 = geminiHandlerAbort then [59] else [])
  passed : done = false → invoked.map Prod.fst = candidates ∧ seen'.sent = seen.sent ∧
    ∀ x ∈ invoked, ¬ Answers x.2

theorem Walked.cons (hw : Walked behaviour candidates seen₁ seen' invoked done)
    (hrc : rc = behaviour seen.invoked e) (hinvoked : seen₁.invoked = seen.invoked ++ [(e, rc)])
    (hsent : seen₁.sent = seen.sent) (hpass : ¬ Answers rc) :
    Walked behaviour (e :: candidates) seen seen' ((e, rc) :: invoked) done where
  invoked_eq := by rw [hw.invoked_eq, hinvoked, List.append_assoc, List.singleton_append]
  returned := by
    intro front x rest he
    cases front with
    | nil =>
      cases he
      rw [hrc, List.append_nil]
    | cons y front =>
      cases he
      have hx := hw.returned front x rest rfl
      rwa [hinvoked, List.append_assoc, List.singleton_append] at hx
  inOrder := by
    rw [List.map_cons]
    exact (List.prefix_cons_inj e).2 hw.inOrder
  unanswered := by
    intro front x rest he hrest
    cases front with
    | nil =>
      cases he
      exact hpass
    | cons y front =>
      cases he
      exact hw.unanswered front x rest rfl hrest
  answered := by
    intro hh
    obtain ⟨front, x, rfl, hx, hs⟩ := hw.answered hh
    exact ⟨(e, rc) :: front, x, rfl, hx, by rw [hs, hsent]⟩
  passed := by
    intro hh
    obtain ⟨hall, hs, hnone⟩ := hw.passed hh
    refine ⟨by rw [List.map_cons, hall], hs.trans hsent, ?_⟩
    intro x hx
    rcases List.mem_cons.1 hx with rfl | hx
    · exact hpass
    · exact hnone x hx

theorem Walked.stop (candidates : List (Nat × Entry)) (hrc : rc = behaviour seen.invoked e)
    (hinvoked : seen'.invoked = seen.invoked ++ [(e, rc)])
    (hsent : seen'.sent = seen.sent ++ (if rc = geminiHandlerAbort then [59] else []))
    (hanswer : Answers rc) :
    Walked behaviour (e :: candidates) seen seen' [(e, rc)] true where
  invoked_eq := hinvoked
  returned := by
    intro front x rest he
    cases front with
    | nil =>
      cases he
      rw [hrc, List.append_nil]
    | cons y front => simp at he
  inOrder := by simp
  unanswered := by
    intro front x rest he hrest
    cases front with
    | nil =>
      cases he
      exact absurd rfl hrest
    | cons y front => simp at he
  answered := fun _ => ⟨[], (e, rc), rfl, hanswer, hsent⟩
  passed := by simp

theorem walkList_observed (nodes : List (Nat × GeminiHandler)) (seen : Observed) :
    Outcome (walkList (dispatchTo (observer path behaviour)) (pure false) nodes) seen
      (fun done seen' => ∃ invoked, Walked behaviour
        (matching path (nodes.map fun n => (n.1, n.2.entry))) seen seen' invoked done)
      fun _ _ => False := by
  induction nodes generalizing seen with
  | nil =>
    refine .pure ⟨[], ⟨by simp, by simp, List.prefix_rfl, by simp, by simp, fun _ => ?_⟩⟩
    exact ⟨rfl, rfl, by simp⟩
  | cons node nodes ih =>
    obtain ⟨addr, handler⟩ := node
    unfold walkList
    by_cases h : handler.pathPrefix.octets <+: path.octets
    · rw [List.map_cons, matching_cons_pos h]
      apply Outcome.andThen (dispatchTo_matched h seen)
      intro r seen₁ hseen₁
      obtain ⟨rc, hrc, hinvoked, hsent, ⟨rfl, hpass⟩ | ⟨rfl, hanswer⟩⟩ := hseen₁
      · apply (ih seen₁).imp
        intro done seen' hseen'
        obtain ⟨invoked, hw⟩ := hseen'
        have habort : rc ≠ geminiHandlerAbort := fun he => hpass (.inr he)
        rw [if_neg habort, List.append_nil] at hsent
        exact ⟨_, hw.cons hrc hinvoked hsent hpass⟩
      · exact .pure ⟨_, .stop _ hrc hinvoked hsent hanswer⟩
    · rw [List.map_cons, matching_cons_neg h]
      apply Outcome.andThen (dispatchTo_passed h seen)
      intro r seen₁ hseen₁
      obtain ⟨rfl, rfl⟩ := hseen₁
      exact ih seen₁

end Observing

theorem Walked.answeredBy (hw : Walked behaviour candidates ⟨[], []⟩ seen invoked true) :
    Dispatched behaviour candidates seen := by
  obtain ⟨front, x, hfront, hx, hsent⟩ := hw.answered rfl
  have hinvoked : seen.invoked = invoked := hw.invoked_eq
  rw [List.nil_append] at hsent
  refine ⟨?_, ?_, ?_, .inr ⟨front, x, hinvoked.trans hfront, hx⟩, ?_, ?_⟩
  · rw [hinvoked]
    exact hw.returned
  · rw [hinvoked]
    exact hw.inOrder
  · rw [hinvoked]
    exact hw.unanswered
  · rw [hsent, hinvoked]
    constructor
    · intro hmem
      split at hmem
      · rename_i habort
        exact ⟨front, x, hfront, habort⟩
      · cases hmem
    · intro haborted
      obtain ⟨front', x', hfront', habort⟩ := haborted
      rw [hfront] at hfront'
      obtain ⟨_, hx'⟩ := List.append_inj' hfront' rfl
      cases hx'
      rw [if_pos habort]
      exact List.mem_singleton_self _
  · rw [hsent, hinvoked]
    constructor
    · intro hmem
      split at hmem
      · simp at hmem
      · cases hmem
    · intro hnone
      exact absurd hx (hnone x (by rw [hfront]; simp))

theorem Walked.notFound (hw : Walked behaviour candidates ⟨[], []⟩ seen invoked false) :
    Dispatched behaviour candidates { seen with sent := seen.sent ++ [51] } := by
  obtain ⟨hall, hsent, hnone⟩ := hw.passed rfl
  have hinvoked : seen.invoked = invoked := hw.invoked_eq
  have hsent' : seen.sent ++ [51] = [51] := by rw [hsent, List.nil_append]
  refine ⟨?_, ?_, ?_, .inl (by rw [hinvoked, hall]), ?_, ?_⟩
  · rw [hinvoked]
    exact hw.returned
  · rw [hinvoked]
    exact hw.inOrder
  · rw [hinvoked]
    exact hw.unanswered
  · simp only [hsent', hinvoked]
    constructor
    · simp
    · intro haborted
      obtain ⟨front, x, hfront, habort⟩ := haborted
      exact absurd (.inr habort) (hnone x (by rw [hfront]; simp))
  · simp only [hsent', hinvoked]
    exact ⟨fun _ => hnone, fun _ => List.mem_singleton_self _⟩

theorem Holds.nodes_eq (h : Holds s entries) :
    (nodesAt s.mem (entries.map Prod.fst)).map (fun n => (n.1, n.2.entry)) = entries := by
  have hnodes := h.nodes
  clear h
  induction entries with
  | nil => rfl
  | cons e entries ih =>
    have hnode := hnodes e List.mem_cons_self
    rw [List.getElem?_map, Option.map_eq_some_iff] at hnode
    obtain ⟨node, hmem, hentry⟩ := hnode
    have hrest := ih fun e he => hnodes e (List.mem_cons_of_mem _ he)
    have hcons : nodesAt s.mem (e.1 :: entries.map Prod.fst) =
        (e.1, node) :: nodesAt s.mem (entries.map Prod.fst) := by
      simp [nodesAt, hmem]
    rw [List.map_cons, hcons, List.map_cons, hrest, hentry]

def dispatchOver {m : Type → Type} [Monad m] (core : Core m) (nodes : List (Nat × GeminiHandler)) :
    m Unit := do
  let handled ← walkList (dispatchTo core) (pure false) nodes
  if handled then pure ()
  else
    core.respond 51 (.ofString "Not Found")
    core.close

/-- Over the memory of a server, a dispatch is one over its plain list. -/
theorem Holds.dispatch_eq {m : Type → Type} [Monad m] (h : Holds s entries) (core : Core m) :
    ∃ nodes, nodes.map (fun n => (n.1, n.2.entry)) = entries ∧
      dispatch core s = dispatchOver core nodes := by
  refine ⟨_, h.nodes_eq, ?_⟩
  unfold dispatch
  rw [walk_eq h.queue.follows h.queue.length_le]
  rfl

theorem dispatchOver_cons {σ : Type} {core : Core (Proc σ)} {Q : Unit → σ → Prop}
    {E : Fault → σ → Prop} {addr : Nat} {handler : GeminiHandler} {w : σ}
    (h : Outcome (dispatchTo core addr handler) w (fun r w' => match r with
      | some handled => handled = true ∧ Q () w'
      | none => Outcome (dispatchOver core rest) w' Q E) E) :
    Outcome (dispatchOver core ((addr, handler) :: rest)) w Q E := by
  unfold dispatchOver
  rw [walkList, bind_assoc]
  apply h.andThen
  intro r w' hr
  cases r with
  | some handled =>
    obtain ⟨rfl, hQ⟩ := hr
    exact .pure hQ
  | none => exact hr

theorem dispatch_observed (h : Holds s entries) (path : CStr)
    (behaviour : List ((Nat × Entry) × Int) → Nat × Entry → Int) :
    Outcome (dispatch (observer path behaviour) s) ⟨[], []⟩
      (fun _ seen => Dispatched behaviour (matching path entries) seen) fun _ _ => False := by
  obtain ⟨nodes, hnodes, heq⟩ := h.dispatch_eq (observer path behaviour)
  rw [heq]
  apply Outcome.andThen (walkList_observed _ _)
  intro done seen hw
  obtain ⟨invoked, hw⟩ := hw
  rw [hnodes] at hw
  cases done with
  | true => exact .pure hw.answeredBy
  | false => exact .bind (.modify (.pure hw.notFound))

theorem Holds.zeroed (mem : List GeminiHandler) : Holds ⟨mem, .zeroed⟩ [] :=
  ⟨.empty, by simp⟩

/-- A dispatch over the linked list is one over the plain list of what was registered. -/
theorem dispatch_registered (mem : List GeminiHandler) (regs : List Registration)
    (hnodup : (handled regs).Nodup) (hin : ∀ a ∈ handled regs, a < mem.length) (path : CStr)
    (behaviour : List ((Nat × Entry) × Int) → Nat × Entry → Int) :
    ∃ s seen, register ⟨mem, .zeroed⟩ regs = .ok s ∧
      dispatch (observer path behaviour) s ⟨[], []⟩ = .ok () seen ∧
      ((registered (mem.map GeminiHandler.entry) regs).map Prod.fst).Nodup ∧
      Dispatched behaviour (matching path (registered (mem.map GeminiHandler.entry) regs)) seen := by
  obtain ⟨s, hregs, hs⟩ := register_holds (Holds.zeroed mem) hnodup
    fun a ha => ⟨hin a ha, by simp⟩
  rw [List.nil_append] at hs
  obtain ⟨_, seen, hrun, hseen⟩ := (dispatch_observed hs path behaviour).returns
  exact ⟨s, seen, hregs, hrun, hs.queue.nodup, hseen⟩

/-- A node of the caller's own behind one of the server's, and both let a request pass. -/
theorem dispatch_two : ∃ s seen,
    register ⟨[⟨some 7, rootPrefix, .user 0⟩], .zeroed⟩
      [.fn (some none) rootPrefix .echo, .handle 0] = .ok s ∧
    dispatch (observer rootPrefix fun _ _ => geminiHandlerContinue) s ⟨[], []⟩ = .ok () seen ∧
    51 ∈ seen.sent := by
  obtain ⟨s, seen, hregs, hrun, _, hseen⟩ := dispatch_registered [⟨some 7, rootPrefix, .user 0⟩]
    [.fn (some none) rootPrefix .echo, .handle 0] (by decide) (by decide) rootPrefix
    fun _ _ => geminiHandlerContinue
  refine ⟨s, seen, hregs, hrun, hseen.notFound.2 fun x hx => ?_⟩
  obtain ⟨front, rest, hsplit⟩ := List.append_of_mem hx
  rw [hseen.returned front x rest hsplit]
  decide

end Geminon
