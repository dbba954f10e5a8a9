import Geminon.Reach

namespace Geminon
open Memory Descriptors Process LinkedList
set_option autoImplicit true

/-- A handler that never lets a request pass, with the certificate and for the location. -/
def Handler.Blocks (verify : X509Store → X509 → Bool) (loc : Location) (cert : Option X509) :
    Handler → Prop
  | .echo => True
  | .cgi _ => True
  | .authn store => ¬ Admits verify store cert
  | .vhosts urls => ¬ Serves urls loc
  | _ => False

def Handler.Parsed : Handler → Prop
  | .vhosts urls => AllParsed urls
  | _ => True

section Turns
variable {verify : X509Store → X509 → Bool}

theorem runHandler_blocks (h : Held i w fd) (ha : Asks w loc) {e : Entry}
    (hpre : e.1.octets <+: loc.path) (hparsed : e.2.Parsed)
    (hblocks : e.2.Blocks verify loc w.req.cert) (calls : Calls) :
    Outcome (runHandler verify calls e.1 e.2) w (fun rc _ => Answers rc) fun _ _ => True := by
  obtain ⟨pathPrefix, handler⟩ := e
  cases handler with
  | echo =>
    apply (echoHandler_outcome h ha fun _ => True).mono
    · intro rc w' hrc
      exact .inl hrc.1
    · exact fun _ _ _ => trivial
  | cgi root =>
    apply (cgiHandler_outcome h ha calls hpre.length_le root).mono
    · intro rc w' hrc
      obtain ⟨events, hcases, _⟩ := hrc
      cases hcases with
      | inl habort => exact .inr habort.1
      | inr hdone => exact .inl hdone.1
    · exact fun _ _ _ => trivial
  | fs root => exact hblocks.elim
  | authn store =>
    apply (sHandlerAuthn_outcome h verify store fun _ => True).mono
    · intro rc w' hrc
      cases hrc with
      | inl hpass => exact absurd hpass.1 hblocks
      | inr hdone => exact .inl hdone.2.1
    · exact fun _ _ _ => trivial
  | vhosts urls =>
    apply (sHandlerVhosts_outcome h ha hparsed fun _ => True).mono
    · intro rc w' hrc
      cases hrc with
      | inl hpass => exact absurd hpass.1 hblocks
      | inr hdone => exact .inl hdone.2.1
    · exact fun _ _ _ => trivial
  | user fn => exact hblocks.elim

theorem passes_of_not_blocks {e : Entry} (hpre : e.1.octets <+: loc.path) (hparsed : e.2.Parsed)
    (h : ¬ e.2.Blocks verify loc cert) : Passes verify loc cert e := by
  obtain ⟨pathPrefix, handler⟩ := e
  intro w ha hcert
  cases handler with
  | echo => exact absurd trivial h
  | cgi root => exact absurd trivial h
  | fs root =>
    apply Outcome.andThen (requestPath_eq ha hpre.length_le)
    intro file w' hw'
    rw [hw'.1]
    exact .bind (.pure (.pure ⟨rfl, rfl⟩))
  | authn store =>
    obtain ⟨c, hc, hadmits⟩ := not_not.1 h
    apply Outcome.bind (.get _)
    rw [hcert, hc]
    simp only [hadmits, ↓reduceIte]
    exact .pure ⟨rfl, rfl⟩
  | vhosts urls =>
    apply Outcome.andThen (vhostsLoop_eq ha hparsed)
    intro r w' hr
    rw [hr.1, hr.2.2 (not_not.1 h)]
    exact .pure ⟨rfl, rfl⟩
  | user fn => exact .pure ⟨rfl, rfl⟩

/-- What a handler has made of the events: `P` as long as the search goes on, and else `R`. -/
inductive Turned (i : Nat) (w : World) (P R : List Event → Prop) (w' : World) : Int → Prop where
  | done {events : List Event} (hlog : w'.log = w.log ++ events) (hR : R events) :
      Turned i w P R w' geminiHandlerDone
  | abort {events : List Event} (hkept : Kept w w' events)
      (hR : ∀ sent, (∀ e ∈ sent, IsSent i e) →
        R (events ++ .responded i 59 :: (sent ++ [.closed (.conn i)]))) :
      Turned i w P R w' geminiHandlerAbort
  | pass {rc : Int} {events : List Event} (hrc : ¬ Answers rc) (hkept : Kept w w' events)
      (hP : P events) : Turned i w P R w' rc

def Told (R : List Event → Prop) (w w' : World) : Prop :=
  ∃ events, w'.log = w.log ++ events ∧ R events

variable {P R : List Event → Prop} {E : Fault → World → Prop}

theorem serveCore_tells (h : Held i w fd) (hk : Kept w w₁ events) (status : Int) (text : CStr)
    (hR : ∀ sent, (∀ e ∈ sent, IsSent i e) →
      R (events ++ .responded i status :: (sent ++ [.closed (.conn i)]))) :
    Outcome (do
      (serveCore verify).respond status text
      (serveCore verify).close) w₁ (fun _ w' => Told R w w') fun _ _ => False := by
  apply (serveCore_answer (h.kept hk) status text).imp
  intro _ w' hw'
  obtain ⟨sent, hw', hsent⟩ := hw'
  exact ⟨_, by rw [hw'.log, hk.log, List.append_assoc], hR sent hsent⟩

theorem Turned.dispatchRc (ht : Turned i w P R w₁ rc) (h : Held i w fd) :
    Outcome (dispatchRc (serveCore verify) rc) w₁ (fun r w' => match r with
      | some handled => handled = true ∧ Told R w w'
      | none => ¬ Answers rc ∧ ∃ events, Kept w w' events ∧ P events) fun _ _ => False := by
  cases ht with
  | done hlog hR => exact .pure ⟨rfl, _, hlog, hR⟩
  | abort hkept hR =>
    change Outcome (do
      (serveCore verify).respond 59 (.ofString "Internal Error")
      (serveCore verify).close
      pure (some true)) w₁ _ _
    rw [← bind_assoc]
    apply Outcome.andThen (serveCore_tells h hkept 59 _ hR)
    intro _ w' hw'
    exact .pure ⟨rfl, hw'⟩
  | pass hrc hkept hP =>
    have hdone : rc ≠ geminiHandlerDone := fun he => hrc (.inl he)
    have habort : rc ≠ geminiHandlerAbort := fun he => hrc (.inr he)
    unfold Geminon.dispatchRc
    rw [if_neg hdone, if_neg habort, ite_self]
    exact .pure ⟨hrc, _, hkept, hP⟩

/-- One of the handlers runs and never lets the request pass. -/
def Blocked (verify : X509Store → X509 → Bool) (loc : Location) (cert : Option X509)
    (entries : List (Nat × Entry)) : Prop :=
  ∃ x ∈ entries, x.2.1.octets <+: loc.path ∧ x.2.2.Parsed ∧ x.2.2.Blocks verify loc cert

theorem Blocked.cons (h : Blocked verify loc cert (x :: entries))
    (hx : ¬ (x.2.1.octets <+: loc.path ∧ x.2.2.Parsed ∧ x.2.2.Blocks verify loc cert)) :
    Blocked verify loc cert entries := by
  obtain ⟨y, hy, hblocks⟩ := h
  cases List.mem_cons.1 hy with
  | inl he => exact absurd (he ▸ hblocks) hx
  | inr hy => exact ⟨y, hy, hblocks⟩

/-- The core's own answer turns what is kept so far into what is told in the end. -/
def Concludes (i : Nat) (P R : List Event → Prop) : Prop :=
  ∀ events sent, P events → (∀ e ∈ sent, IsSent i e) →
    R (events ++ .responded i 51 :: (sent ++ [.closed (.conn i)]))

/-- Which handlers are still to come, what has happened, and how it is going to end. -/
structure Searching (verify : X509Store → X509 → Bool) (loc : Location)
    (before : List (Nat × Entry)) (w : World) (P : List Event → Prop) (last : Prop)
    (rest : List (Nat × GeminiHandler)) (w₁ : World) : Prop where
  among : ∀ n ∈ rest, (n.1, n.2.entry) ∈ before
  kept : ∃ events, Kept w w₁ events ∧ P events
  ends : Blocked verify loc w.req.cert (rest.map fun n => (n.1, n.2.entry)) ∨ last

theorem dispatchOver_told {before after : List (Nat × Entry)} {nodes : List (Nat × GeminiHandler)}
    (hnodes : nodes.map (fun n => (n.1, n.2.entry)) = before ++ after) (h : Held i w fd)
    (ha : Asks w loc) (hnil : P [])
    (hturn : ∀ x ∈ before, x.2.1.octets <+: loc.path → ∀ w₁ events calls, P events →
      Kept w w₁ (events ++ [.invoked x.1 x.2.1 x.2.2 w.req.url w.req.cert]) →
      Outcome (runHandler verify calls x.2.1 x.2.2) w₁ (fun rc w' => Turned i w P R w' rc) E)
    (hend : Blocked verify loc w.req.cert before ∨ after = [] ∧ Concludes i P R) :
    Outcome (dispatchOver (serveCore verify) nodes) w (fun _ w' => Told R w w') E := by
  rw [List.map_eq_append_iff] at hnodes
  obtain ⟨front, back, rfl, hfront, hback⟩ := hnodes
  have hin : ∀ n ∈ front, (n.1, n.2.entry) ∈ before := by
    intro n hn
    rw [← hfront]
    exact List.mem_map.2 ⟨n, hn, rfl⟩
  rw [← hfront] at hend
  have hloop : Outcome (walkList (dispatchTo (serveCore verify)) (pure false) (front ++ back)) w
      (fun done w' => done = true ∧ Told R w w' ∨ done = false ∧
        Searching verify loc before w P (after = [] ∧ Concludes i P R) [] w') E := by
    rw [walkList_append]
    apply walkList_outcome
      (I := Searching verify loc before w P (after = [] ∧ Concludes i P R))
    · intro w₁ hI
      obtain ⟨-, hkept, hblocked | hlast⟩ := hI
      · obtain ⟨_, hx, _⟩ := hblocked
        exact absurd hx List.not_mem_nil
      · have hnone : back = [] := List.map_eq_nil_iff.1 (hback.trans hlast.1)
        rw [hnone]
        exact .pure (.inr ⟨rfl, by simp, hkept, .inr hlast⟩)
    · intro addr handler rest w₁ hI
      obtain ⟨hmem, ⟨events, hkept, hP⟩, hends⟩ := hI
      have ha₁ := ha.kept hkept
      have hrest : ∀ n ∈ rest, (n.1, n.2.entry) ∈ before :=
        fun n hn => hmem n (List.mem_cons_of_mem _ hn)
      by_cases hpre : handler.pathPrefix.octets <+: loc.path
      · apply serveCore_matched ha₁ addr hpre
        have hinv := hkept.trans (invoking_passed w₁ addr handler.entry).toKept
        rw [hkept.req] at hinv
        have hx : (addr, handler.entry) ∈ before := hmem _ List.mem_cons_self
        have hrun := hturn _ hx hpre _ events (w₁.calls.headD .failing) hP hinv
        by_cases hblocks : handler.handler.Parsed ∧
            handler.handler.Blocks verify loc w.req.cert
        · have hanswers := runHandler_blocks (e := handler.entry) (h.kept hinv) (ha.kept hinv) hpre
            hblocks.1 (by rw [hinv.req]; exact hblocks.2) (w₁.calls.headD .failing)
          apply (hrun.and hanswers).mono
          · intro rc w₂ hrc
            apply (hrc.1.dispatchRc h).sure.imp
            intro r w' hr
            cases r with
            | some handled => exact .inl hr
            | none => exact absurd hrc.2 hr.1
          · exact fun _ _ he => he.1
        · apply hrun.imp
          intro rc w₂ hrc
          apply (hrc.dispatchRc h).sure.imp
          intro r w' hr
          cases r with
          | some handled => exact .inl hr
          | none =>
            refine ⟨hrest, hr.2, ?_⟩
            cases hends with
            | inl hblocked => exact .inl (hblocked.cons fun hx => hblocks hx.2)
            | inr hlast => exact .inr hlast
      · apply (serveCore_passed ha₁ addr hpre).sure.imp
        intro r w₂ hr
        obtain ⟨rfl, rfl⟩ := hr
        refine ⟨hrest, ⟨events, hkept, hP⟩, ?_⟩
        cases hends with
        | inl hblocked => exact .inl (hblocked.cons fun hx => hpre hx.1)
        | inr hlast => exact .inr hlast
    · exact ⟨hin, ⟨[], .refl w, hnil⟩, hend⟩
  unfold dispatchOver
  apply hloop.andThen
  intro done w₁ hdone
  obtain ⟨rfl, htold⟩ | ⟨rfl, -, ⟨events, hkept, hP⟩, hends⟩ := hdone
  · exact .pure htold
  · obtain ⟨_, hx, _⟩ | ⟨-, hR⟩ := hends
    · exact absurd hx List.not_mem_nil
    · exact (serveCore_tells h hkept 51 _ fun sent => hR events sent hP).sure

theorem Event.Inner.imp {event : Event} {opens opens' : CStr → Prop} (h : event.Inner opens)
    (himp : ∀ path, opens path → opens' path) : event.Inner opens' := by
  cases event with
  | invoked => exact h
  | opened desc =>
    cases desc with
    | file root path => exact himp path h
    | _ => trivial
  | _ => trivial

theorem inner_answer (hsent : ∀ e ∈ sent, IsSent i e) (status : Int) (opens : CStr → Prop) :
    ∀ e ∈ Event.responded i status :: (sent ++ [.closed (.conn i)]), e.Inner opens :=
  (Replied.of_sent opens status hsent (.nil opens)).inner

/-- An event that a handler may cause: it opens what its part of the path resolves to. -/
structure Event.CausedBy (e : Entry) (loc : Location) (event : Event) : Prop where
  inner : event.Inner (Names (loc.path.drop e.1.length))
  rooted : event.Rooted e.2

theorem Event.Inner.causedBy {event : Event} (h : event.Inner fun _ => False) (e : Entry)
    (loc : Location) : event.CausedBy e loc :=
  ⟨h.imp fun _ hf => hf.elim, h.rooted _⟩

theorem runHandler_inner (h : Held i w fd) (ha : Asks w loc) {e : Entry}
    (hpre : e.1.octets <+: loc.path) (calls : Calls) :
    Outcome (runHandler verify calls e.1 e.2) w (fun rc w' => ∃ events,
      (rc = geminiHandlerDone ∧ w'.log = w.log ++ events ∨
        rc ≠ geminiHandlerDone ∧ Kept w w' events) ∧
      ∀ ev ∈ events, ev.CausedBy e loc)
      fun _ w' => Told (fun events => ∀ ev ∈ events, ev.CausedBy e loc) w w' := by
  obtain ⟨pathPrefix, handler⟩ := e
  have hk : pathPrefix.length ≤ loc.path.length := hpre.length_le
  have hsame {w' : World} (hw' : w' = w) :
      Told (fun events => ∀ ev ∈ events, ev.CausedBy (pathPrefix, handler) loc) w w' :=
    ⟨[], by rw [hw', List.append_nil], by simp⟩
  cases handler with
  | echo =>
    apply (echoHandler_outcome h ha _).mono
    · intro rc w' hrc
      obtain ⟨hrc, events, hw', hreplied, -⟩ := hrc
      exact ⟨events, .inl ⟨hrc, hw'.log⟩, fun ev hev => (hreplied.inner ev hev).causedBy _ loc⟩
    · exact fun _ _ hf => hf.elim
  | cgi root =>
    apply (cgiHandler_outcome h ha calls hk root).mono
    · intro rc w' hrc
      obtain ⟨events, hcases, hinner, -⟩ := hrc
      refine ⟨events, ?_, fun ev hev => (hinner ev hev).causedBy _ loc⟩
      cases hcases with
      | inl habort => exact .inr ⟨by rw [habort.1]; decide, habort.2.toKept⟩
      | inr hdone => exact .inl ⟨hdone.1, hdone.2.log⟩
    · exact fun _ _ hw' => hsame hw'
  | fs root =>
    apply (sHandlerFs_outcome h ha calls hk root).mono
    · intro rc w' hrc
      obtain ⟨events, hcases, hrooted, -⟩ := hrc
      cases hcases with
      | inl hpass =>
        exact ⟨events, .inr ⟨by rw [hpass.1]; decide, hpass.2.1.toKept⟩,
          fun ev hev => ⟨hpass.2.2.inner ev hev, hrooted ev hev⟩⟩
      | inr hdone =>
        exact ⟨events, .inl ⟨hdone.1, hdone.2.1.log⟩,
          fun ev hev => ⟨hdone.2.2.inner ev hev, hrooted ev hev⟩⟩
    · intro _ w' hw'
      obtain ⟨-, -, hbreaks, events, hlog, hsilent⟩ := hw'
      -- a path that breaks the handler off resolves to nothing, so no file was opened
      refine ⟨events, hlog, fun ev hev => ?_⟩
      have hinner := hsilent.inner ev hev
      exact (hinner.imp fun _ hpath => hpath.1.not_breaks hbreaks).causedBy _ loc
  | authn store =>
    apply (sHandlerAuthn_outcome h verify store _).mono
    · intro rc w' hrc
      cases hrc with
      | inl hpass =>
        exact ⟨[], .inr ⟨by rw [hpass.2.1]; decide, by rw [hpass.2.2]; exact .refl w⟩, by simp⟩
      | inr hdone =>
        obtain ⟨-, hrc, events, status, -, hw', hreplied, -⟩ := hdone
        exact ⟨events, .inl ⟨hrc, hw'.log⟩, fun ev hev => (hreplied.inner ev hev).causedBy _ loc⟩
    · exact fun _ _ hf => hf.elim
  | vhosts urls =>
    apply Outcome.andThen ((vhostsLoop_hosts ha urls).mono (fun _ _ hw' => hw'.1)
      fun _ _ hw' => hsame hw')
    intro r w₁ hw₁
    rw [hw₁]
    cases r with
    | true => exact .pure ⟨[], .inr ⟨by decide, .refl w⟩, by simp⟩
    | false =>
      apply (respond_ended h _ 53 _ _).sure.imp
      intro rc w' hrc
      obtain ⟨hrc, events, hw', hreplied, -⟩ := hrc
      exact ⟨events, .inl ⟨hrc, hw'.log⟩, fun ev hev => (hreplied.inner ev hev).causedBy _ loc⟩
  | user fn =>
    by_cases hdone : calls.rc = geminiHandlerDone
    · exact .pure ⟨[], .inl ⟨hdone, by simp⟩, by simp⟩
    · exact .pure ⟨[], .inr ⟨hdone, .refl w⟩, by simp⟩

theorem runHandler_turned
    (hquiet : ∀ l l', P l → (∀ ev ∈ l', ev.Inner fun _ => False) → P (l ++ l'))
    (h : Held i w fd) (ha : Asks w loc) (hk : Kept w w₁ events) {e : Entry}
    (hpre : e.1.octets <+: loc.path)
    (hinner : ∀ events', (∀ ev ∈ events', ev.CausedBy e loc) → P (events ++ events'))
    (calls : Calls) :
    Outcome (runHandler verify calls e.1 e.2) w₁ (fun rc w' => Turned i w P P w' rc)
      fun _ w' => Told P w w' := by
  apply (runHandler_inner (h.kept hk) (ha.kept hk) hpre calls).mono
  · intro rc w' hrc
    obtain ⟨events', hcases, hall⟩ := hrc
    have hP := hinner events' hall
    obtain ⟨rfl, hlog⟩ | ⟨hne, hk'⟩ := hcases
    · exact .done (by rw [hlog, hk.log, List.append_assoc]) hP
    · by_cases habort : rc = geminiHandlerAbort
      · rw [habort]
        exact .abort (hk.trans hk') fun sent hsent =>
          hquiet _ _ hP (inner_answer hsent 59 _)
      · exact .pass (fun ha => ha.elim hne habort) (hk.trans hk') hP
  · intro _ w' hw'
    obtain ⟨events', hlog, hall⟩ := hw'
    exact ⟨_, by rw [hlog, hk.log, List.append_assoc], hinner events' hall⟩

/-- A judgement of events by the handlers they invoke and the files they open. -/
structure Judgement (P : List Event → Prop) : Prop where
  nil : P []
  accept : ∀ {l} i, P l → P (.opened (.conn i) :: l)
  quiet : ∀ {l l'}, P l → (∀ ev ∈ l', ev.Inner fun _ => False) → P (l ++ l')

theorem Accepted.told (hr : Accepted w w₁) (hj : Judgement P) (h : Told P w₁ w') : Told P w w' := by
  obtain ⟨events, hlog, hP⟩ := h
  exact ⟨.opened (.conn w.accepted) :: events,
    by rw [hlog, hr.log, List.append_assoc, List.singleton_append], hj.accept _ hP⟩

/-- A judgement holds of all that is told of a request when each turn of a handler keeps it. -/
theorem serveConn_told (hj : Judgement P) {before after : List (Nat × Entry)}
    (hs : Holds s (before ++ after)) (hrequests : conn.Requests loc)
    (hturn : ∀ x ∈ before, x.2.1.octets <+: loc.path → ∀ l l' url cert, P l →
      (∀ ev ∈ l', ev.CausedBy x.2 loc) → P (l ++ [.invoked x.1 x.2.1 x.2.2 url cert] ++ l'))
    (hend : Blocked verify loc conn.cert before ∨ after = []) :
    Outcome (serveConn verify s conn) w (fun _ w' => Told P w w') fun _ w' => Told P w w' := by
  apply serveConn_requests (Q := fun _ w' => Told P w w') hrequests
  · intro _ w₁ w' sent hr hw' hsent
    exact hr.told hj ⟨_, hw'.log, hj.quiet hj.nil (inner_answer hsent 50 _)⟩
  · intro w₁ hr ha hcert _
    obtain ⟨nodes, hnodes, heq⟩ := hs.dispatch_eq (serveCore verify)
    rw [heq]
    have hdispatch : Outcome (dispatchOver (serveCore verify) nodes) w₁
        (fun _ w' => Told P w₁ w') fun _ w' => Told P w₁ w' := by
      apply dispatchOver_told (P := P) hnodes hr.held ha hj.nil
      · intro x hx hpre w₂ events calls hP hkept
        apply runHandler_turned (fun _ _ => hj.quiet) hr.held ha hkept hpre
        exact fun events' => hturn x hx hpre events events' _ _ hP
      · rw [hcert]
        apply hend.imp id
        intro hafter
        exact ⟨hafter, fun events sent hP hsent => hj.quiet hP (inner_answer hsent 51 _)⟩
    apply hdispatch.mono
    · exact fun _ _ => hr.told hj
    · exact fun _ _ => hr.told hj

end Turns

end Geminon
