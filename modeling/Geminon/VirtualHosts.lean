import Geminon.Configure
import Geminon.Turns

namespace Geminon
open Memory Descriptors Process LinkedList
set_option autoImplicit true

def Handler.Content : Handler → Prop
  | .echo => True
  | .cgi _ => True
  | .fs _ => True
  | _ => False

instance : DecidablePred Handler.Content := fun handler =>
  match handler with
  | .echo => .isTrue trivial
  | .cgi _ => .isTrue trivial
  | .fs _ => .isTrue trivial
  | .authn _ => .isFalse id
  | .vhosts _ => .isFalse id
  | .user _ => .isFalse id

def Withheld (events : List Event) : Prop :=
  ∀ addr pathPrefix handler url cert,
    .invoked addr pathPrefix handler url cert ∈ events → ¬ handler.Content

/-- A connection was sent one status line, of a vhosts or an authn handler that refuses it. -/
def Refused (i : Nat) (events : List Event) : Prop :=
  ∃ status sent, (status = 53 ∨ status = 60 ∨ status = 61) ∧
    history i events = .responded i status :: (sent ++ [.closed (.conn i)]) ∧
      ∀ e ∈ sent, IsSent i e

theorem Withheld.append (h : Withheld l) (h' : Withheld l') : Withheld (l ++ l') := by
  intro addr pathPrefix handler url cert hmem
  cases List.mem_append.1 hmem with
  | inl hmem => exact h _ _ _ _ _ hmem
  | inr hmem => exact h' _ _ _ _ _ hmem

theorem Withheld.of_inner (h : ∀ e ∈ events, e.Inner opens) : Withheld events := by
  intro addr pathPrefix handler url cert hmem
  exact (h _ hmem).elim

theorem Withheld.invoked {handler : Handler} (h : ¬ handler.Content) :
    Withheld [.invoked addr pathPrefix handler url cert] := by
  intro _ _ _ _ _ hmem
  cases List.mem_singleton.1 hmem
  exact h

section Withholding
variable {verify : X509Store → X509 → Bool}

theorem turned_away (hunseen : Unseen events) (hwithheld : Withheld events) {handler : Handler}
    (hcontent : ¬ handler.Content)
    (hk : Kept w w₁ (events ++ [.invoked addr pathPrefix handler url cert]))
    (hw' : Ended w₁ w' events') (hreplied : Replied i status opens events')
    (hstatus : status = 53 ∨ status = 60 ∨ status = 61) :
    Turned i w P (fun events => Withheld events ∧ Refused i events) w' geminiHandlerDone := by
  refine .done (by rw [hw'.log, hk.log, List.append_assoc]) ⟨?_, ?_⟩
  · exact (hwithheld.append (.invoked hcontent)).append (.of_inner hreplied.inner)
  · obtain ⟨sent, hreply, hsent⟩ := hreplied.reply
    refine ⟨status, sent, hstatus, ?_, hsent⟩
    have hbefore : Unseen (events ++ [.invoked addr pathPrefix handler url cert]) :=
      hunseen.append (.singleton rfl)
    rw [history_append, hbefore.history, List.nil_append, hreply]

theorem dispatch_withholds {before after : List (Nat × Entry)} (hs : Holds s (before ++ after))
    (h : Held i w fd) (ha : Asks w loc)
    (hkinds : ∀ x ∈ before, x.2.1.octets <+: loc.path →
      (∃ store, x.2.2 = .authn store) ∨ ∃ urls, x.2.2 = .vhosts urls ∧ AllParsed urls)
    (hblocked : Blocked verify loc w.req.cert before) :
    Outcome (dispatch (serveCore verify) s) w
      (fun _ w' => Told (fun events => Withheld events ∧ Refused i events) w w')
      fun _ _ => False := by
  obtain ⟨nodes, hnodes, heq⟩ := hs.dispatch_eq (serveCore verify)
  rw [heq]
  apply dispatchOver_told (P := fun events => Unseen events ∧ Withheld events) hnodes h ha _ _
    (.inl hblocked)
  · exact ⟨.nil, fun _ _ _ _ _ hmem => absurd hmem List.not_mem_nil⟩
  · intro x hx hpre w₁ events calls hP hk
    obtain ⟨addr, pathPrefix, handler⟩ := x
    have hP' {handler : Handler} (hcontent : ¬ handler.Content) :
        Unseen (events ++ [.invoked addr pathPrefix handler w.req.url w.req.cert]) ∧
          Withheld (events ++ [.invoked addr pathPrefix handler w.req.url w.req.cert]) :=
      ⟨hP.1.append (.singleton rfl), hP.2.append (.invoked hcontent)⟩
    have hcontinue : ¬ Answers geminiHandlerContinue := by decide
    obtain ⟨store, rfl⟩ | ⟨urls, rfl, hparsed⟩ := hkinds _ hx hpre
    · apply (sHandlerAuthn_outcome (h.kept hk) verify store fun _ => True).imp
      intro rc w' hrc
      obtain ⟨_, rfl, rfl⟩ | ⟨_, rfl, events', status, hstatus, hw', hreplied⟩ := hrc
      · exact .pass hcontinue hk (hP' id)
      · exact turned_away hP.1 hP.2 id hk hw' hreplied (.inr hstatus)
    · apply (sHandlerVhosts_outcome (h.kept hk) (ha.kept hk) hparsed fun _ => True).imp
      intro rc w' hrc
      obtain ⟨_, rfl, rfl⟩ | ⟨_, rfl, events', hw', hreplied⟩ := hrc
      · exact .pass hcontinue hk (hP' id)
      · exact turned_away hP.1 hP.2 id hk hw' hreplied (.inl rfl)

theorem dispatch_invokes {before after : List (Nat × Entry)}
    (hs : Holds s (before ++ (addr, e) :: after)) (h : Held i w fd) (ha : Asks w loc)
    (hpass : ∀ x ∈ before.map Prod.snd, x.1.octets <+: loc.path → Passes verify loc w.req.cert x)
    (hcalls : w.calls = List.replicate (candidates loc (before.map Prod.snd)).length .failing ++ [])
    (hpre : e.1.octets <+: loc.path) :
    Outcome (dispatch (serveCore verify) s) w (fun _ w' => ∃ events, w'.log = w.log ++ events ∧
      ∃ url cert, .invoked addr e.1 e.2 url cert ∈ events) fun _ _ => True := by
  apply dispatch_comes hs ha hpass hcalls
  intro back hback w₁ events hw₁ _ _
  rw [List.map_eq_cons_iff] at hback
  obtain ⟨⟨addr', node⟩, rest, rfl, hnode, hrest⟩ := hback
  obtain ⟨rfl, rfl⟩ := Prod.mk.inj hnode
  have hinv := hw₁.toKept.trans (invoking_passed w₁ addr' node.entry).toKept
  have h₂ := h.kept hinv
  have ha₂ := ha.kept hinv
  have hlog (w' : World) (hw' : Told (fun _ => True) (w₁.invoking addr' node.entry) w') :
      ∃ events, w'.log = w.log ++ events ∧
        ∃ url cert, .invoked addr' node.entry.1 node.entry.2 url cert ∈ events := by
    obtain ⟨events', hlog, -⟩ := hw'
    refine ⟨_, by rw [hlog, hinv.log, List.append_assoc], w₁.req.url, w₁.req.cert, ?_⟩
    simp
  have hquiet (l l' : List Event) (_ : True) (_ : ∀ ev ∈ l', ev.Inner fun _ => False) : True :=
    trivial
  apply dispatchOver_cons
  apply serveCore_matched (ha.kept hw₁.toKept) addr' hpre
  apply (runHandler_turned (P := fun _ => True) (e := node.entry) hquiet h₂ ha₂ (.refl _) hpre
    (fun _ _ => trivial) _).mono _ fun _ _ _ => trivial
  intro rc w₃ hturned
  apply (hturned.dispatchRc h₂).sure.imp
  intro r w₄ hr
  cases r with
  | some handled => exact ⟨hr.1, hlog _ hr.2⟩
  | none =>
    obtain ⟨-, events', hk, -⟩ := hr
    apply (dispatchOver_told (P := fun _ => True) (R := fun _ => True) (E := fun _ _ => True)
      (hrest.trans (List.append_nil after).symm) (h₂.kept hk) (ha₂.kept hk) trivial _
      (.inr ⟨rfl, fun _ _ _ _ => trivial⟩)).imp
    · intro _ w' htold
      obtain ⟨events'', hlog', -⟩ := htold
      exact hlog w' ⟨events' ++ events'', by rw [hlog', hk.log, List.append_assoc], trivial⟩
    · intro x _ hmatch w₅ events'' calls _ hk'
      exact (runHandler_turned hquiet (h₂.kept hk) (ha₂.kept hk) hk' hmatch
        (fun _ _ => trivial) calls).mono (fun _ _ ht => ht) fun _ _ _ => trivial

end Withholding

/-- Each handler with content stands behind an authn handler that refuses the certificate. -/
def Sheltered (verify : X509Store → X509 → Bool) (loc : Location) (cert : Option X509)
    (entries : List Entry) : Prop :=
  ∀ front e rest, entries = front ++ e :: rest → e.2.Content → e.1.octets <+: loc.path →
    ∃ guard ∈ front, guard.1.octets <+: loc.path ∧
      ∃ store, guard.2 = .authn store ∧ ¬ Admits verify store cert

/-- Nothing with content is run for a connection, and it is refused if its URL finds memory. -/
def NotServed (conn : Conn) (i : Nat) (events : List Event) : Prop :=
  Withheld events ∧ ((∀ len, conn.url len ≠ none) → ∃ status sent,
    (status = 53 ∨ status = 60 ∨ status = 61) ∧
      history i events =
        .opened (.conn i) :: .responded i status :: (sent ++ [.closed (.conn i)]) ∧
      ∀ e ∈ sent, IsSent i e)

theorem exists_madeOf (h : List.Forall₂ MadeOf urls args) (hu : u ∈ urls) :
    ∃ arg ∈ args, MadeOf u arg := by
  induction h with
  | nil => cases hu
  | cons hmade _ ih =>
    cases List.mem_cons.1 hu with
    | inl he => exact ⟨_, List.mem_cons_self, he ▸ hmade⟩
    | inr hu =>
      obtain ⟨arg, harg, hmade⟩ := ih hu
      exact ⟨arg, List.mem_cons_of_mem _ harg, hmade⟩

theorem Opt.entry_kind {o : Opt} {e : Entry} (h : o.entry = some e) :
    e.2.Content ∨ ∃ store, e.2 = .authn store := by
  cases o with
  | authn optarg store loads malloc =>
    cases malloc with
    | none => cases h
    | some next =>
      cases h
      exact .inr ⟨_, rfl⟩
  | echo optarg malloc =>
    cases malloc with
    | none => cases h
    | some next =>
      cases h
      exact .inl trivial
  | exec optarg signal malloc =>
    cases malloc with
    | none => cases h
    | some next =>
      cases h
      exact .inl trivial
  | static optarg malloc =>
    cases malloc with
    | none => cases h
    | some next =>
      cases h
      exact .inl trivial
  | _ => cases h

theorem first_content (loc : Location) (entries : List (Nat × Entry)) :
    (∀ x ∈ entries, x.2.1.octets <+: loc.path → ¬ x.2.2.Content) ∨
      ∃ before x after, entries = before ++ x :: after ∧ x.2.1.octets <+: loc.path ∧
        x.2.2.Content ∧ ∀ y ∈ before, y.2.1.octets <+: loc.path → ¬ y.2.2.Content := by
  cases hfind : entries.find? fun x => decide (x.2.1.octets <+: loc.path ∧ x.2.2.Content) with
  | none =>
    refine .inl fun x hx hpre hcontent => ?_
    have hnot := List.find?_eq_none.1 hfind x hx
    exact hnot (decide_eq_true ⟨hpre, hcontent⟩)
  | some x =>
    obtain ⟨hx, before, after, hsplit, hbefore⟩ := List.find?_eq_some_iff_append.1 hfind
    obtain ⟨hpre, hcontent⟩ := of_decide_eq_true hx
    refine .inr ⟨before, x, after, hsplit, hpre, hcontent, fun y hy hmatch hc => ?_⟩
    have hnot := hbefore y hy
    rw [decide_eq_true ⟨hmatch, hc⟩] at hnot
    cases hnot

/-- The handlers of a command line and behind them the one for its URLs. -/
structure Hosting (opts : List Opt) (loc : Location) (entries : List (Nat × Entry))
    (urls : List (Sigma GeminiUrl)) : Prop where
  entries_eq : entries.map Prod.snd = opts.filterMap Opt.entry ++ [(rootPrefix, .vhosts urls)]
  parsed : AllParsed urls
  foreign : ¬ Serves urls loc

theorem Hosting.front (h : Hosting opts loc (before ++ x :: after) urls) (hx : x.2.2.Content) :
    ∃ rest, opts.filterMap Opt.entry = before.map Prod.snd ++ x.2 :: rest := by
  have hentries := h.entries_eq
  rw [List.map_append, List.map_cons, List.append_eq_append_iff] at hentries
  have hne : x.2 ≠ (rootPrefix, .vhosts urls) := by
    intro he
    rw [he] at hx
    exact hx
  obtain ⟨as, hopts, hrest⟩ | ⟨cs, _, hrest⟩ := hentries
  · cases as with
    | nil => exact absurd (List.cons.inj hrest).1 hne
    | cons e as => exact ⟨as, by rw [hopts, (List.cons.inj hrest).1]⟩
  · cases cs with
    | nil => exact absurd (List.cons.inj hrest).1.symm hne
    | cons e cs =>
      have hnil : [] = cs ++ x.2 :: after.map Prod.snd := (List.cons.inj hrest).2
      cases (List.append_eq_nil_iff.1 hnil.symm).2

theorem Hosting.kind (h : Hosting opts loc entries urls) (hx : x ∈ entries) :
    x.2.2.Content ∨ (∃ store, x.2.2 = .authn store) ∨ x.2 = (rootPrefix, .vhosts urls) := by
  have hmem := List.mem_map_of_mem (f := Prod.snd) hx
  rw [h.entries_eq, List.mem_append, List.mem_singleton] at hmem
  cases hmem with
  | inl hmem =>
    obtain ⟨o, _, ho⟩ := List.mem_filterMap.1 hmem
    cases o.entry_kind ho with
    | inl hcontent => exact .inl hcontent
    | inr hauthn => exact .inr (.inl hauthn)
  | inr he => exact .inr (.inr he)

section Hosting
variable {verify : X509Store → X509 → Bool}

theorem Hosting.withholds (hh : Hosting opts loc entries urls) (hs : Holds s entries)
    (hsheltered : Sheltered verify loc w.req.cert (opts.filterMap Opt.entry)) (h : Held i w fd)
    (ha : Asks w loc) :
    Outcome (dispatch (serveCore verify) s) w
      (fun _ w' => Told (fun events => Withheld events ∧ Refused i events) w w')
      fun _ _ => False := by
  have hkinds {before : List (Nat × Entry)} (hsub : before ⊆ entries)
      (hnone : ∀ x ∈ before, x.2.1.octets <+: loc.path → ¬ x.2.2.Content) :
      ∀ x ∈ before, x.2.1.octets <+: loc.path →
        (∃ store, x.2.2 = .authn store) ∨ ∃ urls, x.2.2 = .vhosts urls ∧ AllParsed urls := by
    intro x hx hpre
    obtain hcontent | hauthn | hvhosts := hh.kind (hsub hx)
    · exact absurd hcontent (hnone x hx hpre)
    · exact .inl hauthn
    · exact .inr ⟨urls, congrArg Prod.snd hvhosts, hh.parsed⟩
  obtain hnone | ⟨before, x, after, rfl, hpre, hcontent, hbefore⟩ := first_content loc entries
  · rw [← List.append_nil entries] at hs
    apply dispatch_withholds hs h ha (hkinds (List.Subset.refl _) hnone)
    have hlast : (rootPrefix, .vhosts urls) ∈ entries.map Prod.snd := by
      rw [hh.entries_eq]
      exact List.mem_append_right _ (List.mem_singleton_self _)
    obtain ⟨x, hx, he⟩ := List.mem_map.1 hlast
    refine ⟨x, hx, ?_⟩
    rw [he]
    exact ⟨root_matches loc, hh.parsed, hh.foreign⟩
  · apply dispatch_withholds hs h ha (hkinds (List.subset_append_left _ _) hbefore)
    obtain ⟨rest, hopts⟩ := hh.front hcontent
    obtain ⟨guard, hguard, hmatch, store, hstore, hrefused⟩ :=
      hsheltered _ _ rest hopts hcontent hpre
    obtain ⟨y, hy, rfl⟩ := List.mem_map.1 hguard
    refine ⟨y, hy, hmatch, ?_⟩
    rw [hstore]
    exact ⟨trivial, hrefused⟩

/-- Otherwise a request can get to something with content. -/
theorem Hosting.reaches (hh : Hosting opts loc entries urls)
    (hexposed : ¬ Sheltered verify loc cert (opts.filterMap Opt.entry)) :
    ∃ before x after, entries = before ++ x :: after ∧ x.2.1.octets <+: loc.path ∧
      x.2.2.Content ∧ ∀ y ∈ before.map Prod.snd, y.1.octets <+: loc.path →
        Passes verify loc cert y := by
  simp only [Sheltered, not_forall] at hexposed
  obtain ⟨front, e, rest, hopts, hcontent, hpre, hopen⟩ := hexposed
  obtain hnone | ⟨before, x, after, rfl, hmatch, hx, hbefore⟩ := first_content loc entries
  · have he : e ∈ entries.map Prod.snd := by
      rw [hh.entries_eq, hopts]
      simp
    obtain ⟨x, hx, rfl⟩ := List.mem_map.1 he
    exact absurd hcontent (hnone x hx hpre)
  · refine ⟨before, x, after, rfl, hmatch, hx, ?_⟩
    obtain ⟨rest', hopts'⟩ := hh.front hx
    have hsub : before.map Prod.snd ⊆ front := by
      have hsplit := hopts'.symm.trans hopts
      rw [List.append_eq_append_iff] at hsplit
      obtain ⟨as, hfront, _⟩ | ⟨cs, hfront, hrest⟩ := hsplit
      · rw [hfront]
        exact List.subset_append_left _ _
      · cases cs with
        | nil =>
          rw [hfront, List.append_nil]
          exact List.Subset.refl _
        | cons e' cs =>
          -- the handler that stands open is not in front of the first one with content
          have he : e ∈ before.map Prod.snd := by
            rw [hfront, (List.cons.inj hrest).1]
            simp
          obtain ⟨z, hz, rfl⟩ := List.mem_map.1 he
          exact absurd hcontent (hbefore z hz hpre)
    intro y hy hmatch'
    have hentry : y ∈ opts.filterMap Opt.entry := by
      rw [hopts']
      exact List.mem_append_left _ hy
    obtain ⟨o, _, ho⟩ := List.mem_filterMap.1 hentry
    obtain hc | ⟨store, hstore⟩ := o.entry_kind ho
    · obtain ⟨z, hz, rfl⟩ := List.mem_map.1 hy
      exact absurd hc (hbefore z hz hmatch')
    · have hparsed : y.2.Parsed := by
        rw [hstore]
        trivial
      apply passes_of_not_blocks hmatch' hparsed
      rw [hstore]
      intro hrefused
      exact hopen ⟨y, hsub hy, hmatch', store, hstore, hrefused⟩

theorem Hosting.notServed (hh : Hosting opts loc entries urls) (hs : Holds s entries)
    (hrequests : conn.Requests loc)
    (hsheltered : Sheltered verify loc conn.cert (opts.filterMap Opt.entry)) :
    Outcome (serveConn verify s conn) w (fun _ w' => Told (NotServed conn w.accepted) w w')
      fun _ _ => False := by
  have hown : history w.accepted [.opened (.conn w.accepted)] = [.opened (.conn w.accepted)] :=
    history_eq_self fun e he => by
      rw [List.mem_singleton.1 he]
      rfl
  have hinner : ∀ e ∈ [Event.opened (.conn w.accepted)], e.Inner fun _ => False := by
    intro e he
    rw [List.mem_singleton.1 he]
    exact trivial
  have haccept := Withheld.of_inner hinner
  apply serveConn_requests (Q := fun _ w' => Told (NotServed conn w.accepted) w w') hrequests
  · intro hnone w₁ w' sent hr hw' hsent
    obtain ⟨len, hlen⟩ := hnone
    refine ⟨_, by rw [hw'.log, hr.log, List.append_assoc], ?_, fun hurl => absurd hlen (hurl len)⟩
    exact haccept.append (.of_inner (inner_answer hsent 50 fun _ => False))
  · intro w₁ hr ha hcert _
    rw [← hcert] at hsheltered
    apply (hh.withholds hs hsheltered hr.held ha).imp
    intro _ w' htold
    obtain ⟨events, hlog, hwithheld, status, sent, hstatus, hreply, hsent⟩ := htold
    refine ⟨_, by rw [hlog, hr.log, List.append_assoc], haccept.append hwithheld,
      fun _ => ⟨status, sent, hstatus, ?_, hsent⟩⟩
    rw [history_append, hown, hreply]
    rfl

theorem Hosting.served {request : Conn} (hh : Hosting opts loc entries urls)
    (hs : Holds s entries) (hrequests : request.Requests loc)
    (hexposed : ¬ Sheltered verify loc request.cert (opts.filterMap Opt.entry)) :
    ¬ ∀ conn w, conn.Requests loc → conn.cert = request.cert →
      Outcome (serveConn verify s conn) w (fun _ w' => Told (NotServed conn w.accepted) w w')
        fun _ _ => False := by
  intro hall
  obtain ⟨before, x, after, rfl, hpre, hcontent, hpass⟩ := hh.reaches hexposed
  let calls := List.replicate (candidates loc (before.map Prod.snd)).length Calls.failing ++ []
  have hinvoked : Outcome (serveConn verify s (request.eased calls)) .idle (fun _ w' =>
      ∃ events, w'.log = events ∧ ∃ url cert, .invoked x.1 x.2.1 x.2.2 url cert ∈ events)
      fun _ _ => True := by
    apply serveConn_eased hrequests
    intro w₁ hr ha hcert hcalls
    rw [← hcert] at hpass
    apply (dispatch_invokes hs hr.held ha hpass hcalls hpre).imp
    intro _ w' hw'
    obtain ⟨events, hlog, url, cert, hmem⟩ := hw'
    exact ⟨_, hlog, url, cert, List.mem_append_right _ hmem⟩
  obtain ⟨counted, w', hrun, events, hlog, hwithheld, _⟩ :=
    (hall (request.eased calls) .idle hrequests rfl).returns
  obtain ⟨_, rfl, url, cert, hmem⟩ := hinvoked.of_ok hrun
  rw [hlog] at hmem
  exact hwithheld _ _ _ _ _ hmem hcontent

end Hosting

theorem configure_hosting (h : configure calls env opts extra ⟨[], .zeroed⟩ = .ok (0, s))
    (hbind : opts.filterMap Opt.url ≠ [])
    (hforeign : ∀ arg ∈ opts.filterMap Opt.url, ∀ l : Location, arg.octets = l.text →
      ¬ (l.host = loc.host ∧ l.port = loc.port)) :
    ∃ entries urls, Holds s entries ∧ Hosting opts loc entries urls := by
  obtain ⟨entries, urls, hs, hentries, hmade⟩ := configure_holds h hbind
  refine ⟨entries, urls, hs, hentries, ?_, ?_⟩
  · intro u hu
    obtain ⟨arg, _, l, _, hl⟩ := exists_madeOf hmade hu
    exact ⟨l, hl⟩
  · intro hserves
    obtain ⟨u, hu, l, hl, hhost, hport⟩ := hserves
    obtain ⟨arg, harg, l', htext, hl'⟩ := exists_madeOf hmade hu
    have hhost' := hl'.host.strAt_eq.symm.trans hl.host.strAt_eq
    have hport' := hl'.port.symm.trans hl.port
    exact hforeign arg harg l' htext ⟨hhost'.trans hhost, hport'.trans hport⟩

/-- A request for no host is kept from content just if authn handlers stand in front of all. -/
theorem configure_notServed_iff {request : Conn}
    (h : configure calls env opts extra ⟨[], .zeroed⟩ = .ok (0, s))
    (hbind : opts.filterMap Opt.url ≠ []) (hrequests : request.Requests loc)
    (hforeign : ∀ arg ∈ opts.filterMap Opt.url, ∀ l : Location, arg.octets = l.text →
      ¬ (l.host = loc.host ∧ l.port = loc.port)) (verify : X509Store → X509 → Bool) :
    (∀ conn w, conn.Requests loc → conn.cert = request.cert →
      Outcome (serveConn verify s conn) w (fun _ w' => Told (NotServed conn w.accepted) w w')
        fun _ _ => False) ↔
      Sheltered verify loc request.cert (opts.filterMap Opt.entry) := by
  obtain ⟨entries, urls, hs, hh⟩ := configure_hosting h hbind hforeign
  constructor
  · intro hall
    by_contra hexposed
    exact hh.served hs hrequests hexposed hall
  · intro hsheltered conn w hconn hcert
    rw [← hcert] at hsheltered
    exact hh.notServed hs hconn hsheltered

def elsewhere : Location := .onDefaultPort isHostName_a []

def elsewhereUrl : CStr := ⟨elsewhere.text, by decide⟩

def commonOpts : List Opt :=
  [.bind elsewhereUrl true fun len => some (blank len), .tlsCertificate rootPrefix,
    .tlsKey rootPrefix]

theorem elsewhere_foreign : ∀ arg ∈ commonOpts.filterMap Opt.url, ∀ l : Location,
    arg.octets = l.text → ¬ (l.host = (below nowhere).host ∧ l.port = (below nowhere).port) := by
  intro arg harg l htext hsame
  obtain rfl : arg = elsewhereUrl := List.mem_singleton.1 harg
  have htext' : elsewhere.text = l.text := htext
  have hhost := (Location.eq_of_text htext' elsewhereUrl.noNul).1
  rw [← hhost] at hsame
  exact absurd hsame.1 (by decide)

theorem echo_accepted : ∃ s, configure .smooth ⟨none, none, none⟩
    (.echo rootPrefix (some none) :: commonOpts) false ⟨[], .zeroed⟩ = .ok (0, s) :=
  ⟨_, rfl⟩

/-- Nothing keeps `--echo / --bind gemini://a/` from answering for host `h`. -/
theorem not_kept_echo : ∃ s, configure .smooth ⟨none, none, none⟩
    (.echo rootPrefix (some none) :: commonOpts) false ⟨[], .zeroed⟩ = .ok (0, s) ∧
      ¬ ∀ conn w, conn.Requests (below nowhere) → conn.cert = none →
        Outcome (serveConn (fun _ _ => false) s conn) w
          (fun _ w' => Told (NotServed conn w.accepted) w w') fun _ _ => False := by
  obtain ⟨s, hs⟩ := echo_accepted
  refine ⟨s, hs, ?_⟩
  obtain ⟨entries, urls, hholds, hh⟩ :=
    configure_hosting hs (List.cons_ne_nil elsewhereUrl []) elsewhere_foreign
  apply hh.served hholds (nowhere_requests [])
  intro hsheltered
  obtain ⟨guard, hguard, _⟩ := hsheltered [] (rootPrefix, .echo) [] rfl trivial (below_root nowhere)
  cases hguard

def authority : CStr := ⟨[99], by decide⟩

/-- `--authn c --echo /` -/
def guardedOpts : List Opt :=
  [.authn authority true [true] (some none), .echo rootPrefix (some none)] ++ commonOpts

theorem guarded_accepted : ∃ s,
    configure .smooth ⟨none, none, none⟩ guardedOpts false ⟨[], .zeroed⟩ = .ok (0, s) :=
  ⟨_, rfl⟩

/-- A guard of everything in front of it does. -/
theorem kept_guarded : ∃ s,
    configure .smooth ⟨none, none, none⟩ guardedOpts false ⟨[], .zeroed⟩ = .ok (0, s) ∧
      Outcome (serveConn (fun _ _ => false) s (visit nowhere [])) .idle
        (fun _ w' => Told (NotServed (visit nowhere []) 0) .idle w') fun _ _ => False := by
  obtain ⟨s, hs⟩ := guarded_accepted
  refine ⟨s, hs, ?_⟩
  have hrequests := nowhere_requests []
  apply (configure_notServed_iff hs (List.cons_ne_nil elsewhereUrl []) hrequests
    elsewhere_foreign fun _ _ => false).2 _ _ _ hrequests rfl
  intro front e rest hentries hcontent hpre
  have hguard : ¬ Admits (fun _ _ => false) [authority] (visit nowhere []).cert := by
    intro hadmits
    obtain ⟨c, hc, _⟩ := hadmits
    cases hc
  have hopts : guardedOpts.filterMap Opt.entry =
      [(rootPrefix, .authn [authority]), (rootPrefix, .echo)] := rfl
  rw [hopts] at hentries
  cases front with
  | nil =>
    rw [← (List.cons.inj hentries).1] at hcontent
    exact hcontent.elim
  | cons guard front =>
    rw [← (List.cons.inj hentries).1]
    exact ⟨_, List.mem_cons_self, below_root nowhere, _, rfl, hguard⟩

end Geminon
