import Geminon.Replies

namespace Geminon
open Memory Descriptors Process LinkedList
set_option autoImplicit true

def Handler.BuiltIn : Handler → Prop
  | .user _ => False
  | _ => True

/-- A handler leaves a descriptor open: static files their root, a CGI handler its pipe. -/
def Handler.Leaks (c : Calls) (octets : List UInt8) : Handler → Prop
  | .fs root => found c.root root = true
  | .cgi root => c.Pipes root octets
  | _ => False

def Spills (verify : X509Store → X509 → Bool) (loc : Location) (cert : Option X509)
    (entries : List Entry) (calls : List Calls) : Prop :=
  ∃ x c, Comes verify loc cert entries calls x c ∧ x.2.Leaks c (loc.path.drop x.1.length)

theorem not_spills_nil : ¬ Spills verify loc cert [] calls :=
  fun ⟨_, _, h, _⟩ => not_comes_nil h

theorem spills_cons_neg {e : Entry} (hpre : ¬ e.1.octets <+: loc.path) :
    Spills verify loc cert (e :: entries) calls ↔ Spills verify loc cert entries calls := by
  simp only [Spills, comes_cons_neg hpre]

theorem spills_cons_pos {e : Entry} (hpre : e.1.octets <+: loc.path) :
    Spills verify loc cert (e :: entries) calls ↔
      e.2.Leaks (calls.headD .failing) (loc.path.drop e.1.length) ∨
      e.2.Yields verify loc cert (calls.headD .failing) e.1 ∧
        Spills verify loc cert entries calls.tail := by
  simp only [Spills, comes_cons_pos hpre]
  constructor
  · intro h
    obtain ⟨x, c, ⟨rfl, rfl⟩ | ⟨hyields, hx⟩, hleaks⟩ := h
    · exact .inl hleaks
    · exact .inr ⟨hyields, x, c, hx, hleaks⟩
  · intro h
    obtain hleaks | ⟨hyields, x, c, hx, hleaks⟩ := h
    · exact ⟨e, _, .inl ⟨rfl, rfl⟩, hleaks⟩
    · exact ⟨x, c, .inr ⟨hyields, hx⟩, hleaks⟩

theorem runHandler_leaks (h : Held i w fd) (ha : Asks w loc) {e : Entry}
    (hpre : e.1.octets <+: loc.path) (he : e.2.BuiltIn) (c : Calls) :
    Outcome (runHandler verify c e.1 e.2) w (fun rc w' => ∃ events,
      (rc = geminiHandlerDone ∧ Ended w w' events ∨ rc = geminiHandlerAbort ∧ Passed w w' events ∨
        rc = geminiHandlerContinue ∧ Passed w w' events) ∧
      (Leaky events ↔ e.2.Leaks c (loc.path.drop e.1.length)) ∧
      (rc = geminiHandlerContinue ↔ e.2.Yields verify loc w.req.cert c e.1)) fun _ _ => True := by
  obtain ⟨pathPrefix, handler⟩ := e
  have hk : pathPrefix.length ≤ loc.path.length := hpre.length_le
  have hdone : ¬ geminiHandlerDone = geminiHandlerContinue := by decide
  cases handler with
  | echo =>
    apply (echoHandler_outcome h ha fun _ => True).sure.imp
    intro rc w' hw'
    obtain ⟨rfl, events, hw', -, hsealed⟩ := hw'
    exact ⟨events, .inl ⟨rfl, hw'⟩, iff_of_false hsealed id, iff_of_false hdone id⟩
  | cgi root =>
    refine (cgiHandler_outcome h ha c hk root).mono ?_ fun _ _ _ => trivial
    intro rc w' hw'
    obtain ⟨events, ⟨rfl, hw'⟩ | ⟨rfl, hw'⟩, -, hleaky⟩ := hw'
    · exact ⟨events, .inr (.inl ⟨rfl, hw'⟩), hleaky, iff_of_false (by decide) id⟩
    · exact ⟨events, .inl ⟨rfl, hw'⟩, hleaky, iff_of_false hdone id⟩
  | fs root =>
    refine (sHandlerFs_outcome h ha c hk root).mono ?_ fun _ _ _ => trivial
    intro rc w' hw'
    obtain ⟨events, ⟨rfl, hw', -⟩ | ⟨rfl, hw', -⟩, -, hleaky, hfinds, -⟩ := hw'
    · refine ⟨events, .inr (.inr ⟨rfl, hw'⟩), hleaky, iff_of_true rfl fun hf => ?_⟩
      exact absurd (hfinds.2 hf) (by decide)
    · exact ⟨events, .inl ⟨rfl, hw'⟩, hleaky, iff_of_false hdone fun hn => hn (hfinds.1 rfl)⟩
  | authn store =>
    apply (sHandlerAuthn_outcome h verify store fun _ => True).sure.imp
    intro rc w' hw'
    obtain ⟨hadmits, rfl, rfl⟩ | ⟨hrefused, rfl, events, _, _, hw', -, hsealed⟩ := hw'
    · exact ⟨[], .inr (.inr ⟨rfl, .refl _⟩), iff_of_false leaky_nil id, iff_of_true rfl hadmits⟩
    · exact ⟨events, .inl ⟨rfl, hw'⟩, iff_of_false hsealed id, iff_of_false hdone hrefused⟩
  | vhosts urls =>
    refine (sHandlerVhosts_hosts h ha urls fun _ => True).mono ?_ fun _ _ _ => trivial
    intro rc w' hw'
    obtain ⟨hhosts, rfl, rfl⟩ | ⟨hother, rfl, events, hw', -, hsealed⟩ := hw'
    · exact ⟨[], .inr (.inr ⟨rfl, .refl _⟩), iff_of_false leaky_nil id, iff_of_true rfl hhosts⟩
    · exact ⟨events, .inl ⟨rfl, hw'⟩, iff_of_false hsealed id, iff_of_false hdone hother⟩
  | user fn => exact he.elim

/-- What has leaked and what is still going to leak add up to the same. -/
theorem course_leaks (verify : X509Store → X509 → Bool) (i : Nat) (loc : Location)
    (cert : Option X509) (spills : Prop) :
    Course verify i loc cert (fun rest calls l => (∀ e ∈ rest, e.2.BuiltIn) ∧
      (spills ↔ Leaky l ∨ Spills verify loc cert rest calls)) (fun l => spills ↔ Leaky l)
      fun _ _ => True where
  skip hpre hP :=
    ⟨fun e he => hP.1 e (List.mem_cons_of_mem _ he), hP.2.trans (by rw [spills_cons_neg hpre])⟩
  turn {e rest calls l w fd} addr url cert' hpre hP h ha hcert := by
    obtain ⟨hbuilt, hspills⟩ := hP
    apply (runHandler_leaks h ha hpre (hbuilt e List.mem_cons_self) _).imp
    intro rc w' hw'
    obtain ⟨events, hcases, hleaky, hyields⟩ := hw'
    rw [hcert] at hyields
    have hinvoked : ¬ Leaky [.invoked addr e.1 e.2 url cert'] :=
      not_leaky (by simp [Event.Leaks])
    have hall : spills ↔ Leaky (l ++ [.invoked addr e.1 e.2 url cert'] ++ events) ∨
        e.2.Yields verify loc cert (calls.headD .failing) e.1 ∧
          Spills verify loc cert rest calls.tail := by
      rw [leaky_append, leaky_append, or_iff_left hinvoked, hleaky, or_assoc,
        ← spills_cons_pos hpre]
      exact hspills
    have hstays (hne : rc ≠ geminiHandlerContinue) :
        spills ↔ Leaky (l ++ [.invoked addr e.1 e.2 url cert'] ++ events) :=
      hall.trans (or_iff_left fun hy => hne (hyields.2 hy.1))
    refine ⟨events, ?_⟩
    obtain ⟨rfl, hw'⟩ | ⟨rfl, hw'⟩ | ⟨rfl, hw'⟩ := hcases
    · exact .inl ⟨rfl, hw', hstays (by decide)⟩
    · refine .inr (.inl ⟨rfl, hw', fun sent hsent => (hstays (by decide)).trans ?_⟩)
      exact (leaky_append.trans (or_iff_left (not_leaky_answer hsent 59))).symm
    · rw [and_iff_right (hyields.1 rfl)] at hall
      exact .inr (.inr ⟨by decide, hw', fun e he => hbuilt e (List.mem_cons_of_mem _ he), hall⟩)
  finish {calls l} sent hP hsent := by
    refine hP.2.trans ?_
    rw [or_iff_left not_spills_nil, leaky_append, or_iff_left (not_leaky_answer hsent 51)]

/-- The request of a connection comes to a handler that leaves a descriptor open. -/
def Conn.Spills (verify : X509Store → X509 → Bool) (entries : List Entry) (conn : Conn) : Prop :=
  ∃ loc x c, conn.ComesTo verify entries loc x c ∧ x.2.Leaks c (loc.path.drop x.1.length)

theorem Conn.spills_iff (hd : Conn.Dispatched conn loc) :
    conn.Spills verify entries ↔ Geminon.Spills verify loc conn.cert entries conn.calls := by
  constructor
  · intro h
    obtain ⟨loc', x, c, hx, hleaks⟩ := h
    rw [hx.1.1.eq_path hd.1] at hleaks
    exact ⟨x, c, (hx.of_dispatched hd).2, hleaks⟩
  · intro h
    obtain ⟨x, c, hx, hleaks⟩ := h
    exact ⟨loc, x, c, ⟨hd, hx⟩, hleaks⟩

theorem serveConn_grows (hs : Holds s entries) (hbuilt : ∀ e ∈ entries, e.2.2.BuiltIn)
    (verify : X509Store → X509 → Bool) (conn : Conn) (w : World) :
    Outcome (serveConn verify s conn) w (fun _ w' =>
      w.fds.Grows (conn.Spills verify (entries.map Prod.snd)) w'.fds) fun _ _ => True := by
  have hbuilt' : ∀ e ∈ entries.map Prod.snd, e.2.BuiltIn := by
    intro e he
    obtain ⟨x, hx, rfl⟩ := List.mem_map.1 he
    exact hbuilt x hx
  have hrun : Outcome (serveConn verify s conn) w (fun _ w' => ∃ events,
      Served conn (fun l => conn.Spills verify (entries.map Prod.snd) ↔ Leaky l) w w' events)
      fun _ _ => True := by
    apply serveConn_outcome hs
    · intro hnone sent hsent
      refine iff_of_false (fun hspills => ?_) (not_leaky_answer hsent 50)
      obtain ⟨loc, _, _, hx, _⟩ := hspills
      exact hnone loc hx.1
    · intro loc hd
      refine ⟨_, course_leaks verify _ loc conn.cert _, hbuilt', ?_⟩
      rw [or_iff_right leaky_nil]
      exact Conn.spills_iff hd
  apply hrun.imp
  intro _ w' hw'
  obtain ⟨events, hw'⟩ := hw'
  apply hw'.grows.congr
  by_cases hrej : conn.Rejected
  · rw [hw'.rejected hrej]
    refine iff_of_false (not_leaky (by simp [Event.Leaks])) fun hspills => ?_
    obtain ⟨loc, _, _, hx, _⟩ := hspills
    exact hx.1.1.not_rejected hrej
  · exact (hw'.answered hrej).symm

theorem geminiServe_grows (hs : Holds s entries) (hbuilt : ∀ e ∈ entries, e.2.2.BuiltIn)
    (verify : X509Store → X509 → Bool) (conns : List Conn) (w : World) :
    Outcome (geminiServe verify s conns) w (fun r w' => ∃ served, served <+: conns ∧
      (r.1 = -1 → served = conns) ∧
      w.fds.Grows (∃ conn ∈ served, conn.Spills verify (entries.map Prod.snd)) w'.fds)
      fun _ _ => True := by
  refine geminiServe_outcome (I := fun done w' =>
    w.fds.Grows (∃ conn ∈ done, conn.Spills verify (entries.map Prod.snd)) w'.fds) conns ?_ ?_ hs w ?_
  · intro s done conn w₁ hs _ hsofar
    apply (serveConn_grows hs hbuilt verify conn w₁).imp
    intro _ w' hw'
    apply (hsofar.trans hw').congr
    simp [or_and_right, exists_or]
  · exact fun _ _ _ h => h
  · exact .refl _ (by simp)

/-- Back at accept nothing has leaked, just if no request of the run came to what leaks. -/
theorem geminiServe_conserves_iff (hs : Holds s entries)
    (hbuilt : ∀ e ∈ entries, e.2.2.BuiltIn) (verify : X509Store → X509 → Bool)
    (conns : List Conn) (fds : FdTable Desc) (req : GeminiRequest)
    (buf : Buf geminiMaxRequest)
    (h : geminiServe verify s conns (.entering fds req buf) = .ok r w') (hback : r.1 = -1) :
    w'.fds = fds ↔ ∀ conn ∈ conns, ¬ conn.Spills verify (entries.map Prod.snd) := by
  obtain ⟨served, -, hall, hgrows⟩ :=
    (geminiServe_grows hs hbuilt verify conns (.entering fds req buf)).of_ok h
  rw [hall hback] at hgrows
  refine hgrows.eq_iff.trans ?_
  simp only [not_exists, not_and]

theorem geminiServe_unlimited {verify : X509Store → X509 → Bool} (conns : List Conn) (w : World)
    (h : s.server.maxRequests = 0) :
    Outcome (geminiServe verify s conns) w (fun r _ => r.1 = -1) fun _ _ => True := by
  refine .bind (.modify ?_)
  generalize ({ w with req := .zeroed } : World) = w
  induction conns generalizing s w with
  | nil => exact .bind (.modify (.pure rfl))
  | cons conn conns ih =>
    refine .bind ((Outcome.trivial _ w).imp fun counted w₁ _ => ?_)
    cases counted with
    | false => exact ih h w₁
    | true =>
      have hlimit : ¬ (0 < s.server.maxRequests ∧
          s.server.maxRequests < s.server.requests + 1) := by simp [h]
      simp only [↓reduceIte, hlimit]
      exact ih (s := { s with server.requests := s.server.requests + 1 }) h w₁

theorem caller_dispatched {file : CStr} (h13 : 13 ∉ file.octets)
    (hlen : file.length ≤ geminiMaxRequest - 14) (writes : Nat) (calls : List Calls) :
    (caller file writes calls).Dispatched (below file) := by
  have hrequests : (caller file writes calls).Requests (below file) :=
    visit_requests h13 hlen calls
  exact ⟨hrequests, ⟨_, hrequests.2.noNul⟩, rfl, rfl⟩

/-- One request for a static file leaves the root directory open. -/
theorem not_conserved_private : ∃ r w', geminiServe (fun _ _ => false)
    (single (rootPrefix, .fs rootPrefix)) [caller privateFile 3 [.smooth]] .idle = .ok r w' ∧
      r.1 = -1 ∧ w'.fds ≠ World.idle.fds := by
  have hd : (caller privateFile 3 [.smooth]).Dispatched (below privateFile) :=
    caller_dispatched (by decide) (by decide) 3 [.smooth]
  have hbears : ∀ conn ∈ [caller privateFile 3 [.smooth]], ∀ loc x c,
      conn.ComesTo (fun _ _ => false) [(rootPrefix, .fs rootPrefix)] loc x c → Bears loc x c := by
    intro conn hconn loc x c hx
    rw [List.mem_singleton.1 hconn] at hx
    refine bears_below hd.1 (fits_of_resolves privateFile_resolves) hx fun root _ => ?_
    rw [List.mem_singleton.1 hx.2.mem]
  obtain ⟨r, w', hrun, -⟩ := (geminiServe_answersOnce (single_holds _) (by simp [Handler.Plain])
    (fun _ _ => false) _ hbears .empty .zeroed (.zeroed _)).returns
  have hback : r.1 = -1 := (geminiServe_unlimited _ _ rfl).of_ok hrun
  obtain ⟨served, -, hall, hgrows⟩ := (geminiServe_grows (single_holds _)
    (by simp [Handler.BuiltIn]) (fun _ _ => false) _ _).of_ok hrun
  rw [hall hback] at hgrows
  refine ⟨r, w', hrun, hback, fun heq => hgrows.eq_iff.1 heq ⟨_, List.mem_singleton_self _, ?_⟩⟩
  exact (Conn.spills_iff hd).2 ((spills_cons_pos (below_root privateFile)).2 (.inl rfl))

/-- A connection that the guard turns away, and one for which the root cannot be opened. -/
def twoConns : List Conn := [caller privateFile 1 [.smooth], caller otherFile 1 [.failing]]

theorem twoConns_spare : ∀ conn ∈ twoConns, ¬ conn.Spills (fun _ _ => false)
    [(privatePrefix, .authn []), (rootPrefix, .fs rootPrefix)] := by
  have hprivate : (caller privateFile 1 [.smooth]).Dispatched (below privateFile) :=
    caller_dispatched (by decide) (by decide) 1 [.smooth]
  have hother : (caller otherFile 1 [.failing]).Dispatched (below otherFile) :=
    caller_dispatched (by decide) (by decide) 1 [.failing]
  intro conn hconn
  simp only [twoConns, List.mem_cons, List.not_mem_nil, or_false] at hconn
  obtain rfl | rfl := hconn
  · rw [Conn.spills_iff hprivate, spills_cons_pos (by decide), not_or]
    refine ⟨id, fun hyields => ?_⟩
    obtain ⟨⟨c, hc, -⟩, -⟩ := hyields
    cases hc
  · rw [Conn.spills_iff hother, spills_cons_neg (by decide),
      spills_cons_pos (below_root otherFile), not_or]
    exact ⟨Bool.false_ne_true, fun hrest => not_spills_nil hrest.2⟩

theorem conserves_guarded : ∃ r w',
    geminiServe (fun _ _ => false) guardedServing twoConns .idle = .ok r w' ∧ r.1 = -1 ∧
      w'.fds = .empty := by
  have hbears : ∀ conn ∈ twoConns, ∀ loc x c, conn.ComesTo (fun _ _ => false)
      [(privatePrefix, .authn []), (rootPrefix, .fs rootPrefix)] loc x c → Bears loc x c := by
    intro conn hconn loc x c hx root hroot hfound _
    refine absurd ⟨loc, x, c, hx, ?_⟩ (twoConns_spare conn hconn)
    rw [hroot]
    exact hfound
  obtain ⟨r, w', hrun, -⟩ := (geminiServe_answersOnce (pair_holds _ _) (by simp [Handler.Plain])
    (fun _ _ => false) twoConns hbears .empty .zeroed (.zeroed _)).returns
  have hback : r.1 = -1 := (geminiServe_unlimited _ _ rfl).of_ok hrun
  exact ⟨r, w', hrun, hback, (geminiServe_conserves_iff (pair_holds _ _)
    (by simp [Handler.BuiltIn]) _ _ _ _ _ hrun hback).2 twoConns_spare⟩

end Geminon
