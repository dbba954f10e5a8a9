import Geminon.Turns

namespace Geminon
open Memory Descriptors Process LinkedList
set_option autoImplicit true

def invoker (handler : Option Nat) : List Event → Option Nat
  | [] => handler
  | .invoked addr .. :: events => invoker (some addr) events
  | _ :: events => invoker handler events

/-- The files that were opened, each with the handler invoked last before it. -/
def filesOpened (handler : Option Nat) : List Event → List (Option Nat × CStr)
  | [] => []
  | .invoked addr .. :: events => filesOpened (some addr) events
  | .opened (.file _ path) :: events => (handler, path) :: filesOpened handler events
  | _ :: events => filesOpened handler events

/-- Each event with the handler that was invoked last before it. -/
def attributed (handler : Option Nat) : List Event → List (Option Nat × Event)
  | [] => []
  | e :: events => (handler, e) :: attributed (invoker handler [e]) events

theorem invoker_cons (handler : Option Nat) (e : Event) (l : List Event) :
    invoker handler (e :: l) = invoker (invoker handler [e]) l := by
  cases e <;> rfl

theorem attributed_append (handler : Option Nat) (l l' : List Event) :
    attributed handler (l ++ l') =
      attributed handler l ++ attributed (invoker handler l) l' := by
  induction l generalizing handler with
  | nil => rfl
  | cons e l ih =>
    rw [List.cons_append, attributed, ih, attributed, invoker_cons handler e l, List.cons_append]

theorem invoker_concat (handler : Option Nat) (l : List Event) :
    invoker handler (l ++ [.invoked addr pathPrefix h url cert]) = some addr := by
  induction l generalizing handler with
  | nil => rfl
  | cons e l ih =>
    cases e with
    | invoked addr => exact ih (some addr)
    | _ => exact ih handler

theorem mem_attributed (hinner : ∀ e ∈ l, e.Inner opens) :
    x ∈ attributed handler l ↔ x.1 = handler ∧ x.2 ∈ l := by
  induction l with
  | nil => simp [attributed]
  | cons e l ih =>
    have ih := ih fun e he => hinner e (List.mem_cons_of_mem _ he)
    have hsame : invoker handler [e] = handler := by
      cases e with
      | invoked => exact (hinner _ List.mem_cons_self).elim
      | _ => rfl
    rw [attributed, hsame, List.mem_cons, ih, List.mem_cons, Prod.ext_iff, ← and_or_left]

theorem attributed_concat (handler : Option Nat) (l : List Event) :
    attributed handler (l ++ [e]) = attributed handler l ++ [(invoker handler l, e)] :=
  attributed_append handler l [e]

theorem mem_filesOpened :
    (handler', path) ∈ filesOpened handler l ↔
      ∃ root, (handler', .opened (.file root path)) ∈ attributed handler l := by
  induction l generalizing handler with
  | nil => simp [filesOpened, attributed]
  | cons e l ih =>
    have hother (hfiles : filesOpened handler (e :: l) = filesOpened (invoker handler [e]) l)
        (hne : ∀ root, e ≠ .opened (.file root path)) :
        (handler', path) ∈ filesOpened handler (e :: l) ↔
          ∃ root, (handler', .opened (.file root path)) ∈ attributed handler (e :: l) := by
      rw [hfiles, ih]
      simp [attributed, fun root => Ne.symm (hne root)]
    cases e with
    | opened desc =>
      cases desc with
      | file root path' =>
        rw [filesOpened, List.mem_cons, ih]
        simp only [attributed, List.mem_cons, Prod.mk.injEq, Event.opened.injEq, Desc.file.injEq,
          exists_or, invoker]
        grind
      | _ => exact hother rfl (by simp)
    | _ => exact hother rfl (by simp)

def OpensOnly (b : Nat) (C : CStr → CStr → Prop) (events : List Event) : Prop :=
  ∀ root path, (some b, .opened (.file root path)) ∈ attributed none events → C root path

theorem Judgement.opensOnly (b : Nat) (C : CStr → CStr → Prop) : Judgement (OpensOnly b C) where
  nil := by
    intro root path hfile
    cases hfile
  accept _ h := by
    intro root path hfile
    rw [attributed, List.mem_cons] at hfile
    cases hfile with
    | inl hfile => cases hfile
    | inr hfile => exact h root path hfile
  quiet h hinner := by
    intro root path hfile
    rw [attributed_append, List.mem_append, mem_attributed hinner] at hfile
    cases hfile with
    | inl hfile => exact h root path hfile
    | inr hfile => exact (hinner _ hfile.2).elim

theorem OpensOnly.turn {C : CStr → CStr → Prop} (h : OpensOnly b C l) {e : Entry}
    (hcaused : ∀ ev ∈ l', ev.CausedBy e loc)
    (hown : addr = b → ∀ root path, e.2 = .fs root → root.octets ≠ [] →
      Names (loc.path.drop e.1.length) path → C root path) :
    OpensOnly b C (l ++ [.invoked addr e.1 e.2 url cert] ++ l') := by
  intro root path hfile
  rw [attributed_append, attributed_concat, invoker_concat, List.mem_append, List.mem_append,
    List.mem_singleton, mem_attributed fun ev hev => (hcaused ev hev).inner] at hfile
  obtain (hfile | hinvoked) | ⟨haddr, hfile⟩ := hfile
  · exact h root path hfile
  · exact absurd (congrArg Prod.snd hinvoked) (by simp)
  · obtain ⟨hpath, hroot⟩ := hcaused _ hfile
    exact hown (Option.some.inj haddr).symm root path hroot.1 hroot.2 hpath

theorem attributed_turn (front : List Event) {e : Entry} (hcaused : ∀ ev ∈ l, ev.CausedBy e loc)
    (hmem : ev ∈ l) :
    (some addr, ev) ∈ attributed none (front ++ [.invoked addr e.1 e.2 url cert] ++ l) := by
  rw [attributed_append, invoker_concat, List.mem_append]
  exact .inr ((mem_attributed fun ev hev => (hcaused ev hev).inner).2 ⟨rfl, hmem⟩)

def Under (dir path : List UInt8) : Prop := path = dir ∨ dir ++ [slash] <+: path

/-- A resolved path that lies at or below what the prefix of a guard resolves to. -/
def Protected (guarded path : CStr) : Prop :=
  ∃ r, geminiFsResolve true guarded = .ok (some r) ∧ Under r.octets path.octets

/-- A handler opens nothing that a guard protects. -/
def Spares (b : Nat) (guarded : CStr) (events : List Event) : Prop :=
  ∀ path, (some b, path) ∈ filesOpened none events → ¬ Protected guarded path

theorem spares_eq (b : Nat) (guarded : CStr) :
    Spares b guarded = OpensOnly b fun _ path => ¬ Protected guarded path := by
  funext events
  apply propext
  constructor
  · intro h root path hfile
    exact h path (mem_filesOpened.2 ⟨root, hfile⟩)
  · intro h path hfile
    obtain ⟨root, hfile⟩ := mem_filesOpened.1 hfile
    exact h root path hfile

section Guarding
variable {verify : X509Store → X509 → Bool}

theorem serveConn_opensOnly {before after : List (Nat × Entry)} {C : CStr → CStr → Prop}
    (hs : Holds s (before ++ after)) (hrequests : conn.Requests loc)
    (hown : ∀ x ∈ before, x.1 = b → x.2.1.octets <+: loc.path → ∀ root path, x.2.2 = .fs root →
      root.octets ≠ [] → Names (loc.path.drop x.2.1.length) path → C root path)
    (hend : Blocked verify loc conn.cert before ∨ after = []) :
    Outcome (serveConn verify s conn) w (fun _ w' => Told (OpensOnly b C) w w')
      fun _ w' => Told (OpensOnly b C) w w' := by
  apply serveConn_told (.opensOnly b C) hs hrequests _ hend
  intro x hx hpre l l' url cert hP hcaused
  exact hP.turn hcaused fun hb => hown x hx hb hpre

theorem serveConn_spares {before after : List (Nat × Entry)} (hs : Holds s (before ++ after))
    (hrequests : conn.Requests loc)
    (hfar : ∀ x ∈ before, x.1 = b → ∀ root path, x.2.2 = .fs root → root.octets ≠ [] →
      Names (loc.path.drop x.2.1.length) path → ¬ Protected guarded path)
    (hend : Blocked verify loc conn.cert before ∨ after = []) :
    Outcome (serveConn verify s conn) w (fun _ w' => Told (Spares b guarded) w w')
      fun _ w' => Told (Spares b guarded) w w' := by
  rw [spares_eq]
  apply serveConn_opensOnly hs hrequests _ hend
  intro x hx hb _
  exact hfar x hx hb

/-- Where nothing in front of the static files stops it, a request gets the file it asks for. -/
theorem serveConn_opens {before after : List (Nat × Entry)} {request : Conn}
    (hs : Holds s (before ++ (b, (pathPrefix, .fs root)) :: after))
    (hparsed : ∀ x ∈ before, x.2.2.Parsed) (hrequests : request.Requests loc)
    (hopen : ¬ Blocked verify loc request.cert before) (hpre : pathPrefix.octets <+: loc.path)
    (hroot : root.octets ≠ []) (hpath : Names (loc.path.drop pathPrefix.length) path)
    (w : World) :
    Outcome (serveConn verify s (request.eased
        (List.replicate (candidates loc (before.map Prod.snd)).length .failing ++ [.smooth]))) w
      (fun _ w' => ∃ front events url cert,
        w'.log = w.log ++ (front ++ [.invoked b pathPrefix (.fs root) url cert] ++ events) ∧
        (∀ e ∈ events, e.CausedBy (pathPrefix, .fs root) loc) ∧
        .opened (.file root path) ∈ events) fun _ _ => False := by
  apply serveConn_eased hrequests
  intro w₁ hr ha hcert hcalls
  rw [← hcert] at hopen
  apply dispatch_reaches hs ha _ hcalls hpre
  · intro w₂ events hw₂ _
    have hinv := hw₂.toKept.trans (invoking_passed w₂ b (pathPrefix, .fs root)).toKept
    apply (sHandlerFs_outcome (hr.held.kept hinv) (ha.kept hinv) .smooth hpre.length_le
      root).mono
    · intro rc w' hrc
      obtain ⟨events', hcases, hrooted, -, hfinds, hopens⟩ := hrc
      have hfound : Calls.smooth.Finds root (loc.path.drop pathPrefix.length) :=
        ⟨⟨rfl, rfl, rfl, rfl, rfl⟩, hroot, path, hpath⟩
      have hdone := hfinds.2 hfound
      have hopened := hopens hfound path hpath.1
      obtain ⟨hpass, -⟩ | ⟨-, hended, hreplied⟩ := hcases
      · rw [hpass] at hdone
        cases hdone
      · refine ⟨hdone, [.opened (.conn w.accepted)] ++ events, events', w₂.req.url, w₂.req.cert,
          ?_, fun e he => ⟨hreplied.inner e he, hrooted e he⟩, hopened⟩
        rw [hended.log, hinv.log, hr.log]
        simp only [List.append_assoc]
    · exact fun _ _ hb => hpath.1.not_breaks hb.breaks
  · intro x hx hmatch
    obtain ⟨y, hy, rfl⟩ := List.mem_map.1 hx
    exact passes_of_not_blocks hmatch (hparsed y hy)
      fun hblocks => hopen ⟨y, hy, hmatch, hparsed y hy, hblocks⟩

theorem not_spares {before after : List (Nat × Entry)} {request : Conn}
    (hs : Holds s (before ++ (b, (rootPrefix, .fs root)) :: after))
    (hparsed : ∀ x ∈ before, x.2.2.Parsed) (hrequests : request.Requests loc)
    (hopen : ¬ Blocked verify loc request.cert before) (hroot : root.octets ≠ [])
    (hpath : Names (loc.path.drop 1) path) (hprotected : Protected guarded path) :
    ¬ ∀ conn w, conn.Requests loc → conn.cert = request.cert →
      Outcome (serveConn verify s conn) w (fun _ w' => Told (Spares b guarded) w w')
        fun _ w' => Told (Spares b guarded) w w' := by
  intro h
  obtain ⟨counted, w', hrun, front, events, url, cert, hlog, hcaused, hopened⟩ :=
    (serveConn_opens hs hparsed hrequests hopen (root_matches loc) hroot hpath .idle).returns
  obtain ⟨events', hlog', hspares⟩ := (h (request.eased _) .idle hrequests rfl).of_ok hrun
  have he := List.append_cancel_left (hlog'.symm.trans hlog)
  apply hspares path _ hprotected
  rw [he]
  exact mem_filesOpened.2 ⟨root, attributed_turn front hcaused hopened⟩

end Guarding

/-- When static files at the root spare what an earlier guard protects. -/
theorem serveConn_spares_iff {before after : List (Nat × Entry)} {request : Conn}
    (hs : Holds s (before ++ (b, (rootPrefix, .fs root)) :: after))
    (hguard : (a, (guarded, .authn store)) ∈ before) (hparsed : ∀ x ∈ before, x.2.2.Parsed)
    (hrequests : request.Requests loc) (hrefused : ¬ Admits verify store request.cert) :
    (∀ conn w, conn.Requests loc → conn.cert = request.cert →
      Outcome (serveConn verify s conn) w (fun _ w' => Told (Spares b guarded) w w')
        fun _ w' => Told (Spares b guarded) w w') ↔
      guarded.octets <+: loc.path ∨ Blocked verify loc request.cert before ∨
        root.octets = [] ∨ ∀ path, Names (loc.path.drop 1) path → ¬ Protected guarded path := by
  have hnodup := hs.queue.nodup
  have hb : ∀ x ∈ before, x.1 ≠ b := by
    intro x hx he
    rw [List.map_append, List.map_cons] at hnodup
    exact (List.nodup_append.1 hnodup).2.2 x.1 (List.mem_map_of_mem hx) b List.mem_cons_self he
  constructor
  · intro h
    by_contra hnot
    rw [not_or, not_or, not_or, not_forall] at hnot
    obtain ⟨-, hopen, hroot, path, hpath⟩ := hnot
    rw [Classical.not_imp, not_not] at hpath
    exact not_spares hs hparsed hrequests hopen hroot hpath.1 hpath.2 h
  · intro h conn w hconn hcert
    rw [← hcert] at h hrefused
    have hblocked (hx : Blocked verify loc conn.cert before) :
        Outcome (serveConn verify s conn) w (fun _ w' => Told (Spares b guarded) w w')
          fun _ w' => Told (Spares b guarded) w w' :=
      serveConn_spares hs hconn (fun x hx he => absurd he (hb x hx)) (.inl hx)
    obtain hmatch | hx | hfar := h
    · exact hblocked ⟨_, hguard, hmatch, trivial, hrefused⟩
    · exact hblocked hx
    · rw [← List.append_nil (before ++ _)] at hs
      apply serveConn_spares hs hconn _ (.inr rfl)
      intro x hx he root' path hroot' hne hpath
      have hmem : (b, (rootPrefix, Handler.fs root)) ∈
          before ++ (b, (rootPrefix, .fs root)) :: after :=
        List.mem_append_right _ List.mem_cons_self
      rw [List.inj_on_of_nodup_map hnodup hx hmem he] at hroot' hpath
      obtain rfl := Handler.fs.inj hroot'
      obtain hnone | hfar := hfar
      · exact absurd hnone hne
      · exact hfar path hpath

/-- The path `"//a"` passes the guard by and is the file that it protects. -/
theorem not_spared_doubled : ¬ ∀ conn w, conn.Requests (below privatePrefix) → conn.cert = none →
    Outcome (serveConn (fun _ _ => false) guardedServing conn) w
      (fun _ w' => Told (Spares 1 privatePrefix) w w')
      fun _ w' => Told (Spares 1 privatePrefix) w w' := by
  have hrequests : (visit privatePrefix []).Requests (below privatePrefix) :=
    visit_requests (by decide) (by decide) _
  have hopen : ¬ Blocked (fun _ _ => false) (below privatePrefix) none
      [(0, (privatePrefix, .authn []))] := by
    intro hblocked
    obtain ⟨x, hx, hmatch, -⟩ := hblocked
    rw [List.mem_singleton.1 hx] at hmatch
    exact absurd hmatch (by decide)
  have hcert : (visit privatePrefix []).cert = none := rfl
  rw [← hcert] at hopen ⊢
  exact not_spares (pair_holds _ _) (by simp [Handler.Parsed]) hrequests hopen (by decide)
    ⟨⟨privatePrefix, rfl, privatePrefix_resolves⟩, by decide⟩
    ⟨privateFile, privatePrefix_resolves, .inl rfl⟩

/-- The path `"/a"` does not pass it by. -/
theorem spared_plain : Outcome (serveConn (fun _ _ => false) guardedServing
    (visit privateFile [.smooth])) .idle (fun _ w' => Told (Spares 1 privatePrefix) .idle w')
      fun _ w' => Told (Spares 1 privatePrefix) .idle w' := by
  have hrequests : (visit privateFile [.smooth]).Requests (below privateFile) :=
    visit_requests (by decide) (by decide) _
  have hrefused : ¬ Admits (fun _ _ => false) [] (visit privateFile [.smooth]).cert := by
    intro hadmits
    obtain ⟨c, hc, -⟩ := hadmits
    cases hc
  exact (serveConn_spares_iff (pair_holds (privatePrefix, .authn []) _) List.mem_cons_self
    (by simp [Handler.Parsed]) hrequests hrefused).2 (.inl (by decide)) _ _ hrequests rfl

end Geminon
