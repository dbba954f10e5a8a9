import Geminon.Exchange
import Geminon.Containment

namespace Geminon
open Memory Descriptors Process LinkedList
set_option autoImplicit true

section Reaching
variable {verify : X509Store → X509 → Bool} {E : Fault → World → Prop}

theorem serveConn_requests {Q : Bool → World → Prop} (hrequests : conn.Requests loc)
    (hbad : (∃ len, conn.url len = none) → ∀ w₁ w' sent, Accepted w w₁ →
      Ended w₁ w' (.responded w.accepted 50 :: (sent ++ [.closed (.conn w.accepted)])) →
      (∀ e ∈ sent, IsSent w.accepted e) → Q false w')
    (h : ∀ w₁, Accepted w w₁ → Asks w₁ loc → w₁.req.cert = conn.cert →
      w₁.calls = conn.calls →
      Outcome (dispatch (serveCore verify) s) w₁ (fun _ w' => Q true w') E) :
    Outcome (serveConn verify s conn) w Q E := by
  refine .bind (.bind (.get (.bind (.modifyGet (.modify (.bind (.modify ?_)))))))
  obtain ⟨hshake, hline⟩ := hrequests
  obtain ⟨r, buf, incoming, hread, hr⟩ := readRequest_eq w.buf conn.stream conn.cuts
  rw [requestLine_eq_some.2 hline, Option.map_eq_some_iff] at hr
  obtain ⟨line, rfl, hloc⟩ := hr
  have hlen : line.length < 2 ^ 32 - 1 := (hloc ▸ hline).countable
  unfold serveAccepted
  rw [hshake]
  refine .bind (.modify (.bind (.get ?_)))
  simp only [hread]
  apply Outcome.bind (.pure (.bind (.modify _)))
  dsimp only
  unfold serveLine
  refine .bind (.checked (fun url hparse => ?_)
    fun fault he => absurd he (geminiParseUrl_safe _ _ hlen fault))
  apply Outcome.bind (.modify _)
  cases url with
  | none =>
    have hnone : conn.url (urlLen line) = none := by
      cases hblock : conn.url (urlLen line) with
      | none => rfl
      | some block =>
        obtain ⟨url, hsome, _⟩ := geminiParseUrl_text hlen hblock hloc
        rw [hparse] at hsome
        cases hsome
    refine (respondAndClose_ended (Accepted.held ⟨rfl, rfl, rfl, rfl, rfl⟩) 50 _ _).sure.imp ?_
    intro _ w' hw'
    obtain ⟨rfl, sent, hw', hsent⟩ := hw'
    exact hbad ⟨_, hnone⟩ _ w' sent ⟨rfl, rfl, rfl, rfl, rfl⟩ hw' hsent
  | some url =>
    have hdenotes := denotes_of_geminiParseUrl hparse hloc
    apply Outcome.andThen (h _ ⟨rfl, rfl, rfl, rfl, rfl⟩ ⟨_, url, rfl, hdenotes⟩ rfl rfl)
    exact fun _ _ hQ => .pure hQ

theorem not_breaks (h : Fits octets) : ¬ Breaks octets := by
  intro hbreaks
  obtain ⟨file, rfl, malloc, fault, he⟩ := hbreaks
  exact (geminiFsResolve_faultless_iff file).2 h malloc fault he

/-- A handler that lets a request for a location pass when its calls fail. -/
def Passes (verify : X509Store → X509 → Bool) (loc : Location) (cert : Option X509)
    (e : Entry) : Prop :=
  ∀ w, Asks w loc → w.req.cert = cert →
    Outcome (runHandler verify .failing e.1 e.2) w
      (fun rc w' => rc = geminiHandlerContinue ∧ w' = w) fun _ _ => False

def candidates (loc : Location) (entries : List Entry) : List Entry :=
  entries.filter fun e => e.1.octets <+: loc.path

theorem candidates_cons_pos {e : Entry} (h : e.1.octets <+: loc.path) (entries : List Entry) :
    candidates loc (e :: entries) = e :: candidates loc entries :=
  List.filter_cons_of_pos (decide_eq_true h)

theorem candidates_cons_neg {e : Entry} (h : ¬ e.1.octets <+: loc.path) (entries : List Entry) :
    candidates loc (e :: entries) = candidates loc entries :=
  List.filter_cons_of_neg (ne_true_of_eq_false (decide_eq_false h))

theorem passing_turn {handler : GeminiHandler} (ha : Asks w loc)
    (hpre : handler.pathPrefix.octets <+: loc.path)
    (hpasses : Passes verify loc w.req.cert handler.entry)
    (hcalls : w.calls.headD .failing = .failing) (addr : Nat) :
    Outcome (dispatchTo (serveCore verify) addr handler) w (fun r w' => r = none ∧
      w' = w.invoking addr handler.entry) E := by
  apply serveCore_matched ha addr hpre
  rw [hcalls]
  have hkept := (invoking_passed w addr handler.entry).toKept
  apply (hpasses _ (ha.kept hkept) rfl).sure.imp
  intro _ w' hw'
  obtain ⟨rfl, rfl⟩ := hw'
  exact .pure ⟨rfl, rfl⟩

theorem dispatch_comes {Q : World → Prop} {before after : List (Nat × Entry)}
    (hs : Holds s (before ++ after)) (ha : Asks w loc)
    (hpass : ∀ x ∈ before.map Prod.snd, x.1.octets <+: loc.path →
      Passes verify loc w.req.cert x)
    (hcalls : w.calls = List.replicate (candidates loc (before.map Prod.snd)).length .failing ++
      calls)
    (hrest : ∀ back, back.map (fun n => (n.1, n.2.entry)) = after → ∀ w₁ events,
      Passed w w₁ events → Unseen events → w₁.calls = calls →
      Outcome (dispatchOver (serveCore verify) back) w₁ (fun _ w' => Q w') E) :
    Outcome (dispatch (serveCore verify) s) w (fun _ w' => Q w') E := by
  obtain ⟨nodes, hnodes, heq⟩ := hs.dispatch_eq (serveCore verify)
  rw [List.map_eq_append_iff] at hnodes
  obtain ⟨front, back, rfl, hfront, hback⟩ := hnodes
  have hentries : front.map (fun n => n.2.entry) = before.map Prod.snd := by
    rw [← hfront, List.map_map]
    rfl
  rw [← hentries] at hpass hcalls
  rw [heq]
  clear hs heq hfront hentries
  induction front generalizing w with
  | nil => exact hrest back hback w [] (.refl w) .nil hcalls
  | cons node front ih =>
    obtain ⟨addr, handler⟩ := node
    have hpass' := fun x hx => hpass x (List.mem_cons_of_mem _ hx)
    rw [List.cons_append]
    apply dispatchOver_cons
    by_cases hp : handler.pathPrefix.octets <+: loc.path
    · rw [List.map_cons, candidates_cons_pos hp, List.length_cons, List.replicate_succ,
        List.cons_append] at hcalls
      have hinv := invoking_passed w addr handler.entry
      apply (passing_turn ha hp (hpass _ List.mem_cons_self hp)
        (by rw [hcalls]; rfl) addr).imp
      intro _ w₁ hw₁
      obtain ⟨rfl, rfl⟩ := hw₁
      apply ih (ha.kept hinv.toKept)
      · intro back hback w₁ events hw₁ hunseen
        exact hrest back hback w₁ _ (hinv.trans hw₁) ((Unseen.singleton rfl).append hunseen)
      · change w.calls.tail = _
        rw [hcalls, List.tail_cons]
      · exact hpass'
    · rw [List.map_cons, candidates_cons_neg hp] at hcalls
      apply (serveCore_passed ha addr hp).sure.imp
      intro _ w₁ hw₁
      obtain ⟨rfl, rfl⟩ := hw₁
      exact ih ha hrest hcalls hpass'

/-- A dispatch comes to a matching handler whose predecessors all let the request pass. -/
theorem dispatch_reaches {Q : World → Prop} {before after : List (Nat × Entry)}
    (hs : Holds s (before ++ (addr, e) :: after)) (ha : Asks w loc)
    (hpass : ∀ x ∈ before.map Prod.snd, x.1.octets <+: loc.path →
      Passes verify loc w.req.cert x)
    (hcalls : w.calls = List.replicate (candidates loc (before.map Prod.snd)).length .failing ++
      [calls])
    (hpre : e.1.octets <+: loc.path)
    (hrun : ∀ w₁ events, Passed w w₁ events → Unseen events →
      Outcome (runHandler verify calls e.1 e.2) (w₁.invoking addr e)
        (fun rc w' => rc = geminiHandlerDone ∧ Q w') E) :
    Outcome (dispatch (serveCore verify) s) w (fun _ w' => Q w') E := by
  apply dispatch_comes hs ha hpass hcalls
  intro back hback w₁ events hw₁ hunseen hcalls₁
  rw [List.map_eq_cons_iff] at hback
  obtain ⟨⟨addr', node⟩, rest, rfl, hnode, -⟩ := hback
  obtain ⟨rfl, rfl⟩ := Prod.mk.inj hnode
  have hhead : w₁.calls.headD .failing = calls := by
    rw [hcalls₁]
    rfl
  apply dispatchOver_cons
  apply serveCore_matched (ha.kept hw₁.toKept) addr' hpre
  rw [hhead]
  apply (hrun w₁ events hw₁ hunseen).imp
  intro rc w' hrc
  rw [hrc.1]
  exact .pure ⟨rfl, hrc.2⟩

end Reaching

theorem root_matches (loc : Location) : rootPrefix.octets <+: loc.path := by
  obtain ⟨rest, hrest⟩ := List.head?_eq_some_iff.1 loc.rooted
  rw [hrest]
  exact List.prefix_append [slash] rest

def Conn.eased (conn : Conn) (calls : List Calls) : Conn :=
  { conn with url := fun len => some (blank len), calls }

theorem serveConn_eased {verify : X509Store → X509 → Bool} {conn : Conn} {Q : Bool → World → Prop}
    {E : Fault → World → Prop} (hrequests : conn.Requests loc) (calls : List Calls)
    (h : ∀ w₁, Accepted w w₁ → Asks w₁ loc → w₁.req.cert = conn.cert → w₁.calls = calls →
      Outcome (dispatch (serveCore verify) s) w₁ (fun _ w' => Q true w') E) :
    Outcome (serveConn verify s (conn.eased calls)) w Q E := by
  have hrequests' : (conn.eased calls).Requests loc := hrequests
  apply serveConn_requests hrequests' _ h
  intro hnone
  obtain ⟨len, hlen⟩ := hnone
  cases hlen

def single (e : Entry) : Serving := ⟨[⟨none, e.1, e.2⟩], ⟨0, 0, some 0, some 0⟩⟩

theorem single_holds (e : Entry) : Holds (single e) [(0, e)] where
  queue := ⟨⟨rfl, _, rfl, rfl⟩, rfl, List.nodup_singleton 0⟩
  nodes := by simp [single, GeminiHandler.entry]

def below (file : CStr) : Location := .onDefaultPort isHostName_h file.octets

theorem below_root (file : CStr) : rootPrefix.octets <+: (below file).path :=
  root_matches (below file)

/-- A connection without a certificate that asks for a file. -/
def visit (file : CStr) (calls : List Calls) : Conn where
  handshake := true
  cert := none
  stream := (below file).text ++ crlf
  cuts := []
  writes := []
  url := fun len => some (blank len)
  calls := calls

def caller (file : CStr) (writes : Nat) (calls : List Calls) : Conn :=
  { visit file calls with writes := List.replicate writes (some 0) }

theorem caller_steady (file : CStr) (writes : Nat) (calls : List Calls) :
    ∀ k ∈ (caller file writes calls).writes, k.isSome := by
  intro k hk
  rw [(List.mem_replicate.1 hk).2]
  rfl

theorem visit_requests {file : CStr} (h13 : 13 ∉ file.octets)
    (hlen : file.length ≤ geminiMaxRequest - 14) (calls : List Calls) :
    (visit file calls).Requests (below file) := by
  have hmax : geminiMaxRequest = 8192 := rfl
  have heq : file.octets.length = file.length := rfl
  have htext : (below file).text = scheme ++ [104, slash] ++ file.octets := by
    simp [Location.text, below, Location.onDefaultPort, serviceText]
  refine ⟨rfl, .of_plain ?_ ?_ ?_⟩
  · rw [htext, List.mem_append]
    exact fun hm => hm.elim (by decide) file.noNul
  · intro hcr
    have hmem : 13 ∈ (below file).text := hcr.subset (by decide)
    rw [htext, List.mem_append] at hmem
    exact hmem.elim (by decide) h13
  · rw [htext]
    simp [scheme]
    omega

/-- Every call succeeds, on an empty regular file. -/
def Calls.smooth : Calls where
  root := true
  resolve := true
  openat := true
  fstat := true
  regular := true
  block := some fun _ => 0
  reads := []
  path := some fun _ => 0
  argv := true
  envp := true
  pipe := true
  fork := true
  rc := geminiHandlerContinue

/-- Every call succeeds, and one read brings all there is. -/
def Calls.bringing (content : List UInt8) : Calls :=
  { Calls.smooth with reads := [some content] }

theorem nowhere_requests (calls : List Calls) : (visit nowhere calls).Requests (below nowhere) :=
  visit_requests (by decide) (by decide) calls

theorem fits_of_resolves {file : CStr} (h : geminiFsResolve true file = .ok r) :
    Fits file.octets := by
  refine (geminiFsResolve_faultless_iff file).1 fun malloc fault he => ?_
  rw [resolve_of_fault he, h] at he
  cases he

def World.idle : World := .entering .empty .zeroed (.zeroed _)

theorem single_reaches {verify : X509Store → X509 → Bool} {e : Entry} {file : CStr}
    {Q : World → Prop} {E : Fault → World → Prop}
    (hrequests : (visit file [calls]).Requests (below file))
    (hpre : e.1.octets <+: (below file).path)
    (hQ : ∀ w req, Q w → Q { w with req := req })
    (hrun : ∀ w₁ fd, history 0 w₁.log = [.opened (.conn 0)] → Held 0 w₁ fd →
      Asks w₁ (below file) → Outcome (runHandler verify calls e.1 e.2) (w₁.invoking 0 e)
        (fun rc w' => rc = geminiHandlerDone ∧ Q w') E) :
    Outcome (geminiServe verify (single e) [visit file [calls]]) .idle
      (fun r w' => r.1 = -1 ∧ Q w') E := by
  apply Outcome.bind (.modify _)
  unfold geminiServeLoop
  refine .andThen (serveConn_requests (Q := fun counted w' => counted = true ∧ Q w')
    hrequests (fun ⟨_, hnone⟩ => by cases hnone) fun w₁ hr ha _ hcalls => ?_) ?_
  · have hholds : Holds (single e) ([] ++ (0, e) :: []) := single_holds e
    refine (dispatch_reaches hholds ha (by simp) hcalls hpre ?_).imp fun _ _ hq => ⟨rfl, hq⟩
    intro w₂ events hw₂ hunseen
    refine hrun w₂ _ ?_ (hr.held.kept hw₂.toKept) (ha.kept hw₂.toKept)
    rw [hw₂.log, hr.log, history_append, hunseen.history, List.append_nil]
    rfl
  · intro _ w₂ hw₂
    obtain ⟨rfl, hq⟩ := hw₂
    exact .bind (.modify (.pure ⟨rfl, hQ w₂ _ hq⟩))

def pair (e e' : Entry) : Serving :=
  ⟨[⟨some 1, e.1, e.2⟩, ⟨none, e'.1, e'.2⟩], ⟨0, 0, some 0, some 1⟩⟩

theorem pair_holds (e e' : Entry) : Holds (pair e e') ([(0, e)] ++ [(1, e')]) where
  queue := ⟨⟨rfl, _, rfl, rfl, _, rfl, rfl⟩, rfl, by simp⟩
  nodes := by simp [pair, GeminiHandler.entry]

/-- `"/a"` -/
def privatePrefix : CStr := ⟨[slash, 97], by decide⟩

def privateFile : CStr := ⟨[97], by decide⟩

theorem privatePrefix_resolves : geminiFsResolve true privatePrefix = .ok (some privateFile) :=
  resolves_of_tokens rfl

theorem privateFile_resolves : geminiFsResolve true privateFile = .ok (some privateFile) :=
  resolves_of_tokens rfl

/-- Static files behind a guard of `"/a"`. -/
def guardedServing : Serving :=
  pair (privatePrefix, .authn []) (rootPrefix, .fs rootPrefix)

def otherFile : CStr := ⟨[98], by decide⟩

theorem otherFile_resolves : geminiFsResolve true otherFile = .ok (some otherFile) :=
  resolves_of_tokens rfl

def aFile : CStr := ⟨[102], by decide⟩

theorem aFile_resolves : geminiFsResolve true aFile = .ok (some aFile) :=
  resolves_of_tokens (by decide)

end Geminon
