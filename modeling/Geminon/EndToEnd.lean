import Geminon.StaticSite
import Geminon.Gurl

namespace Geminon
open Memory Descriptors Process LinkedList
set_option autoImplicit true

/-- A fetch goes over connection `i` of a run of the server, and all of its calls succeed. -/
structure Carried (served : List Conn) (w : World) (url : CStr) (fetch : Fetch) (i : Nat)
    (conn : Conn) : Prop where
  usual : fetch.Usual url
  asks : fetch.Asks url
  whole : fetch.Whole
  accepted : served[i]? = some conn
  handshake : conn.handshake = true
  stream : ∀ s res s', geminiClientRequest fetch.dial url s = .ok (some res) s' →
    s'.sent = s.sent ++ conn.stream
  response : stock fetch.reads = (sentTo i w.log).flatten

/-- A URL that the server reads as the client wrote it. -/
structure Readable (url : CStr) (loc : Location) : Prop where
  text : url.octets = loc.text
  fits : url.length ≤ geminiMaxRequest - 3
  plain : ¬ crlf <:+: url.octets

theorem Carried.stream_eq (h : Carried served w url fetch i conn) :
    conn.stream = url.octets ++ crlf := by
  obtain ⟨res, s', hrun, hres⟩ := (geminiClientRequest_asks h.usual ⟨.empty, [], []⟩).returns
  cases res with
  | none => exact absurd h.asks hres.1
  | some res => exact (List.append_cancel_left ((h.stream _ res s' hrun).symm.trans hres.2.2))

theorem Carried.requests (h : Carried served w url fetch i conn) (hurl : Readable url loc) :
    conn.Requests loc := by
  refine ⟨h.handshake, ?_⟩
  rw [h.stream_eq, ← hurl.text]
  have hfits := hurl.fits
  have hmax : geminiMaxRequest = 8192 := rfl
  exact .of_plain url.noNul hurl.plain (by change url.length + 2 ≤ _; omega)

def Brings (p : CStr × Fetch) (octets : List UInt8) : Prop :=
  p.2.Asks p.1 ∧ p.2.Whole ∧ stock p.2.reads = octets

theorem Printed.all (h : Printed fetches out sent code)
    (hbrings : List.Forall₂ Brings fetches answers) : code = 0 ∧ out = answers.flatten := by
  induction h generalizing answers with
  | done =>
    cases hbrings
    exact ⟨rfl, rfl⟩
  | whole _ _ _ ih =>
    obtain _ | ⟨hbring, hbrings⟩ := hbrings
    obtain ⟨hcode, hout⟩ := ih hbrings
    exact ⟨hcode, by rw [hout, hbring.2.2, List.flatten_cons]⟩
  | broken _ hbroken _ =>
    obtain _ | ⟨hbring, -⟩ := hbrings
    exact absurd hbring.2.1 hbroken
  | refused hrefused =>
    obtain _ | ⟨hbring, -⟩ := hbrings
    exact absurd hbring.1 hrefused

theorem gurlLoop_all {fetches : List (CStr × Fetch)} {answers : List (List UInt8)}
    (h : List.Forall₂ (fun p octets => p.2.Usual p.1 ∧ Brings p octets) fetches answers)
    {g : Gurl} (hg : g.Prints) :
    Outcome (gurlLoop fetches) g (fun code g' => code = 0 ∧ g'.out = g.out ++ answers.flatten)
      fun _ _ => False := by
  obtain ⟨husual, hbrings⟩ := (List.forall₂_and_left _ _).1 h
  apply (gurlLoop_prints fetches husual hg).imp
  intro code g' hprints
  obtain ⟨out, sent, hprinted, hout, -⟩ := hprints
  obtain ⟨hcode, rfl⟩ := hprinted.all hbrings
  exact ⟨hcode, hout⟩

theorem Carried.brings (h : Carried served w url fetch i conn) :
    fetch.Usual url ∧ Brings (url, fetch) (sentTo i w.log).flatten :=
  ⟨h.usual, h.asks, h.whole, h.response⟩

theorem Carried.due (h : Carried served w url fetch i conn) (hurl : Readable url loc)
    (hmalloc : (conn.url (urlLen url)).isSome) (hdealt : AllDealt verify entries served w) :
    sentTo i w.log = (answer verify loc conn.cert entries conn.calls).take conn.writes.length := by
  obtain ⟨pieces, hdue, hsent⟩ := hdealt.due i conn h.accepted
  rw [hsent, hdue.unique (.asked url loc (h.requests hurl) hurl.text hmalloc)]

/-- URL after URL, `gurl` prints the answer of the handlers, as far as its connection carried it. -/
theorem gurl_answered (hs : Holds s entries) (verify : X509Store → X509 → Bool)
    (conns : List Conn) (hsteady : ∀ conn ∈ conns, ∀ k ∈ conn.writes, k.isSome)
    (hmanages : ∀ conn ∈ conns, ∀ loc, conn.Requests loc → ∀ e ∈ entries, Manages loc e.2)
    (fds : FdTable Desc) (req : GeminiRequest) (buf : Buf geminiMaxRequest) :
    ∃ r w' served, geminiServe verify s conns (.entering fds req buf) = .ok r w' ∧
      served <+: conns ∧ (r.1 = -1 → served = conns) ∧
      ∀ (fetches : List (CStr × Fetch)) (answers : List (List UInt8)) (g : Gurl), g.Prints →
        List.Forall₂ (fun p octets => ∃ i conn loc, Carried served w' p.1 p.2 i conn ∧
          Readable p.1 loc ∧ (conn.url (urlLen p.1)).isSome ∧
          octets = ((answer verify loc conn.cert (entries.map Prod.snd) conn.calls).take
            conn.writes.length).flatten) fetches answers →
        Outcome (gurlLoop fetches) g
          (fun code g' => code = 0 ∧ g'.out = g.out ++ answers.flatten) fun _ _ => False := by
  obtain ⟨r, w', hok, served, hpre, hall, hdealt⟩ :=
    (geminiServe_dealt hs verify conns hsteady hmanages fds req buf).returns
  refine ⟨r, w', served, hok, hpre, hall, ?_⟩
  intro fetches answers g hg hfetches
  refine gurlLoop_all (hfetches.imp ?_) hg
  intro p octets hp
  obtain ⟨i, conn, loc, hcarried, hurl, hmalloc, rfl⟩ := hp
  rw [← hcarried.due hurl hmalloc hdealt]
  exact hcarried.brings

def urlBelow (file : CStr) : CStr :=
  ⟨(below file).text, by
    have hscheme : 0 ∉ scheme ++ [104] := by decide
    have htext : (below file).text = scheme ++ [104] ++ slash :: file.octets := by
      simp [Location.text, below, Location.onDefaultPort, serviceText]
    rw [htext, List.mem_append, List.mem_cons]
    intro h
    obtain h | h | h := h
    · exact hscheme h
    · cases h
    · exact file.noNul h⟩

def Fetch.of (octets : List UInt8) : Fetch :=
  { Fetch.smooth [] with reads := (inOne octets).map some }

theorem Fetch.of_reads (octets : List UInt8) : Steady (Fetch.of octets).reads ∧
    failsAfter (Fetch.of octets).reads = false ∧ stock (Fetch.of octets).reads = octets := by
  cases octets with
  | nil => exact ⟨List.not_mem_nil, rfl, rfl⟩
  | cons c octets =>
    refine ⟨?_, rfl, List.append_nil _⟩
    intro h
    cases List.mem_singleton.1 h

theorem carried_caller {file : CStr} (hurl : Readable (urlBelow file) (below file))
    (hserved : served[i]? = some (caller file n calls)) (w : World) :
    Carried served w (urlBelow file) (.of (sentTo i w.log).flatten) i (caller file n calls) := by
  have hfits := hurl.fits
  have hmax : geminiMaxRequest = 8192 := rfl
  have hlen : (urlBelow file).length < 2 ^ 32 - 1 := by omega
  obtain ⟨hsteady, hwhole, hstock⟩ := Fetch.of_reads (sentTo i w.log).flatten
  have hparse : ∃ u, geminiParseUrl (fun len => some (blank len)) (urlBelow file) = .ok (some u) ∧
      u.Denotes (below file) := geminiParseUrl_text hlen rfl hurl.text
  obtain ⟨u, hu, -⟩ := hparse
  have hroute : ∃ info rp, some [(⟨true, true⟩ : Route)] = some info ∧ rp ∈ info ∧
      rp.socket = true ∧ rp.connect = true := ⟨_, _, rfl, List.mem_singleton_self _, rfl, rfl⟩
  refine ⟨⟨hlen, fun _ => rfl, ?_, hsteady⟩, ⟨⟨u, hu⟩, ⟨hroute, rfl, rfl⟩, rfl⟩, ⟨rfl, hwhole⟩,
    hserved, rfl, ?_, hstock⟩
  · intro hfd
    exact absurd (Option.some.inj hfd) (show (0 : Int) ≠ 1 by decide)
  · intro s res s' hrun
    exact (geminiClientRequest_sent _ (fun _ => rfl) (urlBelow file) s).of_ok hrun rfl

theorem streamed_bringing (h : 2 ≤ block) :
    streamed (.bringing [104, 105]) block = [[104, 105]] := by
  have hread : read [some [104, 105]] block = (some [104, 105], []) := if_pos h
  exact (chunks_more hread).trans (congrArg _ (chunks_end rfl (.inr rfl)))

theorem aProgram_answer : answer (fun _ _ => false) (below aProgram) none mixedEntries
    [.bringing [104, 105]] = [[104, 105]] := by
  have hstream : streamed (.bringing [104, 105]) 8192 = [[104, 105]] :=
    streamed_bringing (by decide)
  have hcgi : answer (fun _ _ => false) (below aProgram) none mixedEntries
      [.bringing [104, 105]] = streamed (.bringing [104, 105]) 8192 ++ [] := rfl
  rw [hcgi, hstream, List.append_nil]

theorem aFile_answer : answer (fun _ _ => false) (below aFile) none mixedEntries
    [.bringing [104, 105]] = [lineOf 20 (.ofString "text/plain"), [104, 105]] := by
  have hstream : streamed (.bringing [104, 105]) geminiStreamBlockSize = [[104, 105]] :=
    streamed_bringing (by decide)
  have hfs : answer (fun _ _ => false) (below aFile) none mixedEntries [.bringing [104, 105]] =
      lineOf 20 (.ofString "text/plain") :: streamed (.bringing [104, 105]) geminiStreamBlockSize :=
    rfl
  rw [hfs, hstream]

/-- A client fetches what a program writes, and a file. -/
theorem gurl_answered_mixed : ∃ r w' served,
    geminiServe (fun _ _ => false) mixed mixedConns .idle = .ok r w' ∧ served <+: mixedConns ∧
      (r.1 = -1 → served = mixedConns) ∧
      (r.1 = -1 → Outcome
        (gurlLoop [(urlBelow aProgram, .of (sentTo 0 w'.log).flatten),
          (urlBelow aFile, .of (sentTo 1 w'.log).flatten)]) .started
        (fun code g' => code = 0 ∧ g'.out = Gurl.started.out ++
          [[104, 105], lineOf 20 (.ofString "text/plain") ++ [104, 105]].flatten)
        fun _ _ => False) := by
  obtain ⟨r, w', served, hok, hpre, hall, hgurl⟩ :=
    gurl_answered (pair_holds (privatePrefix, .cgi rootPrefix) (rootPrefix, .fs rootPrefix))
      (fun _ _ => false) mixedConns mixedConns_steady
      (fun conn hconn loc hloc e he =>
        mixed_manages conn hconn loc hloc e.2 (List.mem_map_of_mem he)) .empty .zeroed (.zeroed _)
  refine ⟨r, w', served, hok, hpre, hall, fun hback => ?_⟩
  obtain rfl := hall hback
  have hprogram : Readable (urlBelow aProgram) (below aProgram) := ⟨rfl, by decide, by decide⟩
  have hfile : Readable (urlBelow aFile) (below aFile) := ⟨rfl, by decide, by decide⟩
  have hfirst : Carried mixedConns w' (urlBelow aProgram) (.of (sentTo 0 w'.log).flatten) 0
      (caller aProgram 3 [.bringing [104, 105]]) := carried_caller hprogram rfl w'
  have hsecond : Carried mixedConns w' (urlBelow aFile) (.of (sentTo 1 w'.log).flatten) 1
      (caller aFile 3 [.bringing [104, 105]]) := carried_caller hfile rfl w'
  have hprints : Gurl.started.Prints := ⟨rfl, List.forall_mem_singleton.2 rfl⟩
  -- with more unfolded, Lean would run the client to see what its outcome is
  with_reducible refine hgurl _ _ Gurl.started hprints ?_
  refine .cons ⟨0, _, below aProgram, hfirst, hprogram, rfl, ?_⟩
    (.cons ⟨1, _, below aFile, hsecond, hfile, rfl, ?_⟩ .nil)
  · exact (congrArg (fun pieces => (pieces.take 3).flatten) aProgram_answer).symm
  · exact (congrArg (fun pieces => (pieces.take 3).flatten) aFile_answer).symm

/-- URL after URL, `gurl` prints a success line and the file that the URL's path leads to. -/
theorem gurl_site (t : FileTree N) (hroot : t.file t.root = none)
    (hs : Holds s [(a, (pathPrefix, .fs root))]) (verify : X509Store → X509 → Bool)
    (conns : List Conn) (hsteady : ∀ conn ∈ conns, ∀ k ∈ conn.writes, k.isSome)
    (hfits : ∀ conn ∈ conns, ∀ loc, conn.Requests loc → pathPrefix.octets <+: loc.path →
      Fits (loc.path.drop pathPrefix.length))
    (fds : FdTable Desc) (req : GeminiRequest) (buf : Buf geminiMaxRequest) :
    ∃ r w' served, geminiServe verify s conns (.entering fds req buf) = .ok r w' ∧
      served <+: conns ∧ (r.1 = -1 → served = conns) ∧
      ∀ (fetches : List (CStr × Fetch)) (contents : List (List UInt8)) (g : Gurl), g.Prints →
        List.Forall₂ (fun p content => ∃ i conn loc file path node,
          Carried served w' p.1 p.2 i conn ∧ Readable p.1 loc ∧
          Leads t pathPrefix content loc file path node ∧ (∀ len, (conn.url len).isSome) ∧
          (conn.calls.headD .failing).On t root path.octets ∧ content.length < conn.writes.length)
          fetches contents →
        Outcome (gurlLoop fetches) g (fun code g' => code = 0 ∧ g'.out = g.out ++
          (contents.map fun content => lineOf 20 (.ofString "text/plain") ++ content).flatten)
          fun _ _ => False := by
  obtain ⟨r, w', hok, served, hpre, hall, hdealt⟩ :=
    (serveFiles_dealt hs verify conns hsteady hfits fds req buf).returns
  refine ⟨r, w', served, hok, hpre, hall, ?_⟩
  intro fetches contents g hg hfetches
  refine gurlLoop_all ?_ hg
  rw [List.forall₂_map_right_iff]
  refine hfetches.imp ?_
  intro p content hp
  obtain ⟨i, conn, loc, file, path, node, hcarried, hurl, hleads, hmalloc, hcalls, hlen⟩ := hp
  rw [← hdealt.holding hroot hcarried.accepted
    ⟨hleads, hcarried.requests hurl, hmalloc, hcalls⟩ hlen]
  exact hcarried.brings

/-- A client fetches the only file there is. -/
theorem gurl_site_lone : ∃ r w' served,
    geminiServe (fun _ _ => false) (single (rootPrefix, .fs rootPrefix))
      [caller aFile 3 [.bringing [104, 105]]] (.entering .empty .zeroed (.zeroed _)) = .ok r w' ∧
      served <+: [caller aFile 3 [.bringing [104, 105]]] ∧
      (r.1 = -1 → served = [caller aFile 3 [.bringing [104, 105]]]) ∧
      (served ≠ [] → Outcome (gurlLoop [(urlBelow aFile, .of (sentTo 0 w'.log).flatten)]) .started
        (fun code g' => code = 0 ∧
          g'.out = [] ++ (lineOf 20 (.ofString "text/plain") ++ [104, 105])) fun _ _ => False) := by
  obtain ⟨r, w', served, hok, hpre, hall, hgurl⟩ :=
    gurl_site (lone [104, 105]) rfl (single_holds (rootPrefix, .fs rootPrefix))
      (fun _ _ => false) [caller aFile 3 [.bringing [104, 105]]]
      (fun _ hconn => by
        rw [List.mem_singleton.1 hconn]
        exact caller_steady _ _ _)
      (caller_fits _ _) .empty .zeroed (.zeroed _)
  refine ⟨r, w', served, hok, hpre, hall, fun hne => ?_⟩
  have hserved := served_alone hpre hne
  have hurl : Readable (urlBelow aFile) (below aFile) := ⟨rfl, by decide, by decide⟩
  have hseeks : Seeks (lone [104, 105]) rootPrefix rootPrefix
      (caller aFile 3 [.bringing [104, 105]]) [104, 105] (below aFile) aFile aFile [[102]] :=
    seeks_lone (by decide) 3
  have hone := hgurl [(urlBelow aFile, .of (sentTo 0 w'.log).flatten)] [[104, 105]] .started
    ⟨rfl, List.forall_mem_singleton.2 rfl⟩
    (.cons ⟨0, _, below aFile, aFile, aFile, _, carried_caller hurl (hserved ▸ rfl) w', hurl,
      hseeks.toLeads, fun _ => rfl, hseeks.calls, by decide⟩ .nil)
  exact hone

end Geminon
