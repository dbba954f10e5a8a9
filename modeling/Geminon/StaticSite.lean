import Geminon.Site
import Geminon.Meaning

namespace Geminon
open Memory Descriptors Process LinkedList Walks
set_option autoImplicit true

/-- Directories and what regular files hold. -/
structure FileTree (N : Type) extends Hierarchy (List UInt8) N where
  file : N → Option (List UInt8)

/-- The calls made for a static file tell what a tree does, and nothing else goes wrong. -/
structure Calls.On (calls : Calls) (t : FileTree N) (dir : CStr) (path : List UInt8) : Prop where
  root : found calls.root dir = true
  resolve : calls.resolve
  fstat : calls.fstat
  block : calls.block.isSome
  openat : calls.openat ↔ path ≠ [] ∧ (t.descend (places path)).isSome
  regular : ∀ node, t.descend (places path) = some node →
    (calls.regular ↔ (t.file node).isSome)
  reads : ∀ node content, t.descend (places path) = some node → t.file node = some content →
    ahead calls.reads = content ∧ failsAfter calls.reads = false

theorem chunks_length (hblock : 0 < block) (reads : List (Option (List UInt8))) :
    (chunks block reads).length ≤ (ahead reads).length := by
  rw [← chunks_flatten hblock reads]
  induction hk : pendingReads reads using Nat.strong_induction_on generalizing reads with
  | _ k ih =>
    cases hread : read reads block with
    | mk piece reads' =>
      cases piece with
      | none => rw [chunks_end hread (.inl rfl)]; exact Nat.le_refl _
      | some piece =>
        cases piece with
        | nil => rw [chunks_end hread (.inr rfl)]; exact Nat.le_refl _
        | cons c piece =>
          have hless : pendingReads reads' < k := hk ▸ read_pending hread (List.cons_ne_nil _ _)
          have hle := ih _ hless reads' rfl
          rw [chunks_more hread, List.flatten_cons, List.length_append, List.length_cons,
            List.length_cons]
          omega

theorem Calls.On.opens_iff {calls : Calls} {t : FileTree N} {dir : CStr} {path : List UInt8}
    (h : calls.On t dir path) (hnode : t.descend (places path) = some node)
    (hresolved : resolvedTo file = some path) :
    calls.opens dir file ↔ path ≠ [] ∧ (t.file node).isSome := by
  have hopenat := h.openat
  rw [hnode] at hopenat
  simp only [Calls.opens, h.root, h.resolve, h.fstat, Bool.and_eq_true, hopenat,
    h.regular node hnode, hresolved, Option.any_some, bne_iff_ne]
  simp only [Option.isSome_some, and_true, true_and]
  exact ⟨fun hall => hall.1, fun hall => ⟨hall, hall.1⟩⟩

/-- Static files answer with the file that a path leads to when it is followed step by step. -/
theorem fsAnswer_of_walk {calls : Calls} (t : FileTree N) (hroot : t.file t.root = none)
    {dir file r : CStr}
    (hwhole : Whole file) (hdot : [dot] ∉ segments file.octets)
    (hr : geminiFsResolve true file = .ok (some r)) (hcalls : calls.On t dir r.octets)
    (hwalk : t.walk t.root (moves file.octets) = some node) :
    match t.file node with
    | none => fsAnswer calls dir file.octets = none
    | some content => ∃ pieces, fsAnswer calls dir file.octets =
        some (lineOf 20 (.ofString "text/plain") :: pieces) ∧ pieces.flatten = content ∧
          pieces.length ≤ content.length := by
  obtain ⟨hc, hoct⟩ := resolved_names hwhole hdot hr
  have hnode : t.descend (places r.octets) = some node := by
    rw [hoct, places_of_components hc]
    exact t.descend_reduced rfl hwalk
  have hresolved : resolvedTo file.octets = some r.octets := by
    obtain ⟨r', hr', hoct⟩ := resolvedTo_eq (fits_of_whole hwhole).1
    rw [hr] at hr'
    cases hr'
    rw [← hoct]
    rfl
  have hopens := hcalls.opens_iff hnode hresolved
  cases hfile : t.file node with
  | none =>
    rw [hfile] at hopens
    refine if_neg fun hall => ?_
    exact Bool.false_ne_true (hopens.1 hall).2
  | some content =>
    have hne : r.octets ≠ [] := by
      intro hnil
      rw [hnil, places, if_pos rfl] at hnode
      have he : t.root = node := Option.some.inj hnode
      rw [← he, hroot] at hfile
      cases hfile
    have hall : calls.opens dir file.octets := hopens.2 ⟨hne, by rw [hfile]; rfl⟩
    obtain ⟨hahead, _⟩ := hcalls.reads node content hnode hfile
    have hblock : 0 < geminiStreamBlockSize := by decide
    obtain ⟨mem, hmem⟩ := Option.isSome_iff_exists.1 hcalls.block
    have hstreamed : streamed calls geminiStreamBlockSize =
        chunks geminiStreamBlockSize calls.reads := by
      rw [streamed, hmem]
    refine ⟨_, (if_pos hall).trans (congrArg (fun l => some (_ :: l)) hstreamed), ?_, ?_⟩
    · rw [chunks_flatten hblock, hahead]
    · rw [← hahead]
      exact chunks_length hblock calls.reads

/-- A location is that of a file below a prefix: its path, followed step by step, leads there. -/
structure Leads (t : FileTree N) (pathPrefix : CStr) (content : List UInt8) (loc : Location)
    (file r : CStr) (node : N) : Prop where
  matched : pathPrefix.octets <+: loc.path
  file_eq : file.octets = loc.path.drop pathPrefix.length
  whole : Whole file
  plain : [dot] ∉ segments file.octets
  resolves : geminiFsResolve true file = .ok (some r)
  leads : t.walk t.root (moves file.octets) = some node
  holds : t.file node = some content

/-- A connection asks a static-files handler for a file of a tree. -/
structure Seeks (t : FileTree N) (pathPrefix dir : CStr) (conn : Conn) (content : List UInt8)
    (loc : Location) (file r : CStr) (node : N) : Prop
    extends Leads t pathPrefix content loc file r node where
  requests : conn.Requests loc
  url : ∀ len, (conn.url len).isSome
  calls : (conn.calls.headD .failing).On t dir r.octets

theorem Seeks.due {t : FileTree N} (hroot : t.file t.root = none)
    (h : Seeks t pathPrefix root conn content loc file r node)
    (hdue : Due verify [(pathPrefix, .fs root)] conn pieces) :
    ∃ rest, pieces = lineOf 20 (.ofString "text/plain") :: rest ∧ rest.flatten = content ∧
      rest.length ≤ content.length := by
  have hanswer := fsAnswer_of_walk t hroot h.whole h.plain h.resolves h.calls h.leads
  rw [h.holds] at hanswer
  obtain ⟨rest, hfs, hrest⟩ := hanswer
  let line : CStr := ⟨loc.text, h.requests.2.noNul⟩
  have hasked : Due verify [(pathPrefix, .fs root)] conn
      (answer verify loc conn.cert [(pathPrefix, .fs root)] conn.calls) :=
    .asked line loc h.requests rfl (h.url _)
  refine ⟨rest, ?_, hrest⟩
  rw [hdue.unique hasked, answer, if_pos h.matched, answerOf, ← h.file_eq, hfs]

theorem serveFiles_dealt (hs : Holds s [(a, (pathPrefix, .fs root))])
    (verify : X509Store → X509 → Bool) (conns : List Conn)
    (hsteady : ∀ conn ∈ conns, ∀ k ∈ conn.writes, k.isSome)
    (hfits : ∀ conn ∈ conns, ∀ loc, conn.Requests loc → pathPrefix.octets <+: loc.path →
      Fits (loc.path.drop pathPrefix.length))
    (fds : FdTable Desc) (req : GeminiRequest) (buf : Buf geminiMaxRequest) :
    Outcome (geminiServe verify s conns) (.entering fds req buf)
      (fun r w' => ∃ served, served <+: conns ∧ (r.1 = -1 → served = conns) ∧
        AllDealt verify [(pathPrefix, .fs root)] served w') fun _ _ => False := by
  have hmanages : ∀ conn ∈ conns, ∀ loc, conn.Requests loc →
      ∀ e ∈ [(a, (pathPrefix, Handler.fs root))], Manages loc e.2 := by
    intro conn hconn loc hloc e he
    rw [List.mem_singleton.1 he]
    exact hfits conn hconn loc hloc
  exact geminiServe_dealt hs verify conns hsteady hmanages fds req buf

theorem AllDealt.holding {t : FileTree N} (hroot : t.file t.root = none)
    (h : AllDealt verify [(pathPrefix, .fs root)] served w) (hi : served[i]? = some conn)
    (hseeks : Seeks t pathPrefix root conn content loc file r node)
    (hlen : content.length < conn.writes.length) :
    (sentTo i w.log).flatten = lineOf 20 (.ofString "text/plain") ++ content := by
  obtain ⟨pieces, hdue, hsent⟩ := h.due i conn hi
  obtain ⟨rest, rfl, rfl, hle⟩ := hseeks.due hroot hdue
  rw [hsent, List.take_of_length_le (by rw [List.length_cons]; omega), List.flatten_cons]

/-- In every run each client that asks for a file of the tree gets it, if its connection lasts. -/
theorem geminiServe_site (t : FileTree N) (hroot : t.file t.root = none)
    (hs : Holds s [(a, (pathPrefix, .fs root))]) (verify : X509Store → X509 → Bool)
    (conns : List Conn) (hsteady : ∀ conn ∈ conns, ∀ k ∈ conn.writes, k.isSome)
    (hfits : ∀ conn ∈ conns, ∀ loc, conn.Requests loc → pathPrefix.octets <+: loc.path →
      Fits (loc.path.drop pathPrefix.length))
    (fds : FdTable Desc) (req : GeminiRequest) (buf : Buf geminiMaxRequest) :
    ∃ r w' served, geminiServe verify s conns (.entering fds req buf) = .ok r w' ∧
      served <+: conns ∧ (r.1 = -1 → served = conns) ∧
      ∀ i conn content loc file path node, served[i]? = some conn →
        Seeks t pathPrefix root conn content loc file path node →
        content.length < conn.writes.length →
        (sentTo i w'.log).flatten = lineOf 20 (.ofString "text/plain") ++ content := by
  obtain ⟨r, w', hok, served, hpre, hall, hdealt⟩ :=
    (serveFiles_dealt hs verify conns hsteady hfits fds req buf).returns
  refine ⟨r, w', served, hok, hpre, hall, ?_⟩
  intro i conn content loc file path node hi hseeks hlen
  exact hdealt.holding hroot hi hseeks hlen

/-- A tree with one file, `f`. -/
def lone (content : List UInt8) : FileTree (List (List UInt8)) where
  toHierarchy := .full _
  file names := if names = [[102]] then some content else none

theorem aFile_whole : Whole aFile :=
  whole_of_fits ((fits_iff_not_overruns _).2 (not_overruns_of_ok aFile_resolves))
    (.inr (by decide))

theorem bringing_on {content : List UInt8} (hne : content ≠ []) :
    (Calls.bringing content).On (lone content) rootPrefix aFile.octets where
  root := rfl
  resolve := rfl
  fstat := rfl
  block := rfl
  openat := iff_of_true rfl ⟨by decide, rfl⟩
  regular node hnode := by
    cases hnode
    exact iff_of_true rfl rfl
  reads node content' hnode hfile := by
    cases hnode
    cases hfile
    refine ⟨?_, ?_⟩
    · rw [Calls.bringing, ahead_cons hne]
      exact List.append_nil _
    · rw [Calls.bringing, failsAfter_cons hne]
      rfl

theorem seeks_lone {content : List UInt8} (hne : content ≠ []) (writes : Nat) :
    Seeks (lone content) rootPrefix rootPrefix (caller aFile writes [.bringing content]) content
      (below aFile) aFile aFile [[102]] where
  requests := visit_requests (by decide) (by decide) []
  url _ := rfl
  matched := below_root aFile
  file_eq := rfl
  whole := aFile_whole
  plain := by decide
  resolves := aFile_resolves
  calls := bringing_on hne
  leads := by
    have hwalk : (Hierarchy.full (List UInt8)).walk [] (moves aFile.octets) = some [[102]] := by
      decide
    exact hwalk
  holds := rfl

theorem caller_fits (writes : Nat) (calls : List Calls) :
    ∀ conn ∈ [caller aFile writes calls], ∀ loc, conn.Requests loc →
      rootPrefix.octets <+: loc.path → Fits (loc.path.drop rootPrefix.length) := by
  intro conn hconn loc hloc _
  rw [List.mem_singleton.1 hconn] at hloc
  have hvisit : (visit aFile []).Requests (below aFile) :=
    visit_requests (by decide) (by decide) []
  have hpath : loc.path = (below aFile).path := hloc.eq_path hvisit
  rw [hpath]
  exact (fits_of_whole aFile_whole).1

theorem served_alone {conn : Conn} (hpre : served <+: [conn]) (hne : served ≠ []) :
    served = [conn] := by
  cases served with
  | nil => exact absurd rfl hne
  | cons conn' served =>
    obtain ⟨rest, he⟩ := hpre
    obtain ⟨rfl, hrest⟩ := List.cons.inj he
    rw [(List.append_eq_nil_iff.1 hrest).1]

/-- A run over one connection that asks for the only file there is. -/
theorem geminiServe_site_lone : ∃ r w' served,
    geminiServe (fun _ _ => false) (single (rootPrefix, .fs rootPrefix))
      [caller aFile 3 [.bringing [104, 105]]] (.entering .empty .zeroed (.zeroed _)) = .ok r w' ∧
      served <+: [caller aFile 3 [.bringing [104, 105]]] ∧
      (r.1 = -1 → served = [caller aFile 3 [.bringing [104, 105]]]) ∧
      (served ≠ [] → (sentTo 0 w'.log).flatten =
        lineOf 20 (.ofString "text/plain") ++ [104, 105]) := by
  obtain ⟨r, w', served, hok, hpre, hall, hsite⟩ :=
    geminiServe_site (lone [104, 105]) rfl (single_holds (rootPrefix, .fs rootPrefix))
      (fun _ _ => false) [caller aFile 3 [.bringing [104, 105]]]
      (fun _ hconn => by
        rw [List.mem_singleton.1 hconn]
        exact caller_steady _ _ _)
      (caller_fits _ _) .empty .zeroed (.zeroed _)
  refine ⟨r, w', served, hok, hpre, hall, fun hne => ?_⟩
  obtain rfl := served_alone hpre hne
  exact hsite 0 _ [104, 105] (below aFile) aFile aFile [[102]] rfl (seeks_lone (by decide) 3)
    (by decide)

end Geminon
