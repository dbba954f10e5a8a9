import Geminon.Guards
import Geminon.Dots

namespace Geminon
open Memory Descriptors Process LinkedList
set_option autoImplicit true

/-- A path lies at or under a prefix, on the boundary of a segment. -/
def AtOrUnder (pathPrefix path : List UInt8) : Prop :=
  path = pathPrefix ∨ pathPrefix.getLast? = some slash ∧ pathPrefix <+: path ∨
    pathPrefix ++ [slash] <+: path

/-- A handler opens what the rest of a path resolves to, for paths at or under the prefix only. -/
def Maps (b : Nat) (pathPrefix root : CStr) (loc : Location) (events : List Event) : Prop :=
  ∀ root' path, (some b, .opened (.file root' path)) ∈ attributed none events →
    AtOrUnder pathPrefix.octets loc.path ∧ root' = root ∧
      Resolves (loc.path.drop pathPrefix.length) path

/-- Static files at a prefix, in whatever server they are, map the location to files. -/
def MapsFor (pathPrefix root : CStr) (loc : Location) : Prop :=
  ∀ (verify : X509Store → X509 → Bool) (s : Serving) (entries : List (Nat × Entry)) (b : Nat)
    (conn : Conn) (w : World), Holds s entries → (b, (pathPrefix, .fs root)) ∈ entries →
    conn.Requests loc → Outcome (serveConn verify s conn) w
      (fun _ w' => Told (Maps b pathPrefix root loc) w w')
      fun _ w' => Told (Maps b pathPrefix root loc) w w'

theorem mapsFor_of_under (h : pathPrefix.octets <+: loc.path → root.octets ≠ [] → ∀ path,
      Names (loc.path.drop pathPrefix.length) path → AtOrUnder pathPrefix.octets loc.path) :
    MapsFor pathPrefix root loc := by
  intro verify s entries b conn w hs hmem hrequests
  have hnodup := hs.queue.nodup
  rw [← List.append_nil entries] at hs
  apply serveConn_opensOnly hs hrequests _ (.inr rfl)
  intro x hx hb hpre root' path hroot hne hpath
  rw [List.inj_on_of_nodup_map hnodup hx hmem hb] at hpre hroot hpath
  obtain rfl := Handler.fs.inj hroot
  exact ⟨h hpre hne path hpath, rfl, hpath.1⟩

theorem not_mapsFor {request : Conn} (hrequests : request.Requests loc)
    (hpre : pathPrefix.octets <+: loc.path)
    (hroot : root.octets ≠ []) (hpath : Names (loc.path.drop pathPrefix.length) path)
    (hunder : ¬ AtOrUnder pathPrefix.octets loc.path) :
    ¬ MapsFor pathPrefix root loc := by
  intro h
  have hs : Holds (single (pathPrefix, .fs root)) ([] ++ (0, (pathPrefix, .fs root)) :: []) :=
    single_holds _
  have hopen : ¬ Blocked (fun _ _ => false) loc request.cert [] := by
    intro hblocked
    obtain ⟨x, hx, -⟩ := hblocked
    cases hx
  obtain ⟨counted, w', hrun, front, events, url, cert, hlog, hcaused, hopened⟩ :=
    (serveConn_opens hs (by simp) hrequests hopen hpre hroot hpath .idle).returns
  obtain ⟨events', hlog', hmaps⟩ :=
    (h _ _ _ 0 (request.eased _) .idle hs (by simp) hrequests).of_ok hrun
  have he := List.append_cancel_left (hlog'.symm.trans hlog)
  apply hunder
  apply (hmaps root path _).1
  rw [he]
  exact attributed_turn front hcaused hopened

theorem exists_names (h0 : 0 ∉ octets) :
    (∃ path, Names octets path) ↔ Fits octets ∧ ¬ TooLong octets ∧ ¬ Resolves octets nowhere := by
  obtain ⟨file, rfl⟩ : ∃ file : CStr, file.octets = octets := ⟨⟨octets, h0⟩, rfl⟩
  constructor
  · intro hnames
    obtain ⟨path, hpath, hne⟩ := hnames
    have hnowhere : ¬ Resolves file.octets nowhere := by
      intro hempty
      rw [hpath.unique hempty] at hne
      exact hne rfl
    obtain ⟨file', he, hres⟩ := hpath
    rw [CStr.ext he] at hres
    have hfits : Fits file.octets :=
      (fits_iff_not_overruns _).2 (not_overruns_of_ok hres)
    refine ⟨hfits, fun hlong => ?_, hnowhere⟩
    obtain ⟨r, hr, hcut⟩ := resolve_of_fits hfits
    rw [hres] at hr
    cases hr
    rw [if_pos hlong] at hcut
    cases hcut
  · intro h
    obtain ⟨hfits, hlong, hnowhere⟩ := h
    obtain ⟨r, hr, hcut⟩ := resolve_of_fits hfits
    rw [if_neg hlong, Option.map_eq_some_iff] at hcut
    obtain ⟨path, rfl, -⟩ := hcut
    refine ⟨path, ⟨file, rfl, hr⟩, fun hempty => hnowhere ⟨file, rfl, ?_⟩⟩
    rw [hr, CStr.ext (s := path) (t := nowhere) hempty]

/-- When static files at a prefix map a location that is requested. -/
theorem mapsFor_iff {request : Conn} (hrequests : request.Requests loc) (pathPrefix root : CStr) :
    MapsFor pathPrefix root loc ↔ ¬ pathPrefix.octets <+: loc.path ∨
      AtOrUnder pathPrefix.octets loc.path ∨ root.octets = [] ∨
      ¬ Fits (loc.path.drop pathPrefix.length) ∨ TooLong (loc.path.drop pathPrefix.length) ∨
      Resolves (loc.path.drop pathPrefix.length) nowhere := by
  have h0 : 0 ∉ loc.path.drop pathPrefix.length := by
    intro hmem
    apply hrequests.2.noNul
    rw [Location.text, List.mem_append, List.mem_append, List.mem_append]
    exact .inr (.inr (.inr (List.mem_of_mem_drop hmem)))
  have hnames := exists_names h0
  constructor
  · intro h
    by_contra hnot
    rw [not_or, not_or, not_or, not_or, not_or, not_not, not_not] at hnot
    obtain ⟨hpre, hunder, hroot, hrest⟩ := hnot
    obtain ⟨path, hpath⟩ := hnames.2 hrest
    exact not_mapsFor hrequests hpre hroot hpath hunder h
  · intro h
    apply mapsFor_of_under
    intro hpre hroot path hpath
    obtain ⟨hfits, hlong, hnowhere⟩ := hnames.1 ⟨path, hpath⟩
    obtain hnot | hunder | hempty | hnone := h
    · exact absurd hpre hnot
    · exact hunder
    · exact absurd hempty hroot
    · exact absurd hnone (not_or.2 ⟨not_not.2 hfits, not_or.2 ⟨hlong, hnowhere⟩⟩)

def joinedFile : CStr := ⟨[97, 98], by decide⟩

theorem mapsFor_iff_private :
    MapsFor privatePrefix rootPrefix (below privateFile) ↔
      ¬ privatePrefix.octets <+: (below privateFile).path ∨
        AtOrUnder privatePrefix.octets (below privateFile).path ∨ rootPrefix.octets = [] ∨
        ¬ Fits ((below privateFile).path.drop privatePrefix.length) ∨
        TooLong ((below privateFile).path.drop privatePrefix.length) ∨
        Resolves ((below privateFile).path.drop privatePrefix.length) nowhere :=
  mapsFor_iff (visit_requests (by decide) (by decide) []) privatePrefix rootPrefix

/-- Static files at `"/a"` open `"b"` for the path `"/ab"`. -/
theorem not_mapsFor_joined : ¬ MapsFor privatePrefix rootPrefix (below joinedFile) := by
  have hrequests : (visit joinedFile []).Requests (below joinedFile) :=
    visit_requests (by decide) (by decide) []
  have hunder : ¬ AtOrUnder privatePrefix.octets (below joinedFile).path := by
    unfold AtOrUnder
    decide
  exact not_mapsFor hrequests (by decide) (by decide)
    ⟨⟨otherFile, rfl, otherFile_resolves⟩, by decide⟩ hunder

end Geminon
