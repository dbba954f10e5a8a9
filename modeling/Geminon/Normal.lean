import Geminon.Containment

namespace Geminon
open Memory Separated
set_option autoImplicit true

/-- A token stream that reports names and ways up until it ends, well or badly. -/
inductive Terminated : List Token → Prop where
  | done : Terminated [.done]
  | err : Terminated [.err]
  | dir (name : List UInt8) : Terminated toks → Terminated (.dir name :: toks)
  | up : Terminated toks → Terminated (.up :: toks)

theorem tokens_terminated (dots : Nat) (segs : List (List UInt8)) :
    Terminated (tokens dots segs) := by
  induction segs generalizing dots with
  | nil => exact .done
  | cons seg segs ih =>
    rw [tokens]
    split
    · exact .err
    split
    · exact ih dots
    split
    · exact ih (dots + 1)
    split
    · exact (ih 0).up
    · exact (ih 0).dir _

theorem not_overruns_dir (h : ¬ Overruns names (.dir name :: toks)) :
    ¬ Overfull names ∧ ¬ Overruns (names ++ [name]) toks := by
  rw [overruns_cons (by simp) (by simp), not_or] at h
  exact ⟨fun hfull => h.1 ⟨name, rfl, hfull⟩, h.2⟩

theorem not_overruns_up (h : ¬ Overruns names (.up :: toks)) :
    ¬ Overruns names.dropLast toks := by
  rw [overruns_cons (by simp) (by simp), not_or] at h
  exact h.2

theorem Terminated.resolveTokens_eq (h : Terminated toks) (hover : ¬ Overruns names toks) :
    resolveTokens names toks = .ok (if .err ∈ toks then none
      else some ((joined slash (standing names toks)).take (geminiMaxPath - 1))) := by
  induction h generalizing names with
  | done => rfl
  | err => rfl
  | @dir toks name h ih =>
    obtain ⟨hfull, hrest⟩ := not_overruns_dir hover
    rw [resolveTokens, if_neg hfull, ih hrest]
    simp [standing]
  | up h ih =>
    rw [resolveTokens, ih (not_overruns_up hover)]
    simp [standing]

theorem Terminated.standing_proper (h : Terminated toks) (hnames : Proper names)
    (hc : ∀ name, .dir name ∈ toks → Component name) (hover : ¬ Overruns names toks) :
    Proper (standing names toks) := by
  induction h generalizing names with
  | done => exact hnames
  | err => exact hnames
  | @dir toks name h ih =>
    obtain ⟨hfull, hrest⟩ := not_overruns_dir hover
    exact ih (hnames.concat (hc name List.mem_cons_self) hfull)
      (fun name hm => hc name (List.mem_cons_of_mem _ hm)) hrest
  | up h ih =>
    exact ih hnames.dropLast (fun name hm => hc name (List.mem_cons_of_mem _ hm))
      (not_overruns_up hover)

theorem mem_standing (h : name ∈ standing names toks) : name ∈ names ∨ .dir name ∈ toks := by
  induction toks generalizing names with
  | nil => exact .inl h
  | cons tok toks ih =>
    have hrest {names' : List (List UInt8)} (hmem : name ∈ standing names' toks) :
        name ∈ names' ∨ .dir name ∈ tok :: toks :=
      (ih hmem).imp_right (List.mem_cons_of_mem tok)
    cases tok with
    | dir name' =>
      cases hrest h with
      | inl hm =>
        rw [List.mem_append, List.mem_singleton] at hm
        cases hm with
        | inl hnames => exact .inl hnames
        | inr he => exact .inr (by rw [he]; exact List.mem_cons_self)
      | inr htoks => exact .inr htoks
    | up => exact (hrest h).imp_left (List.dropLast_subset names ·)
    | done => exact hrest h
    | err => exact hrest h

theorem resolve_of_tokens {file : CStr} {l : List UInt8}
    (h : resolveTokens [] (tokens 0 (segments file.octets)) = .ok (some l)) :
    ∃ r, geminiFsResolve true file = .ok (some r) ∧ r.octets = l := by
  rw [← geminiFsResolve_eq] at h
  cases hr : geminiFsResolve true file with
  | error fault => rw [hr] at h; cases h
  | ok resolved =>
    rw [hr] at h
    cases resolved with
    | none => cases h
    | some r => cases h; exact ⟨r, rfl, rfl⟩

/-- A segment read as an instruction to a stack of names. -/
def settle (names : List (List UInt8)) (seg : List UInt8) : List (List UInt8) :=
  if seg = [] then names else if seg = [dot, dot] then names.dropLast else names ++ [seg]

/-- As long as all names fit together, the code does what the stack of names does. -/
theorem resolveTokens_settled {segs : List (List UInt8)} (hdot : [dot] ∉ segs)
    (hwidth : width names + width segs ≤ geminiMaxPath) :
    resolveTokens names (tokens 0 segs) = .ok (some (joined slash (segs.foldl settle names))) := by
  induction segs generalizing names with
  | nil =>
    have hshort : (joined slash names).length ≤ geminiMaxPath - 1 := by
      by_cases hne : names = []
      · rw [hne, joined_nil]
        exact Nat.zero_le _
      · have hlen : (joined slash names).length + 1 = width names := joined_length hne
        rw [width_nil] at hwidth
        omega
    rw [tokens, resolveTokens, List.take_of_length_le hshort, List.foldl_nil]
  | cons seg segs ih =>
    rw [List.mem_cons, not_or] at hdot
    rw [width_cons] at hwidth
    rw [List.foldl_cons, settle]
    by_cases hnil : seg = []
    · rw [if_pos hnil, hnil, tokens_empty (Nat.zero_le _)]
      exact ih hdot.2 (by omega)
    rw [if_neg hnil]
    by_cases hup : seg = [dot, dot]
    · have hle := width_dropLast_le names
      rw [if_pos hup, hup, tokens_up (by decide), resolveTokens]
      exact ih hdot.2 (by omega)
    · have hname : IsName seg := ⟨hnil, Ne.symm hdot.1, hup⟩
      have hpos := List.length_pos_of_ne_nil hnil
      have hfull : ¬ Overfull names := by
        intro hfull
        have hlen : (joined slash names).length + 1 = width names := joined_length hfull.1
        have hge := hfull.2
        omega
      rw [if_neg hup, tokens_name (by omega) hname, List.replicate_zero, List.nil_append,
        resolveTokens, if_neg hfull]
      exact ih hdot.2 (by rw [width_append, width_cons, width_nil]; omega)

/-- A path that is not too long, without a segment `.`, resolves to the names on the stack. -/
theorem geminiFsResolve_settled (file : CStr) (hlen : file.length ≤ geminiMaxPath - 1)
    (hdot : [dot] ∉ segments file.octets) :
    ∃ r, geminiFsResolve true file = .ok (some r) ∧
      r.octets = joined slash ((segments file.octets).foldl settle []) := by
  apply resolve_of_tokens
  apply resolveTokens_settled hdot
  have hmax : geminiMaxPath = 2048 := rfl
  have hs : file.octets.length = file.length := rfl
  rw [width_nil, segments, width_splitOn]
  omega

/-- The path `a/../...`. -/
def upAndOn : CStr := ⟨[97, slash, dot, dot, slash, dot, dot, dot], by decide⟩

theorem geminiFsResolve_settled_upAndOn :
    ∃ r, geminiFsResolve true upAndOn = .ok (some r) ∧
      r.octets = joined slash ((segments upAndOn.octets).foldl settle []) :=
  geminiFsResolve_settled upAndOn (by decide) (by decide)

/-- The components that calls of `s_parse_path`, one after the other, report from `p` on. -/
inductive ReportedDir : Parser → List UInt8 → Prop where
  | here : sParsePath p = .ok (.dir, p') → ReportedDir p p'.buf.str
  | later : sParsePath p = .ok (r, p') → r = .dir ∨ r = .up → ReportedDir p' name →
      ReportedDir p name

theorem dir_of_reported (h0 : 0 ∉ p.src) (h : ReportedDir p name) :
    .dir name ∈ tokens 0 (segments p.src) := by
  induction h with
  | @here p p' he =>
    obtain ⟨r, p'', hr, hreports⟩ := sParsePath_reports p h0
    rw [he] at hr
    cases hr
    obtain ⟨name, hb, htoks⟩ := hreports
    rw [htoks, hb.str_eq]
    exact List.mem_cons_self
  | @later p r p' name he hr _ ih =>
    have hrest := ih fun hm => h0 ((sParsePath_suffix he).subset hm)
    obtain ⟨r', p'', hr', hreports⟩ := sParsePath_reports p h0
    rw [he] at hr'
    cases hr'
    cases hr with
    | inl hdir =>
      subst r
      obtain ⟨name', _, htoks⟩ := hreports
      rw [htoks]
      exact List.mem_cons_of_mem _ hrest
    | inr hup =>
      subst r
      rw [Reports] at hreports
      rw [hreports]
      exact List.mem_cons_of_mem _ hrest

theorem reported_of_dir (h0 : 0 ∉ p.src) (h : .dir name ∈ tokens 0 (segments p.src)) :
    ReportedDir p name := by
  induction hn : p.src.length using Nat.strong_induction_on generalizing p with
  | _ n ih =>
    obtain ⟨r, p', he, hreports⟩ := sParsePath_reports p h0
    have h0' : 0 ∉ p'.src := fun hm => h0 ((sParsePath_suffix he).subset hm)
    cases r with
    | err => simp [show tokens 0 (segments p.src) = [.err] from hreports] at h
    | done => simp [show tokens 0 (segments p.src) = [.done] from hreports] at h
    | up =>
      have hlt := sParsePath_up_src he
      rw [show tokens 0 (segments p.src) = .up :: tokens 0 (segments p'.src) from hreports] at h
      exact .later he (.inr rfl) (ih _ (by omega) h0' (by simpa using h) rfl)
    | dir =>
      have hlt := sParsePath_dir_src he
      obtain ⟨name', hb, htoks⟩ := hreports
      rw [htoks, List.mem_cons] at h
      cases h with
      | inl hname =>
        cases hname
        rw [← hb.str_eq]
        exact .here he
      | inr hrest => exact .later he (.inl rfl) (ih _ (by omega) h0' hrest rfl)

theorem reportedDir_iff (h0 : 0 ∉ p.src) :
    ReportedDir p name ↔ .dir name ∈ tokens 0 (segments p.src) :=
  ⟨dir_of_reported h0, reported_of_dir h0⟩

/-- The segments of a resolved path; the empty path is the root itself. -/
def places (path : List UInt8) : List (List UInt8) := if path = [] then [] else segments path

/-- A resolution that cuts no segment. -/
def Whole (file : CStr) : Prop :=
  ∃ r, geminiFsResolve true file = .ok r ∧
    (∀ path, r = some path → ∀ seg ∈ places path.octets,
      ReportedDir ⟨file.octets, .zeroed _⟩ seg) ∧
    (geminiMaxPath - 1 < (joined slash (standing [] (tokens 0 (segments file.octets)))).length →
      r = none)

theorem not_overruns_of_ok {file : CStr} (h : geminiFsResolve true file = .ok r) :
    ¬ Overruns [] (tokens 0 (segments file.octets)) := by
  rw [← resolveTokens_fault_iff, ← geminiFsResolve_eq, h]
  intro hfault
  obtain ⟨fault, he⟩ := hfault
  cases he

theorem fits_iff_not_overruns (octets : List UInt8) :
    Fits octets ↔ ¬ Overruns [] (tokens 0 (segments octets)) := by
  constructor
  · intro hfits hover
    obtain ⟨front, name, rest, he, _, _, hfull⟩ := hover
    exact hfits front name rest he hfull
  · intro hover front name rest he hfull
    obtain ⟨hdone, herr⟩ := tokens_end he
    exact hover ⟨front, name, rest, he, hdone, herr, hfull⟩

theorem resolve_of_fits {file : CStr} (h : Fits file.octets) :
    ∃ r, geminiFsResolve true file = .ok r ∧
      r.map CStr.octets = if .err ∈ tokens 0 (segments file.octets) then none
        else some ((joined slash (standing [] (tokens 0 (segments file.octets)))).take
          (geminiMaxPath - 1)) := by
  have he := geminiFsResolve_eq file
  rw [(tokens_terminated 0 _).resolveTokens_eq ((fits_iff_not_overruns _).1 h)] at he
  cases hr : geminiFsResolve true file with
  | error fault => rw [hr] at he; cases he
  | ok r =>
    rw [hr] at he
    exact ⟨r, rfl, Except.ok.inj he⟩

theorem standing_tokens_proper (h : Fits octets) :
    Proper (standing [] (tokens 0 (segments octets))) :=
  (tokens_terminated 0 _).standing_proper .nil
    (fun _ hm => component_of_tokens (segments_plain octets) hm) ((fits_iff_not_overruns _).1 h)

theorem places_joined (h : ∀ name ∈ names, slash ∉ name)
    (hseg : seg ∈ places (joined slash names)) :
    seg ∈ names := by
  rw [places] at hseg
  split at hseg
  · cases hseg
  · rename_i hne
    have hnames : names ≠ [] := fun he => hne (by rw [he, joined_nil])
    rwa [segments, splitOn_joined hnames h] at hseg

theorem whole_of_fits {file : CStr} (hfits : Fits file.octets)
    (hroom : .err ∈ tokens 0 (segments file.octets) ∨
      (joined slash (standing [] (tokens 0 (segments file.octets)))).length ≤ geminiMaxPath - 1) :
    Whole file := by
  obtain ⟨r, hr, hoct⟩ := resolve_of_fits hfits
  refine ⟨r, hr, ?_, ?_⟩
  · intro path hpath seg hseg
    subst r
    apply (reportedDir_iff file.noNul).2
    split at hoct
    · cases hoct
    · rename_i herr
      have hshort := hroom.resolve_left herr
      rw [List.take_of_length_le hshort] at hoct
      rw [Option.some.inj hoct] at hseg
      have hproper := standing_tokens_proper hfits
      have hmem := places_joined (fun name hm => (hproper.components name hm).plain) hseg
      exact (mem_standing hmem).resolve_left List.not_mem_nil
  · intro hlong
    cases hroom with
    | inl herr =>
      rw [if_pos herr] at hoct
      exact Option.map_eq_none_iff.1 hoct
    | inr hshort => omega

theorem fits_of_whole {file : CStr} (h : Whole file) : Fits file.octets ∧
    (.err ∈ tokens 0 (segments file.octets) ∨
      (joined slash (standing [] (tokens 0 (segments file.octets)))).length ≤ geminiMaxPath - 1) := by
  obtain ⟨r, hr, _, hlong⟩ := h
  have hfits := (fits_iff_not_overruns _).2 (not_overruns_of_ok hr)
  refine ⟨hfits, ?_⟩
  obtain ⟨r', hr', hoct⟩ := resolve_of_fits hfits
  rw [hr] at hr'
  cases hr'
  by_cases herr : .err ∈ tokens 0 (segments file.octets)
  · exact .inl herr
  · apply Or.inr
    apply Nat.le_of_not_lt
    intro hgt
    rw [hlong hgt, if_neg herr] at hoct
    cases hoct

/-- Nothing is cut just if no component comes on a full path and those standing can be joined. -/
theorem whole_iff (file : CStr) : Whole file ↔ Fits file.octets ∧
    (.err ∈ tokens 0 (segments file.octets) ∨
      (joined slash (standing [] (tokens 0 (segments file.octets)))).length ≤ geminiMaxPath - 1) :=
  ⟨fits_of_whole, fun h => whole_of_fits h.1 h.2⟩

def crowded : CStr := ⟨List.replicate 2040 97 ++ slash :: List.replicate 20 98, by
  rw [List.mem_append, List.mem_cons, List.mem_replicate, List.mem_replicate]
  decide⟩

theorem not_whole_crowded : ¬ Whole crowded := by
  intro hwhole
  obtain ⟨_, hroom⟩ := fits_of_whole hwhole
  have htoks : tokens 0 (segments crowded.octets) =
      [.dir (List.replicate 2040 97), .dir (List.replicate 20 98), .done] :=
    tokens_pair (component_replicate 97 (by decide) (by decide) (by decide))
      (component_replicate 98 (by decide) (by decide) (by decide))
  rw [htoks] at hroom
  cases hroom with
  | inl herr =>
    have hno (a b : List UInt8) : .err ∉ [Token.dir a, .dir b, .done] := by simp
    exact hno _ _ herr
  | inr hshort =>
    change (joined slash [List.replicate 2040 97, List.replicate 20 98]).length ≤ _ at hshort
    rw [joined_cons _ (by simp), joined_singleton, List.length_append, List.length_cons,
      List.length_replicate, List.length_replicate] at hshort
    exact absurd hshort (by decide)

end Geminon
