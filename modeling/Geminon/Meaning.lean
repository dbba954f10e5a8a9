import Geminon.Walks
import Geminon.Normal

namespace Geminon
open Memory Separated Walks
set_option autoImplicit true

def segmentMove (seg : List UInt8) : Move (List UInt8) :=
  if seg = [] ∨ seg = [dot] then .stay else if seg = [dot, dot] then .up else .down seg

def moves (path : List UInt8) : List (Move (List UInt8)) := (segments path).map segmentMove

theorem apply_segmentMove (hdot : seg ≠ [dot]) :
    (segmentMove seg).apply names = settle names seg := by
  by_cases hnil : seg = []
  · rw [segmentMove, if_pos (.inl hnil), settle, if_pos hnil]
    rfl
  rw [segmentMove, if_neg (not_or.2 ⟨hnil, hdot⟩), settle, if_neg hnil]
  split
  · rfl
  · rfl

theorem reduced_segmentMove {segs : List (List UInt8)} (hdot : [dot] ∉ segs) :
    reduced names (segs.map segmentMove) = segs.foldl settle names := by
  induction segs generalizing names with
  | nil => rfl
  | cons seg segs ih =>
    rw [List.mem_cons, not_or] at hdot
    rw [List.map_cons, reduced, List.foldl_cons, apply_segmentMove (Ne.symm hdot.1)]
    exact ih hdot.2

theorem standing_settled (hdot : [dot] ∉ segs) (herr : .err ∉ tokens 0 segs) :
    standing names (tokens 0 segs) = segs.foldl settle names := by
  induction segs generalizing names with
  | nil => rfl
  | cons seg segs ih =>
    rw [List.mem_cons, not_or] at hdot
    by_cases hlong : geminiMaxPath - 1 < 0 + seg.length
    · rw [tokens_long hlong] at herr
      exact absurd List.mem_cons_self herr
    rw [List.foldl_cons, settle]
    by_cases hnil : seg = []
    · subst seg
      rw [tokens_empty (Nat.zero_le _)] at herr ⊢
      exact ih hdot.2 herr
    rw [if_neg hnil]
    by_cases hup : seg = [dot, dot]
    · subst seg
      rw [tokens_up (by decide), List.mem_cons, not_or] at herr
      rw [tokens_up (by decide), if_pos rfl]
      exact ih hdot.2 herr.2
    · have hname : IsName seg := ⟨hnil, Ne.symm hdot.1, hup⟩
      rw [tokens_name (Nat.le_of_not_lt hlong) hname, List.mem_cons, not_or] at herr
      rw [tokens_name (Nat.le_of_not_lt hlong) hname, if_neg hup]
      exact ih hdot.2 herr.2

theorem resolved_of_whole (hwhole : Whole file)
    (hr : geminiFsResolve true file = .ok (some r)) :
    .err ∉ tokens 0 (segments file.octets) ∧
      r.octets = joined slash (standing [] (tokens 0 (segments file.octets))) := by
  obtain ⟨hfits, hroom⟩ := fits_of_whole hwhole
  obtain ⟨r', hr', hoct⟩ := resolve_of_fits hfits
  rw [hr] at hr'
  cases hr'
  split at hoct
  · cases hoct
  · rename_i herr
    rw [List.take_of_length_le (hroom.resolve_left herr)] at hoct
    exact ⟨herr, Option.some.inj hoct⟩

theorem joined_ne_nil (hne : names ≠ []) (h : ∀ name ∈ names, Component name) :
    joined slash names ≠ [] := by
  intro hjoined
  have hlen : (joined slash names).length + 1 = width names := joined_length hne
  rw [hjoined, List.length_nil] at hlen
  cases names with
  | nil => exact hne rfl
  | cons name names =>
    have hpos := List.length_pos_of_ne_nil (h name List.mem_cons_self).isName.1
    rw [width_cons] at hlen
    omega

theorem places_of_components (h : ∀ name ∈ names, Component name) :
    places (joined slash names) = names := by
  by_cases hne : names = []
  · rw [hne, joined_nil, places, if_pos rfl]
  · rw [places, if_neg (joined_ne_nil hne h), segments,
      splitOn_joined hne fun name hm => (h name hm).plain]

/-- The names that are left once a path is followed without looking. -/
theorem resolved_names (hwhole : Whole file) (hdot : [dot] ∉ segments file.octets)
    (hr : geminiFsResolve true file = .ok (some r)) :
    (∀ name ∈ reduced [] (moves file.octets), Component name) ∧
      r.octets = joined slash (reduced [] (moves file.octets)) := by
  obtain ⟨herr, hoct⟩ := resolved_of_whole hwhole hr
  have hproper := standing_tokens_proper (fits_of_whole hwhole).1
  rw [moves, reduced_segmentMove hdot, ← standing_settled hdot herr]
  exact ⟨hproper.components, hoct⟩

/-- A resolution that cuts nothing leads, by names alone, to where its path leads. -/
theorem geminiFsResolve_meaning (t : Hierarchy (List UInt8) N) (hwhole : Whole file)
    (hdot : [dot] ∉ segments file.octets) (hr : geminiFsResolve true file = .ok (some r))
    (hwalk : t.walk t.root (moves file.octets) = some node) :
    t.descend (places r.octets) = some node := by
  obtain ⟨hc, hoct⟩ := resolved_names hwhole hdot hr
  rw [hoct, places_of_components hc]
  exact t.descend_reduced rfl hwalk

def threeDots : CStr := ⟨[dot, dot, dot], by decide⟩

theorem upAndOn_resolves : geminiFsResolve true upAndOn = .ok (some threeDots) :=
  resolves_of_tokens (by decide)

theorem upAndOn_whole : Whole upAndOn := by
  have hover := not_overruns_of_ok upAndOn_resolves
  exact whole_of_fits ((fits_iff_not_overruns _).2 hover) (.inr (by decide))

theorem geminiFsResolve_meaning_upAndOn :
    (Hierarchy.full (List UInt8)).descend (places threeDots.octets) = some [[dot, dot, dot]] :=
  geminiFsResolve_meaning (Hierarchy.full _) upAndOn_whole (by decide) upAndOn_resolves
    (by decide)

theorem resolveTokens_names {names' : List (List UInt8)} (h : ∀ name ∈ names', Component name)
    (hwidth : width names + width names' ≤ geminiMaxPath) (segs : List (List UInt8)) :
    resolveTokens names (tokens 0 (names' ++ segs)) =
      resolveTokens (names ++ names') (tokens 0 segs) := by
  induction names' generalizing names with
  | nil => rw [List.nil_append, List.append_nil]
  | cons name names' ih =>
    have hname := h name List.mem_cons_self
    have hpos := List.length_pos_of_ne_nil hname.isName.1
    rw [width_cons] at hwidth
    have hfull : ¬ Overfull names := by
      intro hfull
      have hlen : (joined slash names).length + 1 = width names := joined_length hfull.1
      have hge := hfull.2
      have hmax : geminiMaxPath = 2048 := rfl
      omega
    rw [List.cons_append, tokens_name (by rw [Nat.zero_add]; exact hname.short) hname.isName,
      List.replicate_zero, List.nil_append, resolveTokens, if_neg hfull,
      ih (fun name hm => h name (List.mem_cons_of_mem _ hm))
        (by rw [width_append, width_cons, width_nil]; omega),
      List.append_assoc, List.singleton_append]

theorem joined_short (hwidth : width names ≤ geminiMaxPath) :
    (joined slash names).length ≤ geminiMaxPath - 1 := by
  by_cases hne : names = []
  · rw [hne, joined_nil]
    exact Nat.zero_le _
  · have hlen : (joined slash names).length + 1 = width names := joined_length hne
    omega

/-- Where a path of components and something behind them resolves to. -/
theorem resolve_names {file : CStr} (hc : ∀ name ∈ names', Component name)
    (hwidth : width names' ≤ geminiMaxPath) (hsegs : segments file.octets = names' ++ segs)
    (hsettled : resolveTokens names' (tokens 0 segs) = .ok (some (joined slash settled))) :
    ∃ r, geminiFsResolve true file = .ok (some r) ∧ r.octets = joined slash settled := by
  apply resolve_of_tokens
  rw [hsegs, resolveTokens_names hc (by rw [width_nil]; omega), List.nil_append, hsettled]

theorem resolveTokens_done (hwidth : width names ≤ geminiMaxPath) :
    resolveTokens names [.done] = .ok (some (joined slash names)) := by
  rw [resolveTokens, List.take_of_length_le (joined_short hwidth)]

theorem resolve_joined {file : CStr} (hc : ∀ name ∈ names, Component name)
    (hwidth : width names ≤ geminiMaxPath) (hfile : file.octets = joined slash names) :
    geminiFsResolve true file = .ok (some file) := by
  apply resolves_of_tokens
  by_cases hne : names = []
  · rw [hfile, hne]
    rfl
  · rw [hfile, segments, splitOn_joined hne fun name hm => (hc name hm).plain,
      ← List.append_nil names, resolveTokens_names hc (by rw [width_nil]; omega),
      List.nil_append, List.append_nil]
    exact resolveTokens_done hwidth

/-- A path consists of components in front of a last segment, which may have been cut. -/
structure EndsIn (r : CStr) (front : List (List UInt8)) (last : List UInt8) : Prop where
  components : ∀ name ∈ front, Component name
  lone : front = [] → Component last
  fits : width front + (last.length + 1) ≤ geminiMaxPath
  octets_eq : r.octets = joined slash (front ++ [last])
  segments_eq : segments r.octets = front ++ [last]

theorem resolved_segments (hr : geminiFsResolve true file = .ok (some r)) :
    r.octets = [] ∨ ∃ front last, EndsIn r front last := by
  have he := geminiFsResolve_eq file
  rw [hr] at he
  obtain ⟨names, hproper, hoct⟩ := resolveTokens_proper .nil
    (fun _ hm => component_of_tokens (segments_plain file.octets) hm) he.symm
  by_cases hne : names = []
  · rw [hne, joined_nil, List.take_nil] at hoct
    exact .inl hoct
  · obtain ⟨front, last, hfront, hplain, hlast, hcut⟩ := hproper.cut hne
    have hlen := congrArg List.length hoct
    rw [List.length_take] at hlen
    rw [hcut] at hoct
    have hne : front ++ [last] ≠ [] :=
      List.append_ne_nil_of_right_ne_nil front (List.cons_ne_nil _ _)
    have hwidth : (joined slash (front ++ [last])).length + 1 = width (front ++ [last]) :=
      joined_length hne
    rw [width_append, width_cons, width_nil, Nat.add_zero, ← hoct] at hwidth
    refine .inr ⟨front, last, hfront, hlast, ?_, hoct, ?_⟩
    · rw [← hwidth]
      have hmax : geminiMaxPath = 2048 := rfl
      omega
    · rw [hoct, segments]
      apply splitOn_joined (by simp)
      intro name hm
      rw [List.mem_append, List.mem_singleton] at hm
      cases hm with
      | inl hm => exact (hfront name hm).plain
      | inr he => rwa [he]

theorem EndsIn.places_eq (h : EndsIn r front last) : places r.octets = front ++ [last] := by
  rw [places, if_neg ?_, h.segments_eq]
  intro hnil
  -- A path without octets has just one segment, and no component is empty.
  have hone : front ++ [last] = [] ++ [[]] := by
    rw [← h.segments_eq, hnil]
    rfl
  obtain ⟨hfront, hlast⟩ := List.append_inj' hone rfl
  exact (h.lone hfront).isName.1 (List.head_eq_of_cons_eq hlast)

theorem EndsIn.component (h : EndsIn r front last) (hname : IsName last) :
    ∀ name ∈ front ++ [last], Component name := by
  have hlast : Component last := by
    refine ⟨hname, segments_plain r.octets last (by rw [h.segments_eq]; simp), ?_⟩
    have hwidth := h.fits
    omega
  intro name hm
  rw [List.mem_append, List.mem_singleton] at hm
  cases hm with
  | inl hm => exact h.components name hm
  | inr he => rwa [he]

theorem EndsIn.retakes (h : EndsIn r front last) (hname : ¬ IsName last) :
    ∃ settled, (∀ name ∈ settled, Component name) ∧ width settled ≤ geminiMaxPath ∧
      resolveTokens front (tokens 0 [last]) = .ok (some (joined slash settled)) := by
  have hwidth := h.fits
  by_cases hup : last = [dot, dot]
  · have hle := width_dropLast_le front
    have hupto : width front.dropLast ≤ geminiMaxPath := by omega
    refine ⟨front.dropLast, fun name hm => h.components name (List.dropLast_subset _ hm), hupto, ?_⟩
    rw [hup, tokens_up (by decide), resolveTokens]
    exact resolveTokens_done hupto
  · have hdone : tokens 0 [last] = [.done] := by
      by_cases hnil : last = []
      · rw [hnil]
        rfl
      · have hdot : last = [dot] := by
          by_contra hne
          exact hname ⟨hnil, hne, hup⟩
        rw [hdot]
        rfl
    refine ⟨front, h.components, by omega, ?_⟩
    rw [hdone]
    exact resolveTokens_done (by omega)

theorem final_of_components {r : CStr} (hc : ∀ name ∈ names, Component name)
    (hwidth : width names ≤ geminiMaxPath) (hoct : r.octets = joined slash names) :
    geminiFsResolve true r = .ok (some r) ∧ ∀ seg ∈ places r.octets, IsName seg := by
  refine ⟨resolve_joined hc hwidth hoct, fun seg hseg => ?_⟩
  rw [hoct, places_of_components hc] at hseg
  exact (hc seg hseg).isName

/-- A second resolution is final, and changes nothing unless the first one cut a segment badly. -/
theorem geminiFsResolve_stable (hr : geminiFsResolve true file = .ok (some r)) :
    ∃ r', geminiFsResolve true r = .ok (some r') ∧ geminiFsResolve true r' = .ok (some r') ∧
      (r' = r ↔ ∀ seg ∈ places r.octets, IsName seg) := by
  have hsame (hfinal : geminiFsResolve true r = .ok (some r) ∧
      ∀ seg ∈ places r.octets, IsName seg) :
      ∃ r', geminiFsResolve true r = .ok (some r') ∧ geminiFsResolve true r' = .ok (some r') ∧
        (r' = r ↔ ∀ seg ∈ places r.octets, IsName seg) :=
    ⟨r, hfinal.1, hfinal.1, iff_of_true rfl hfinal.2⟩
  cases resolved_segments hr with
  | inl hnil => exact hsame (final_of_components (List.forall_mem_nil Component) (by simp) hnil)
  | inr hends =>
    obtain ⟨front, last, h⟩ := hends
    have hwidth := h.fits
    by_cases hname : IsName last
    · refine hsame (final_of_components (h.component hname) ?_ h.octets_eq)
      rw [width_append, width_cons, width_nil]
      omega
    · obtain ⟨settled, hc, hw, hsettled⟩ := h.retakes hname
      obtain ⟨r', hr', hoct⟩ := resolve_names h.components (by omega) h.segments_eq hsettled
      obtain ⟨hself, hnames⟩ := final_of_components hc hw hoct
      refine ⟨r', hr', hself, fun he => he ▸ hnames, fun hall => ?_⟩
      exact absurd (hall last (by rw [h.places_eq]; simp)) hname

theorem geminiFsResolve_stable_upAndOn :
    ∃ r', geminiFsResolve true threeDots = .ok (some r') ∧
      geminiFsResolve true r' = .ok (some r') ∧
      (r' = threeDots ↔ ∀ seg ∈ places threeDots.octets, IsName seg) :=
  geminiFsResolve_stable upAndOn_resolves

def pathFrom (a b : CStr) : CStr := ⟨a.octets ++ slash :: b.octets, by
  rw [List.mem_append, List.mem_cons, not_or, not_or]
  exact ⟨a.noNul, by decide, b.noNul⟩⟩

theorem segments_pathFrom (a b : CStr) :
    segments (pathFrom a b).octets = segments a.octets ++ segments b.octets :=
  List.splitOn_append_cons_self _ _

theorem settle_names {segs : List (List UInt8)} (h : ∀ seg ∈ segs, IsName seg) :
    segs.foldl settle names = names ++ segs := by
  induction segs generalizing names with
  | nil => exact (List.append_nil names).symm
  | cons seg segs ih =>
    have hname := h seg List.mem_cons_self
    rw [List.foldl_cons, settle, if_neg hname.1, if_neg hname.2.2,
      ih fun seg hm => h seg (List.mem_cons_of_mem _ hm), List.append_assoc,
      List.singleton_append]

theorem settled_components {segs : List (List UInt8)} (h : ∀ seg ∈ segs, slash ∉ seg ∧ seg ≠ [dot] ∧
    seg.length ≤ geminiMaxPath - 1) (hnames : ∀ name ∈ names, Component name) :
    ∀ name ∈ segs.foldl settle names, Component name := by
  induction segs generalizing names with
  | nil => exact hnames
  | cons seg segs ih =>
    obtain ⟨hplain, hdot, hshort⟩ := h seg List.mem_cons_self
    apply ih fun seg hm => h seg (List.mem_cons_of_mem _ hm)
    intro name hm
    rw [settle] at hm
    split at hm
    · exact hnames name hm
    · rename_i hnil
      split at hm
      · exact hnames name (List.dropLast_subset _ hm)
      · rename_i hup
        rw [List.mem_append, List.mem_singleton] at hm
        cases hm with
        | inl hm => exact hnames name hm
        | inr he =>
          rw [he]
          exact ⟨⟨hnil, hdot, hup⟩, hplain, hshort⟩

theorem settle_places (h : ∀ name ∈ names, Component name) :
    (segments (joined slash names)).foldl settle [] = names := by
  by_cases hne : names = []
  · rw [hne, joined_nil]
    rfl
  · rw [segments, splitOn_joined hne fun name hm => (h name hm).plain,
      settle_names fun name hm => (h name hm).isName, List.nil_append]

theorem settled_width (segs names : List (List UInt8)) :
    width (segs.foldl settle names) ≤ width names + width segs := by
  induction segs generalizing names with
  | nil => exact Nat.le_refl _
  | cons seg segs ih =>
    have hstep : width (settle names seg) ≤ width names + (seg.length + 1) := by
      rw [settle]
      split
      · omega
      split
      · exact Nat.le_add_right_of_le (width_dropLast_le names)
      · rw [width_append, width_cons, width_nil, Nat.add_zero]
    rw [List.foldl_cons, width_cons]
    exact (ih _).trans (by omega)

theorem settled_components_of_short (hlen : octets.length ≤ geminiMaxPath - 1)
    (hdot : [dot] ∉ segments octets) :
    ∀ name ∈ (segments octets).foldl settle [], Component name := by
  refine settled_components (fun seg hseg => ?_) (List.forall_mem_nil Component)
  refine ⟨segments_plain octets seg hseg, fun he => hdot (he ▸ hseg), ?_⟩
  have hlt := length_lt_width hseg
  rw [segments, width_splitOn] at hlt
  omega

theorem settled_short (octets : List UInt8) :
    (joined slash ((segments octets).foldl settle [])).length ≤ octets.length := by
  have hle := settled_width (segments octets) []
  rw [width_nil, segments, width_splitOn] at hle
  by_cases hne : (segments octets).foldl settle [] = []
  · rw [hne, joined_nil]
    exact Nat.zero_le _
  · have hjoined : (joined slash ((segments octets).foldl settle [])).length + 1 =
        width ((segments octets).foldl settle []) := joined_length hne
    rw [segments] at hjoined ⊢
    omega

theorem undotted_of_components {r : CStr} (hc : ∀ name ∈ names, Component name)
    (hoct : r.octets = joined slash names) : [dot] ∉ segments r.octets := by
  intro hm
  by_cases hnil : r.octets = []
  · rw [hnil] at hm
    exact absurd hm (by decide)
  · have hplaces : [dot] ∈ places r.octets := by rwa [places, if_neg hnil]
    rw [hoct, places_of_components hc] at hplaces
    exact (hc _ hplaces).isName.2.1 rfl

theorem resolveTokens_short {file : CStr} (hlen : file.length ≤ geminiMaxPath - 1)
    (hdot : [dot] ∉ segments file.octets) :
    resolveTokens [] (tokens 0 (segments file.octets)) =
      .ok (some (joined slash ((segments file.octets).foldl settle []))) := by
  apply resolveTokens_settled hdot
  have hmax : geminiMaxPath = 2048 := rfl
  have hs : file.octets.length = file.length := rfl
  rw [width_nil, segments, width_splitOn]
  omega

/-- A short path, taken from another one on, may be taken from what that resolves to instead. -/
theorem geminiFsResolve_compose (a b : CStr)
    (hlen : (pathFrom a b).length ≤ geminiMaxPath - 1)
    (hdot : [dot] ∉ segments (pathFrom a b).octets) :
    ∃ ra r, geminiFsResolve true a = .ok (some ra) ∧
      geminiFsResolve true (pathFrom a b) = .ok (some r) ∧
      geminiFsResolve true (pathFrom ra b) = .ok (some r) := by
  have hover (a : CStr) : (pathFrom a b).length = a.length + (b.length + 1) := List.length_append
  rw [hover] at hlen
  have hdots := hdot
  rw [segments_pathFrom, List.mem_append, not_or] at hdots
  have hshort : a.length ≤ geminiMaxPath - 1 := by omega
  obtain ⟨ra, hra, hoct⟩ := resolve_of_tokens (resolveTokens_short hshort hdots.1)
  obtain ⟨r, hr, hoct'⟩ := resolve_of_tokens
    (resolveTokens_short (by rw [hover]; omega) hdot)
  have hc := settled_components_of_short hshort hdots.1
  have hless : ra.length ≤ a.length := by
    rw [CStr.length, hoct]
    exact settled_short a.octets
  have hplain : [dot] ∉ segments (pathFrom ra b).octets := by
    rw [segments_pathFrom, List.mem_append, not_or]
    exact ⟨undotted_of_components hc hoct, hdots.2⟩
  obtain ⟨r', hr', hoct''⟩ := resolve_of_tokens
    (resolveTokens_short (by rw [hover]; omega) hplain)
  have he : r' = r := by
    apply CStr.ext
    rw [hoct'', hoct', segments_pathFrom, segments_pathFrom, List.foldl_append,
      List.foldl_append, hoct, settle_places hc]
  rw [he] at hr'
  exact ⟨ra, r, hra, hr, hr'⟩

theorem geminiFsResolve_compose_upAndOn :
    ∃ ra r, geminiFsResolve true upAndOn = .ok (some ra) ∧
      geminiFsResolve true (pathFrom upAndOn upAndOn) = .ok (some r) ∧
      geminiFsResolve true (pathFrom ra upAndOn) = .ok (some r) :=
  geminiFsResolve_compose upAndOn upAndOn (by decide) (by decide)

/-- Where a path leads for a process that works in a directory; the empty path leads nowhere. -/
def follow (t : Hierarchy (List UInt8) N) (cwd : N) (path : List UInt8) : Option N :=
  if path = [] then none
  else t.walk (if path.head? = some slash then t.root else cwd) (moves path)

theorem moves_append (path path' : List UInt8) :
    moves (path ++ slash :: path') = moves path ++ moves path' := by
  rw [moves, segments, List.splitOn_append_cons_self, List.map_append]
  rfl

theorem moves_ne_nil (path : List UInt8) : moves path ≠ [] := by
  rw [moves, Ne, List.map_eq_nil_iff]
  exact List.splitOn_ne_nil slash path

theorem walk_slashes (t : Hierarchy (List UInt8) N) (hs : ∀ c ∈ s, c = slash)
    {ms : List (Move (List UInt8))} (hne : ms ≠ []) (n : N) :
    t.walk n (moves s ++ ms) = t.walk n ms := by
  induction s with
  | nil => exact t.walk_stay hne n
  | cons c s ih =>
    obtain ⟨rfl, hrest⟩ := List.forall_mem_cons.1 hs
    have happend : moves (slash :: s) = .stay :: moves s := moves_append [] s
    rw [happend, List.cons_append, t.walk_stay (List.append_ne_nil_of_right_ne_nil _ hne), ih hrest]

theorem walk_trimmed (t : Hierarchy (List UInt8) N) (root : List UInt8)
    {ms : List (Move (List UInt8))} (hne : ms ≠ []) (n : N) :
    t.walk n (moves (trimmed root) ++ ms) = t.walk n (moves root ++ ms) := by
  have hsplit := List.rdropWhile_append_rtakeWhile (p := (· = slash)) (l := root)
  have hslashes : ∀ c ∈ root.rtakeWhile (· = slash), c = slash := fun c hc => by
    simpa using List.mem_rtakeWhile_imp hc
  rw [← trimmed] at hsplit
  cases hs : root.rtakeWhile (· = slash) with
  | nil =>
    rw [hs, List.append_nil] at hsplit
    rw [hsplit]
  | cons c s =>
    rw [hs] at hsplit hslashes
    obtain ⟨rfl, hrest⟩ := List.forall_mem_cons.1 hslashes
    conv_rhs => rw [← hsplit, moves_append, List.append_assoc, t.walk_append]
    rw [t.walk_append]
    exact congrArg (Option.bind _) (funext fun m => (walk_slashes t hrest hne m).symm)

theorem head_trimmed (root rest : List UInt8) (hne : root ≠ []) :
    (trimmed root ++ slash :: rest).head? = some slash ↔ root.head? = some slash := by
  cases hs : trimmed root with
  | nil =>
    have hall := List.rdropWhile_eq_nil_iff.1 hs
    cases root with
    | nil => exact absurd rfl hne
    | cons c root => simpa using hall c List.mem_cons_self
  | cons c s =>
    obtain ⟨rest', hrest⟩ := trimmed_initial root
    rw [← hrest, hs]
    rfl

theorem geminiFsPath_follow (t : Hierarchy (List UInt8) N) (cwd : N) (hroot : RootFits root)
    (hne : root.octets ≠ []) (hr : geminiFsResolve true file = .ok (some r))
    (hpath : geminiFsPath true (some mem) root file = .ok (some prog)) :
    follow t cwd prog.octets =
      (follow t cwd root.octets).bind fun top => t.walk top (moves r.octets) := by
  obtain ⟨-, -, hbuilt⟩ := contained_of_rootFits hroot file r hr
  have hprog : prog.octets = trimmed root.octets ++ slash :: r.octets := by
    have hmap := hbuilt mem
    rw [hpath] at hmap
    exact Option.some.inj (Except.ok.inj hmap)
  rw [follow, if_neg (by rw [hprog]; simp), follow, if_neg hne, hprog, moves_append,
    walk_trimmed t root.octets (moves_ne_nil r.octets), t.walk_append]
  simp only [head_trimmed root.octets r.octets hne]

theorem moves_of_components (hne : names ≠ []) (hc : ∀ name ∈ names, Component name) :
    moves (joined slash names) = names.map .down := by
  rw [moves, segments, splitOn_joined hne fun name hm => (hc name hm).plain]
  refine List.map_congr_left fun name hm => ?_
  obtain ⟨hnil, hdot, hup⟩ := (hc name hm).isName
  rw [segmentMove, if_neg (not_or.2 ⟨hnil, hdot⟩), if_neg hup]

/-- What is opened and what is executed is where the request's path leads below the root. -/
theorem geminiFsPath_meaning (t : Hierarchy (List UInt8) N) (cwd : N) (hroot : RootFits root)
    (hne : root.octets ≠ []) (hwhole : Whole file) (hdot : [dot] ∉ segments file.octets)
    (hr : geminiFsResolve true file = .ok (some r))
    (hpath : geminiFsPath true (some mem) root file = .ok (some prog))
    (htop : follow t cwd root.octets = some top)
    (hwalk : (t.below top).walk (t.below top).root (moves file.octets) = some (node :: above)) :
    follow t top r.octets = (if r.octets = [] then none else some node) ∧
      follow t cwd prog.octets = some node := by
  have hresolved : t.walk top (moves r.octets) = some node := by
    obtain ⟨hc, hoct⟩ := resolved_names hwhole hdot hr
    have hstart : (t.below top).descend [] = some (t.below top).root := rfl
    have hwalked := t.walk_below ((t.below top).descend_reduced hstart hwalk)
    rw [hoct]
    by_cases hnil : reduced [] (moves file.octets) = []
    · have hdir : t.isDir top = true := (t.below top).isDir_of_walk (moves_ne_nil _) hwalk
      rw [hnil] at hwalked ⊢
      exact (if_pos hdir).trans hwalked
    · rwa [moves_of_components hnil hc]
  obtain ⟨hrelative, -, -⟩ := contained_of_rootFits hroot file r hr
  refine ⟨?_, ?_⟩
  · rw [follow, if_neg hrelative, hresolved]
  · rw [geminiFsPath_follow t cwd hroot hne hr hpath, htop, Option.bind_some, hresolved]

def inX : CStr := ⟨[slash, 120], by decide⟩

theorem geminiFsPath_meaning_upAndOn :
    ∃ prog, geminiFsPath true (some fun _ => 0) inX upAndOn = .ok (some prog) ∧
      follow (Hierarchy.full (List UInt8)) [[120]] threeDots.octets =
        (if threeDots.octets = [] then none else some [[120], [dot, dot, dot]]) ∧
      follow (Hierarchy.full (List UInt8)) [] prog.octets = some [[120], [dot, dot, dot]] := by
  have hroot : RootFits inX := rootFits_of_length (by decide)
  have hwalk : ((Hierarchy.full (List UInt8)).below [[120]]).walk [[[120]]]
      (moves upAndOn.octets) = some [[[120], [dot, dot, dot]], [[120]]] := by decide
  obtain ⟨-, -, hbuilt⟩ := contained_of_rootFits hroot upAndOn threeDots upAndOn_resolves
  have hmap := hbuilt fun _ => 0
  cases hpath : geminiFsPath true (some fun _ => 0) inX upAndOn with
  | error fault =>
    rw [hpath] at hmap
    cases hmap
  | ok built =>
    cases built with
    | none =>
      rw [hpath] at hmap
      cases hmap
    | some prog =>
      exact ⟨prog, rfl, geminiFsPath_meaning (Hierarchy.full _) [] hroot (by decide)
        upAndOn_whole (by decide) upAndOn_resolves hpath (by decide) hwalk⟩

end Geminon
