import Geminon.Normal

namespace Geminon
open Memory Separated
set_option autoImplicit true

/-- The segments that are left when every `.` is deleted. -/
def undot (segs : List (List UInt8)) : List (List UInt8) := segs.filter (· ≠ [dot])

def undotted (file : CStr) : CStr := ⟨joined slash (undot (segments file.octets)), by
  intro hm
  cases mem_joined hm with
  | inl hslash => cases hslash
  | inr hname =>
    obtain ⟨seg, hseg, hnul⟩ := hname
    exact file.noNul (splitOn_subset (List.mem_filter.1 hseg).1 hnul)⟩

/-- Deleting the segments `.` of a string changes nothing about what is returned for it. -/
def Neutral (file : CStr) : Prop :=
  ∀ malloc, ∃ r, geminiFsResolve malloc file = .ok r ∧
    geminiFsResolve malloc (undotted file) = .ok r

/-- The names standing after a walk, each with the number of `.` segments right before it. -/
def carried (dots : Nat) (stack : List (Nat × List UInt8)) :
    List (List UInt8) → List (Nat × List UInt8)
  | [] => stack
  | seg :: rest =>
    if seg = [] then carried dots stack rest
    else if seg = [dot] then carried (dots + 1) stack rest
    else if seg = [dot, dot] then carried 0 stack.dropLast rest
    else carried 0 (stack ++ [(dots, seg)]) rest

/-- A name as the component buffer holds it, behind the octets of the `.` segments before it. -/
def spelled (entry : Nat × List UInt8) : List UInt8 :=
  List.replicate entry.1 dot ++ entry.2

/-- No name standing carries octets of `.` segments that show in the path. -/
def Unmarked (stack : List (Nat × List UInt8)) : Prop :=
  ∀ front dots name, stack = front ++ [(dots, name)] →
    (∀ entry ∈ front, entry.1 = 0) ∧ (dots = 0 ∨
      List.replicate (geminiMaxPath - 1 - width (front.map Prod.snd)) dot <+: name)

theorem tokens_segments_joined (h : ∀ seg ∈ segs, slash ∉ seg) :
    tokens 0 (segments (joined slash segs)) = tokens 0 segs := by
  by_cases hne : segs = []
  · rw [hne, joined_nil]
    rfl
  · rw [segments, splitOn_joined hne h]

theorem undotted_tokens (file : CStr) :
    tokens 0 (segments (undotted file).octets) = tokens 0 (undot (segments file.octets)) :=
  tokens_segments_joined fun seg hm => segments_plain file.octets seg (List.mem_filter.1 hm).1

theorem undot_cons_of_ne (h : seg ≠ [dot]) : undot (seg :: segs) = seg :: undot segs :=
  List.filter_cons_of_pos (by simpa using h)

theorem undot_cons_dot : undot ([dot] :: segs) = undot segs :=
  List.filter_cons_of_neg (by simp)

theorem standing_carried (stack : List (Nat × List UInt8)) (h : .err ∉ tokens dots segs) :
    standing (stack.map spelled) (tokens dots segs) = (carried dots stack segs).map spelled ∧
      .err ∉ tokens 0 (undot segs) ∧
      standing (stack.map Prod.snd) (tokens 0 (undot segs)) =
        (carried dots stack segs).map Prod.snd := by
  induction segs generalizing dots stack with
  | nil => exact ⟨rfl, by simp [undot, tokens], rfl⟩
  | cons seg segs ih =>
    have hfit : dots + seg.length ≤ geminiMaxPath - 1 := by
      apply Nat.le_of_not_lt
      intro hlong
      exact h (by rw [tokens_long hlong]; exact List.mem_cons_self)
    have hshort : 0 + seg.length ≤ geminiMaxPath - 1 := by omega
    by_cases hnil : seg = []
    · subst seg
      rw [tokens_empty (by simpa using hfit)] at h ⊢
      rw [undot_cons_of_ne (by simp), tokens_empty (Nat.zero_le _), carried, if_pos rfl]
      exact ih stack h
    by_cases hdot : seg = [dot]
    · subst seg
      rw [tokens_dot hfit] at h ⊢
      rw [undot_cons_dot, carried, if_neg hnil, if_pos rfl]
      exact ih stack h
    by_cases hup : seg = [dot, dot]
    · subst seg
      rw [tokens_up hfit] at h ⊢
      rw [List.mem_cons, not_or] at h
      rw [undot_cons_of_ne hdot, tokens_up hshort, carried, if_neg hnil, if_neg hdot, if_pos rfl]
      have hrest := ih stack.dropLast h.2
      rw [List.map_dropLast, List.map_dropLast] at hrest
      exact ⟨hrest.1, by simpa using hrest.2.1, hrest.2.2⟩
    · have hname : IsName seg := ⟨hnil, hdot, hup⟩
      rw [tokens_name hfit hname] at h ⊢
      rw [List.mem_cons, not_or] at h
      rw [undot_cons_of_ne hdot, tokens_name hshort hname, carried, if_neg hnil, if_neg hdot,
        if_neg hup]
      have hrest := ih (stack ++ [(dots, seg)]) h.2
      rw [List.map_append, List.map_append] at hrest
      exact ⟨hrest.1, by simpa using hrest.2.1, hrest.2.2⟩

theorem take_replicate_append_iff (d k : Nat) (a : α) (s : List α) :
    (List.replicate d a ++ s).take k = s.take k ↔ d = 0 ∨ List.replicate k a <+: s := by
  constructor
  · intro he
    cases d with
    | zero => exact .inl rfl
    | succ d =>
      apply Or.inr
      induction k generalizing s with
      | zero => exact List.nil_prefix
      | succ k ih =>
        cases s with
        | nil => simp [List.replicate_succ] at he
        | cons b s =>
          rw [List.replicate_succ, List.cons_append, List.take_succ_cons, List.take_succ_cons,
            List.cons.injEq] at he
          obtain ⟨rfl, he⟩ := he
          rw [← List.singleton_append, ← List.append_assoc, ← List.replicate_succ'] at he
          rw [List.replicate_succ, List.cons_prefix_cons]
          exact ⟨rfl, ih s he⟩
  · intro h
    cases h with
    | inl hzero => rw [hzero, List.replicate_zero, List.nil_append]
    | inr hrun =>
      obtain ⟨t, rfl⟩ := hrun
      rw [← List.append_assoc, List.replicate_append_replicate, List.take_append_of_le_length
        (by simp), List.take_append_of_le_length (by simp), List.take_replicate,
        List.take_replicate]
      congr 1
      omega

theorem cut_plain (h : Proper (front ++ [last])) :
    ∀ name ∈ front ++ [last.take k], slash ∉ name := by
  intro name hm
  rw [List.mem_append, List.mem_singleton] at hm
  cases hm with
  | inl hfront => exact (h.components name (by simp [hfront])).plain
  | inr hlast =>
    rw [hlast]
    exact fun hs => (h.components last (by simp)).plain (List.mem_of_mem_take hs)

/-- What the octets of `.` segments do to a path that is cut at its limit. -/
theorem cut_eq_iff {stack : List (Nat × List UInt8)} (h : Proper (stack.map spelled))
    (h' : Proper (stack.map Prod.snd)) :
    (joined slash (stack.map spelled)).take (geminiMaxPath - 1) =
      (joined slash (stack.map Prod.snd)).take (geminiMaxPath - 1) ↔ Unmarked stack := by
  cases List.eq_nil_or_concat stack with
  | inl hnil =>
    rw [hnil]
    simp [Unmarked]
  | inr hcons =>
    obtain ⟨front, ⟨dots, name⟩, rfl⟩ := hcons
    rw [List.concat_eq_append] at *
    rw [List.map_append, List.map_singleton] at h h'
    rw [List.map_append, List.map_append, List.map_singleton, List.map_singleton]
    have hwidth : width (front.map spelled) ≤ geminiMaxPath - 1 := h.width_le
    have hwidth' : width (front.map Prod.snd) ≤ geminiMaxPath - 1 := h'.width_le
    rw [joined_cut _ hwidth, joined_cut _ hwidth']
    constructor
    · intro he front' dots' name' hstack
      have hinj := congrArg (List.splitOn slash) he
      rw [splitOn_joined (by simp) (cut_plain h), splitOn_joined (by simp) (cut_plain h')] at hinj
      obtain ⟨hfront, hlast⟩ := List.append_inj' hinj rfl
      obtain ⟨rfl, hentry⟩ := List.append_inj' hstack rfl
      cases hentry
      rw [hfront, List.cons.injEq] at hlast
      refine ⟨?_, (take_replicate_append_iff dots _ dot name).1 hlast.1⟩
      intro entry hm
      have hsame := List.map_inj_left.1 hfront entry hm
      have hlen := congrArg List.length hsame
      rw [spelled, List.length_append, List.length_replicate] at hlen
      omega
    · intro hunmarked
      obtain ⟨hzero, hlast⟩ := hunmarked front dots name rfl
      have hfront : front.map spelled = front.map Prod.snd := by
        apply List.map_congr_left
        intro entry hm
        rw [spelled, hzero entry hm, List.replicate_zero, List.nil_append]
      rw [hfront, spelled, (take_replicate_append_iff dots _ dot name).2 hlast]

theorem neutral_of_resolve (h : geminiFsResolve true file = .ok r)
    (h' : geminiFsResolve true (undotted file) = .ok r) : Neutral file := by
  intro malloc
  cases malloc with
  | false => exact ⟨none, rfl, rfl⟩
  | true => exact ⟨r, h, h'⟩

theorem neutral_iff_resolve {file : CStr} (h : geminiFsResolve true file = .ok r)
    (h' : geminiFsResolve true (undotted file) = .ok r') :
    Neutral file ↔ r.map CStr.octets = r'.map CStr.octets := by
  constructor
  · intro hneutral
    obtain ⟨r'', hr, hr'⟩ := hneutral true
    rw [h] at hr
    rw [h'] at hr'
    cases hr
    cases hr'
    rfl
  · intro he
    have hinj : Function.Injective CStr.octets := fun _ _ => CStr.ext
    have hr : r = r' := Option.map_injective hinj he
    subst r'
    exact neutral_of_resolve h h'

/-- Some component, with the octets of the `.` segments before it, is too long for its buffer. -/
abbrev TooLong (octets : List UInt8) : Prop := .err ∈ tokens 0 (segments octets)

/-- Segments `.` are neutral where they neither fill the path, nor refuse it, nor show in it. -/
theorem neutral_iff (file : CStr) :
    Neutral file ↔ Fits file.octets ∧ Fits (undotted file).octets ∧
      ((TooLong file.octets ∧ TooLong (undotted file).octets) ∨
        (¬ TooLong file.octets ∧ Unmarked (carried 0 [] (segments file.octets)))) := by
  have hfits : Neutral file → Fits file.octets ∧ Fits (undotted file).octets := by
    intro hneutral
    obtain ⟨r, hr, hr'⟩ := hneutral true
    exact ⟨(fits_iff_not_overruns _).2 (not_overruns_of_ok hr),
      (fits_iff_not_overruns _).2 (not_overruns_of_ok hr')⟩
  rw [← and_assoc, ← and_iff_right_of_imp hfits]
  apply and_congr_right
  intro hboth
  obtain ⟨r, hr, hoct⟩ := resolve_of_fits hboth.1
  obtain ⟨r', hr', hoct'⟩ := resolve_of_fits hboth.2
  rw [neutral_iff_resolve hr hr', hoct, hoct']
  by_cases herr : TooLong file.octets
  · rw [if_pos herr]
    by_cases herr' : TooLong (undotted file).octets
    · rw [if_pos herr']
      exact iff_of_true rfl (.inl ⟨herr, herr'⟩)
    · rw [if_neg herr']
      exact iff_of_false nofun fun h => h.elim (fun h => herr' h.2) fun h => h.1 herr
  · obtain ⟨hstanding, hplain, hstanding'⟩ := standing_carried [] herr
    rw [← undotted_tokens] at hplain hstanding'
    have hproper := standing_tokens_proper hboth.1
    have hproper' := standing_tokens_proper hboth.2
    rw [List.map_nil] at hstanding hstanding'
    rw [hstanding] at hproper
    rw [hstanding'] at hproper'
    rw [if_neg herr, if_neg hplain, hstanding, hstanding', Option.some.injEq,
      cut_eq_iff hproper hproper']
    simp only [herr, false_and, not_false_eq_true, true_and, false_or]

def dottedName : CStr := ⟨[dot, slash, 97], by decide⟩

theorem not_neutral_dottedName : ¬ Neutral dottedName := by
  intro hneutral
  obtain ⟨r, hr, hr'⟩ := hneutral true
  have hdotted : geminiFsResolve true dottedName = .ok (some ⟨[dot, 97], by decide⟩) :=
    resolves_of_tokens rfl
  have hplain : geminiFsResolve true (undotted dottedName) = .ok (some ⟨[97], by decide⟩) :=
    resolves_of_tokens rfl
  rw [hdotted] at hr
  rw [hplain] at hr'
  cases hr
  cases hr'

end Geminon
