import Geminon.Resolve
import Mathlib.Data.List.DropRight

namespace Geminon
open Memory Separated
set_option autoImplicit true

/-- How many levels a segment of a path goes down. -/
def segmentLevel (seg : List UInt8) : Int :=
  if seg = [dot, dot] then -1 else if seg = [dot] ∨ seg = [] then 0 else 1

theorem segmentLevel_name (h : IsName seg) : segmentLevel seg = 1 := by
  rw [segmentLevel, if_neg h.2.2, if_neg fun he => he.elim h.2.1 h.1]

theorem segmentLevel_ge (seg : List UInt8) : -1 ≤ segmentLevel seg := by
  unfold segmentLevel
  split
  · exact Int.le_refl _
  · split <;> decide

/-- The names that a resolution stands on: components, of which all but the last fit. -/
structure Proper (names : List (List UInt8)) : Prop where
  components : ∀ name ∈ names, Component name
  below : ¬ Overfull names.dropLast

theorem Proper.nil : Proper [] := ⟨by simp, fun h => h.1 rfl⟩

theorem Proper.concat (h : Proper names) (hn : Component name) (hfull : ¬ Overfull names) :
    Proper (names ++ [name]) := by
  refine ⟨?_, by rwa [List.dropLast_concat]⟩
  intro n hm
  rcases List.mem_append.1 hm with hm | hm
  · exact h.components n hm
  · rw [List.mem_singleton.1 hm]
    exact hn

theorem Proper.dropLast (h : Proper names) : Proper names.dropLast :=
  ⟨fun n hn => h.components n (List.dropLast_subset names hn),
    fun hfull => h.below (overfull_of_dropLast hfull)⟩

/-- What a resolution returns is a join of proper names, cut at the length of the path. -/
theorem resolveTokens_proper (h : Proper names)
    (hc : ∀ name, .dir name ∈ toks → Component name)
    (hr : resolveTokens names toks = .ok (some r)) :
    ∃ names', Proper names' ∧ r = (joined slash names').take (geminiMaxPath - 1) := by
  induction toks generalizing names with
  | nil => cases hr
  | cons tok toks ih =>
    have hrest := fun name hm => hc name (List.mem_cons_of_mem _ hm)
    cases tok with
    | dir name =>
      rw [resolveTokens] at hr
      split at hr
      · cases hr
      · rename_i hfull
        exact ih (h.concat (hc name List.mem_cons_self) hfull) hrest hr
    | up => exact ih h.dropLast hrest hr
    | done =>
      cases hr
      exact ⟨names, h, rfl⟩
    | err => cases hr

theorem Proper.width_le (h : Proper (front ++ [last])) : width front ≤ geminiMaxPath - 1 := by
  have hbelow := h.below
  rw [List.dropLast_concat] at hbelow
  by_cases hne : front = []
  · rw [hne, width_nil]
    exact Nat.zero_le _
  · have hlen : (joined slash front).length + 1 = width front := joined_length hne
    have hlt : ¬ geminiMaxPath - 1 ≤ (joined slash front).length := fun hge => hbelow ⟨hne, hge⟩
    omega

theorem Proper.cut (h : Proper names) (hne : names ≠ []) :
    ∃ front last, (∀ name ∈ front, Component name) ∧ slash ∉ last ∧
      (front = [] → Component last) ∧
      (joined slash names).take (geminiMaxPath - 1) = joined slash (front ++ [last]) := by
  obtain ⟨front, last, rfl⟩ : ∃ front last, names = front ++ [last] :=
    ⟨_, _, (List.dropLast_append_getLast hne).symm⟩
  have hlast := h.components last (by simp)
  refine ⟨front, last.take (geminiMaxPath - 1 - width front),
    fun n hn => h.components n (by simp [hn]),
    fun hm => hlast.plain (List.mem_of_mem_take hm), ?_, joined_cut last h.width_le⟩
  intro hfront
  rwa [hfront, width_nil, Nat.sub_zero, List.take_of_length_le hlast.short]

theorem segments_head_slash (h : l.head? = some slash) : (segments l).head? = some [] := by
  cases l with
  | nil => cases h
  | cons c l =>
    cases h
    have he : segments (slash :: l) = [] :: segments l :=
      List.splitOn_append_cons_self_of_not_mem List.not_mem_nil l
    rw [he]
    rfl

theorem neverBelow_names (hfront : ∀ name ∈ front, Component name)
    (hlast : front = [] → Component last) : NeverBelow segmentLevel (front ++ [last]) := by
  have hone : ∀ name ∈ front, segmentLevel name = 1 := fun name hn =>
    segmentLevel_name (hfront name hn).isName
  have hsum : (front.map segmentLevel).sum = front.length := by
    rw [List.map_congr_left hone, List.map_const', List.sum_replicate]
    simp
  refine (neverBelow_of_nonneg _ fun name hn => ?_).concat last ?_
  · rw [hone name hn]
    decide
  · cases front with
    | nil =>
      rw [segmentLevel_name (hlast rfl).isName]
      decide
    | cons first front =>
      have hge := segmentLevel_ge last
      rw [hsum, List.length_cons]
      omega

theorem geminiFsResolve_walk (hr : geminiFsResolve malloc file = .ok (some r)) :
    r.octets.head? ≠ some slash ∧ NeverBelow segmentLevel (segments r.octets) ∧
      r.length ≤ geminiMaxPath - 1 := by
  cases malloc with
  | false => cases hr
  | true =>
    have he := geminiFsResolve_eq file
    rw [hr] at he
    obtain ⟨names, hp, hn⟩ := resolveTokens_proper .nil
      (fun name hm => component_of_tokens (segments_plain file.octets) hm) he.symm
    have hlen : r.length ≤ geminiMaxPath - 1 := by
      rw [CStr.length, hn, List.length_take]
      exact Nat.min_le_left _ _
    by_cases hne : names = []
    · have hnil : r.octets = [] := by rw [hn, hne, joined_nil, List.take_nil]
      refine ⟨by rw [hnil]; simp, ?_, hlen⟩
      rw [hnil]
      exact neverBelow_of_nonneg _ (by decide)
    · obtain ⟨front, last, hfront, hplain, hlast, hcut⟩ := hp.cut hne
      have hsegs : segments r.octets = front ++ [last] := by
        rw [hn, hcut]
        apply splitOn_joined (by simp)
        intro name hm
        rcases List.mem_append.1 hm with hm | hm
        · exact (hfront name hm).plain
        · rwa [List.mem_singleton.1 hm]
      refine ⟨fun hhead => ?_, by rw [hsegs]; exact neverBelow_names hfront hlast, hlen⟩
      have hfirst := segments_head_slash hhead
      rw [hsegs] at hfirst
      cases front with
      | nil =>
        cases hfirst
        exact (hlast rfl).isName.1 rfl
      | cons first front =>
        cases hfirst
        exact (hfront [] List.mem_cons_self).isName.1 rfl

def trimmed (root : List UInt8) : List UInt8 := root.rdropWhile (· = slash)

theorem stripSlashes_eq {path : Buf n} (h : path.Starts s) :
    stripSlashes path s.length = .ok (trimmed s).length := by
  induction s using List.reverseRecOn with
  | nil => rfl
  | append_singleton s c ih =>
    rw [List.length_append, List.length_singleton, stripSlashes, h.load]
    by_cases hc : c = slash
    · simp only [bind, Except.bind, hc, ↓reduceIte, ih h.left, trimmed, List.rdropWhile_concat,
        decide_true]
    · simp [bind, Except.bind, hc, trimmed]

theorem trimmed_initial (s : List UInt8) : trimmed s <+: s := List.rdropWhile_prefix _ _

theorem fillPath_eq (path : Buf n) (hn : n = s.length + r.length + 2) (hs : 0 ∉ s)
    (hr : 0 ∉ r) :
    ∃ path₁ path₂ path₃ path₄, path.copyIn 0 s = .ok path₁ ∧
      stripSlashes path₁ s.length = .ok (trimmed s).length ∧
      path₁.store (trimmed s).length slash = .ok path₂ ∧
      path₂.copyIn ((trimmed s).length + 1) r = .ok path₃ ∧
      path₃.store ((trimmed s).length + 1 + r.length) 0 = .ok path₄ ∧
      path₄.str = trimmed s ++ slash :: r := by
  have hpre := trimmed_initial s
  have hle := hpre.length_le
  obtain ⟨path₁, hcopy₁, hp₁⟩ := path.starts_nil.copyIn s (by simp; omega)
  rw [List.nil_append] at hp₁
  obtain ⟨path₂, hslash, hp₂⟩ := hp₁.storeAt hle (by omega) slash
  rw [← List.prefix_iff_eq_take.1 hpre] at hp₂
  obtain ⟨path₃, hcopy₂, hp₃⟩ := hp₂.copyIn r (by simp; omega)
  obtain ⟨path₄, hend, hp₄⟩ := hp₃.store (by simp; omega) 0
  have hnul : 0 ∉ trimmed s ++ [slash] ++ r := by
    rw [List.mem_append, List.mem_append, List.mem_singleton]
    intro hparts
    obtain (h | h) | h := hparts
    · exact hs (hpre.subset h)
    · cases h
    · exact hr h
  have hstr := (hp₄.holds hnul).str_eq
  rw [List.length_append, List.length_append, List.length_singleton] at hend
  rw [List.length_append, List.length_singleton] at hcopy₂
  refine ⟨path₁, path₂, path₃, path₄, hcopy₁, stripSlashes_eq hp₁, hslash, hcopy₂, hend, ?_⟩
  rw [hstr, List.append_assoc, List.singleton_append]

/-- What `gemini_fs_path` builds when the lengths of its two parts survive as `int`. -/
theorem geminiFsPath_eq {l1 : Nat} (hr : geminiFsResolve malloc file = .ok (some r))
    (hl1 : intOfSize root.length = l1) (hl2 : r.length ≤ geminiMaxPath - 1)
    (hfit : l1 + r.length + 2 ≤ intMax) (mem : Nat → UInt8) :
    (geminiFsPath malloc (some mem) root file).map (Option.map CStr.octets) =
      .ok (some (trimmed (root.octets.take l1) ++ slash :: r.octets)) := by
  have hroot : l1 ≤ root.octets.length := intOfSize_le hl1
  have htake : (root.octets.take l1).length = l1 := List.length_take_of_le hroot
  have hl2' : intOfSize r.length = r.length :=
    intOfSize_small (hl2.trans (by decide))
  have h1 : intAdd l1 1 = .ok ((l1 + 1 : Nat) : Int) := intAdd_nat (b := 1) (by omega)
  have h2 : intAdd ((l1 + 1 : Nat) : Int) r.length = .ok ((l1 + 1 + r.length : Nat) : Int) :=
    intAdd_nat (by omega)
  have h3 : intAdd ((l1 + 1 + r.length : Nat) : Int) 1 =
      .ok ((l1 + 1 + r.length + 1 : Nat) : Int) := intAdd_nat (b := 1) (by omega)
  have hneg (k : Nat) : ¬ ((k : Int) < 0) := Int.not_lt.2 (Int.natCast_nonneg k)
  simp only [geminiFsPath, hr, bind, Except.bind, hl1, hl2', h1, h2, h3, hneg, ↓reduceIte]
  generalize hn : ((l1 + 1 + r.length + 1 : Nat) : Int).toNat = n
  have hr' : r.octets.take r.length = r.octets := List.take_length
  obtain ⟨path₁, path₂, path₃, path₄, hcopy₁, hstrip, hslash, hcopy₂, hend, hstr⟩ :=
    fillPath_eq (Buf.filled n mem) (s := root.octets.take l1) (r := r.octets)
      (by rw [htake, ← hn, Int.toNat_natCast]; change _ = l1 + r.length + 2; omega)
      (fun h => root.noNul (List.mem_of_mem_take h)) r.noNul
  rw [htake] at hstrip
  change path₃.store ((trimmed (root.octets.take l1)).length + 1 + r.length) 0 = _ at hend
  simp only [Int.toNat_natCast, hcopy₁, hstrip, hslash, hr', hcopy₂, hend, Except.map,
    Option.map, Buf.cstr, hstr]

/-- What resolves does so below the root, and the path built is the root, a slash and that. -/
def Contained (root file : CStr) : Prop :=
  ∀ r, geminiFsResolve true file = .ok (some r) →
    r.octets.head? ≠ some slash ∧ NeverBelow segmentLevel (segments r.octets) ∧
      ∀ mem, (geminiFsPath true (some mem) root file).map (Option.map CStr.octets) =
        .ok (some (trimmed root.octets ++ slash :: r.octets))

/-- The `int` made of the root's length leaves room, and counts all of it but slashes. -/
def RootTakes (root r : CStr) : Prop :=
  0 ≤ intOfSize root.length ∧ intOfSize root.length + r.length + 2 ≤ intMax ∧
    ∀ c ∈ root.octets.drop (intOfSize root.length).toNat, c = slash

/-- It leaves room for the longest one. -/
def RootFits (root : CStr) : Prop :=
  0 ≤ intOfSize root.length ∧ intOfSize root.length + (geminiMaxPath + 1) ≤ intMax ∧
    ∀ c ∈ root.octets.drop (intOfSize root.length).toNat, c = slash

theorem rootFits_of_length {root : CStr} (h : root.length + (geminiMaxPath + 1) ≤ intMax) :
    RootFits root := by
  have hint : intOfSize root.length = root.length := intOfSize_small (by omega)
  rw [RootFits, hint, Int.toNat_natCast]
  refine ⟨Int.natCast_nonneg _, by omega, ?_⟩
  rw [CStr.length, List.drop_length]
  exact List.forall_mem_nil _

theorem trimmed_append_slashes (s : List UInt8) (h : ∀ c ∈ t, c = slash) :
    trimmed (s ++ t) = trimmed s := by
  induction t using List.reverseRecOn with
  | nil => rw [List.append_nil]
  | append_singleton t c ih =>
    have hc : c = slash := h c (by simp)
    rw [← List.append_assoc, trimmed, List.rdropWhile_concat_pos _ _ _ (by simp [hc])]
    exact ih fun d hd => h d (by simp [hd])

theorem slashes_of_trimmed (h : trimmed (s.take l) = trimmed s) : ∀ c ∈ s.drop l, c = slash := by
  have hle : (s.rdropWhile (· = slash)).length ≤ l := by
    rw [← trimmed, ← h]
    exact (trimmed_initial _).length_le.trans (List.length_take_le _ _)
  intro c hc
  rw [← List.rdropWhile_append_rtakeWhile (p := (· = slash)) (l := s), List.drop_append,
    List.drop_of_length_le hle, List.nil_append] at hc
  simpa using List.mem_rtakeWhile_imp (List.mem_of_mem_drop hc)

theorem contained_of_rootTakes
    (h : ∀ r, geminiFsResolve true file = .ok (some r) → RootTakes root r) :
    Contained root file := by
  intro r hr
  obtain ⟨hpos, hroom, htail⟩ := h r hr
  obtain ⟨hhead, hbelow, hlen⟩ := geminiFsResolve_walk hr
  obtain ⟨l1, hl1⟩ := Int.eq_ofNat_of_zero_le hpos
  rw [hl1] at hroom htail
  refine ⟨hhead, hbelow, fun mem => ?_⟩
  rw [geminiFsPath_eq hr hl1 hlen (by omega)]
  have hroot := trimmed_append_slashes (root.octets.take l1) htail
  rw [Int.toNat_natCast, List.take_append_drop] at hroot
  rw [hroot]

theorem contained_of_rootFits (h : RootFits root) (file : CStr) : Contained root file := by
  obtain ⟨hpos, hroom, htail⟩ := h
  apply contained_of_rootTakes
  intro r hr
  obtain ⟨-, -, hlen⟩ := geminiFsResolve_walk hr
  have hmax : geminiMaxPath = 2048 := rfl
  exact ⟨hpos, by omega, htail⟩

theorem resolves_of_tokens {file r : CStr}
    (h : resolveTokens [] (tokens 0 (segments file.octets)) = .ok (some r.octets)) :
    geminiFsResolve true file = .ok (some r) := by
  rw [← geminiFsResolve_eq] at h
  cases hr : geminiFsResolve true file with
  | error fault => rw [hr] at h; cases h
  | ok resolved =>
    rw [hr] at h
    cases resolved with
    | none => cases h
    | some resolved =>
      injection h with h
      injection h with h
      rw [CStr.ext h]

def nowhere : CStr := ⟨[], List.not_mem_nil⟩

theorem nowhere_resolves : geminiFsResolve true nowhere = .ok (some nowhere) :=
  resolves_of_tokens rfl

theorem geminiFsPath_negative (hr : geminiFsResolve malloc file = .ok (some r))
    (hl1 : intOfSize root.length < 0) (mem : Nat → UInt8) :
    geminiFsPath malloc (some mem) root file ≠ .ok (some path) := by
  intro h
  simp only [geminiFsPath, hr, bind, Except.bind] at h
  split at h
  · cases h
  split at h
  · cases h
  split at h
  · cases h
  rw [if_pos hl1] at h
  split at h
  · cases h
  · cases h

theorem geminiFsPath_overflow {l1 : Nat} (hr : geminiFsResolve malloc file = .ok (some r))
    (hl1 : intOfSize root.length = l1) (hl2 : r.length ≤ geminiMaxPath - 1)
    (hfit : intMax < l1 + r.length + 2) (mem : Nat → UInt8) :
    geminiFsPath malloc (some mem) root file = .error .overflow := by
  have hl2' : intOfSize r.length = r.length := intOfSize_small (hl2.trans (by decide))
  have hmax := intOfSize_le_max root.length
  rw [hl1] at hmax
  simp only [geminiFsPath, hr, bind, Except.bind, hl1, hl2']
  rcases Nat.lt_or_ge intMax (l1 + 1) with h1 | h1
  · rw [show intAdd l1 1 = _ from intAdd_overflow (b := 1) h1]
  · rw [show intAdd l1 1 = _ from intAdd_nat (b := 1) h1]
    rcases Nat.lt_or_ge intMax (l1 + 1 + r.length) with h2 | h2
    · simp only [intAdd_overflow h2]
    · have h3 : intMax < l1 + 1 + r.length + 1 := by omega
      simp only [intAdd_nat h2]
      rw [show intAdd (_ : Nat) 1 = _ from intAdd_overflow (b := 1) h3]

theorem rootTakes_of_contained (h : Contained root file)
    (hr : geminiFsResolve true file = .ok (some r)) : RootTakes root r := by
  obtain ⟨-, -, hpath⟩ := h r hr
  obtain ⟨-, -, hlen⟩ := geminiFsResolve_walk hr
  have hpath := hpath fun _ => 0
  have hpos : 0 ≤ intOfSize root.length := by
    apply Int.not_lt.1
    intro hneg
    cases hp : geminiFsPath true (some fun _ => 0) root file with
    | error fault => rw [hp] at hpath; cases hpath
    | ok path =>
      cases path with
      | none => rw [hp] at hpath; cases hpath
      | some path => exact geminiFsPath_negative hr hneg _ hp
  obtain ⟨l1, hl1⟩ := Int.eq_ofNat_of_zero_le hpos
  have hroom : l1 + r.length + 2 ≤ intMax := by
    apply Nat.not_lt.1
    intro hlt
    rw [geminiFsPath_overflow hr hl1 hlen hlt] at hpath
    cases hpath
  refine ⟨hpos, by omega, ?_⟩
  rw [geminiFsPath_eq hr hl1 hlen hroom] at hpath
  injection hpath with hpath
  injection hpath with hpath
  rw [hl1, Int.toNat_natCast]
  exact slashes_of_trimmed (List.append_cancel_right hpath)

/-- A root serves a file faithfully just if the sum of their lengths survives as an `int`. -/
theorem contained_iff_rootTakes (root file : CStr) :
    Contained root file ↔ ∀ r, geminiFsResolve true file = .ok (some r) → RootTakes root r :=
  ⟨fun h _ hr => rootTakes_of_contained h hr, contained_of_rootTakes⟩

/-- A root whose length is no `int`: its low 32 bits are zero. -/
def boundless : CStr := ⟨List.replicate (2 ^ 32) 97, by
  rw [List.mem_replicate]
  decide⟩

theorem not_contained_boundless : ¬ Contained boundless nowhere := by
  intro h
  obtain ⟨-, -, htail⟩ := rootTakes_of_contained h nowhere_resolves
  have hlen : intOfSize boundless.length = 0 := by
    rw [CStr.length, boundless, List.length_replicate]
    rfl
  rw [hlen] at htail
  have hslash := htail 97 (List.mem_replicate.2 ⟨by decide, rfl⟩)
  exact absurd hslash (by decide)

end Geminon
